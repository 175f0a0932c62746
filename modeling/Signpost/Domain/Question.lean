import Signpost.Comms.CommunicationCentre
import Signpost.Solver.Exploration

/-! # Questions for other signposts

A signpost that a resolution is addressed to asks its own solver a question. The
question does not name the signpost any more, so that a truth of any signpost
answers it from the cache.
-/

namespace Signpost

open Machine

/-- The options of `Question.new`. -/
structure QuestionOptions where
  what : String
  userInfo : String
  signpost : Option String := none
  asker : Option String := none
deriving DecidableEq, Repr

/-- The need that a question sends to its solver when it starts. -/
def QuestionOptions.need (options : QuestionOptions) (ipPort : String) : Subscription :=
  ⟨options.what, ipPort, options.signpost.getD "ANY", options.userInfo,
    options.asker.getD "question"⟩

/-- The question of `resolve`, about a name and for a user. -/
def CommunicationCentre.resolve (asked : String × String) : QuestionOptions :=
  { what := asked.1, userInfo := asked.2 }

variable {α δ : Type}

open Solver

/-- The signpost that is addressed holds an unexpired truth of its own. -/
def OwnTruth (state : Solver.State α) (now : Int) (query : ResolveQuery) : Prop :=
  ∃ row ∈ state.truths, row.what = query.what ∧ Visible row.userInfo query.userInfo ∧
    ttlIsValid now row = true ∧ row.signpost = query.signpost

/-- It holds an unexpired truth of another signpost. -/
def ForeignTruth (state : Solver.State α) (now : Int) (query : ResolveQuery) : Prop :=
  ∃ row ∈ state.truths, row.what = query.what ∧ Visible row.userInfo query.userInfo ∧
    ttlIsValid now row = true ∧ row.signpost ≠ query.signpost

/-- A resolution yields a truth of the addressed signpost: it has one already, or
it explores its tactics for the need of the question. -/
def YieldsOwnTruth (state : Solver.State α) (now : Int) (query : ResolveQuery)
    (need : Subscription) (output : Solver.Output α) : Prop :=
  OwnTruth state now query ∨
    (need, .exploreTruthSpaceFor query.what query.userInfo) ∈ output.explorations

/-- The question is answered from the cache by the truths of all signposts. -/
theorem cacheAnswers_question {state : Solver.State α} {now : Int} {query : ResolveQuery}
    {ipPort : String} :
    CacheAnswers state now
        ((CommunicationCentre.resolve (query.what, query.userInfo)).need ipPort) ↔
      OwnTruth state now query ∨ ForeignTruth state now query := by
  rw [cacheAnswers_iff]
  constructor
  · rintro ⟨row, hrow, hwhat, ⟨hvisible, hvalid⟩, _⟩
    by_cases hsignpost : row.signpost = query.signpost
    · exact Or.inl ⟨row, hrow, hwhat, hvisible, hvalid, hsignpost⟩
    · exact Or.inr ⟨row, hrow, hwhat, hvisible, hvalid, hsignpost⟩
  · rintro (⟨row, hrow, hwhat, hvisible, hvalid, _⟩ | ⟨row, hrow, hwhat, hvisible, hvalid, _⟩)
    · exact ⟨row, hrow, hwhat, ⟨hvisible, hvalid⟩, Or.inl rfl⟩
    · exact ⟨row, hrow, hwhat, ⟨hvisible, hvalid⟩, Or.inl rfl⟩

variable [DecidableEq δ] {digest : Data α → δ} {centre : CommunicationCentre δ} {time : Int}
  {exportable : List (Provision α)} {channel : String} {data : Data α} {query : ResolveQuery}
  {asked : String × String}

/-- Only the signpost that a resolution is addressed to asks its question. -/
theorem asked_of_receive (hquery : data.resolve = some query)
    (hasked : asked ∈ (centre.receive digest time exportable channel data).2.questions) :
    query.signpost = centre.name ∧ asked = (query.what, query.userInfo) := by
  unfold CommunicationCentre.receive at hasked
  split at hasked
  next =>
    simp only [hquery, Option.elim_some] at hasked
    split at hasked
    next hname => exact ⟨hname, List.mem_singleton.mp hasked⟩
    next => cases hasked
  next => cases hasked

/-- A resolution yields a truth of the addressed signpost exactly when that
signpost does not hold truths of others only. -/
theorem yieldsOwnTruth_iff [DecidableEq α] (hquery : data.resolve = some query)
    (hasked : asked ∈ (centre.receive digest time exportable channel data).2.questions)
    {state next : Solver.State α} {batch : Batch α} {output : Solver.Output α} {ipPort : String}
    (hneed : (CommunicationCentre.resolve asked).need ipPort ∈ batch.needTruth)
    (hstep : timestep centre.name state batch = .ok (next, output)) :
    YieldsOwnTruth state batch.now query ((CommunicationCentre.resolve asked).need ipPort) output ↔
      (ForeignTruth state batch.now query → OwnTruth state batch.now query) := by
  obtain ⟨_, rfl⟩ := asked_of_receive hquery hasked
  obtain ⟨hanswered, hunanswered⟩ := callsOf_explorations hstep hneed
  rw [cacheAnswers_question] at hanswered hunanswered
  constructor
  · rintro (hown | hexplores) hforeign
    · exact hown
    · have hcall : _ ∈ callsOf ((CommunicationCentre.resolve (query.what, query.userInfo)).need
          ipPort) output.explorations := List.mem_filter.mpr ⟨hexplores, decide_eq_true rfl⟩
      rw [hanswered (Or.inr hforeign)] at hcall
      cases hcall
  · intro hcached
    by_cases hown : OwnTruth state batch.now query
    · exact Or.inl hown
    · have hcalls := hunanswered fun h => hown (h.elim id hcached)
      right
      -- the question asks for any signpost, so the exploration is local
      have hcall : ((CommunicationCentre.resolve (query.what, query.userInfo)).need ipPort,
          Exploration.exploreTruthSpaceFor query.what query.userInfo) ∈
          callsOf ((CommunicationCentre.resolve (query.what, query.userInfo)).need ipPort)
            output.explorations := by
        rw [hcalls]
        simp [explorationFor, QuestionOptions.need, CommunicationCentre.resolve]
      exact (List.mem_filter.mp hcall).1

/-! ## A truth of another signpost in the cache -/

/-- Alpha has received what beta believes, before gamma asks what alpha believes. -/
def cachedBatches : List (Batch String) :=
  [{ provideTruthFromExternal :=
      [⟨"ip_for_domain@kle.io", "dns", "GLOBAL", "beta", "10.0.0.2", some 300⟩]
     now := 10 }]

def alphaQuery : ResolveQuery := ⟨"ip_for_domain@kle.io", "carol", "alpha"⟩

def alphaData : Data String := { resolve := some alphaQuery }

def alphaCentre : CommunicationCentre (Data String) := ⟨"alpha", [], fun _ => none⟩

def alphaQuestion : Batch String where
  needTruth := [⟨"ip_for_domain@kle.io", "127.0.0.1:4000", "ANY", "carol", "question"⟩]
  now := 20

def alphaStarted : Solver.State String := initial ⟨"alpha", "probsteide.com", id⟩ 0

def alphaCached : Solver.State String := final (timestep "alpha") alphaStarted cachedBatches

theorem yieldsOwnTruth_iff_started : ∃ next output,
    timestep "alpha" alphaStarted alphaQuestion = .ok (next, output) ∧
      (YieldsOwnTruth alphaStarted 20 alphaQuery
          ⟨"ip_for_domain@kle.io", "127.0.0.1:4000", "ANY", "carol", "question"⟩ output ↔
        (ForeignTruth alphaStarted 20 alphaQuery → OwnTruth alphaStarted 20 alphaQuery)) := by
  obtain ⟨next, output, hstep⟩ : ∃ next output,
      timestep "alpha" alphaStarted alphaQuestion = .ok (next, output) := ⟨_, _, rfl⟩
  have hasked : ("ip_for_domain@kle.io", "carol") ∈
      (alphaCentre.receive id 20 [] "gamma" alphaData).2.questions := by decide
  have hneed : (CommunicationCentre.resolve ("ip_for_domain@kle.io", "carol")).need
      "127.0.0.1:4000" ∈ alphaQuestion.needTruth := by decide
  have hquery : alphaData.resolve = some alphaQuery := rfl
  exact ⟨next, output, hstep, yieldsOwnTruth_iff hquery hasked hneed hstep⟩

theorem not_yieldsOwnTruth_cached :
    ¬ ∀ (centre : CommunicationCentre (Data String)) (time : Int) (channel : String)
        (data : Data String) (query : ResolveQuery) (asked : String × String),
      data.resolve = some query →
      asked ∈ (centre.receive id time [] channel data).2.questions →
      ∀ (state next : Solver.State String) (batch : Batch String) (output : Solver.Output String)
        (ipPort : String),
      (CommunicationCentre.resolve asked).need ipPort ∈ batch.needTruth →
      timestep centre.name state batch = .ok (next, output) →
      YieldsOwnTruth state batch.now query ((CommunicationCentre.resolve asked).need ipPort)
        output := by
  intro hclaim
  obtain ⟨next, output, hstep, hexplorations⟩ : ∃ next output,
      timestep "alpha" alphaCached alphaQuestion = .ok (next, output) ∧
        output.explorations = [] := ⟨_, _, rfl, by decide⟩
  have hyields := hclaim alphaCentre 20 "gamma" alphaData alphaQuery
    ("ip_for_domain@kle.io", "carol") rfl (by decide) alphaCached next alphaQuestion output
    "127.0.0.1:4000" (by decide) hstep
  rcases hyields with ⟨row, hrow, hwhat, _, _, hsignpost⟩ | hexplores
  · have hbeta : ∀ row ∈ alphaCached.truths.rows, row.what = "ip_for_domain@kle.io" →
        row.signpost = "beta" := by decide
    exact absurd ((hbeta row hrow hwhat).symm.trans hsignpost) (by decide)
  · rw [hexplorations] at hexplores
    cases hexplores

end Signpost

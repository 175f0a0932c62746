import Signpost.Solver.Timestep

/-! # When a need starts work

A need makes somebody generate a truth exactly when the cache cannot answer it.
The solver decides this by searching the answers produced for all needs of the
timestep, so an answer for another requester is found too; such an answer
always comes from a row that answers the need itself.
-/

namespace Signpost.Solver

open Bloom Machine

variable {α : Type}

/-- An answer found for a need comes from a row that answers the need, whoever
it was produced for; conversely such a row produces an answer for the need. -/
theorem exists_isAnswerFor_iff {now : Int} {truths : List (TruthRow α)}
    {needs : List Subscription} {need : Subscription} (hneed : need ∈ needs) :
    (∃ answer ∈ satisfiableTruthNeeds now truths needs, IsAnswerFor answer need) ↔
      ∃ row ∈ truths, Answers now row need := by
  constructor
  · rintro ⟨answer, hanswer, hwhat, huser, hsignpost⟩
    obtain ⟨row, hrow, other, _, ⟨hother, ⟨hvisible, hvalid⟩, _⟩, rfl⟩ :=
      mem_satisfiableTruthNeeds.mp hanswer
    refine ⟨row, hrow, hwhat, ⟨?_, hvalid⟩, hsignpost.imp_right Eq.symm⟩
    -- The answer may be for another requester of the same user, or for a
    -- requester whose user is "GLOBAL" and who therefore sees global rows only.
    rcases huser with huser | huser
    · exact hvisible.imp_right fun heq => heq.trans huser
    · exact Or.inl (hvisible.elim id fun heq => heq.trans huser)
  · rintro ⟨row, hrow, hanswers⟩
    exact ⟨satisfiableTruthNeed row need,
      mem_satisfiableTruthNeeds.mpr ⟨row, hrow, need, hneed, hanswers, rfl⟩,
      hanswers.1, Or.inl rfl, hanswers.2.2.imp_right Eq.symm⟩

/-- The calls that one need makes: each rule body runs once per tuple. -/
def callsOf (need : Subscription) (explorations : List (Subscription × Exploration)) :
    List (Subscription × Exploration) :=
  explorations.filter (fun call => call.1 = need)

theorem callsOf_devNull1 {name : String} {satisfiable : List (SatisfiableNeed α)}
    {needs : List Subscription} (hnodup : needs.Nodup) (need : Subscription) :
    callsOf need (devNull1 name satisfiable needs) =
      if need ∈ needs then (devNull1Call name satisfiable need).toList else [] := by
  induction needs with
  | nil => rfl
  | cons head rest ih =>
      obtain ⟨hhead, hrest⟩ := List.nodup_cons.mp hnodup
      replace ih := ih hrest
      unfold callsOf devNull1 at ih ⊢
      have horigin : ∀ call, devNull1Call name satisfiable head = some call → call.1 = head := by
        intro call hcall
        unfold devNull1Call at hcall
        split at hcall
        next => cases hcall
        next => exact (congrArg Prod.fst (Option.some.inj hcall)).symm
      -- the body runs once for each tuple, and no tuple occurs twice
      by_cases heq : need = head
      · subst heq
        rw [if_neg hhead] at ih
        cases hcall : devNull1Call name satisfiable need with
        | none => simp [hcall, ih]
        | some call => simp [hcall, ih, horigin call hcall]
      · have hmem : need ∈ head :: rest ↔ need ∈ rest := by simp [heq]
        simp only [hmem, ← ih]
        cases hcall : devNull1Call name satisfiable head with
        | none => simp [hcall]
        | some call => simp [hcall, horigin call hcall, Ne.symm heq]

/-- The row answers the need, in the words of the cache rule. -/
theorem answers_iff {now : Int} {row : TruthRow α} {need : Subscription} :
    Answers now row need ↔ row.what = need.what ∧
      (row.userInfo = "GLOBAL" ∨ row.userInfo = need.userInfo) ∧
      (∃ ttl expires, row.ttlState = .cacheable ttl expires ∧ now < expires) ∧
      (need.signpost = "ANY" ∨ need.signpost = row.signpost) := by
  have hvalid : ttlIsValid now row = true ↔
      ∃ ttl expires, row.ttlState = .cacheable ttl expires ∧ now < expires := by
    unfold ttlIsValid
    cases row.ttlState <;> simp
  rw [Answers, Visible, AcceptsSignpost, hvalid, and_assoc]

/-- Some row of the truth table can answer the need at this time. -/
def CacheAnswers (state : State α) (now : Int) (need : Subscription) : Prop :=
  ∃ row ∈ state.truths, row.what = need.what ∧
    (row.userInfo = "GLOBAL" ∨ row.userInfo = need.userInfo) ∧
    (∃ ttl expires, row.ttlState = .cacheable ttl expires ∧ now < expires) ∧
    (need.signpost = "ANY" ∨ need.signpost = row.signpost)

theorem cacheAnswers_iff {state : State α} {now : Int} {need : Subscription} :
    CacheAnswers state now need ↔ ∃ row ∈ state.truths, Answers now row need := by
  simp only [CacheAnswers, ← answers_iff]

variable [DecidableEq α]

/-- One need makes its call exactly when no row of the table answers it. -/
theorem callsOf_explorations {name : String} {state next : State α} {batch : Batch α}
    {output : Output α} (hstep : timestep name state batch = .ok (next, output))
    {need : Subscription} (hneed : need ∈ batch.needTruth) :
    (CacheAnswers state batch.now need → callsOf need output.explorations = []) ∧
    (¬ CacheAnswers state batch.now need →
      callsOf need output.explorations = [(need, explorationFor name need)]) := by
  have hcalls : callsOf need output.explorations =
      if ∃ row ∈ state.truths, Answers batch.now row need then []
      else [(need, explorationFor name need)] := by
    rw [(fires_of_timestep hstep).explorations_eq, callsOf_devNull1 (List.nodup_dedup _),
      if_pos (List.mem_dedup.mpr hneed), devNull1Call]
    simp only [exists_isAnswerFor_iff hneed, Collection.mem_rows]
    split <;> rfl
  rw [cacheAnswers_iff]
  exact ⟨fun hsome => hcalls.trans (if_pos hsome), fun hnone => hcalls.trans (if_neg hnone)⟩

/-- A need starts exactly one exploration, local or remote, if and only if the
cache cannot answer it. Which other needs arrive in the timestep makes no
difference. -/
theorem exploration_iff_not_cacheAnswers {name : String} {state next : State α} {batch : Batch α}
    {output : Output α} (hstep : timestep name state batch = .ok (next, output))
    {need : Subscription} (hneed : need ∈ batch.needTruth) :
    (callsOf need output.explorations =
        [(need, if need.signpost = name ∨ need.signpost = "ANY" then
            .exploreTruthSpaceFor need.what need.userInfo
          else .remoteResolve need.what need.userInfo need.signpost)] ↔
      ¬ CacheAnswers state batch.now need) ∧
    (callsOf need output.explorations = [] ↔ CacheAnswers state batch.now need) ∧
    ∀ (other : Batch α) (otherNext : State α) (otherOutput : Output α),
      other.now = batch.now → need ∈ other.needTruth →
      timestep name state other = .ok (otherNext, otherOutput) →
      callsOf need otherOutput.explorations = callsOf need output.explorations := by
  obtain ⟨hanswered, hunanswered⟩ := callsOf_explorations hstep hneed
  refine ⟨⟨fun hcall hcache => ?_, hunanswered⟩, ⟨fun hcall => ?_, hanswered⟩, ?_⟩
  · rw [hanswered hcache] at hcall
    cases hcall
  · by_contra hcache
    rw [hunanswered hcache] at hcall
    cases hcall
  · intro other otherNext otherOutput hnow hother hotherStep
    obtain ⟨hotherAnswered, hotherUnanswered⟩ := callsOf_explorations hotherStep hother
    rw [hnow] at hotherAnswered hotherUnanswered
    by_cases hcache : CacheAnswers state batch.now need
    · rw [hanswered hcache, hotherAnswered hcache]
    · rw [hunanswered hcache, hotherUnanswered hcache]

/-- Two needs of one timestep: the authentication URL is cached, the address is
not and has to come from another signpost. -/
def twoNeeds : Batch String where
  needTruth := [⟨"web_auth_url@alpha", "127.0.0.1:4000", "ANY", "carol", "web_auth"⟩,
    ⟨"ip_for_domain@kle.io", "127.0.0.1:4001", "beta", "carol", "ping"⟩]
  now := 5

theorem exploration_iff_not_cacheAnswers_twoNeeds :
    ∃ next output, timestep "alpha" (initial ⟨"alpha", "probsteide.com", id⟩ 0) twoNeeds =
        .ok (next, output) ∧
      callsOf ⟨"ip_for_domain@kle.io", "127.0.0.1:4001", "beta", "carol", "ping"⟩
          output.explorations =
        [(⟨"ip_for_domain@kle.io", "127.0.0.1:4001", "beta", "carol", "ping"⟩,
          .remoteResolve "ip_for_domain@kle.io" "carol" "beta")] := by
  have hcache : ¬ CacheAnswers (initial ⟨"alpha", "probsteide.com", id⟩ 0) twoNeeds.now
      ⟨"ip_for_domain@kle.io", "127.0.0.1:4001", "beta", "carol", "ping"⟩ := by
    rw [cacheAnswers_iff]
    simp only [← Collection.mem_rows]
    decide
  have hneed : (⟨"ip_for_domain@kle.io", "127.0.0.1:4001", "beta", "carol", "ping"⟩ :
      Subscription) ∈ twoNeeds.needTruth := by decide
  obtain ⟨next, output, hstep⟩ : ∃ next output, timestep "alpha"
      (initial ⟨"alpha", "probsteide.com", id⟩ 0) twoNeeds = .ok (next, output) := ⟨_, _, rfl⟩
  exact ⟨next, output, hstep, (exploration_iff_not_cacheAnswers hstep hneed).1.mpr hcache⟩

end Signpost.Solver

import Signpost.Solver.Timestep

/-! # Unsubscription

A tactic or question that terminates asks for its subscriptions to be removed.
The removal joins the rows that are in the table at that time, and the needs
and observations of the same timestep are only inserted after it.
-/

namespace Signpost.Solver

open Bloom Machine

variable {α : Type}

/-- The address leaves in one timestep, after all of its needs and observations
have been sent. -/
structure Leaves (who : String) (earlier : List (Step α)) (leaving : Step α)
    (later : List (Step α)) : Prop where
  removed : who ∈ leaving.input.removeSubscriptions
  once : ∀ step ∈ earlier ++ later, who ∉ step.input.removeSubscriptions
  last : ∀ step ∈ later, ∀ interest ∈ step.input.interests, interest.who ≠ who

/-- The same messages, but for the removal of one address. -/
def Batch.withoutRemoval (who : String) (batch : Batch α) : Batch α :=
  { batch with removeSubscriptions := batch.removeSubscriptions.filter fun other => other ≠ who }

/-- Two states with the same truths, and with the same subscribers other than
one address. -/
structure SameOthers (who : String) (left right : State α) : Prop where
  truths : left.truths = right.truths
  subscribers : ∀ subscriber, subscriber.who ≠ who →
    (subscriber ∈ left.truthSubscribers ↔ subscriber ∈ right.truthSubscribers)

variable [DecidableEq α]

/-- The table has no row of the address, and the rows of all others as in the
run without its removal. -/
structure Unsubscribed (config : Config α) (start : Int) (who : String) (steps : List (Step α))
    (state : State α) : Prop where
  gone : ∀ subscriber ∈ state.truthSubscribers, subscriber.who ≠ who
  others : ∃ unremoved other, SolverRun config start unremoved other ∧
    unremoved.map (fun step => step.input) =
      steps.map (fun step => step.input.withoutRemoval who) ∧
    SameOthers who state other

/-! ## The run without the removal -/

/-- A timestep reads the table of subscribers only for its pushes, and the
removals only to delete from that table. -/
theorem SameOthers.timestep {who name : String} {left right next : State α} {batch : Batch α}
    {output : Output α} (hsame : SameOthers who left right)
    (hstep : timestep name left batch = .ok (next, output)) :
    ∃ other sent, timestep name right (batch.withoutRemoval who) = .ok (other, sent) ∧
      SameOthers who next other := by
  have hscratches : deriveScratches right (batch.withoutRemoval who) =
      deriveScratches left batch := by
    simp only [deriveScratches, hsame.truths]
    rfl
  have hleft := fires_of_timestep hstep
  simp only [Solver.timestep, bind_eq_ok] at hstep
  obtain ⟨scratches, hderived, stored, hstored, storable, hstorable, updates, hupdates,
    hresult⟩ := hstep
  obtain ⟨rfl, rfl⟩ := Prod.mk.inj (Except.ok.inj hresult)
  obtain ⟨⟨other, sent⟩, hother, htruths⟩ : ∃ result,
      Solver.timestep name right (batch.withoutRemoval who) = .ok result ∧
        result.1.truths = right.truths.settle
          (garbageCollected batch.now batch.garbageCollectionTimer right.truths.rows) updates := by
    simp only [Solver.timestep, bind_eq_ok, hscratches]
    exact ⟨_, ⟨scratches, hderived, stored, hstored, storable, hstorable, updates, hupdates, rfl⟩,
      rfl⟩
  have hright := fires_of_timestep hother
  refine ⟨other, sent, hother, ?_, ?_⟩
  · rw [htruths, hsame.truths]
  · intro subscriber hne
    rw [hleft.mem_truthSubscribers, hright.mem_truthSubscribers, hsame.subscribers subscriber hne]
    simp [Batch.withoutRemoval, Batch.interests, hne]

/-- Every run has a run without the removal next to it. -/
theorem exists_run_withoutRemoval {config : Config α} {start : Int} {steps : List (Step α)}
    {state : State α} (hrun : SolverRun config start steps state) (who : String) :
    ∃ unremoved other, SolverRun config start unremoved other ∧
      unremoved.map (fun step => step.input) =
        steps.map (fun step => step.input.withoutRemoval who) ∧
      SameOthers who state other := by
  induction hrun with
  | start => exact ⟨[], _, .start, rfl, rfl, fun _ _ => Iff.rfl⟩
  | @extend steps state next batch output prior hstep ih =>
      obtain ⟨unremoved, other, hrun, hinputs, hsame⟩ := ih
      obtain ⟨later, sent, hlater, hnext⟩ := hsame.timestep hstep
      refine ⟨_, later, .extend hrun hlater, ?_, hnext⟩
      simp [hinputs]

/-! ## The rows of the address -/

/-- After it has left, the address has the rows of its needs and observations of
that very timestep, and they stay. -/
theorem mem_truthSubscribers_of_leaves {config : Config α} {start : Int}
    {earlier later : List (Step α)} {leaving : Step α} {state : State α}
    (hrun : SolverRun config start (earlier ++ leaving :: later) state) {who : String}
    (hleaves : Leaves who earlier leaving later) {subscriber : Subscription}
    (hwho : subscriber.who = who) :
    subscriber ∈ state.truthSubscribers ↔ subscriber ∈ leaving.input.interests := by
  apply Run.onward (P := fun state => subscriber ∈ state.truthSubscribers ↔
    subscriber ∈ leaving.input.interests) hrun
  · have hleaving : leaving ∈ earlier ++ leaving :: later := by simp
    rw [(hrun.fires hleaving).mem_truthSubscribers, hwho]
    simp [hleaves.removed]
  · intro step hstep hbefore
    have hmem : step ∈ earlier ++ leaving :: later := by simp [hstep]
    rw [(hrun.fires hmem).mem_truthSubscribers, ← hbefore, hwho]
    have hquiet := hleaves.last step hstep
    have hkept := hleaves.once step (List.mem_append_right _ hstep)
    constructor
    · rintro (hinterest | hold)
      · exact absurd hwho (hquiet subscriber hinterest)
      · exact hold.1
    · intro hold
      refine Or.inr ⟨hold, hkept, fun interest hinterest hkey => ?_⟩
      -- an interest with the key of the row would be one of the address
      exact hquiet interest hinterest ((congrArg SubscriptionKey.who hkey).trans hwho)

/-- Unsubscription is complete exactly when the removal does not share its
timestep with a need or an observation of the address. -/
theorem unsubscribed_iff {config : Config α} {start : Int} {earlier later : List (Step α)}
    {leaving : Step α} {state : State α}
    (hrun : SolverRun config start (earlier ++ leaving :: later) state) {who : String}
    (hleaves : Leaves who earlier leaving later) :
    Unsubscribed config start who (earlier ++ leaving :: later) state ↔
      ∀ interest ∈ leaving.input.interests, interest.who ≠ who := by
  constructor
  · intro hunsubscribed interest hinterest hwho
    have hrow := (mem_truthSubscribers_of_leaves hrun hleaves hwho).mpr hinterest
    exact hunsubscribed.gone interest hrow hwho
  · intro halone
    refine ⟨fun subscriber hsubscriber hwho => ?_, exists_run_withoutRemoval hrun who⟩
    have hinterest := (mem_truthSubscribers_of_leaves hrun hleaves hwho).mp hsubscriber
    exact halone subscriber hinterest hwho

/-! ## A need and the removal in one timestep -/

/-- A question asks and is terminated before the solver ticks. -/
def hastyBatches : List (Batch String) :=
  [{ needTruth := [⟨"ip_for_domain@kle.io", "127.0.0.1:4000", "ANY", "carol", "question"⟩]
     removeSubscriptions := ["127.0.0.1:4000"]
     now := 10 }]

def hastySteps : List (Step String) :=
  record (timestep "alpha") (initial ⟨"alpha", "probsteide.com", id⟩ 0) hastyBatches

def hastyFinal : State String :=
  final (timestep "alpha") (initial ⟨"alpha", "probsteide.com", id⟩ 0) hastyBatches

theorem leaves_hasty : Leaves "127.0.0.1:4000" [] (hastySteps.get ⟨0, by decide⟩) [] := by
  constructor
  case removed => decide
  case once => exact fun _ hmem => absurd hmem List.not_mem_nil
  case last => exact fun _ hmem => absurd hmem List.not_mem_nil

theorem unsubscribed_iff_hasty :
    Unsubscribed ⟨"alpha", "probsteide.com", id⟩ 0 "127.0.0.1:4000" hastySteps hastyFinal ↔
      ∀ interest ∈ (hastySteps.get ⟨0, by decide⟩).input.interests,
        interest.who ≠ "127.0.0.1:4000" :=
  unsubscribed_iff (run_record _ (initial ⟨"alpha", "probsteide.com", id⟩ 0) hastyBatches)
    leaves_hasty

theorem not_unsubscribed_hasty :
    ¬ ∀ (config : Config String) (start : Int) (earlier later : List (Step String))
      (leaving : Step String) (state : State String) (who : String),
      SolverRun config start (earlier ++ leaving :: later) state →
        Leaves who earlier leaving later →
          Unsubscribed config start who (earlier ++ leaving :: later) state := by
  intro hclaim
  have hunsubscribed := hclaim ⟨"alpha", "probsteide.com", id⟩ 0 [] []
    (hastySteps.get ⟨0, by decide⟩) hastyFinal "127.0.0.1:4000"
    (run_record _ (initial ⟨"alpha", "probsteide.com", id⟩ 0) hastyBatches) leaves_hasty
  exact hunsubscribed.gone
    ⟨"ip_for_domain@kle.io", "127.0.0.1:4000", "ANY", "carol", "question"⟩ (by decide) rfl

end Signpost.Solver

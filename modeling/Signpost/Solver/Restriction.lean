import Signpost.Solver.Timestep

/-! # Restriction to a signpost

A need or an observation may ask for truths of one signpost only. The cache
answer and the push to `RESOURCE@ANY` test the signpost of the truth, the push
to the exact name tests the user instead.
-/

namespace Signpost.Solver

open Machine

variable {α : Type}

/-- The truth falls under the name that is asked for, or under its resource at
`ANY`. -/
def Concerns (interest : Subscription) (fact : Fact α) : Prop :=
  interest.what = fact.what ∨ interest.what = alternativeWhat fact.what

/-- The subscriptions that a timestep starts with, and the needs that arrive
in it. -/
def InForce (step : Step α) (interest : Subscription) : Prop :=
  interest ∈ step.before.truthSubscribers ∨ interest ∈ step.input.needTruth

/-- The sender of the interest may be sent the truth by its signpost. -/
structure Entitles (interest : Subscription) (who : String) (fact : Fact α) : Prop where
  who : interest.who = who
  concerns : Concerns interest fact
  accepts : AcceptsSignpost interest.signpost fact.signpost

/-- Whoever is sent a truth has asked for it under its name, and from any
signpost or from the truth's own. -/
def SignpostsHonoured (steps : List (Step α)) : Prop :=
  ∀ step ∈ steps, ∀ who fact, (who, fact) ∈ step.output.neededTruth →
    ∃ interest, InForce step interest ∧ Entitles interest who fact

/-- Whenever a truth is provided, everybody who is subscribed to its exact name
and may see it also accepts its signpost, in this or another interest. -/
def SubscribersAccept (steps : List (Step α)) : Prop :=
  ∀ step ∈ steps, ∀ row ∈ step.input.provided, ∀ subscriber ∈ step.before.truthSubscribers,
    row.what = subscriber.what → Visible row.userInfo subscriber.userInfo →
      ∃ interest, InForce step interest ∧ Entitles interest subscriber.who row.fact

variable [DecidableEq α]

/-- Restrictions to a signpost are honoured exactly in the runs in which no
truth is pushed to an exact name whose subscriber refuses its signpost. -/
theorem signpostsHonoured_iff {config : Config α} {start : Int} {steps : List (Step α)}
    {state : State α} (hrun : SolverRun config start steps state) :
    SignpostsHonoured steps ↔ SubscribersAccept steps := by
  constructor
  · intro hhonoured step hstep row hrow subscriber hsubscriber hwhat hvisible
    apply hhonoured step hstep subscriber.who row.fact
    apply List.mem_append_right
    apply List.mem_append_left
    apply ((hrun.fires hstep).mem_pushed subscriber.who row.fact).mpr
    exact ⟨row, hrow, subscriber, hsubscriber, hwhat, hvisible, rfl, rfl⟩
  · intro haccept step hstep who fact hsent
    have hfires := hrun.fires hstep
    rcases List.mem_append.mp hsent with hanswered | hsent
    · obtain ⟨row, _, need, hneed, hanswers, rfl, rfl⟩ :=
        (hfires.mem_answered who fact).mp hanswered
      exact ⟨need, Or.inr hneed, rfl, Or.inl hanswers.1.symm, hanswers.2.2⟩
    rcases List.mem_append.mp hsent with hpushed | hpushed
    · -- the only rule that does not look at the signpost
      obtain ⟨row, hrow, subscriber, hsubscriber, hwhat, hvisible, rfl, rfl⟩ :=
        (hfires.mem_pushed who fact).mp hpushed
      exact haccept step hstep row hrow subscriber hsubscriber hwhat hvisible
    · obtain ⟨row, _, subscriber, hsubscriber, hwhat, haccepts, rfl, rfl⟩ :=
        (hfires.mem_pushedAny who fact).mp hpushed
      exact ⟨subscriber, Or.inl hsubscriber, rfl, Or.inr hwhat, haccepts⟩

/-! ## An observer of one signpost -/

/-- A tactic observes what beta believes, and alpha provides its own belief. -/
def elsewhereBatches : List (Batch String) :=
  [{ observeTruth := [⟨"ip_for_domain@kle.io", "127.0.0.1:4000", "beta", "carol", "ping"⟩]
     now := 10 },
    { provideTruth := [⟨"ip_for_domain@kle.io", "dns", "GLOBAL", "alpha", "10.0.0.1", some 300⟩]
      now := 20 }]

def elsewhereSteps : List (Step String) :=
  record (timestep "alpha") (initial ⟨"alpha", "probsteide.com", id⟩ 0) elsewhereBatches

theorem signpostsHonoured_iff_elsewhere : elsewhereSteps.length = 2 ∧
    (SignpostsHonoured elsewhereSteps ↔ SubscribersAccept elsewhereSteps) :=
  ⟨by decide, signpostsHonoured_iff
    (run_record _ (initial ⟨"alpha", "probsteide.com", id⟩ 0) elsewhereBatches)⟩

theorem not_signpostsHonoured_elsewhere :
    ¬ ∀ (config : Config String) (start : Int) (steps : List (Step String)) (state : State String),
      SolverRun config start steps state → SignpostsHonoured steps := by
  intro hclaim
  have hhonoured := hclaim ⟨"alpha", "probsteide.com", id⟩ 0 elsewhereSteps _
    (run_record _ _ elsewhereBatches)
  obtain ⟨interest, hforce, hentitles⟩ := hhonoured (elsewhereSteps.get ⟨1, by decide⟩)
    (List.get_mem _ _) "127.0.0.1:4000"
    ⟨"ip_for_domain@kle.io", "dns", "GLOBAL", "alpha", "10.0.0.1"⟩ (by decide)
  have hsubscribers : ∀ subscriber ∈
      (elsewhereSteps.get ⟨1, by decide⟩).before.truthSubscribers.rows ++
        (elsewhereSteps.get ⟨1, by decide⟩).input.needTruth,
      subscriber.signpost = "beta" := by decide
  have hbeta := hsubscribers interest (List.mem_append.mpr hforce)
  have haccepts := hentitles.accepts
  rw [hbeta] at haccepts
  exact absurd haccepts (by decide)

end Signpost.Solver

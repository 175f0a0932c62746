import Signpost.Solver.Timestep
import Signpost.Tactic.Tactic

/-! # Isolation of users

A truth provided for one user must not reach another user's tactics. The cache
answer and the push to the exact name test the user; the push to
`RESOURCE@ANY` is meant for daemons, but neither it nor the registration of
such a subscription tests who subscribes.
-/

namespace Signpost.Solver

open Bloom Machine

variable {α : Type}

/-- Every need and observation carries the user of the tactic or question at
its address. -/
def OwnUsers (userOf : String → String) (batch : Batch α) : Prop :=
  ∀ interest ∈ batch.interests, interest.userInfo = userOf interest.who

instance (userOf : String → String) (batch : Batch α) : Decidable (OwnUsers userOf batch) :=
  inferInstanceAs
    (Decidable (∀ interest ∈ batch.interests, interest.userInfo = userOf interest.who))

/-- The messages of a tactic satisfy this by construction. -/
theorem ownUsers_of_dealWith {userOf : String → String} {batch : Batch α}
    (hsent : ∀ interest ∈ batch.interests, ∃ (tactic : Tactic) (data : ScriptData α),
      userOf tactic.ipPort = tactic.userInfo ∧
        interest ∈ (tactic.dealWith data).filterMap Tactic.interestOf) :
    OwnUsers userOf batch := by
  intro interest hinterest
  obtain ⟨tactic, data, huser, hmem⟩ := hsent interest hinterest
  obtain ⟨message, hmessage, hrow⟩ := List.mem_filterMap.mp hmem
  obtain ⟨hwho, hinfo⟩ := tactic.interest_of_dealWith data hmessage hrow
  rw [hwho, hinfo, huser]

/-- In this run every truth that is not global is sent only to requesters and
subscribers of its own user, or to daemons. -/
def UsersIsolated (userOf : String → String) (steps : List (Step α)) : Prop :=
  ∀ step ∈ steps, ∀ who fact, (who, fact) ∈ step.output.neededTruth →
    fact.userInfo ≠ "GLOBAL" → userOf who = fact.userInfo ∨ userOf who = "DAEMON"

/-- Whenever a truth that is not global is provided, the subscribers registered
for its resource under `ANY`, with a signpost that accepts it, are daemons or
of its own user. -/
def AnySubscribersEntitled (steps : List (Step α)) : Prop :=
  ∀ step ∈ steps, ∀ row ∈ step.input.provided, row.userInfo ≠ "GLOBAL" →
    ∀ subscriber ∈ step.before.truthSubscribers,
      subscriber.what = alternativeWhat row.what →
      AcceptsSignpost subscriber.signpost row.signpost →
        subscriber.userInfo = row.userInfo ∨ subscriber.userInfo = "DAEMON"

variable [DecidableEq α]

/-- Whatever holds of every need and observation of a run holds of the
subscribers in the table. -/
theorem subscribers_of_interests {config : Config α} {start : Int} {steps : List (Step α)}
    {state : State α} {holds : Subscription → Prop} (hrun : SolverRun config start steps state)
    (hinterests : ∀ step ∈ steps, ∀ interest ∈ step.input.interests, holds interest) :
    ∀ subscriber ∈ state.truthSubscribers, holds subscriber := by
  induction hrun with
  | start => exact fun subscriber hsubscriber => absurd hsubscriber (Collection.not_mem_empty _)
  | @extend steps state next batch output prior hstep ih =>
      intro subscriber hsubscriber
      rcases ((fires_of_timestep hstep).mem_truthSubscribers subscriber).mp hsubscriber with
        hnew | ⟨hold, _⟩
      · exact hinterests ⟨state, batch, output, next⟩ (by simp) subscriber hnew
      · apply ih _ subscriber hold
        exact fun step hmem => hinterests step (List.mem_append_left _ hmem)

/-- The same, of the subscribers before each timestep. -/
theorem subscribers_before_of_interests {config : Config α} {start : Int} {steps : List (Step α)}
    {state : State α} {holds : Subscription → Prop} (hrun : SolverRun config start steps state)
    (hinterests : ∀ step ∈ steps, ∀ interest ∈ step.input.interests, holds interest) :
    ∀ step ∈ steps, ∀ subscriber ∈ step.before.truthSubscribers, holds subscriber := by
  intro step hstep
  obtain ⟨earlier, hinitial, hearlier, _⟩ := Run.exists_isPrefix hrun hstep
  refine subscribers_of_interests hearlier fun other hother => ?_
  exact hinterests other (hinitial.subset (List.mem_append_left _ hother))

/-- Users are isolated when every subscriber under `ANY` is entitled to what is
pushed to it: the other sends test the user. -/
theorem usersIsolated_of_entitled {config : Config α} {start : Int} {steps : List (Step α)}
    {state : State α} {userOf : String → String} (hrun : SolverRun config start steps state)
    (hown : ∀ step ∈ steps, OwnUsers userOf step.input)
    (hentitled : AnySubscribersEntitled steps) : UsersIsolated userOf steps := by
  have hbefore := subscribers_before_of_interests hrun hown
  intro step hstep who fact hsent hglobal
  have hfires := hrun.fires hstep
  rcases List.mem_append.mp hsent with hanswered | hsent
  · obtain ⟨row, _, need, hneed, hanswers, rfl, rfl⟩ :=
      (hfires.mem_answered who fact).mp hanswered
    rw [← hown step hstep need (mem_interests.mpr (Or.inl hneed))]
    exact Or.inl ((hanswers.2.1.1.resolve_left hglobal).symm)
  rcases List.mem_append.mp hsent with hpushed | hpushed
  · obtain ⟨row, _, subscriber, hsubscriber, _, hvisible, rfl, rfl⟩ :=
      (hfires.mem_pushed who fact).mp hpushed
    rw [← hbefore step hstep subscriber hsubscriber]
    exact Or.inl (hvisible.resolve_left hglobal).symm
  · -- the push under `ANY` does not look at the user
    obtain ⟨row, hrow, subscriber, hsubscriber, hwhat, haccepts, rfl, rfl⟩ :=
      (hfires.mem_pushedAny who fact).mp hpushed
    rw [← hbefore step hstep subscriber hsubscriber]
    exact hentitled step hstep row hrow hglobal subscriber hsubscriber hwhat haccepts

/-- Users are isolated exactly in the runs in which nobody else's tactic is
subscribed under `ANY` when a user's truth arrives. -/
theorem usersIsolated_iff {config : Config α} {start : Int} {steps : List (Step α)}
    {state : State α} {userOf : String → String} (hrun : SolverRun config start steps state)
    (hown : ∀ step ∈ steps, OwnUsers userOf step.input) :
    UsersIsolated userOf steps ↔ AnySubscribersEntitled steps := by
  constructor
  · intro hisolated step hstep row hrow hglobal subscriber hsubscriber hwhat haccepts
    have hsent := ((hrun.fires hstep).mem_pushedAny subscriber.who row.fact).mpr
      ⟨row, hrow, subscriber, hsubscriber, hwhat, haccepts, rfl, rfl⟩
    rw [subscribers_before_of_interests hrun hown step hstep subscriber hsubscriber]
    exact hisolated step hstep subscriber.who row.fact
      (List.mem_append_right _ (List.mem_append_right _ hsent)) hglobal
  · exact usersIsolated_of_entitled hrun hown

/-! ## A tactic of another user under `ANY` -/

def snoop : Tactic where
  name := "snoop"
  userInfo := "mallory"
  nodeName := "alpha"
  ipPort := "127.0.0.1:5001"

/-- The tactic observes a resource without a destination, and a secret is then
provided for another user. -/
def snoopBatches : List (Batch String) :=
  [{ observeTruth := (snoop.dealWith { observe := [{ what := "shared_secret-iodined" }] }
        : List (SolverMessage String)).filterMap Tactic.interestOf
     now := 10 },
   { provideTruth := [⟨"shared_secret-iodined@alpha", "shared_secret", "carol", "alpha", "s3cret",
        some 300⟩]
     now := 20 }]

def snoopSteps : List (Step String) :=
  record (timestep "alpha") (initial ⟨"alpha", "probsteide.com", id⟩ 0) snoopBatches

/-- Nobody but the tactic asks for anything. -/
theorem ownUsers_snoop : ∀ step ∈ snoopSteps, OwnUsers (fun _ => "mallory") step.input := by
  intro step hstep
  refine ownUsers_of_dealWith fun interest hinterest => ?_
  refine ⟨snoop, { observe := [{ what := "shared_secret-iodined" }] }, rfl, ?_⟩
  have hbatch : step.input ∈ snoopBatches := input_mem_of_record hstep
  simp only [snoopBatches, List.mem_cons, List.not_mem_nil, or_false] at hbatch
  rcases hbatch with hobserved | hprovided
  · rw [hobserved] at hinterest
    exact hinterest
  · rw [hprovided] at hinterest
    cases hinterest

theorem usersIsolated_iff_snoop :
    UsersIsolated (fun _ => "mallory") snoopSteps ↔ AnySubscribersEntitled snoopSteps :=
  usersIsolated_iff (run_record _ (initial ⟨"alpha", "probsteide.com", id⟩ 0) snoopBatches)
    ownUsers_snoop

theorem not_usersIsolated_snoop :
    ¬ ∀ (config : Config String) (start : Int) (steps : List (Step String)) (state : State String)
      (userOf : String → String), SolverRun config start steps state →
        (∀ step ∈ steps, OwnUsers userOf step.input) → UsersIsolated userOf steps := by
  intro hclaim
  have hisolated := hclaim ⟨"alpha", "probsteide.com", id⟩ 0 snoopSteps _ (fun _ => "mallory")
    (run_record _ _ snoopBatches) ownUsers_snoop
  have hsent := hisolated (snoopSteps.get ⟨1, by decide⟩) (List.get_mem _ _) "127.0.0.1:5001"
    ⟨"shared_secret-iodined@alpha", "shared_secret", "carol", "alpha", "s3cret"⟩ (by decide)
    (by decide)
  exact absurd hsent (by decide)

end Signpost.Solver

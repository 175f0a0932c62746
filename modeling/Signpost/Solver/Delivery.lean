import Signpost.Solver.Isolation

/-! # Delivery between registering and providing

A need and a truth that it accepts may arrive in any order and in any
timesteps. The cache serves the need that comes after the truth, the
subscriber table the truth that comes after the need. Both tables show an
arrival only from the following timestep on.
-/

namespace Signpost.Solver

open Bloom Machine

variable {α : Type}

/-- The truth is one that the need or observation asks for, and is cacheable. -/
structure Wants (interest : Subscription) (row : Provision α) : Prop where
  what : row.what = interest.what
  visible : Visible row.userInfo interest.userInfo
  accepts : AcceptsSignpost interest.signpost row.signpost
  ttl_pos : ∃ ttl, row.ttl = some ttl ∧ 0 < ttl

/-- A push rule joins the truth with the subscription. -/
def PushedTo (row : Provision α) (subscriber : Subscription) : Prop :=
  row.what = subscriber.what ∧ Visible row.userInfo subscriber.userInfo ∨
    subscriber.what = alternativeWhat row.what ∧ AcceptsSignpost subscriber.signpost row.signpost

instance (row : Provision α) (subscriber : Subscription) : Decidable (PushedTo row subscriber) :=
  inferInstanceAs (Decidable (_ ∨ _))

/-- Nothing undoes a subscription of timestep `i` before timestep `j`, or a
truth of timestep `j` before timestep `i`, whichever comes first. -/
structure Undisturbed (steps : List (Step α)) (i j : ℕ) (interest : Subscription)
    (row : Provision α) : Prop where
  subscribed : ∀ k (hk : k < steps.length), i < k → k < j →
    interest.who ∉ steps[k].input.removeSubscriptions
  unreplaced : ∀ k (hk : k < steps.length), j < k → k < i →
    ∀ update ∈ steps[k].input.stored, update.key ≠ row.key
  unexpired : ∀ k (hk : k < steps.length) (hj : j < steps.length), j < k → k ≤ i →
    ∀ ttl, row.ttl = some ttl → steps[k].input.now < steps[j].input.now + ttl

/-- Every truth that a need or observation wants is sent to its sender: from
the cache to a later need, by push to an earlier or simultaneous one. -/
structure NoLostUpdate (steps : List (Step α)) : Prop where
  need_answered : ∀ i j (hi : i < steps.length) (hj : j < steps.length), j < i →
    ∀ need ∈ steps[i].input.needTruth, ∀ row ∈ steps[j].input.provided,
      Wants need row → Undisturbed steps i j need row →
        (need.who, row.fact) ∈ steps[i].output.answered
  interest_pushed : ∀ i j (hi : i < steps.length) (hj : j < steps.length), i ≤ j →
    ∀ interest ∈ steps[i].input.interests, ∀ row ∈ steps[j].input.provided,
      Wants interest row → Undisturbed steps i j interest row →
        (interest.who, row.fact) ∈ steps[j].output.pushed ++ steps[j].output.pushedAny

/-- Whoever asks for a truth in the timestep in which it is provided already
holds a subscription to which it is pushed. -/
def SubscribedBeforehand (steps : List (Step α)) : Prop :=
  ∀ step ∈ steps, ∀ interest ∈ step.input.interests, ∀ row ∈ step.input.provided,
    Wants interest row →
      ∃ subscriber ∈ step.before.truthSubscribers, subscriber.who = interest.who ∧
        PushedTo row subscriber

/-! ## One timestep -/

/-- The pushes of a timestep go to the subscribers it started with. -/
theorem Fires.mem_pushes {name : String} {state next : State α} {batch : Batch α}
    {output : Output α} (hfires : Fires name state batch next output) {who : String}
    {row : Provision α} (hrow : row ∈ batch.provided) :
    (who, row.fact) ∈ output.pushed ++ output.pushedAny ↔
      ∃ subscriber ∈ state.truthSubscribers, subscriber.who = who ∧ PushedTo row subscriber := by
  have hsame : ∀ other ∈ batch.provided, row.fact = other.fact → other = row :=
    fun other hother hfact =>
      hfires.keys_functional.provided other hother row hrow (congrArg Fact.key hfact).symm
  rw [List.mem_append, hfires.mem_pushed, hfires.mem_pushedAny]
  constructor
  · rintro (⟨other, hother, subscriber, hsubscriber, hwhat, hvisible, rfl, hfact⟩ |
      ⟨other, hother, subscriber, hsubscriber, hwhat, haccepts, rfl, hfact⟩)
    · obtain rfl := hsame other hother hfact
      exact ⟨subscriber, hsubscriber, rfl, Or.inl ⟨hwhat, hvisible⟩⟩
    · obtain rfl := hsame other hother hfact
      exact ⟨subscriber, hsubscriber, rfl, Or.inr ⟨hwhat, haccepts⟩⟩
  · rintro ⟨subscriber, hsubscriber, rfl, hexact | hany⟩
    · exact Or.inl ⟨row, hrow, subscriber, hsubscriber, hexact.1, hexact.2, rfl, rfl⟩
    · exact Or.inr ⟨row, hrow, subscriber, hsubscriber, hany.1, hany.2, rfl, rfl⟩

/-- The sender of a need or observation holds a subscription to the same name
and signpost, with the same user. -/
def Subscribed (interest : Subscription) (state : State α) : Prop :=
  ∃ subscriber ∈ state.truthSubscribers, subscriber.key = interest.key ∧
    subscriber.userInfo = interest.userInfo

/-- A subscription lasts until its sender leaves. Registering it again keeps it. -/
theorem Fires.subscribed_of_subscribed {name : String} {state next : State α} {batch : Batch α}
    {output : Output α} (hfires : Fires name state batch next output)
    {userOf : String → String} (hown : OwnUsers userOf batch) {interest : Subscription}
    (huser : interest.userInfo = userOf interest.who)
    (hstays : interest.who ∉ batch.removeSubscriptions) (hbefore : Subscribed interest state) :
    Subscribed interest next := by
  obtain ⟨subscriber, hsubscriber, hkey, hsubscriberUser⟩ := hbefore
  have hwho : subscriber.who = interest.who := congrArg SubscriptionKey.who hkey
  -- another message of the sender may replace the row, but has the same user
  by_cases hrenewed : ∃ other ∈ batch.interests, other.key = subscriber.key
  · obtain ⟨other, hother, hotherKey⟩ := hrenewed
    have hotherWho : other.who = interest.who := congrArg SubscriptionKey.who (hotherKey.trans hkey)
    refine ⟨other, (hfires.mem_truthSubscribers other).mpr (Or.inl hother),
      hotherKey.trans hkey, ?_⟩
    rw [hown other hother, hotherWho, huser]
  · refine ⟨subscriber, (hfires.mem_truthSubscribers subscriber).mpr (Or.inr ⟨hsubscriber, ?_, ?_⟩),
      hkey, hsubscriberUser⟩
    · rwa [hwho]
    · exact fun other hother heq => hrenewed ⟨other, hother, heq⟩

/-! ## Every order of the two messages -/

variable [DecidableEq α] {config : Config α} {start : Int} {steps : List (Step α)} {state : State α}

/-- A truth provided before a need is in the cache when the need arrives. -/
theorem SolverRun.answered_of_provided_before (hrun : SolverRun config start steps state)
    {i j : ℕ} (hi : i < steps.length) (hji : j < i) {need : Subscription}
    (hneed : need ∈ steps[i].input.needTruth) {row : Provision α}
    (hrow : row ∈ steps[j].input.provided) (hwants : Wants need row)
    (hundisturbed : Undisturbed steps i j need row) :
    (need.who, row.fact) ∈ steps[i].output.answered := by
  obtain ⟨ttl, httl, hpos⟩ := hwants.ttl_pos
  obtain ⟨truth, hstored⟩ : ∃ truth, storedRow steps[j].input.now row = some truth := by
    simp [storedRow, httl, hpos]
  obtain ⟨hfact, ttl', _, httl', hstate⟩ := storedRow_eq_some_iff.mp hstored
  obtain rfl : ttl = ttl' := Option.some.inj (httl.symm.trans httl')
  have hvalid : ∀ k (hk : k < steps.length), j < k → k ≤ i →
      ttlIsValid steps[k].input.now truth = true := by
    intro k hk hlow hhigh
    simpa [ttlIsValid, hstate] using hundisturbed.unexpired k hk (by omega) hlow hhigh ttl httl
  have hcached : truth ∈ steps[i].before.truths := by
    refine Run.between hrun hji hi (P := fun state => truth ∈ state.truths) ?_ ?_
    · exact ((hrun.fires_getElem (by omega)).mem_truths truth).mpr
        (Or.inl (List.mem_filterMap.mpr ⟨row, hrow, hstored⟩))
    · intro k hk hlow hhigh
      apply (hrun.fires_getElem hk).mem_truths_of_mem (hvalid k hk hlow (Nat.le_of_lt hhigh))
      rw [key_of_storedRow hstored]
      exact hundisturbed.unreplaced k hk hlow hhigh
  have huser : truth.userInfo = row.userInfo := congrArg Fact.userInfo hfact
  have hsignpost : truth.signpost = row.signpost := congrArg Fact.signpost hfact
  refine ((hrun.fires_getElem hi).mem_answered need.who row.fact).mpr
    ⟨truth, hcached, need, hneed, ⟨?_, ⟨?_, hvalid i hi hji (Nat.le_refl i)⟩, ?_⟩, rfl, hfact.symm⟩
  · exact (congrArg Fact.what hfact).trans hwants.what
  · exact huser ▸ hwants.visible
  · exact hsignpost ▸ hwants.accepts

/-- A need or observation is a subscription when a later truth arrives. -/
theorem SolverRun.subscribed_before (hrun : SolverRun config start steps state)
    {userOf : String → String} (hown : ∀ step ∈ steps, OwnUsers userOf step.input)
    {i j : ℕ} (hij : i < j) (hj : j < steps.length) {interest : Subscription}
    (hinterest : interest ∈ steps[i].input.interests)
    (hstays : ∀ k (hk : k < steps.length), i < k → k < j →
      interest.who ∉ steps[k].input.removeSubscriptions) :
    Subscribed interest steps[j].before := by
  have huser := hown _ (List.getElem_mem (by omega)) interest hinterest
  refine Run.between hrun hij hj ?_ ?_
  · exact ⟨interest, ((hrun.fires_getElem (by omega)).mem_truthSubscribers interest).mpr
      (Or.inl hinterest), rfl, rfl⟩
  · intro k hk hlow hhigh
    exact (hrun.fires_getElem hk).subscribed_of_subscribed (hown _ (List.getElem_mem hk)) huser
      (hstays k hk hlow hhigh)

/-- No update is lost exactly in the runs in which nobody asks for a truth in
the very timestep that provides it, unless already subscribed to it. -/
theorem noLostUpdate_iff (hrun : SolverRun config start steps state)
    {userOf : String → String} (hown : ∀ step ∈ steps, OwnUsers userOf step.input) :
    NoLostUpdate steps ↔ SubscribedBeforehand steps := by
  constructor
  · intro hdelivered step hstep interest hinterest row hrow hwants
    obtain ⟨i, hi, rfl⟩ := List.mem_iff_getElem.mp hstep
    rw [← (hrun.fires_getElem hi).mem_pushes hrow]
    refine hdelivered.interest_pushed i i hi hi (Nat.le_refl i) interest hinterest row hrow hwants
      ?_
    constructor <;> (intros; omega)
  · intro hbeforehand
    refine ⟨?_, ?_⟩
    · intro i j hi hj hji need hneed row hrow hwants hundisturbed
      exact hrun.answered_of_provided_before hi hji hneed hrow hwants hundisturbed
    · intro i j hi hj hij interest hinterest row hrow hwants hundisturbed
      rw [(hrun.fires_getElem hj).mem_pushes hrow]
      -- an earlier subscription is in the table, one of the same timestep is not yet
      rcases Nat.lt_or_eq_of_le hij with hlt | rfl
      · obtain ⟨subscriber, hsubscriber, hkey, huser⟩ :=
          hrun.subscribed_before hown hlt hj hinterest hundisturbed.subscribed
        refine ⟨subscriber, hsubscriber, congrArg SubscriptionKey.who hkey, Or.inl ⟨?_, ?_⟩⟩
        · exact hwants.what.trans (congrArg SubscriptionKey.what hkey).symm
        · exact huser.symm ▸ hwants.visible
      · exact hbeforehand _ (List.getElem_mem hj) interest hinterest row hrow hwants

/-! ## Both messages in one timestep -/

/-- A tactic asks for an address in the timestep in which another provides it. -/
def crossedBatches : List (Batch String) :=
  [{ needTruth := [⟨"ip_for_domain@kle.io", "127.0.0.1:4000", "ANY", "carol", "ping"⟩]
     provideTruth := [⟨"ip_for_domain@kle.io", "dns", "GLOBAL", "alpha", "10.0.0.1", some 300⟩]
     now := 10 }]

def crossedSteps : List (Step String) :=
  record (timestep "alpha") (initial ⟨"alpha", "probsteide.com", id⟩ 0) crossedBatches

theorem ownUsers_crossed : ∀ step ∈ crossedSteps, OwnUsers (fun _ => "carol") step.input := by
  decide

theorem noLostUpdate_iff_crossed : crossedSteps.length = 1 ∧
    (NoLostUpdate crossedSteps ↔ SubscribedBeforehand crossedSteps) :=
  ⟨by decide, noLostUpdate_iff (run_record _ (initial ⟨"alpha", "probsteide.com", id⟩ 0)
    crossedBatches) ownUsers_crossed⟩

theorem not_noLostUpdate_crossed :
    ¬ ∀ (config : Config String) (start : Int) (steps : List (Step String)) (state : State String)
      (userOf : String → String), SolverRun config start steps state →
        (∀ step ∈ steps, OwnUsers userOf step.input) → NoLostUpdate steps := by
  intro hclaim
  have hdelivered := hclaim ⟨"alpha", "probsteide.com", id⟩ 0 crossedSteps _ (fun _ => "carol")
    (run_record _ _ crossedBatches) ownUsers_crossed
  have hpushed := hdelivered.interest_pushed 0 0 (by decide) (by decide) (by decide)
    ⟨"ip_for_domain@kle.io", "127.0.0.1:4000", "ANY", "carol", "ping"⟩ (by decide)
    ⟨"ip_for_domain@kle.io", "dns", "GLOBAL", "alpha", "10.0.0.1", some 300⟩ (by decide)
    ⟨rfl, Or.inl rfl, Or.inl rfl, 300, rfl, by decide⟩
    (by constructor <;> (intros; omega))
  exact absurd hpushed (by decide)

end Signpost.Solver

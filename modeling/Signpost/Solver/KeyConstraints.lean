import Signpost.Solver.Timestep

/-! # Key constraints

A timestep raises when a rule derives two rows with one key. The tables have
one row per key by construction, so this depends on the batch and on the rows
that answer its needs: the key of `satisfiable_truth_needs` keeps neither the
provider nor the user of a truth.
-/

namespace Signpost.Solver

open Bloom Machine

variable {α : Type}

/-- The batch and the rows that answer its needs determine one row per key. -/
structure KeysDetermined (state : State α) (batch : Batch α) : Prop where
  /-- No two needs or observers of one name, address and signpost differ in the
  user or in the name of the asker. -/
  interests : ∀ left ∈ batch.interests, ∀ right ∈ batch.interests, left.key = right.key →
    left.userInfo = right.userInfo ∧ left.whoName = right.whoName
  /-- No two provisions of one key differ in value or TTL. -/
  provisions : ∀ left ∈ batch.provided, ∀ right ∈ batch.provided, left.key = right.key →
    left.truth = right.truth ∧ left.ttl = right.ttl
  /-- No need is answered by two rows of one signpost that have different
  providers, or of which one is global and one is the user's. -/
  answers : ∀ need ∈ batch.needTruth, ∀ left ∈ state.truths, ∀ right ∈ state.truths,
    Answers batch.now left need → Answers batch.now right need →
      left.signpost = right.signpost →
        left.provider = right.provider ∧ left.userInfo = right.userInfo

theorem keyFunctional_interests_iff {batch : Batch α} :
    KeyFunctional Subscription.key batch.interests ↔
      ∀ left ∈ batch.interests, ∀ right ∈ batch.interests, left.key = right.key →
        left.userInfo = right.userInfo ∧ left.whoName = right.whoName := by
  constructor
  · intro hkeys left hleft right hright heq
    rw [hkeys left hleft right hright heq]
    exact ⟨rfl, rfl⟩
  · intro hkeys left hleft right hright heq
    obtain ⟨huser, hname⟩ := hkeys left hleft right hright heq
    obtain ⟨hwhat, hwho, hsignpost⟩ := SubscriptionKey.mk.inj heq
    cases left
    cases right
    simp_all

theorem keyFunctional_provided_iff {batch : Batch α} :
    KeyFunctional Provision.key batch.provided ↔
      ∀ left ∈ batch.provided, ∀ right ∈ batch.provided, left.key = right.key →
        left.truth = right.truth ∧ left.ttl = right.ttl := by
  constructor
  · intro hkeys left hleft right hright heq
    rw [hkeys left hleft right hright heq]
    exact ⟨rfl, rfl⟩
  · intro hkeys left hleft right hright heq
    obtain ⟨htruth, httl⟩ := hkeys left hleft right hright heq
    obtain ⟨hwhat, hprovider, huser, hsignpost⟩ := TruthKey.mk.inj heq
    cases left
    cases right
    simp_all

/-- A conflict among the answers always shows at a single need: needs of one
requester and name differ only in their signposts, and the answers agree on
the signpost of the truth. -/
theorem keyFunctional_answers_iff {state : State α} {batch : Batch α} :
    KeyFunctional SatisfiableNeed.key
        (satisfiableTruthNeeds batch.now state.truths.rows batch.needTruth) ↔
      ∀ need ∈ batch.needTruth, ∀ left ∈ state.truths, ∀ right ∈ state.truths,
        Answers batch.now left need → Answers batch.now right need →
          left.signpost = right.signpost →
            left.provider = right.provider ∧ left.userInfo = right.userInfo := by
  constructor
  · intro hkeys need hneed left hleft right hright hanswerLeft hanswerRight hsignpost
    have hsame := hkeys
      _ (mem_satisfiableTruthNeeds.mpr ⟨left, hleft, need, hneed, hanswerLeft, rfl⟩)
      _ (mem_satisfiableTruthNeeds.mpr ⟨right, hright, need, hneed, hanswerRight, rfl⟩)
      (by simp [satisfiableTruthNeed, SatisfiableNeed.key, hanswerLeft.1, hanswerRight.1,
        hsignpost])
    have hfact : left.fact = right.fact := congrArg SatisfiableNeed.truth hsame
    exact ⟨congrArg Fact.provider hfact, congrArg Fact.userInfo hfact⟩
  · intro hanswers first hfirst second hsecond heq
    obtain ⟨left, hleft, need, hneed, hanswerLeft, rfl⟩ := mem_satisfiableTruthNeeds.mp hfirst
    obtain ⟨right, hright, other, hother, hanswerRight, rfl⟩ := mem_satisfiableTruthNeeds.mp hsecond
    obtain ⟨hwho, hwhat, huser, hsignpost⟩ := SatisfiableKey.mk.inj heq
    -- the second answer would do for the first need as well
    have hanswerOther : Answers batch.now right need := by
      refine ⟨hwhat.symm.trans hanswerLeft.1, ⟨?_, hanswerRight.2.1.2⟩, ?_⟩
      · exact hanswerRight.2.1.1.imp_right fun h => h.trans huser.symm
      · exact hanswerLeft.2.2.imp_right fun h => h.trans hsignpost
    obtain ⟨hprovider, howner⟩ :=
      hanswers need hneed left hleft right hright hanswerLeft hanswerOther hsignpost
    have hrow : left = right := Collection.eq_of_key hleft hright
      (TruthKey.mk.injEq .. ▸ ⟨hwhat, hprovider, howner, hsignpost⟩)
    subst hrow
    simp_all [satisfiableTruthNeed]

theorem keysDetermined_iff {state : State α} {batch : Batch α} :
    KeysDetermined state batch ↔ KeysFunctional state batch := by
  constructor
  · rintro ⟨hinterests, hprovisions, hanswers⟩
    exact ⟨keyFunctional_interests_iff.mpr hinterests, keyFunctional_provided_iff.mpr hprovisions,
      keyFunctional_answers_iff.mpr hanswers⟩
  · rintro ⟨hinterests, hprovided, hsatisfiable⟩
    exact ⟨keyFunctional_interests_iff.mp hinterests, keyFunctional_provided_iff.mp hprovided,
      keyFunctional_answers_iff.mp hsatisfiable⟩

variable [DecidableEq α]

/-- Storing truths whose keys have been checked raises at most the type error of
a missing TTL. -/
theorem typeError_of_timestep {name : String} {state : State α} {batch : Batch α}
    {error : SolverError} {scratches : Scratches α}
    (hscratches : deriveScratches state batch = .ok scratches)
    (herror : timestep name state batch = .error error) :
    error = .typeError ∧ ∃ row ∈ batch.provided, row.ttl = none := by
  obtain ⟨hkeys, hderived⟩ := derived_of_ok hscratches
  have hprovided : KeyFunctional Provision.key scratches.provided.rows :=
    scratches.provided.functional
  simp only [timestep, bind_eq_error, hscratches, reduceCtorEq, false_or, Except.ok.injEq,
    exists_eq_left', storableTruths_eq] at herror
  rcases herror with herror | ⟨stored, hstored, herror⟩
  · split at herror
    next hmissing =>
      rw [hderived.provided] at hmissing
      exact ⟨(Except.error.inj herror).symm, by simpa using hmissing⟩
    next => cases herror
  have hstoredRows : KeyFunctional TruthRow.key stored := by
    split at hstored
    next => cases hstored
    next => exact Except.ok.inj hstored ▸ storedRow_functional hprovided
  rcases herror with herror | ⟨storable, hstorable, herror⟩
  · exact absurd hstoredRows (derive_eq_error herror).1
  rcases herror with herror | ⟨updates, _, herror⟩
  · exact absurd storable.functional (derive_eq_error herror).1
  · cases herror

/-- A timestep raises a key conflict exactly when some keys are undetermined.
The type error of a missing TTL cannot hide it, being raised later. -/
theorem not_keyConflict_iff (name : String) (state : State α) (batch : Batch α) :
    (∀ collection, timestep name state batch ≠ .error (.keyConflict collection)) ↔
      KeysDetermined state batch := by
  rw [keysDetermined_iff]
  cases hscratches : deriveScratches state batch with
  | ok scratches =>
      refine ⟨fun _ => (derived_of_ok hscratches).1, fun _ collection herror => ?_⟩
      cases (typeError_of_timestep hscratches herror).1
  | error error =>
      obtain ⟨hkeys, collection, rfl⟩ := not_keysFunctional_of_error hscratches
      refine ⟨fun hnone => absurd ?_ (hnone collection), fun h => absurd h hkeys⟩
      rw [timestep, hscratches]
      rfl

/-- Over every sequence of batches fed to a solver from its start, no timestep
raises a key conflict exactly when in every timestep the batch and the rows that
answer its needs determine one row per key. -/
theorem run_not_keyConflict_iff (config : Config α) (start : Int) (batches : List (Batch α)) :
    (∀ state batch, Reaches (timestep config.signpostClient) (initial config start) batches
        state batch →
      ∀ collection, timestep config.signpostClient state batch ≠
        .error (.keyConflict collection)) ↔
    ∀ state batch, Reaches (timestep config.signpostClient) (initial config start) batches
        state batch →
      KeysDetermined state batch :=
  forall₃_congr fun state batch _ => not_keyConflict_iff config.signpostClient state batch

/-- Both VPN tactics provide `connectable_ip`. -/
def vpnProvisions : Batch String where
  provideTruth := [⟨"connectable_ip@beta", "iodine", "carol", "alpha", "172.16.11.1", some 300⟩,
    ⟨"connectable_ip@beta", "openvpn", "carol", "alpha", "172.16.12.1", some 300⟩]
  now := 10

def vpnNeed : Batch String where
  needTruth := [⟨"connectable_ip@beta", "127.0.0.1:4000", "ANY", "carol", "direct"⟩]
  now := 20

/-- A need for a truth of two providers stops the solver. -/
theorem keyConflict_of_two_providers :
    ¬ ∀ (config : Config String) (start : Int) (batches : List (Batch String))
      (state : State String) (batch : Batch String),
      Reaches (timestep config.signpostClient) (initial config start) batches state batch →
        ∀ collection, timestep config.signpostClient state batch ≠
          .error (.keyConflict collection) := by
  intro hclaim
  exact hclaim ⟨"alpha", "probsteide.com", id⟩ 0 [vpnProvisions, vpnNeed] _ vpnNeed
    ⟨_, run_record _ _ [vpnProvisions], List.prefix_rfl⟩ .satisfiableTruthNeeds rfl

end Signpost.Solver

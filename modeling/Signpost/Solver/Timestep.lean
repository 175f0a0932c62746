import Signpost.Machine.Run
import Signpost.Solver.Rules

/-! # One timestep of the solver

A timestep evaluates every rule once over the tables as they stand and the
messages that arrived, and raises when a rule derives two rows with one key.
Deferred deletions and updates of the tables take effect between this timestep
and the next one.
-/

namespace Signpost.Solver

open Bloom Machine

variable {α : Type}

/-- The messages that arrive in one timestep, whether the garbage collection
timer fires in it, and the clock. -/
structure Batch (α : Type) where
  needTruth : List Subscription := []
  observeTruth : List Subscription := []
  provideTruth : List (Provision α) := []
  provideTruthFromExternal : List (Provision α) := []
  removeSubscriptions : List String := []
  garbageCollectionTimer : Bool := false
  now : Int
deriving DecidableEq

/-- The rows of `provide_truth_scratch`. -/
def Batch.provided (batch : Batch α) : List (Provision α) :=
  batch.provideTruthFromExternal ++ batch.provideTruth

/-- The rows that the provisions of the batch leave in the truth table. -/
def Batch.stored (batch : Batch α) : List (TruthRow α) :=
  batch.provided.filterMap (storedRow batch.now)

/-- The rows that become subscriptions in the following timestep. -/
def Batch.interests (batch : Batch α) : List Subscription :=
  batch.needTruth ++ batch.observeTruth

structure State (α : Type) where
  truths : Collection (@TruthRow.key α)
  truthSubscribers : Collection Subscription.key

/-- What a timestep sends on `needed_truth`, separated by rule, and the calls
that its rule bodies make. -/
structure Output (α : Type) where
  answered : List (String × Fact α)
  pushed : List (String × Fact α)
  pushedAny : List (String × Fact α)
  explorations : List (Subscription × Exploration)
  distributed : List (Provision α)
deriving DecidableEq

/-- Everything sent on `needed_truth`. -/
def Output.neededTruth (output : Output α) : List (String × Fact α) :=
  output.answered ++ (output.pushed ++ output.pushedAny)

/-- Derive rows into a keyed collection, raising on a key conflict. -/
def derive {ρ κ : Type} [DecidableEq ρ] [DecidableEq κ] (collection : KeyedCollection)
    (key : ρ → κ) (rows : List ρ) : Except SolverError (Collection key) :=
  match Collection.derive key rows with
  | some derived => .ok derived
  | none => .error (.keyConflict collection)

/-- The collections that a timestep derives before it stores truths. -/
structure Scratches (α : Type) where
  needs : Collection Subscription.key
  subscriptions : Collection Subscription.key
  satisfiable : Collection (@SatisfiableNeed.key α)
  redistributable : Collection (@Provision.key α)
  provided : Collection (@Provision.key α)
  adapted : Collection (@AdaptedTruth.key α)

def deriveScratches [DecidableEq α] (state : State α) (batch : Batch α) :
    Except SolverError (Scratches α) := do
  let needs ← derive .needTruthScratch Subscription.key batch.needTruth
  let observers ← derive .observeTruthScratch Subscription.key batch.observeTruth
  -- both are pending updates of one table
  let subscriptions ← derive .truthSubscribers Subscription.key (needs.rows ++ observers.rows)
  let satisfiable ← derive .satisfiableTruthNeeds SatisfiableNeed.key
    (satisfiableTruthNeeds batch.now state.truths.rows needs.rows)
  let redistributable ← derive .redistributableTruths Provision.key batch.provideTruth
  let provided ← derive .provideTruthScratch Provision.key batch.provided
  let adapted ← derive .adaptedProvidedTruths AdaptedTruth.key
    (provided.rows.map adaptedProvidedTruth)
  pure { needs, subscriptions, satisfiable, redistributable, provided, adapted }

def timestep [DecidableEq α] (name : String) (state : State α) (batch : Batch α) :
    Except SolverError (State α × Output α) := do
  let removals := state.truthSubscribers.rows.filter fun row => row.who ∈ batch.removeSubscriptions
  let scratches ← deriveScratches state batch
  let stored ← storableTruths batch.now scratches.provided.rows
  let storable ← derive .storableTruths TruthRow.key stored
  let updates ← derive .truths TruthRow.key storable.rows
  -- deletions and updates are deferred, so the sends read the tables of `state`
  pure
    ({ truths := state.truths.settle
          (garbageCollected batch.now batch.garbageCollectionTimer state.truths.rows) updates
       truthSubscribers := state.truthSubscribers.settle removals scratches.subscriptions },
     { answered := scratches.satisfiable.rows.map fun answer => (answer.who, answer.truth)
       pushed := pushToSubscribers scratches.provided.rows state.truthSubscribers.rows
       pushedAny := pushToAnySubscribers scratches.adapted.rows state.truthSubscribers.rows
       explorations := devNull1 name scratches.satisfiable.rows scratches.needs.rows
       distributed := scratches.redistributable.rows })

/-! ## The truths at the start -/

/-- The configuration of a node, and how string values embed in truth values. -/
structure Config (α : Type) where
  signpostClient : String
  signpostDomain : String
  ofString : String → α

/-- The truths that a solver provides to itself when it starts. -/
def initialTruths (config : Config α) : List (Provision α) :=
  [⟨"web_auth_url@" ++ config.signpostClient, "global_truth", "GLOBAL", config.signpostClient,
      config.ofString "http://localhost:8080/requests", some 1000000⟩,
    ⟨"local_signpost_domain@" ++ config.signpostClient, "global_truth", "GLOBAL",
      config.signpostClient, config.ofString config.signpostDomain, some 1000000⟩]

theorem initialTruths_functional (config : Config α) :
    KeyFunctional Provision.key (initialTruths config) := by
  have hne : "web_auth_url@" ++ config.signpostClient ≠
      "local_signpost_domain@" ++ config.signpostClient := by
    intro heq
    have hchars := congrArg String.toList heq
    simp at hchars
  simp [KeyFunctional, initialTruths, Provision.key, hne, hne.symm]

/-! ## What a timestep does -/

/-- The rows from which every keyed collection of a timestep is derived
determine one row per key. -/
structure KeysFunctional (state : State α) (batch : Batch α) : Prop where
  interests : KeyFunctional Subscription.key batch.interests
  provided : KeyFunctional Provision.key batch.provided
  satisfiable : KeyFunctional SatisfiableNeed.key
    (satisfiableTruthNeeds batch.now state.truths.rows batch.needTruth)

/-- Everything a completed timestep says about its inputs, its sends and the
tables of the next timestep. -/
structure Fires (name : String) (state : State α) (batch : Batch α) (next : State α)
    (output : Output α) : Prop where
  keys_functional : KeysFunctional state batch
  ttl_ne_none : ∀ row ∈ batch.provided, row.ttl ≠ none
  mem_answered : ∀ who fact, (who, fact) ∈ output.answered ↔
    ∃ row ∈ state.truths, ∃ need ∈ batch.needTruth, Answers batch.now row need ∧
      who = need.who ∧ fact = row.fact
  mem_pushed : ∀ who fact, (who, fact) ∈ output.pushed ↔
    ∃ row ∈ batch.provided, ∃ subscriber ∈ state.truthSubscribers,
      row.what = subscriber.what ∧ Visible row.userInfo subscriber.userInfo ∧
      who = subscriber.who ∧ fact = row.fact
  mem_pushedAny : ∀ who fact, (who, fact) ∈ output.pushedAny ↔
    ∃ row ∈ batch.provided, ∃ subscriber ∈ state.truthSubscribers,
      subscriber.what = alternativeWhat row.what ∧
      AcceptsSignpost subscriber.signpost row.signpost ∧
      who = subscriber.who ∧ fact = row.fact
  explorations_eq : output.explorations = devNull1 name
    (satisfiableTruthNeeds batch.now state.truths.rows batch.needTruth) batch.needTruth.dedup
  distributed_nodup : output.distributed.Nodup
  mem_distributed : ∀ row, row ∈ output.distributed ↔ row ∈ batch.provideTruth
  mem_truths : ∀ truth, truth ∈ next.truths ↔
    truth ∈ batch.stored ∨
    truth ∈ state.truths ∧
      truth ∉ garbageCollected batch.now batch.garbageCollectionTimer state.truths.rows ∧
      ∀ update ∈ batch.stored, update.key ≠ truth.key
  mem_truthSubscribers : ∀ subscriber, subscriber ∈ next.truthSubscribers ↔
    subscriber ∈ batch.interests ∨
    subscriber ∈ state.truthSubscribers ∧ subscriber.who ∉ batch.removeSubscriptions ∧
      ∀ interest ∈ batch.interests, interest.key ≠ subscriber.key

theorem mem_interests {batch : Batch α} {row : Subscription} :
    row ∈ batch.interests ↔ row ∈ batch.needTruth ∨ row ∈ batch.observeTruth :=
  List.mem_append

section Derive

variable {ρ κ : Type} [DecidableEq ρ] [DecidableEq κ] {collection : KeyedCollection}
  {key : ρ → κ} {rows : List ρ}

theorem derive_eq_ok {derived : Collection key} (hok : derive collection key rows = .ok derived) :
    KeyFunctional key rows ∧ derived.rows = rows.dedup := by
  unfold derive at hok
  split at hok
  next h =>
    cases hok
    exact Collection.derive_eq_some_iff.mp h
  next => cases hok

theorem derive_eq_error {error : SolverError} (herror : derive collection key rows = .error error) :
    ¬ KeyFunctional key rows ∧ error = .keyConflict collection := by
  unfold derive at herror
  split at herror
  next => cases herror
  next h =>
    cases herror
    exact ⟨Collection.derive_eq_none_iff.mp h, rfl⟩

end Derive

/-- The answers depend on the rows of their sources only as sets. -/
theorem mem_satisfiableTruthNeeds_dedup {now : Int} {truths : List (TruthRow α)}
    {needs : List Subscription} {answer : SatisfiableNeed α} :
    answer ∈ satisfiableTruthNeeds now truths needs.dedup ↔
      answer ∈ satisfiableTruthNeeds now truths needs := by
  simp only [mem_satisfiableTruthNeeds, List.mem_dedup]

/-- Looking for an answer reads the satisfiable needs only as a set. -/
theorem devNull1_congr {name : String} {left right : List (SatisfiableNeed α)}
    {needs : List Subscription} (heq : ∀ answer, answer ∈ left ↔ answer ∈ right) :
    devNull1 name left needs = devNull1 name right needs := by
  have hcall : devNull1Call name left = devNull1Call name right := by
    funext need
    simp only [devNull1Call, heq]
  rw [devNull1, devNull1, hcall]

/-- A stored truth lasts until it is replaced or has expired. -/
theorem Fires.mem_truths_of_mem {name : String} {state next : State α} {batch : Batch α}
    {output : Output α} (hfires : Fires name state batch next output) {truth : TruthRow α}
    (hvalid : ttlIsValid batch.now truth = true)
    (hkept : ∀ update ∈ batch.stored, update.key ≠ truth.key) (hbefore : truth ∈ state.truths) :
    truth ∈ next.truths := by
  refine (hfires.mem_truths truth).mpr (Or.inr ⟨hbefore, ?_, hkept⟩)
  intro hcollected
  rw [(mem_garbageCollected.mp hcollected).2.2] at hvalid
  cases hvalid

variable [DecidableEq α]

/-- The derived collections hold the rows of their sources. -/
structure Derived (state : State α) (batch : Batch α) (scratches : Scratches α) : Prop where
  needs : scratches.needs.rows = batch.needTruth.dedup
  mem_subscriptions : ∀ row, row ∈ scratches.subscriptions ↔ row ∈ batch.interests
  mem_satisfiable : ∀ answer, answer ∈ scratches.satisfiable ↔
    answer ∈ satisfiableTruthNeeds batch.now state.truths.rows batch.needTruth
  redistributable : scratches.redistributable.rows = batch.provideTruth.dedup
  provided : scratches.provided.rows = batch.provided.dedup
  adapted : scratches.adapted.rows = (scratches.provided.rows.map adaptedProvidedTruth).dedup

theorem derived_of_ok {state : State α} {batch : Batch α} {scratches : Scratches α}
    (hok : deriveScratches state batch = .ok scratches) :
    KeysFunctional state batch ∧ Derived state batch scratches := by
  simp only [deriveScratches, bind_eq_ok] at hok
  obtain ⟨needs, hneeds, observers, hobservers, subscriptions, hsubscriptions, satisfiable,
    hsatisfiable, redistributable, hredistributable, provided, hprovided, adapted, hadapted,
    hresult⟩ := hok
  cases hresult
  obtain ⟨_, hneeds⟩ := derive_eq_ok hneeds
  obtain ⟨_, hobservers⟩ := derive_eq_ok hobservers
  obtain ⟨hinterests, hsubscriptions⟩ := derive_eq_ok hsubscriptions
  obtain ⟨hanswers, hsatisfiable⟩ := derive_eq_ok hsatisfiable
  obtain ⟨_, hredistributable⟩ := derive_eq_ok hredistributable
  obtain ⟨hkeys, hprovided⟩ := derive_eq_ok hprovided
  obtain ⟨_, hadapted⟩ := derive_eq_ok hadapted
  refine ⟨⟨?_, hkeys, ?_⟩, hneeds, ?_, ?_, hredistributable, hprovided, hadapted⟩
  · apply hinterests.subset
    intro row hrow
    rw [hneeds, hobservers]
    simpa [Batch.interests] using hrow
  · apply hanswers.subset
    intro answer hanswer
    rw [hneeds, mem_satisfiableTruthNeeds_dedup]
    exact hanswer
  · intro row
    rw [← Collection.mem_rows, hsubscriptions, hneeds, hobservers, mem_interests]
    simp only [List.mem_dedup, List.mem_append]
  · intro answer
    rw [← Collection.mem_rows, hsatisfiable, List.mem_dedup, hneeds,
      mem_satisfiableTruthNeeds_dedup]

/-- Deriving raises only key conflicts, and only when some keys do not
determine their row. -/
theorem not_keysFunctional_of_error {state : State α} {batch : Batch α} {error : SolverError}
    (herror : deriveScratches state batch = .error error) :
    ¬ KeysFunctional state batch ∧ ∃ collection, error = .keyConflict collection := by
  simp only [deriveScratches, bind_eq_error] at herror
  have hfail : ∀ {ρ κ : Type} [DecidableEq ρ] [DecidableEq κ] {collection : KeyedCollection}
      {key : ρ → κ} {rows : List ρ}, derive collection key rows = .error error →
      (KeysFunctional state batch → KeyFunctional key rows) →
      ¬ KeysFunctional state batch ∧ ∃ collection, error = .keyConflict collection :=
    fun herror himp => ⟨fun hkeys => (derive_eq_error herror).1 (himp hkeys), _,
      (derive_eq_error herror).2⟩
  rcases herror with herror | ⟨needs, hneeds, herror⟩
  · exact hfail herror fun hkeys => hkeys.interests.subset (List.subset_append_left _ _)
  rcases herror with herror | ⟨observers, hobservers, herror⟩
  · exact hfail herror fun hkeys => hkeys.interests.subset (List.subset_append_right _ _)
  obtain ⟨_, hneeds⟩ := derive_eq_ok hneeds
  obtain ⟨_, hobservers⟩ := derive_eq_ok hobservers
  rcases herror with herror | ⟨subscriptions, _, herror⟩
  · refine hfail herror fun hkeys => hkeys.interests.subset fun row hrow => ?_
    rw [hneeds, hobservers] at hrow
    simpa [Batch.interests] using hrow
  rcases herror with herror | ⟨satisfiable, _, herror⟩
  · refine hfail herror fun hkeys => hkeys.satisfiable.subset fun answer hanswer => ?_
    rw [hneeds] at hanswer
    exact mem_satisfiableTruthNeeds_dedup.mp hanswer
  rcases herror with herror | ⟨redistributable, _, herror⟩
  · exact hfail herror fun hkeys => hkeys.provided.subset (List.subset_append_right _ _)
  rcases herror with herror | ⟨provided, hprovided, herror⟩
  · exact hfail herror fun hkeys => hkeys.provided
  obtain ⟨_, hprovided⟩ := derive_eq_ok hprovided
  rcases herror with herror | ⟨adapted, _, herror⟩
  · refine hfail herror fun hkeys left hleft right hright heq => ?_
    obtain ⟨row, hrow, rfl⟩ := List.mem_map.mp hleft
    obtain ⟨other, hother, rfl⟩ := List.mem_map.mp hright
    rw [hprovided, List.mem_dedup] at hrow hother
    obtain ⟨_, hwhat, hprovider, huser, hsignpost⟩ := AdaptedKey.mk.inj heq
    rw [hkeys.provided row hrow other hother
      (TruthKey.mk.injEq .. ▸ ⟨hwhat, hprovider, huser, hsignpost⟩)]
  · cases herror

theorem fires_of_timestep {name : String} {state next : State α} {batch : Batch α}
    {output : Output α} (hstep : timestep name state batch = .ok (next, output)) :
    Fires name state batch next output := by
  simp only [timestep, bind_eq_ok] at hstep
  obtain ⟨scratches, hscratches, stored, hstored, storable, hstorable, updates, hupdates,
    hresult⟩ := hstep
  obtain ⟨rfl, rfl⟩ := Prod.mk.inj (Except.ok.inj hresult)
  obtain ⟨hkeys, hderived⟩ := derived_of_ok hscratches
  obtain ⟨_, hstorable⟩ := derive_eq_ok hstorable
  obtain ⟨_, hupdates⟩ := derive_eq_ok hupdates
  rw [storableTruths_eq] at hstored
  split at hstored
  next => cases hstored
  next hpresent =>
  replace hstored := Except.ok.inj hstored
  have hmemUpdates : ∀ truth, truth ∈ updates ↔ truth ∈ batch.stored := by
    intro truth
    rw [← Collection.mem_rows, hupdates, List.mem_dedup, hstorable, List.mem_dedup, ← hstored,
      hderived.provided]
    simp only [Batch.stored, List.mem_filterMap, List.mem_dedup]
  constructor
  case keys_functional => exact hkeys
  case ttl_ne_none =>
    intro row hrow httl
    exact hpresent ⟨row, by rw [hderived.provided]; exact List.mem_dedup.mpr hrow, httl⟩
  case mem_answered =>
    intro who fact
    simp only [List.mem_map, Collection.mem_rows, hderived.mem_satisfiable,
      mem_satisfiableTruthNeeds, Prod.mk.injEq]
    constructor
    · rintro ⟨_, ⟨row, hrow, need, hneed, hanswer, rfl⟩, rfl, rfl⟩
      exact ⟨row, hrow, need, hneed, hanswer, rfl, rfl⟩
    · rintro ⟨row, hrow, need, hneed, hanswer, rfl, rfl⟩
      exact ⟨_, ⟨row, hrow, need, hneed, hanswer, rfl⟩, rfl, rfl⟩
  case mem_pushed =>
    intro who fact
    rw [mem_pushToSubscribers, hderived.provided]
    simp only [List.mem_dedup, Collection.mem_rows]
  case mem_pushedAny =>
    intro who fact
    have hsame : (who, fact) ∈
          pushToAnySubscribers scratches.adapted.rows state.truthSubscribers.rows ↔
        (who, fact) ∈ pushToAnySubscribers (scratches.provided.rows.map adaptedProvidedTruth)
          state.truthSubscribers.rows := by
      rw [hderived.adapted]
      simp only [pushToAnySubscribers, List.mem_flatMap, List.mem_dedup]
    rw [hsame, mem_pushToAnySubscribers, hderived.provided]
    simp only [List.mem_dedup, Collection.mem_rows]
  case explorations_eq => exact hderived.needs ▸ devNull1_congr hderived.mem_satisfiable
  case distributed_nodup => exact hderived.redistributable ▸ List.nodup_dedup _
  case mem_distributed =>
    intro row
    rw [hderived.redistributable, List.mem_dedup]
  case mem_truths =>
    intro truth
    simp only [Collection.mem_settle, hmemUpdates]
  case mem_truthSubscribers =>
    intro subscriber
    rw [Collection.mem_settle, hderived.mem_subscriptions]
    refine or_congr_right (and_congr_right fun hsubscriber => ?_)
    simp only [hderived.mem_subscriptions, List.mem_filter, Collection.mem_rows, hsubscriber,
      true_and, decide_eq_true_eq]

/-! ## Runs from the initial state -/

/-- The solver when it starts. -/
def initial (config : Config α) (start : Int) : State α where
  truths :=
    { rows := ((initialTruths config).filterMap (storedRow start)).dedup
      unique := (storedRow_functional (initialTruths_functional config)).nodup_map_dedup }
  truthSubscribers := Collection.empty

theorem mem_initial_truths {config : Config α} {start : Int} {row : TruthRow α} :
    row ∈ (initial config start).truths ↔
      row ∈ (initialTruths config).filterMap (storedRow start) := by
  rw [← Collection.mem_rows, initial, List.mem_dedup]

/-- A completed timestep of a solver. -/
abbrev Step (α : Type) := Transition (State α) (Batch α) (Output α)

/-- The runs of a solver: sequences of completed timesteps from its start. -/
abbrev SolverRun (config : Config α) (start : Int) : List (Step α) → State α → Prop :=
  Run (timestep config.signpostClient) (initial config start)

theorem SolverRun.fires {config : Config α} {start : Int} {steps : List (Step α)}
    {state : State α} (hrun : SolverRun config start steps state) {step : Step α}
    (hstep : step ∈ steps) :
    Fires config.signpostClient step.before step.input step.after step.output :=
  fires_of_timestep (Run.step_eq hrun hstep)

theorem SolverRun.fires_getElem {config : Config α} {start : Int} {steps : List (Step α)}
    {state : State α} (hrun : SolverRun config start steps state) {i : ℕ} (hi : i < steps.length) :
    Fires config.signpostClient steps[i].before steps[i].input steps[i].after steps[i].output :=
  hrun.fires (List.getElem_mem hi)

end Signpost.Solver

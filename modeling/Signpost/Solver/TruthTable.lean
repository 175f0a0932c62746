import Mathlib.Data.List.Induction
import Signpost.Bloom.History
import Signpost.Solver.Timestep

/-! # The truth table as a map of latest provisions

The purpose of the truth table is to answer, for a key and a time, with the
latest provision that is still live at that time. The solver instead keeps a
physical table with deferred updates and a garbage collector that runs every
ten seconds. The table refines the map over all runs.
-/

namespace Signpost.Solver

open Bloom Machine

variable {α : Type}

/-! ## Abstract state: the history of provisions -/

/-- A provision and the time at which it was processed. -/
abbrev Provided (α : Type) := Provision α × Int

/-- Everything provided up to the end of a run, the initial truths first. -/
def provisions (config : Config α) (start : Int) (steps : List (Step α)) : List (Provided α) :=
  (initialTruths config).map (·, start) ++
    steps.flatMap fun step => step.input.provided.map (·, step.input.now)

/-- The rows that a history of provisions leaves, in order. -/
def storedRows (history : List (Provided α)) : List (TruthRow α) :=
  history.filterMap fun provided => storedRow provided.2 provided.1

/-- The row of the most recent provision of a key with a positive TTL. -/
def latestStored (history : List (Provided α)) (k : TruthKey) : Option (TruthRow α) :=
  latest TruthRow.key (storedRows history) k

/-- The most recent provision of a key, whatever its TTL. -/
def latestProvided (history : List (Provided α)) (k : TruthKey) : Option (Provided α) :=
  latest (fun provided => provided.1.key) history k

/-- The map that the table refines: the latest provision while it is live. -/
def liveTruth (history : List (Provided α)) (now : Int) (k : TruthKey) : Option (TruthRow α) :=
  (latestStored history k).filter (ttlIsValid now)

/-- The clock readings of a run. -/
def readings (start : Int) (steps : List (Step α)) : List Int :=
  start :: steps.map (fun step => step.input.now)

/-- The row had expired at some reading of the clock. -/
def ExpiredDuring (clock : List Int) (row : TruthRow α) : Prop :=
  ∃ reading ∈ clock, ttlIsValid reading row = false

theorem provisions_append (config : Config α) (start : Int) (steps : List (Step α))
    (step : Step α) :
    provisions config start (steps ++ [step]) =
      provisions config start steps ++ step.input.provided.map (·, step.input.now) := by
  simp [provisions]

theorem storedRows_append (history : List (Provided α)) (batch : Batch α) :
    storedRows (history ++ batch.provided.map (·, batch.now)) =
      storedRows history ++ batch.stored := by
  simp only [storedRows, Batch.stored, List.filterMap_append, List.filterMap_map]
  rfl

theorem readings_append (start : Int) (steps : List (Step α)) (step : Step α) :
    readings start (steps ++ [step]) = readings start steps ++ [step.input.now] := by
  simp [readings]

theorem ttlIsValid_antitone {now later : Int} (hle : now ≤ later) {row : TruthRow α}
    (hexpired : ttlIsValid now row = false) : ttlIsValid later row = false := by
  unfold ttlIsValid at *
  split
  next => rfl
  next hstate =>
    simp only [hstate, gt_iff_lt, decide_eq_false_iff_not] at hexpired ⊢
    omega

/-- A row carries the expiry of the provision that left it. -/
theorem expiry_of_latestStored {history : List (Provided α)} {k : TruthKey} {row : TruthRow α}
    (hlatest : latestStored history k = some row) :
    ∃ provided ∈ history, row.fact = provided.1.fact ∧ ∃ ttl, 0 < ttl ∧
      provided.1.ttl = some ttl ∧ row.ttlState = .cacheable ttl (provided.2 + ttl) := by
  obtain ⟨provided, hprovided, hstored⟩ := List.mem_filterMap.mp (mem_of_latest hlatest).1
  obtain ⟨hfact, hrest⟩ := storedRow_eq_some_iff.mp hstored
  exact ⟨provided, hprovided, hfact, hrest⟩

theorem readings_take_le {start : Int} {steps : List (Step α)}
    (hclock : (readings start steps).Pairwise (· ≤ ·)) {i : ℕ} (hi : i < steps.length) :
    ∀ reading ∈ readings start (steps.take i), reading ≤ steps[i].input.now := by
  have hsplit : readings start steps =
      readings start (steps.take i) ++ steps[i].input.now ::
        (steps.drop (i + 1)).map (fun step => step.input.now) := by
    have hsteps : steps = steps.take i ++ steps[i] :: steps.drop (i + 1) := by
      rw [← List.drop_eq_getElem_cons hi, List.take_append_drop]
    refine (congrArg (readings start) hsteps).trans ?_
    simp only [readings, List.map_append, List.map_cons, List.cons_append]
  rw [hsplit] at hclock
  intro reading hreading
  exact (List.pairwise_append.mp hclock).2.2 reading hreading _ List.mem_cons_self

theorem expires_of_valid {now : Int} {row : TruthRow α} (hvalid : ttlIsValid now row = true) :
    ∃ ttl expires, row.ttlState = .cacheable ttl expires ∧ now < expires := by
  unfold ttlIsValid at hvalid
  split at hvalid
  next => cases hvalid
  next ttl expires hstate => exact ⟨ttl, expires, hstate, by simpa using hvalid⟩

/-- Rows that expired at an earlier reading are not live. -/
theorem live_rows_of_tracks {truths : Collection (@TruthRow.key α)}
    {history : List (Provided α)} {clock : List Int}
    (htracks : Tracks truths (storedRows history) (ExpiredDuring clock)) {now : Int}
    (hnow : ∀ reading ∈ clock, reading ≤ now) (k : TruthKey) :
    (truths.lookup k).filter (ttlIsValid now) = liveTruth history now k := by
  refine htracks.lookup_filter ?_ k
  rintro row ⟨reading, hreading, hexpired⟩
  exact ttlIsValid_antitone (hnow reading hreading) hexpired

/-- The last provision of a key, if its TTL is positive, is the one that the
table holds. -/
theorem latestStored_of_latestProvided {history : List (Provided α)} {k : TruthKey}
    {provided : Provided α} (hlatest : latestProvided history k = some provided)
    {row : TruthRow α} (hrow : storedRow provided.2 provided.1 = some row) :
    latestStored history k = some row := by
  induction history using List.reverseRecOn with
  | nil => cases hlatest
  | append_singleton history last ih =>
      rw [latestProvided, latest_concat] at hlatest
      rw [latestStored, storedRows, List.filterMap_append, latest_append]
      -- a later provision of another key changes neither history of this one
      split at hlatest
      next hkey =>
        obtain rfl := Option.some.inj hlatest
        have hrowKey : row.key = k := (key_of_storedRow hrow).trans hkey
        simp [hrow, latest, hrowKey]
      next hkey =>
        have hnone : latest TruthRow.key
            ([last].filterMap fun provided => storedRow provided.2 provided.1) k = none := by
          rw [latest_eq_none_iff]
          intro other hother heq
          obtain ⟨_, hmem, hstored⟩ := List.mem_filterMap.mp hother
          rw [List.mem_singleton] at hmem
          subst hmem
          exact hkey ((key_of_storedRow hstored).symm.trans heq)
        rw [hnone, Option.none_or]
        exact ih hlatest

/-! ## Simulation -/

variable [DecidableEq α]

theorem tracks_initial (config : Config α) (start : Int) :
    Tracks (initial config start).truths (storedRows (provisions config start []))
      (ExpiredDuring (readings start ([] : List (Step α)))) := by
  have hrows : storedRows (provisions config start []) =
      (initialTruths config).filterMap (storedRow start) := by
    simp only [storedRows, provisions, List.flatMap_nil, List.append_nil, List.filterMap_map]
    rfl
  have hfunctional :
      KeyFunctional TruthRow.key ((initialTruths config).filterMap (storedRow start)) :=
    storedRow_functional (initialTruths_functional config)
  rw [hrows]
  constructor
  · intro row hrow
    exact latest_of_functional hfunctional (mem_initial_truths.mp hrow)
  · intro k row hlatest
    exact Or.inl (mem_initial_truths.mpr (mem_of_latest hlatest).1)

/-- The simulation invariant: at the end of every run the table holds exactly
the latest stored provisions, except some that have expired. -/
theorem SolverRun.tracks {config : Config α} {start : Int} {steps : List (Step α)}
    {state : State α} (hrun : SolverRun config start steps state) :
    Tracks state.truths (storedRows (provisions config start steps))
      (ExpiredDuring (readings start steps)) := by
  induction hrun with
  | start => exact tracks_initial config start
  | @extend steps state next batch output prior hstep ih =>
      have hfires := fires_of_timestep hstep
      rw [provisions_append, storedRows_append, readings_append]
      refine ih.settle (storedRow_functional hfires.keys_functional.provided) ?_ ?_
        hfires.mem_truths
      · intro row hrow
        exact ⟨batch.now, by simp, (mem_garbageCollected.mp hrow).2.2⟩
      · rintro row ⟨reading, hreading, hexpired⟩
        exact ⟨reading, List.mem_append_left _ hreading, hexpired⟩

/-- Before each timestep the table tracks the provisions of the earlier ones. -/
theorem SolverRun.tracks_before {config : Config α} {start : Int} {steps : List (Step α)}
    {state : State α} (hrun : SolverRun config start steps state) {i : ℕ} (hi : i < steps.length) :
    Tracks steps[i].before.truths (storedRows (provisions config start (steps.take i)))
      (ExpiredDuring (readings start (steps.take i))) :=
  SolverRun.tracks (Run.take hrun hi)

/-- What it means for a solver run to refine the map of latest provisions. -/
structure RefinesLatestProvisions (config : Config α) (start : Int) (steps : List (Step α))
    (state : State α) : Prop where
  /-- There is at most one row per key. -/
  one_row_per_key : ∀ k, (state.truths.rows.filter (fun row => row.key = k)).length ≤ 1
  /-- A row is the one left by the most recent storable provision of its key. -/
  row_latest : ∀ row ∈ state.truths,
    latestStored (provisions config start steps) row.key = some row
  /-- A row expires its TTL after it was provided. -/
  row_expiry : ∀ row ∈ state.truths, ∃ provided ∈ provisions config start steps,
    row.fact = provided.1.fact ∧ ∃ ttl, 0 < ttl ∧ provided.1.ttl = some ttl ∧
      row.ttlState = .cacheable ttl (provided.2 + ttl)
  /-- The live rows that a timestep reads are those of the map at its time. -/
  live_rows_before : ∀ (i : ℕ) (hi : i < steps.length) k,
    (steps[i].before.truths.lookup k).filter (ttlIsValid steps[i].input.now) =
      liveTruth (provisions config start (steps.take i)) steps[i].input.now k
  /-- From the last reading of the clock on, the live rows are those of the map. -/
  live_rows : ∀ now, (∀ reading ∈ readings start steps, reading ≤ now) → ∀ k,
    (state.truths.lookup k).filter (ttlIsValid now) =
      liveTruth (provisions config start steps) now k
  /-- A row disappears when it is collected expired, or replaced under its key. -/
  removed : ∀ step ∈ steps, ∀ row ∈ step.before.truths, row ∉ step.after.truths →
    step.input.garbageCollectionTimer = true ∧ ttlIsValid step.input.now row = false ∨
      ∃ update ∈ step.input.stored, update.key = row.key
  /-- A stored provision is in the next table, also when the old row of its key
  is collected in the same timestep. -/
  provision_survives : ∀ step ∈ steps, ∀ row ∈ step.input.stored, row ∈ step.after.truths
  /-- A cache answer is the live truth of its key at that time, so its row
  expires later. -/
  answer_live : ∀ (i : ℕ) (hi : i < steps.length), ∀ who fact,
    (who, fact) ∈ steps[i].output.answered → ∃ row, row.fact = fact ∧
      liveTruth (provisions config start (steps.take i)) steps[i].input.now fact.key = some row ∧
      ∃ ttl expires, row.ttlState = .cacheable ttl expires ∧ steps[i].input.now < expires

/-- The truth table refines the map from keys to latest live provisions, over
every run with a monotone clock. -/
theorem truthTable_refines_latestProvisions {config : Config α} {start : Int}
    {steps : List (Step α)} {state : State α} (hrun : SolverRun config start steps state)
    (hclock : (readings start steps).Pairwise (· ≤ ·)) :
    RefinesLatestProvisions config start steps state where
  one_row_per_key := state.truths.length_filter_key_le_one
  row_latest := hrun.tracks.sound
  row_expiry := fun row hrow => expiry_of_latestStored (hrun.tracks.sound row hrow)
  live_rows_before := fun _ hi k =>
    live_rows_of_tracks (hrun.tracks_before hi) (readings_take_le hclock hi) k
  live_rows := fun _ hnow k => live_rows_of_tracks hrun.tracks hnow k
  removed := by
    intro step hstep row hrow hgone
    by_contra hkept
    obtain ⟨hcollected, hkey⟩ := not_or.mp hkept
    -- otherwise the row is neither deleted nor replaced, and settling keeps it
    refine hgone (((hrun.fires hstep).mem_truths row).mpr (Or.inr ⟨hrow, ?_, ?_⟩))
    · intro hmem
      exact hcollected ⟨(mem_garbageCollected.mp hmem).1, (mem_garbageCollected.mp hmem).2.2⟩
    · intro update hupdate heq
      exact hkey ⟨update, hupdate, heq⟩
  provision_survives := fun step hstep row hrow =>
    ((hrun.fires hstep).mem_truths row).mpr (Or.inl hrow)
  answer_live := by
    intro i hi who fact hanswer
    obtain ⟨row, hrow, need, _, ⟨_, ⟨_, hvalid⟩, _⟩, _, rfl⟩ :=
      ((hrun.fires_getElem hi).mem_answered who fact).mp hanswer
    refine ⟨row, rfl, ?_, expires_of_valid hvalid⟩
    rw [liveTruth, row.key_fact, latestStored, (hrun.tracks_before hi).sound row hrow,
      Option.filter_some, if_pos hvalid]

/-- A node whose DNS tactic provides an address, provides it again with a TTL of
zero, and is then asked for it. -/
def dnsConfig : Config String := ⟨"alpha", "probsteide.com", id⟩

def dnsBatches : List (Batch String) :=
  [{ provideTruth := [⟨"ip_for_domain@kle.io", "dns", "GLOBAL", "alpha", "10.0.0.1", some 300⟩]
     now := 10 },
   { provideTruth := [⟨"ip_for_domain@kle.io", "dns", "GLOBAL", "alpha", "10.0.0.2", some 0⟩]
     garbageCollectionTimer := true
     now := 20 },
   { needTruth := [⟨"ip_for_domain@kle.io", "127.0.0.1:4000", "ANY", "carol", "ping"⟩]
     now := 30 }]

def dnsSteps : List (Step String) :=
  record (timestep dnsConfig.signpostClient) (initial dnsConfig 0) dnsBatches

theorem dnsRun : SolverRun dnsConfig 0 dnsSteps
    (final (timestep dnsConfig.signpostClient) (initial dnsConfig 0) dnsBatches) :=
  run_record _ _ _

theorem truthTable_refines_latestProvisions_dns : dnsSteps.length = 3 ∧
    RefinesLatestProvisions dnsConfig 0 dnsSteps
      (final (timestep dnsConfig.signpostClient) (initial dnsConfig 0) dnsBatches) :=
  ⟨by decide, truthTable_refines_latestProvisions dnsRun (by decide)⟩

/-! ## Superseded values -/

/-- No cache answer of the run carries a value that another provision of its
key has superseded in an earlier timestep than the need. -/
def AnswersCurrent (config : Config α) (start : Int) (steps : List (Step α)) : Prop :=
  ∀ (i : ℕ) (hi : i < steps.length) who fact, (who, fact) ∈ steps[i].output.answered →
    ∀ provided, latestProvided (provisions config start (steps.take i)) fact.key = some provided →
      fact.truth = provided.1.truth

/-- Every cached row that answers a need has not been superseded by a provision
that the table did not take: the last provision of its key had a positive TTL,
or repeated the value. -/
def NoUncachedUpdate (config : Config α) (start : Int) (steps : List (Step α)) : Prop :=
  ∀ (i : ℕ) (hi : i < steps.length), ∀ need ∈ steps[i].input.needTruth,
    ∀ row ∈ steps[i].before.truths, Answers steps[i].input.now row need →
      ∀ provided, latestProvided (provisions config start (steps.take i)) row.key = some provided →
        (∃ ttl, provided.1.ttl = some ttl ∧ 0 < ttl) ∨ provided.1.truth = row.truth

/-- The cache answers only with current values exactly when no provision with a
TTL that is not positive changed the value of a row that still answers. -/
theorem answersCurrent_iff {config : Config α} {start : Int} {steps : List (Step α)}
    {state : State α} (hrun : SolverRun config start steps state) :
    AnswersCurrent config start steps ↔ NoUncachedUpdate config start steps := by
  constructor
  · intro hcurrent i hi need hneed row hrow hanswers provided hlatest
    have hanswered := ((hrun.fires_getElem hi).mem_answered need.who row.fact).mpr
      ⟨row, hrow, need, hneed, hanswers, rfl, rfl⟩
    exact Or.inr (hcurrent i hi need.who row.fact hanswered provided hlatest).symm
  · intro hupdates i hi who fact hanswered provided hlatest
    obtain ⟨row, hrow, need, hneed, hanswers, _, rfl⟩ :=
      ((hrun.fires_getElem hi).mem_answered who fact).mp hanswered
    rcases hupdates i hi need hneed row hrow hanswers provided hlatest with ⟨ttl, httl, hpos⟩ | heq
    · obtain ⟨other, hother⟩ : ∃ other, storedRow provided.2 provided.1 = some other := by
        simp [storedRow, httl, hpos]
      have hstored := latestStored_of_latestProvided hlatest hother
      have hsame := (hrun.tracks_before hi).sound row hrow
      rw [row.key_fact, latestStored, hsame] at hstored
      rw [Option.some.inj hstored]
      exact congrArg Fact.truth (storedRow_eq_some_iff.mp hother).1
    · exact heq.symm

theorem answersCurrent_iff_dns :
    AnswersCurrent dnsConfig 0 dnsSteps ↔ NoUncachedUpdate dnsConfig 0 dnsSteps :=
  answersCurrent_iff dnsRun

/-- The update with TTL zero is not stored, so the need is answered with the
address that it superseded. -/
theorem not_answersCurrent_dns : ¬ ∀ (steps : List (Step String)) (state : State String),
    SolverRun dnsConfig 0 steps state → AnswersCurrent dnsConfig 0 steps := by
  intro hclaim
  have hcurrent := hclaim _ _ dnsRun 2 (by decide) "127.0.0.1:4000"
    ⟨"ip_for_domain@kle.io", "dns", "GLOBAL", "alpha", "10.0.0.1"⟩ (by decide)
    (⟨"ip_for_domain@kle.io", "dns", "GLOBAL", "alpha", "10.0.0.2", some 0⟩, 20) (by decide)
  exact absurd hcurrent (by decide)

end Signpost.Solver

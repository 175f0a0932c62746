import Signpost.Domain.Expiry

/-! # Truths are forgotten

Truths go round between the signposts, and each signpost gives those that it tells a new
lifetime. No truth is kept alive by that: when the lifetimes of all provisions have run out,
no table answers any more, and what the garbage collector has removed does not come back.
-/

namespace Signpost.Expiry

open Flood Flood.Channels Machine Solver

variable {α δ : Type}

/-- The garbage collector of the signpost runs at this time or later. -/
def Collects (node : String) (last : Int) : Event α → Prop
  | .domain (.solve other batch) =>
      other = node ∧ batch.garbageCollectionTimer = true ∧ last ≤ batch.now
  | .domain (.external other timer now) => other = node ∧ timer = true ∧ last ≤ now
  | .domain (.deliver _ _ _) => False
  | .domain (.pruneBroadcastCache _ _) => False
  | .newChannel _ _ _ _ => False
  | .channelClosed _ _ => False

section

variable (signpostDomain : String) (ofString : String → α) (start : Int)

/-- By this time the lifetime of every provision has run out. -/
def RunOutBy (steps : List (ExpiryStep α δ)) (last : Int) : Prop :=
  ∀ fact time ttl, ProvidedFor signpostDomain ofString start steps fact time ttl →
    time + ttl ≤ last

end

variable {signpostDomain : String} {ofString : String → α} {start last : Int}
  {steps : List (ExpiryStep α δ)}

theorem RunOutBy.of_subset {later : List (ExpiryStep α δ)}
    (hlast : RunOutBy signpostDomain ofString start later last) (hsteps : steps ⊆ later) :
    RunOutBy signpostDomain ofString start steps last :=
  fun fact time ttl hprovided => hlast fact time ttl (hprovided.mono hsteps)

theorem RunOutBy.le (hlast : RunOutBy signpostDomain ofString start steps last) {fact : Fact α}
    {expires : Int} (hlasts : Lasts signpostDomain ofString start steps fact expires) :
    expires ≤ last := by
  obtain ⟨time, ttl, hprovided, hle⟩ := hlasts
  exact Int.le_trans hle (hlast fact time ttl hprovided)

/-- No table has a row that is valid then. -/
theorem Accurate.ttlIsValid_eq_false {now : Int} {state : Domain.State α δ}
    (haccurate : Accurate signpostDomain ofString start steps now state)
    (hlast : RunOutBy signpostDomain ofString start steps last) {node : String} {row : TruthRow α}
    (hrow : row ∈ (state.solvers node).truths) {time : Int} (hle : last ≤ time) :
    ttlIsValid time row = false := by
  unfold ttlIsValid
  split
  next => rfl
  next ttl expires hstate =>
    have hexpires := hlast.le (haccurate.cached node row hrow ttl expires hstate)
    simp only [gt_iff_lt, decide_eq_false_iff_not]
    omega

/-! ## One step -/

section

variable {name : String} {solver after : Solver.State α} {batch : Batch α}
  {solved : Solver.Output α}

/-- A row that is stored is valid at that time. -/
theorem ttlIsValid_of_stored {truth : TruthRow α} (hstored : truth ∈ batch.stored) :
    ttlIsValid batch.now truth = true := by
  obtain ⟨provision, -, hrow⟩ := List.mem_filterMap.mp hstored
  obtain ⟨-, ttl, hpos, -, hstate⟩ := storedRow_eq_some_iff.mp hrow
  simp only [ttlIsValid, hstate, gt_iff_lt, decide_eq_true_eq]
  omega

/-- A timestep after which no row is valid adds none, and leaves none if the garbage collector
has run. -/
theorem truths_of_invalid (hfires : Fires name solver batch after solved)
    (hinvalid : ∀ row ∈ after.truths, ttlIsValid batch.now row = false) :
    ∀ row ∈ after.truths, row ∈ solver.truths ∧ batch.garbageCollectionTimer = false := by
  intro row hrow
  rcases (hfires.mem_truths row).mp hrow with hstored | ⟨hold, hkept, -⟩
  · have hvalid := ttlIsValid_of_stored hstored
    rw [hinvalid row hrow] at hvalid
    cases hvalid
  -- a row that is not valid is kept only where nothing is collected
  · refine ⟨hold, ?_⟩
    by_contra htimer
    rw [Bool.not_eq_false] at htimer
    exact hkept (mem_garbageCollected.mpr ⟨htimer, hold, hinvalid row hrow⟩)

end

section

variable [DecidableEq α] [DecidableEq δ] {digest : Data α → δ} {graph : Graph}
  {state next : State α δ} {event : Event α} {output : Domain.Output α}

theorem truths_solve {before after : Domain.State α δ} {node other : String} {batch : Batch α}
    (hok : Domain.solve graph digest before other batch = .ok (after, output))
    (hinvalid : ∀ row ∈ (after.solvers node).truths, ttlIsValid batch.now row = false) :
    ∀ row ∈ (after.solvers node).truths, row ∈ (before.solvers node).truths ∧
      ¬ (other = node ∧ batch.garbageCollectionTimer = true) := by
  intro row hrow
  obtain ⟨solver, solved, hfires, hsolvers, -⟩ := Domain.solve_cases hok
  by_cases hnode : node = other
  · subst hnode
    have hafter : after.solvers node = solver := by rw [hsolvers, Function.update_self]
    rw [hafter] at hrow hinvalid
    obtain ⟨hold, htimer⟩ := truths_of_invalid hfires hinvalid row hrow
    refine ⟨hold, fun hcollects => ?_⟩
    rw [htimer] at hcollects
    cases hcollects.2
  · rw [hsolvers, Function.update_of_ne hnode] at hrow
    exact ⟨hrow, fun hcollects => hnode hcollects.1.symm⟩

/-- From then on a step adds no row to any table, and a collection leaves none. -/
theorem truths_step {node : String} (hok : step digest state event = .ok (next, output))
    (hinvalid : ∀ row ∈ (next.domain.solvers node).truths, ttlIsValid event.now row = false) :
    ∀ row ∈ (next.domain.solvers node).truths,
      row ∈ (state.domain.solvers node).truths ∧ ¬ Collects node last event := by
  intro row hrow
  cases event with
  | domain input =>
      have hdomain := step_domain hok
      cases input with
      | solve other batch =>
          obtain ⟨-, -, hsolve⟩ := Domain.step_solve hdomain
          obtain ⟨hold, hnot⟩ := truths_solve hsolve hinvalid row hrow
          exact ⟨hold, fun hcollects => hnot ⟨hcollects.1, hcollects.2.1⟩⟩
      | external other timer now =>
          obtain ⟨received, rest, -, hsolve⟩ := Domain.step_external hdomain
          obtain ⟨hold, hnot⟩ := truths_solve hsolve hinvalid row hrow
          exact ⟨hold, fun hcollects => hnot ⟨hcollects.1, hcollects.2.1⟩⟩
      | deliver sender receiver now =>
          rw [Domain.solver_unchanged hdomain (by simp) (by simp)] at hrow
          exact ⟨hrow, id⟩
      | pruneBroadcastCache other now =>
          rw [Domain.solver_unchanged hdomain (by simp) (by simp)] at hrow
          exact ⟨hrow, id⟩
  | newChannel opened other peer now =>
      simp only [step] at hok
      split at hok
      next => cases hok
      next =>
        obtain ⟨rfl, -⟩ := Prod.mk.inj (Except.ok.inj hok)
        exact ⟨hrow, id⟩
  | channelClosed remaining now =>
      obtain ⟨rfl, -⟩ := Prod.mk.inj (Except.ok.inj hok)
      exact ⟨hrow, id⟩

omit [DecidableEq α] in
theorem Collects.le_now {node : String} (hcollects : Collects node last event) :
    last ≤ event.now := by
  cases event with
  | domain input =>
      cases input with
      | solve other batch => exact hcollects.2.2
      | external other timer now => exact hcollects.2.2
      | deliver sender receiver now => exact hcollects.elim
      | pruneBroadcastCache other now => exact hcollects.elim
  | newChannel opened other peer now => exact hcollects.elim
  | channelClosed remaining now => exact hcollects.elim

/-! ## Every run -/

/-- A collection that comes after the last lifetime empties the table for good. -/
theorem collected_of_run
    (hrun : ExpiryRun digest graph signpostDomain ofString start steps state)
    (hinstantaneous : Instantaneous start steps)
    (hlast : RunOutBy signpostDomain ofString start steps last) {node : String}
    (hcollected : ∃ now ∈ steps, Collects node last now.input) :
    last ≤ clock start steps ∧ ∀ row, row ∉ (state.domain.solvers node).truths := by
  induction hrun with
  | start =>
      obtain ⟨now, hnow, -⟩ := hcollected
      cases hnow
  | @extend steps state next event output prior hok ih =>
      have hsubset := List.subset_append_left steps [⟨state, event, output, next⟩]
      have hnow : clock start (steps ++ [⟨state, event, output, next⟩]) = event.now :=
        clock_concat ..
      have haccurate := accurate_of_run (.extend prior hok) hinstantaneous
      have hstep : last ≤ event.now → ∀ row ∈ (next.domain.solvers node).truths,
          row ∈ (state.domain.solvers node).truths ∧ ¬ Collects node last event := fun hle =>
        truths_step hok fun row hrow => haccurate.ttlIsValid_eq_false hlast hrow hle
      rw [hnow]
      obtain ⟨now, hmem, hcollects⟩ := hcollected
      rcases List.mem_append.mp hmem with hold | hnew
      -- the table was empty, and clocks do not go back
      · obtain ⟨hle, hempty⟩ := ih (hinstantaneous.of_isPrefix (List.prefix_append _ _))
          (hlast.of_subset hsubset) ⟨now, hold, hcollects⟩
        have hlater := Int.le_trans hle (hinstantaneous steps _ (List.prefix_refl _)).1
        exact ⟨hlater, fun row hrow => hempty row (hstep hlater row hrow).1⟩
      · obtain rfl := List.mem_singleton.mp hnew
        have hle := hcollects.le_now
        exact ⟨hle, fun row hrow => (hstep hle row hrow).2 hcollects⟩

/-- However truths go round, and whatever channels are opened and closed: when all lifetimes
have run out, no table of any signpost has a row that is valid, and once its garbage collector
has run its table is empty and stays so. -/
theorem forgotten_of_run
    (hrun : ExpiryRun digest graph signpostDomain ofString start steps state)
    (hinstantaneous : Instantaneous start steps)
    (hlast : RunOutBy signpostDomain ofString start steps last) (node : String) :
    (last ≤ clock start steps →
      ∀ row ∈ (state.domain.solvers node).truths, ttlIsValid (clock start steps) row = false) ∧
    ((∃ now ∈ steps, Collects node last now.input) →
      ∀ row, row ∉ (state.domain.solvers node).truths) := by
  constructor
  · intro hle row hrow
    exact (accurate_of_run hrun hinstantaneous).ttlIsValid_eq_false hlast hrow hle
  · intro hcollected
    exact (collected_of_run hrun hinstantaneous hlast hcollected).2

end

/-! ## Two signposts that meet too late -/

/-- Alpha still sends the truths that it has, and the garbage collector of beta runs when
they arrive. -/
def forgettingEvents : List (Event String) := joiningEvents 1000000 true

def forgettingSteps : List (ExpiryStep String (Data String)) :=
  record (step id) (initial apart "probsteide.com" id 0) forgettingEvents

theorem length_forgetting : forgettingSteps.length = 13 := by decide

theorem instantaneous_forgetting : Instantaneous 0 forgettingSteps :=
  instantaneous_joining (by decide) (by decide)

theorem runOutBy_forgetting : RunOutBy "probsteide.com" id 0 forgettingSteps 1000000 := by
  have hprovisions : ∀ step ∈ forgettingSteps, ∀ provided ∈ step.input.provisions,
      provided.2 = 10 ∧ provided.1.ttl = some 10 := by decide
  rintro fact time ttl ⟨row, -, httl, ⟨step, hstep, hrow⟩ | ⟨rfl, node, hrow⟩⟩
  · obtain ⟨htime, hten⟩ := hprovisions step hstep (row, time) hrow
    simp only at htime hten
    rw [httl, Option.some_inj] at hten
    omega
  · simp only [initialTruths, List.mem_cons, List.not_mem_nil, or_false] at hrow
    rcases hrow with rfl | rfl
    · rw [← Option.some.inj httl]
      decide
    · rw [← Option.some.inj httl]
      decide

def forgottenState : State String (Data String) :=
  final (step id) (initial apart "probsteide.com" id 0) forgettingEvents

/-- Alpha has rows left, none of which is valid, and beta has none. -/
theorem forgotten_of_run_joining :
    (forgottenState.domain.solvers "alpha").truths.rows ≠ [] ∧
      (∀ row ∈ (forgottenState.domain.solvers "alpha").truths, ttlIsValid 1000000 row = false) ∧
      (forgottenState.domain.solvers "beta").truths.rows = [] := by
  have hrun := run_record (step id) (initial apart "probsteide.com" id 0) forgettingEvents
  have hclock : clock 0 forgettingSteps = 1000000 := by decide
  refine ⟨by decide, ?_, List.eq_nil_iff_forall_not_mem.mpr ?_⟩
  · rw [← hclock]
    exact (forgotten_of_run hrun instantaneous_forgetting runOutBy_forgetting "alpha").1
      (Int.le_of_eq hclock.symm)
  · exact (forgotten_of_run hrun instantaneous_forgetting runOutBy_forgetting "beta").2
      ⟨forgettingSteps.get ⟨10, length_forgetting ▸ by decide⟩, List.get_mem _ _,
        ⟨rfl, rfl, Int.le_refl _⟩⟩

end Signpost.Expiry

import Mathlib.Data.List.Basic
import Mathlib.Order.Basic
import Mathlib.Data.Nat.Init

/-! # Recorded runs of fallible machines

A machine maps a state and an input to a next state and an output, or fails.
A run records every transition it makes. Properties of a run are stated over
its record, so that they may relate the states, inputs and outputs of
different steps.
-/

namespace Machine

universe u

variable {σ ι ο ε : Type*}

/-! ## Sequencing of fallible computations -/

theorem bind_eq_ok {α β : Type u} {first : Except ε α} {rest : α → Except ε β} {result : β} :
    first >>= rest = .ok result ↔ ∃ value, first = .ok value ∧ rest value = .ok result := by
  cases first <;> simp [bind, Except.bind]

theorem bind_eq_error {α β : Type u} {first : Except ε α} {rest : α → Except ε β} {error : ε} :
    first >>= rest = .error error ↔
      first = .error error ∨ ∃ value, first = .ok value ∧ rest value = .error error := by
  cases first <;> simp [bind, Except.bind]

/-! ## Runs -/

/-- One recorded step of a run. -/
structure Transition (σ ι ο : Type*) where
  before : σ
  input : ι
  output : ο
  after : σ

/-- Runs of a machine from a start state, extended at their end. -/
inductive Run (step : σ → ι → Except ε (σ × ο)) (start : σ) :
    List (Transition σ ι ο) → σ → Prop
  | start : Run step start [] start
  | extend {steps : List (Transition σ ι ο)} {state next : σ} {input : ι} {output : ο}
      (prior : Run step start steps state) (hstep : step state input = .ok (next, output)) :
      Run step start (steps ++ [⟨state, input, output, next⟩]) next

/-- A transition that ends a prefix of a record is at an index of the record. -/
theorem exists_getElem_of_isPrefix {steps before : List (Transition σ ι ο)} {now : Transition σ ι ο}
    (hinitial : before ++ [now] <+: steps) :
    ∃ (i : ℕ) (hi : i < steps.length), before = steps.take i ∧ now = steps[i] := by
  obtain ⟨later, rfl⟩ := hinitial
  refine ⟨before.length, ?_, ?_, ?_⟩
  · simp
  · simp
  · simp

/-- An entry of an extended record is the last one, or one of the record before. -/
theorem append_cons_eq_concat {τ : Type*} {earlier later steps : List τ} {now last : τ} :
    earlier ++ now :: later = steps ++ [last] ↔
      earlier = steps ∧ now = last ∧ later = [] ∨
        ∃ rest, later = rest ++ [last] ∧ earlier ++ now :: rest = steps := by
  constructor
  · intro hsteps
    rcases List.eq_nil_or_concat later with rfl | ⟨rest, final, rfl⟩
    · obtain ⟨hbefore, hlast⟩ := List.append_inj' hsteps rfl
      exact Or.inl ⟨hbefore, (List.cons.inj hlast).1, rfl⟩
    · rw [List.concat_eq_append, ← List.cons_append, ← List.append_assoc] at hsteps
      obtain ⟨hbefore, hlast⟩ := List.append_inj' hsteps rfl
      rw [List.concat_eq_append, (List.cons.inj hlast).1]
      exact Or.inr ⟨rest, rfl, hbefore⟩
  · rintro (⟨rfl, rfl, rfl⟩ | ⟨rest, rfl, rfl⟩)
    · rfl
    · simp

/-- Some entry of a record has a property that may depend on what follows it. -/
def Sometime {τ : Type*} (P : τ → List τ → Prop) (steps : List τ) : Prop :=
  ∃ earlier now later, steps = earlier ++ now :: later ∧ P now later

/-- The entry is the last one, or has the property with the last one after it. -/
theorem sometime_concat {τ : Type*} {P : τ → List τ → Prop} {steps : List τ} {last : τ} :
    Sometime P (steps ++ [last]) ↔
      P last [] ∨ Sometime (fun now later => P now (later ++ [last])) steps := by
  constructor
  · rintro ⟨earlier, now, later, hsteps, hnow⟩
    rcases append_cons_eq_concat.mp hsteps.symm with ⟨_, rfl, rfl⟩ | ⟨rest, rfl, hbefore⟩
    · exact Or.inl hnow
    · exact Or.inr ⟨earlier, now, rest, hbefore.symm, hnow⟩
  · rintro (hlast | ⟨earlier, now, later, rfl, hnow⟩)
    · exact ⟨steps, last, [], rfl, hlast⟩
    · exact ⟨earlier, now, later ++ [last], by simp, hnow⟩

namespace Run

variable {step : σ → ι → Except ε (σ × ο)} {start state : σ} {steps : List (Transition σ ι ο)}

/-- A predicate that holds at the start and is kept by every step holds at the
end of every run. -/
theorem invariant {P : σ → Prop} (hrun : Run step start steps state) (hstart : P start)
    (hstep : ∀ state input next output, P state → step state input = .ok (next, output) → P next) :
    P state := by
  induction hrun with
  | start => exact hstart
  | extend prior hnext ih => exact hstep _ _ _ _ ih hnext

/-- Every prefix of a run is a run, and is followed by a step of the machine. -/
theorem of_isPrefix (hrun : Run step start steps state) {before : List (Transition σ ι ο)}
    {now : Transition σ ι ο} (hinitial : before ++ [now] <+: steps) :
    Run step start before now.before ∧ step now.before now.input = .ok (now.after, now.output) := by
  induction hrun with
  | start =>
      exact absurd (List.prefix_nil.mp hinitial) (List.append_ne_nil_of_right_ne_nil _ (by simp))
  | @extend steps state next input output prior hstep ih =>
      rcases List.prefix_concat_iff.mp hinitial with heq | hold
      · obtain ⟨rfl, hlast⟩ := List.append_inj' heq rfl
        rw [List.cons.injEq] at hlast
        rw [hlast.1]
        exact ⟨prior, hstep⟩
      · exact ih hold

/-- Every recorded transition is a step of the machine, from a state reached by
the part of the run recorded before it. -/
theorem exists_isPrefix (hrun : Run step start steps state) {now : Transition σ ι ο}
    (hnow : now ∈ steps) :
    ∃ before, (before ++ [now]) <+: steps ∧ Run step start before now.before ∧
      step now.before now.input = .ok (now.after, now.output) := by
  obtain ⟨before, later, rfl⟩ := List.append_of_mem hnow
  have hinitial : before ++ [now] <+: before ++ now :: later := ⟨later, by simp⟩
  exact ⟨before, hinitial, hrun.of_isPrefix hinitial⟩

theorem step_eq (hrun : Run step start steps state) {now : Transition σ ι ο}
    (hnow : now ∈ steps) : step now.before now.input = .ok (now.after, now.output) := by
  obtain ⟨_, _, _, hok⟩ := hrun.exists_isPrefix hnow
  exact hok

/-- The state before the transition recorded at an index is reached by the
transitions recorded before that index. -/
theorem take (hrun : Run step start steps state) {index : ℕ} (hindex : index < steps.length) :
    Run step start (steps.take index) steps[index].before := by
  induction hrun with
  | start => simp at hindex
  | @extend steps state next input output prior hstep ih =>
      by_cases hlast : index < steps.length
      · rw [List.getElem_append_left hlast, List.take_append_of_le_length (Nat.le_of_lt hlast)]
        exact ih hlast
      · have heq : index = steps.length := by
          simp only [List.length_append, List.length_singleton] at hindex
          omega
        subst heq
        simpa using prior

/-- Consecutive transitions share the state between them. -/
theorem before_succ (hrun : Run step start steps state) {index : ℕ}
    (hindex : index + 1 < steps.length) :
    steps[index + 1].before = steps[index].after := by
  have htake := hrun.take hindex
  rw [List.take_succ_eq_append_getElem (by omega)] at htake
  generalize hlist : steps.take index ++ [steps[index]] = recorded at htake
  cases htake with
  | start => exact absurd hlist (List.append_ne_nil_of_right_ne_nil _ (List.cons_ne_nil _ _))
  | extend prior hstep =>
      have hlast := List.append_inj_right' hlist rfl
      rw [List.cons.injEq] at hlast
      rw [hlast.1]

/-- What holds after one transition and is kept by all transitions up to a
later one holds before the later one. -/
theorem between {P : σ → Prop} (hrun : Run step start steps state) {first last : ℕ}
    (horder : first < last) (hlast : last < steps.length)
    (hfirst : P steps[first].after)
    (hkeep : ∀ middle (hmiddle : middle < steps.length), first < middle → middle < last →
      P steps[middle].before → P steps[middle].after) :
    P steps[last].before := by
  induction last, horder using Nat.le_induction with
  | base => exact (hrun.before_succ hlast) ▸ hfirst
  | succ last horder ih =>
      rw [hrun.before_succ hlast]
      apply hkeep last (by omega) horder (Nat.lt_succ_self last)
      apply ih (by omega)
      · exact hfirst
      · intro middle hmiddle hlow hhigh
        exact hkeep middle hmiddle hlow (by omega)

/-- What holds after one transition and is kept by all later ones holds at the
end. It may depend on what is recorded in between. -/
theorem since {P : List (Transition σ ι ο) → σ → Prop} {earlier later : List (Transition σ ι ο)}
    {now : Transition σ ι ο} (hrun : Run step start (earlier ++ now :: later) state)
    (hnow : P [] now.after)
    (hkeep : ∀ middle last, middle ++ [last] <+: later →
      step last.before last.input = .ok (last.after, last.output) → P middle last.before →
        P (middle ++ [last]) last.after) : P later state := by
  generalize hsteps : earlier ++ now :: later = steps at hrun
  induction hrun generalizing later with
  | start => simp at hsteps
  | @extend steps state next input output prior hstep ih =>
      rcases append_cons_eq_concat.mp hsteps with ⟨_, rfl, rfl⟩ | ⟨rest, rfl, hbefore⟩
      · exact hnow
      · apply hkeep rest ⟨state, input, output, next⟩ List.prefix_rfl hstep
        apply ih _ hbefore
        intro middle last hinitial
        exact hkeep middle last (hinitial.trans (List.prefix_append _ _))

theorem onward {P : σ → Prop} {earlier later : List (Transition σ ι ο)} {now : Transition σ ι ο}
    (hrun : Run step start (earlier ++ now :: later) state) (hnow : P now.after)
    (hkeep : ∀ last ∈ later, P last.before → P last.after) : P state := by
  apply hrun.since (P := fun _ state => P state) hnow
  intro middle last hinitial _ hbefore
  exact hkeep last (hinitial.subset (List.mem_append_right _ List.mem_cons_self)) hbefore

/-- Prefix a run with one more first step. -/
theorem cons {next : σ} {input : ι} {output : ο}
    (hstep : step start input = .ok (next, output)) (hrun : Run step next steps state) :
    Run step start (⟨start, input, output, next⟩ :: steps) state := by
  induction hrun with
  | start => exact .extend .start hstep
  | extend _ hlast ih => exact .extend ih hlast

end Run

/-- The record of feeding inputs to a machine until one of them fails. -/
def record (step : σ → ι → Except ε (σ × ο)) : σ → List ι → List (Transition σ ι ο)
  | _, [] => []
  | state, input :: inputs =>
      match step state input with
      | .ok (next, output) => ⟨state, input, output, next⟩ :: record step next inputs
      | .error _ => []

/-- The state in which feeding inputs to a machine ends. -/
def final (step : σ → ι → Except ε (σ × ο)) : σ → List ι → σ
  | state, [] => state
  | state, input :: inputs =>
      match step state input with
      | .ok (next, _) => final step next inputs
      | .error _ => state

theorem run_record (step : σ → ι → Except ε (σ × ο)) (start : σ) (inputs : List ι) :
    Run step start (record step start inputs) (final step start inputs) := by
  induction inputs generalizing start with
  | nil => exact .start
  | cons input inputs ih =>
      unfold record final
      cases hstep : step start input with
      | error error => exact .start
      | ok result => exact .cons hstep (ih result.1)

theorem input_mem_of_record {step : σ → ι → Except ε (σ × ο)} {start : σ} {inputs : List ι}
    {transition : Transition σ ι ο} (hmem : transition ∈ record step start inputs) :
    transition.input ∈ inputs := by
  induction inputs generalizing start with
  | nil => cases hmem
  | cons input inputs ih =>
      unfold record at hmem
      cases hstep : step start input with
      | error error =>
          rw [hstep] at hmem
          cases hmem
      | ok result =>
          rw [hstep] at hmem
          rcases List.mem_cons.mp hmem with rfl | hrest
          · exact List.mem_cons_self
          · exact List.mem_cons_of_mem _ (ih hrest)

/-- Feeding inputs to a machine brings it to a state where it takes an input. -/
def Reaches (step : σ → ι → Except ε (σ × ο)) (start : σ) (inputs : List ι) (state : σ)
    (input : ι) : Prop :=
  ∃ steps, Run step start steps state ∧
    (steps.map (fun transition => transition.input)) ++ [input] <+: inputs

/-- A condition on states and inputs that is met whenever the machine takes one of
the inputs. -/
def Throughout (step : σ → ι → Except ε (σ × ο)) (P : σ → ι → Prop) : σ → List ι → Prop
  | _, [] => True
  | state, input :: inputs => P state input ∧
      ∀ next output, step state input = .ok (next, output) → Throughout step P next inputs

instance Throughout.decidable (step : σ → ι → Except ε (σ × ο)) (P : σ → ι → Prop)
    [∀ state input, Decidable (P state input)] :
    ∀ state inputs, Decidable (Throughout step P state inputs)
  | _, [] => isTrue trivial
  | state, input :: inputs =>
      match hstep : step state input with
      | .error _ => decidable_of_iff (P state input) (by simp [Throughout, hstep])
      | .ok (next, output) =>
          have := Throughout.decidable step P next inputs
          decidable_of_iff (P state input ∧ Throughout step P next inputs) <| by
            simp only [Throughout, hstep, Except.ok.injEq, Prod.mk.injEq]
            refine and_congr_right fun _ => ⟨?_, fun hall => hall next output ⟨rfl, rfl⟩⟩
            rintro hnext _ _ ⟨rfl, rfl⟩
            exact hnext

theorem Throughout.of_reaches {step : σ → ι → Except ε (σ × ο)} {P : σ → ι → Prop} {start : σ}
    {inputs : List ι} (hall : Throughout step P start inputs) {state : σ} {input : ι}
    (hreaches : Reaches step start inputs state input) : P state input := by
  obtain ⟨steps, hrun, rest, rfl⟩ := hreaches
  rw [List.append_assoc, List.singleton_append] at hall
  have hlater : Throughout step P state (input :: rest) := by
    induction hrun generalizing input rest with
    | start => exact hall
    | @extend steps state next middle output prior hstep ih =>
        rw [List.map_append, List.append_assoc] at hall
        exact (ih (input :: rest) hall).2 _ _ hstep
  exact hlater.1

end Machine

import Signpost.Machine.Run

/-! # Machines that come to rest

A measure that every step makes smaller bounds the length of runs. If a step can be made
wherever a machine is not at rest, it can be brought to rest.
-/

namespace Machine

variable {σ ι ο ε : Type*} {step : σ → ι → Except ε (σ × ο)} {start state : σ}
  {steps : List (Transition σ ι ο)}

/-- Some inputs keep what holds of a state, and make its measure smaller. -/
structure Descends (step : σ → ι → Except ε (σ × ο)) (holds : σ → Prop) (allowed : ι → Prop)
    (measure : σ → ℕ) : Prop where
  keeps : ∀ {state next input output}, holds state → allowed input →
    step state input = .ok (next, output) → holds next
  descends : ∀ {state next input output}, holds state → allowed input →
    step state input = .ok (next, output) → measure next < measure state

variable {holds : σ → Prop} {allowed : ι → Prop} {measure : σ → ℕ}

theorem Run.length_add_le (hrun : Run step start steps state)
    (hdescends : Descends step holds allowed measure) (hstart : holds start)
    (hallowed : ∀ step ∈ steps, allowed step.input) :
    holds state ∧ steps.length + measure state ≤ measure start := by
  induction hrun with
  | start => exact ⟨hstart, by simp⟩
  | @extend steps state next input output prior hstep ih =>
      obtain ⟨hholds, hlength⟩ := ih fun step hmem => hallowed step (List.mem_append_left _ hmem)
      have hinput : allowed input := hallowed ⟨state, input, output, next⟩ List.mem_concat_self
      have hlt := hdescends.descends hholds hinput hstep
      refine ⟨hdescends.keeps hholds hinput hstep, ?_⟩
      rw [List.length_append, List.length_singleton]
      omega

theorem exists_run_to_rest {rest : σ → Prop} (hdescends : Descends step holds allowed measure)
    (hprogress : ∀ state, holds state → ¬ rest state →
      ∃ input next output, allowed input ∧ step state input = .ok (next, output))
    (hstart : holds start) :
    ∃ steps state, Run step start steps state ∧ (∀ step ∈ steps, allowed step.input) ∧
      rest state := by
  induction hmeasure : measure start using Nat.strong_induction_on generalizing start with
  | _ bound ih =>
      by_cases hrest : rest start
      · exact ⟨[], start, .start, fun _ hmem => absurd hmem List.not_mem_nil, hrest⟩
      · obtain ⟨input, next, output, hallowed, hstep⟩ := hprogress start hstart hrest
        have hlt := hdescends.descends hstart hallowed hstep
        obtain ⟨steps, state, hrun, hinputs, hstate⟩ :=
          ih (measure next) (hmeasure ▸ hlt) (hdescends.keeps hstart hallowed hstep) rfl
        refine ⟨⟨start, input, output, next⟩ :: steps, state, hrun.cons hstep, ?_, hstate⟩
        intro step hmem
        rcases List.mem_cons.mp hmem with rfl | hlater
        · exact hallowed
        · exact hinputs step hlater

end Machine

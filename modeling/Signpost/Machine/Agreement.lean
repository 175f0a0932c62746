import Mathlib.Data.List.Forall2
import Signpost.Machine.Run

/-! # Machines that agree

Two computations agree when they fail with the same error, or when their results are
related. Machines whose steps agree go through related states on related inputs.
-/

namespace Machine

universe u

inductive Agree {ε : Type*} {α β : Type*} (related : α → β → Prop) :
    Except ε α → Except ε β → Prop
  | error (error : ε) : Agree related (.error error) (.error error)
  | ok {left : α} {right : β} (hrelated : related left right) :
      Agree related (.ok left) (.ok right)

namespace Agree

variable {ε : Type*} {α β γ δ : Type u} {related : α → β → Prop} {later : γ → δ → Prop}

theorem bind {first : Except ε α} {other : Except ε β} {rest : α → Except ε γ}
    {more : β → Except ε δ} (hfirst : Agree related first other)
    (hrest : ∀ left right, related left right → Agree later (rest left) (more right)) :
    Agree later (first >>= rest) (other >>= more) := by
  cases hfirst with
  | error error => exact .error error
  | ok hrelated => exact hrest _ _ hrelated

end Agree

section Records

variable {σ τ ι κ ο π ε : Type*} {step : σ → ι → Except ε (σ × ο)}
  {other : τ → κ → Except ε (τ × π)}
  {states : σ → τ → Prop} {inputs : ι → κ → Prop} {outputs : ο → π → Prop}

/-- Two recorded steps from related states, on related inputs, with related outputs, to
related states. -/
structure Alike (states : σ → τ → Prop) (inputs : ι → κ → Prop) (outputs : ο → π → Prop)
    (left : Transition σ ι ο) (right : Transition τ κ π) : Prop where
  before : states left.before right.before
  input : inputs left.input right.input
  output : outputs left.output right.output
  after : states left.after right.after

/-- If one machine fails, the other one fails in the same step. -/
theorem record_alike
    (hstep : ∀ state state', states state state' → ∀ input input', inputs input input' →
      Agree (fun left right => states left.1 right.1 ∧ outputs left.2 right.2)
        (step state input) (other state' input'))
    {first : List ι} {second : List κ} (hinputs : List.Forall₂ inputs first second)
    {start : σ} {start' : τ} (hstart : states start start') :
    List.Forall₂ (Alike states inputs outputs) (record step start first)
        (record other start' second) ∧
      states (final step start first) (final other start' second) := by
  induction hinputs generalizing start start' with
  | nil => exact ⟨.nil, hstart⟩
  | @cons input input' first second hinput hinputs ih =>
      have hagree := hstep start start' hstart input input' hinput
      unfold record final
      generalize step start input = left at hagree ⊢
      generalize other start' input' = right at hagree ⊢
      cases hagree with
      | error error => exact ⟨.nil, hstart⟩
      | ok hrelated =>
          obtain ⟨hnext, houtput⟩ := hrelated
          obtain ⟨hrecord, hfinal⟩ := ih hnext
          exact ⟨.cons ⟨hstart, hinput, houtput, hnext⟩ hrecord, hfinal⟩

end Records

end Machine

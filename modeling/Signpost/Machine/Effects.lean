import Signpost.Machine.Actions

/-! # What actions do to a world

A law between the world before an action, its log and the world after it holds of all
actions that are put together from such ones, if it holds of nothing and of one piece
after the other.
-/

namespace Machine

variable {ω τ ε ι α β : Type*}

/-- A law of nothing and of one piece after the other. -/
structure Composes (law : ω → List τ → ω → Prop) : Prop where
  refl : ∀ world, law world [] world
  trans : ∀ {first entries middle later last}, law first entries middle → law middle later last →
    law first (entries ++ later) last

namespace Action

/-- Whatever an action does, the law holds of it. -/
def Obeys (law : ω → List τ → ω → Prop) (action : Action ω τ ε α) : Prop :=
  ∀ world, law world (action world).entries (action world).world

namespace Obeys

variable {law : ω → List τ → ω → Prop} (hcomposes : Composes law)

include hcomposes

theorem done (value : α) : Obeys law (Action.done value : Action ω τ ε α) := hcomposes.refl

theorem raise (e : ε) : Obeys law (Action.raise e : Action ω τ ε α) := hcomposes.refl

theorem andThen {first : Action ω τ ε α} {next : α → Action ω τ ε β} (hfirst : Obeys law first)
    (hnext : ∀ value, Obeys law (next value)) : Obeys law (first.andThen next) := by
  intro world
  cases hresult : (first world).result with
  | error e =>
      rw [andThen_of_error hresult]
      exact hfirst world
  | ok value =>
      rw [andThen_of_ok hresult]
      exact hcomposes.trans (hfirst world) (hnext value (first world).world)

theorem iter {body : ι → Action ω τ ε Unit} {inputs : List ι}
    (hbody : ∀ input ∈ inputs, Obeys law (body input)) : Obeys law (Action.iter body inputs) := by
  induction inputs with
  | nil => exact done hcomposes ()
  | cons input rest ih =>
      rw [List.forall_mem_cons] at hbody
      exact andThen hcomposes hbody.1 fun _ => ih hbody.2

theorem rescue {catches : ε → Bool} {action handler : Action ω τ ε α} (haction : Obeys law action)
    (hhandler : Obeys law handler) : Obeys law (action.rescue catches handler) := by
  intro world
  cases hresult : (action world).result with
  | ok value =>
      rw [rescue_of_ok hresult]
      exact haction world
  | error e =>
      cases hcatches : catches e with
      -- the handler goes on from the world that the action has left
      | true =>
          rw [rescue_of_caught hresult hcatches]
          exact hcomposes.trans (haction world) (hhandler _)
      | false =>
          rw [rescue_of_passed hresult hcatches]
          exact haction world

end Obeys

end Action

end Machine

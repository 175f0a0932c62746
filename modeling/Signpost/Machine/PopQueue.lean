import Mathlib.Data.List.Basic
import Mathlib.Data.Nat.Init

/-! # Queues with waiting pops

A queue of items on which pops may wait. A pushed item goes to the pop that has
waited longest, so items and waiting pops are never queued at the same time.
-/

namespace Machine

structure PopQueue (ι κ : Type*) where
  items : List ι
  popq : List κ
  one_empty : items = [] ∨ popq = []

namespace PopQueue

variable {ι κ : Type*}

def empty : PopQueue ι κ := ⟨[], [], .inl rfl⟩

/-- Add an item, or return the waiting pop that takes it. -/
def push (queue : PopQueue ι κ) (item : ι) : PopQueue ι κ × Option κ :=
  match queue with
  | ⟨items, [], _⟩ => (⟨items ++ [item], [], .inr rfl⟩, none)
  | ⟨_, waiting :: rest, _⟩ => (⟨[], rest, .inl rfl⟩, some waiting)

/-- Return the first item, or wait for one. -/
def pop (queue : PopQueue ι κ) (waiting : κ) : PopQueue ι κ × Option ι :=
  match queue with
  | ⟨[], popq, _⟩ => (⟨[], popq ++ [waiting], .inl rfl⟩, none)
  | ⟨item :: rest, _, _⟩ => (⟨rest, [], .inr rfl⟩, some item)

@[simp] theorem items_empty : (empty : PopQueue ι κ).items = [] := rfl

/-- A push queues the item if no pop waits, and otherwise hands it to the first. -/
theorem push_cases (queue : PopQueue ι κ) (item : ι) :
    (queue.popq = [] ∧ (queue.push item).2 = none ∧
      (queue.push item).1.items = queue.items ++ [item] ∧ (queue.push item).1.popq = []) ∨
    ∃ waiting, (queue.push item).2 = some waiting ∧ (queue.push item).1.items = [] ∧
      queue.popq = waiting :: (queue.push item).1.popq := by
  obtain ⟨items, popq, hempty⟩ := queue
  cases popq with
  | nil => exact Or.inl ⟨rfl, rfl, rfl, rfl⟩
  | cons waiting rest => exact Or.inr ⟨waiting, rfl, rfl, rfl⟩

/-- A pop waits if no item is queued, and otherwise takes the first. -/
theorem pop_cases (queue : PopQueue ι κ) (waiting : κ) :
    (queue.items = [] ∧ (queue.pop waiting).2 = none ∧ (queue.pop waiting).1.items = [] ∧
      (queue.pop waiting).1.popq = queue.popq ++ [waiting]) ∨
    ∃ item, (queue.pop waiting).2 = some item ∧ (queue.pop waiting).1.popq = [] ∧
      queue.items = item :: (queue.pop waiting).1.items := by
  obtain ⟨items, popq, hempty⟩ := queue
  cases items with
  | nil => exact Or.inl ⟨rfl, rfl, rfl, rfl⟩
  | cons item rest => exact Or.inr ⟨item, rfl, rfl, rfl⟩

end PopQueue

end Machine

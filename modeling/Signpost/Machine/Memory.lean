import Mathlib.Data.List.Basic

/-! # Stores into memory

A memory maps offsets to cells. Stores that are in ascending order and do not
overlap can all be read back.
-/

namespace Machine

variable {α : Type*}

abbrev Memory (α : Type*) := ℕ → α

/-- Cells that are stored from an offset on. -/
structure Store (α : Type*) where
  offset : ℕ
  cells : List α

def Store.stop (store : Store α) : ℕ := store.offset + store.cells.length

namespace Memory

variable (memory : Memory α)

def write (store : Store α) : Memory α := fun i =>
  if store.offset ≤ i then store.cells[i - store.offset]?.getD (memory i) else memory i

def writeAll (stores : List (Store α)) : Memory α := stores.foldl write memory

def read (offset count : ℕ) : List α := (List.range' offset count).map memory

/-- The cells of a store are where it has put them. -/
def Holds (store : Store α) : Prop := memory.read store.offset store.cells.length = store.cells

theorem write_of_lt {store : Store α} {i : ℕ} (hi : i < store.offset) :
    memory.write store i = memory i := by
  rw [write, if_neg (Nat.not_le.mpr hi)]

theorem holds_write (store : Store α) : (memory.write store).Holds store := by
  apply List.ext_getElem
  · simp [read]
  · intro i hi hcells
    simp [read, write, hcells]

variable {memory}

theorem Holds.congr {other : Memory α} {store : Store α} (hholds : memory.Holds store)
    (heq : ∀ i < store.stop, other i = memory i) : other.Holds store := by
  rw [Holds] at hholds ⊢
  rw [← hholds, read, read, List.length_map, List.length_range']
  refine List.map_congr_left fun i hi => heq i ?_
  rw [List.mem_range'_1] at hi
  exact hi.2

end Memory

/-- The stores follow each other between two offsets. -/
def Within : ℕ → ℕ → List (Store α) → Prop
  | lo, hi, [] => lo ≤ hi
  | lo, hi, store :: rest => lo ≤ store.offset ∧ Within store.stop hi rest

namespace Within

variable {lo mid hi : ℕ} {stores newer : List (Store α)} {store : Store α}

theorem le (hwithin : Within lo hi stores) : lo ≤ hi := by
  induction stores generalizing lo with
  | nil => exact hwithin
  | cons store rest ih =>
      have hrest := ih hwithin.2
      have hlo := hwithin.1
      unfold Store.stop at hrest
      omega

theorem mono_left {before : ℕ} (hle : before ≤ lo) (hwithin : Within lo hi stores) :
    Within before hi stores := by
  cases stores with
  | nil => exact Nat.le_trans hle hwithin
  | cons store rest => exact ⟨Nat.le_trans hle hwithin.1, hwithin.2⟩

theorem append (hstores : Within lo mid stores) (hnewer : Within mid hi newer) :
    Within lo hi (stores ++ newer) := by
  induction stores generalizing lo with
  | nil => exact hnewer.mono_left hstores
  | cons store rest ih => exact ⟨hstores.1, ih hstores.2⟩

theorem stop_le (hwithin : Within lo hi stores) (hstore : store ∈ stores) : store.stop ≤ hi := by
  induction stores generalizing lo with
  | nil => cases hstore
  | cons first rest ih =>
      rcases List.mem_cons.mp hstore with rfl | hrest
      · exact hwithin.2.le
      · exact ih hwithin.2 hrest

/-- What is before the stores is left as it was. -/
theorem writeAll_of_lt (memory : Memory α) (hwithin : Within lo hi stores) {i : ℕ} (hi : i < lo) :
    memory.writeAll stores i = memory i := by
  induction stores generalizing lo memory with
  | nil => rfl
  | cons store rest ih =>
      have hoffset : i < store.offset := Nat.lt_of_lt_of_le hi hwithin.1
      have hstop : i < store.stop := Nat.lt_of_lt_of_le hoffset (Nat.le_add_right _ _)
      rw [Memory.writeAll, List.foldl_cons, ← Memory.writeAll, ih _ hwithin.2 hstop,
        Memory.write_of_lt _ hoffset]

theorem holds_writeAll (memory : Memory α) (hwithin : Within lo hi stores)
    (hstore : store ∈ stores) : (memory.writeAll stores).Holds store := by
  induction stores generalizing lo memory with
  | nil => cases hstore
  | cons first rest ih =>
      rw [Memory.writeAll, List.foldl_cons, ← Memory.writeAll]
      rcases List.mem_cons.mp hstore with rfl | hrest
      · exact (memory.holds_write store).congr fun i hi => hwithin.2.writeAll_of_lt _ hi
      · exact ih _ hwithin.2 hrest

end Within

/-! ## Stores in any order -/

/-- Two stores that do not overlap. -/
def Store.Apart (first second : Store α) : Prop :=
  first.stop ≤ second.offset ∨ second.stop ≤ first.offset

/-- The cells of a store lie between two offsets. -/
def Store.Inside (lo hi : ℕ) (store : Store α) : Prop := lo ≤ store.offset ∧ store.stop ≤ hi

theorem Store.Inside.mono {lo hi before after : ℕ} {store : Store α}
    (hinside : store.Inside lo hi) (hbefore : before ≤ lo) (hafter : hi ≤ after) :
    store.Inside before after :=
  ⟨Nat.le_trans hbefore hinside.1, Nat.le_trans hinside.2 hafter⟩

theorem Store.Inside.apart {lo mid later hi : ℕ} {first second : Store α}
    (hfirst : first.Inside lo mid) (hsecond : second.Inside later hi) (hle : mid ≤ later) :
    first.Apart second :=
  .inl (Nat.le_trans hfirst.2 (Nat.le_trans hle hsecond.1))

namespace Memory

variable {memory : Memory α} {store : Store α} {stores : List (Store α)}

theorem write_of_outside (memory : Memory α) {i : ℕ} (hi : i < store.offset ∨ store.stop ≤ i) :
    memory.write store i = memory i := by
  rcases hi with hlt | hle
  · exact memory.write_of_lt hlt
  · rw [Store.stop] at hle
    rw [write, if_pos (by omega), List.getElem?_eq_none (by omega)]
    rfl

theorem holds_write_of_apart {first second : Store α} (hholds : memory.Holds first)
    (hapart : first.Apart second) : (memory.write second).Holds first := by
  rw [Holds] at hholds ⊢
  rw [← hholds, read, read, List.length_map, List.length_range']
  refine List.map_congr_left fun i hi => memory.write_of_outside ?_
  rw [List.mem_range'_1] at hi
  exact hapart.imp (fun hle => Nat.lt_of_lt_of_le hi.2 hle) fun hle => Nat.le_trans hle hi.1

/-- Stores of which no two overlap can all be read back. -/
theorem holds_writeAll_of_pairwise (memory : Memory α) (hapart : stores.Pairwise Store.Apart)
    (hstore : store ∈ stores) : (memory.writeAll stores).Holds store := by
  have hkept : ∀ (memory : Memory α) (stores : List (Store α)), memory.Holds store →
      (∀ other ∈ stores, store.Apart other) → (memory.writeAll stores).Holds store := by
    intro memory stores hholds hothers
    induction stores generalizing memory with
    | nil => exact hholds
    | cons first rest ih =>
        rw [writeAll, List.foldl_cons, ← writeAll]
        exact ih _ (holds_write_of_apart hholds (hothers first List.mem_cons_self))
          fun other hother => hothers other (List.mem_cons_of_mem _ hother)
  induction stores generalizing memory with
  | nil => cases hstore
  | cons first rest ih =>
      rw [writeAll, List.foldl_cons, ← writeAll]
      obtain ⟨hfirst, hrest⟩ := List.pairwise_cons.mp hapart
      rcases List.mem_cons.mp hstore with rfl | hlater
      · exact hkept _ rest (memory.holds_write store) hfirst
      · exact ih _ hrest hlater

end Memory

end Machine

import Mathlib.Data.List.Dedup
import Mathlib.Data.List.Nodup

/-! # Keyed collections with deferred deletion and update

A keyed collection is a finite set of rows in which the key columns determine
the row. Deriving two different rows with one key into a collection is an
error. A persistent collection changes only between two timesteps: exact rows
are deleted first, then rows are updated by key.
-/

namespace Bloom

variable {ρ κ : Type*} {key : ρ → κ}

/-- No two different rows of the list agree on the key columns. -/
def KeyFunctional (key : ρ → κ) (rows : List ρ) : Prop :=
  ∀ left ∈ rows, ∀ right ∈ rows, key left = key right → left = right

instance [DecidableEq ρ] [DecidableEq κ] (key : ρ → κ) (rows : List ρ) :
    Decidable (KeyFunctional key rows) :=
  inferInstanceAs (Decidable (∀ left ∈ rows, ∀ right ∈ rows, key left = key right → left = right))

theorem KeyFunctional.subset {rows others : List ρ} (hrows : KeyFunctional key rows)
    (hsub : others ⊆ rows) : KeyFunctional key others :=
  fun left hleft right hright => hrows left (hsub hleft) right (hsub hright)

theorem KeyFunctional.nodup_map_dedup [DecidableEq ρ] {rows : List ρ}
    (hrows : KeyFunctional key rows) : (rows.dedup.map key).Nodup := by
  apply List.Nodup.map_on _ (List.nodup_dedup rows)
  intro left hleft right hright heq
  exact hrows left (List.mem_dedup.mp hleft) right (List.mem_dedup.mp hright) heq

theorem KeyFunctional.of_nodup_map {rows : List ρ} (hrows : (rows.map key).Nodup) :
    KeyFunctional key rows :=
  fun _ hleft _ hright heq => List.inj_on_of_nodup_map hrows hleft hright heq

/-- A set of rows in which every key occurs at most once. -/
structure Collection (key : ρ → κ) where
  rows : List ρ
  unique : (rows.map key).Nodup

namespace Collection

instance : Membership ρ (Collection key) := ⟨fun collection row => row ∈ collection.rows⟩

instance [DecidableEq ρ] (row : ρ) (collection : Collection key) : Decidable (row ∈ collection) :=
  inferInstanceAs (Decidable (row ∈ collection.rows))

theorem mem_rows {row : ρ} {collection : Collection key} :
    row ∈ collection.rows ↔ row ∈ collection := Iff.rfl

def empty : Collection key := ⟨[], List.nodup_nil⟩

@[simp] theorem not_mem_empty (row : ρ) : row ∉ (empty : Collection key) := List.not_mem_nil

theorem functional (collection : Collection key) : KeyFunctional key collection.rows :=
  KeyFunctional.of_nodup_map collection.unique

theorem eq_of_key {collection : Collection key} {left right : ρ} (hleft : left ∈ collection)
    (hright : right ∈ collection) (heq : key left = key right) : left = right :=
  collection.functional left hleft right hright heq

variable [DecidableEq κ]

theorem length_filter_key_le_one (collection : Collection key) (k : κ) :
    (collection.rows.filter (fun row => key row = k)).length ≤ 1 := by
  have hcount : (collection.rows.map key).count k ≤ 1 :=
    List.nodup_iff_count_le_one.mp collection.unique k
  rw [List.count, List.countP_map, List.countP_eq_length_filter] at hcount
  exact hcount

/-- The row stored under a key. -/
def lookup (collection : Collection key) (k : κ) : Option ρ :=
  collection.rows.find? (fun row => key row = k)

theorem lookup_eq_some_iff {collection : Collection key} {k : κ} {row : ρ} :
    collection.lookup k = some row ↔ row ∈ collection ∧ key row = k := by
  constructor
  · intro hfind
    exact ⟨List.mem_of_find?_eq_some hfind, by simpa using List.find?_some hfind⟩
  · rintro ⟨hrow, hkey⟩
    cases hfind : collection.lookup k with
    | none =>
        have hnone := List.find?_eq_none.mp hfind row hrow
        simp [hkey] at hnone
    | some other =>
        have hother : key other = k := by simpa using List.find?_some hfind
        exact congrArg some (eq_of_key (List.mem_of_find?_eq_some hfind) hrow
          (hother.trans hkey.symm))

theorem lookup_eq_none_iff {collection : Collection key} {k : κ} :
    collection.lookup k = none ↔ ∀ row ∈ collection, key row ≠ k := by
  simp only [lookup, List.find?_eq_none, decide_eq_true_eq, mem_rows, ne_eq]

variable [DecidableEq ρ]

/-- Rows derived by rules within one timestep. Equal rows merge; different
rows with one key are a conflict. -/
def derive (key : ρ → κ) (rows : List ρ) : Option (Collection key) :=
  if h : KeyFunctional key rows then some ⟨rows.dedup, h.nodup_map_dedup⟩ else none

theorem derive_eq_none_iff {rows : List ρ} :
    derive key rows = none ↔ ¬ KeyFunctional key rows := by
  unfold derive
  split <;> simp_all

theorem derive_eq_some_iff {rows : List ρ} {collection : Collection key} :
    derive key rows = some collection ↔
      KeyFunctional key rows ∧ collection.rows = rows.dedup := by
  unfold derive
  split
  next h =>
    rw [Option.some.injEq]
    refine ⟨fun heq => ⟨h, heq ▸ rfl⟩, fun heq => ?_⟩
    cases collection
    simp_all
  next h => simp [h]

theorem mem_of_derive {rows : List ρ} {collection : Collection key}
    (hderive : derive key rows = some collection) {row : ρ} :
    row ∈ collection ↔ row ∈ rows := by
  rw [← mem_rows, (derive_eq_some_iff.mp hderive).2, List.mem_dedup]

/-- The rows that survive deletion of exact rows followed by update by key,
together with the updating rows. -/
def settle (collection : Collection key) (deletions : List ρ) (updates : Collection key) :
    Collection key where
  rows := collection.rows.filter (fun row => row ∉ deletions ∧ key row ∉ updates.rows.map key) ++
    updates.rows
  unique := by
    rw [List.map_append]
    refine List.Nodup.append ?_ updates.unique ?_
    · exact collection.unique.sublist (List.filter_sublist.map key)
    · intro k hk hupdate
      obtain ⟨row, hrow, rfl⟩ := List.mem_map.mp hk
      exact (decide_eq_true_eq.mp (List.mem_filter.mp hrow).2).2 hupdate

theorem mem_settle {collection updates : Collection key} {deletions : List ρ} {row : ρ} :
    row ∈ collection.settle deletions updates ↔
      row ∈ updates ∨
        row ∈ collection ∧ row ∉ deletions ∧ ∀ update ∈ updates, key update ≠ key row := by
  simp only [← mem_rows, settle, List.mem_append, List.mem_filter, List.mem_map, not_exists,
    not_and, decide_eq_true_eq, ne_eq]
  tauto

end Collection

end Bloom

import Mathlib.Data.List.Dedup
import Mathlib.Data.List.Induction
import Signpost.Bloom.Collection

/-! # Persistent collections and the history of their updates

A persistent collection that only grows by key updates, and from which rows are
deleted only when they are dead, is determined by the last update of each key
up to dead rows.
-/

namespace Bloom

variable {ρ κ : Type*} [DecidableEq κ] {key : ρ → κ}

/-- The last row of a history with a given key. -/
def latest (key : ρ → κ) (rows : List ρ) (k : κ) : Option ρ :=
  (rows.filter (fun row => key row = k)).getLast?

theorem latest_append (older newer : List ρ) (k : κ) :
    latest key (older ++ newer) k = (latest key newer k).or (latest key older k) := by
  simp only [latest, List.filter_append, List.getLast?_append]

theorem latest_concat (older : List ρ) (newest : ρ) (k : κ) :
    latest key (older ++ [newest]) k =
      if key newest = k then some newest else latest key older k := by
  rw [latest_append]
  split
  next hkey => simp [latest, hkey]
  next hkey => simp [latest, hkey]

theorem mem_of_latest {rows : List ρ} {k : κ} {row : ρ} (hlatest : latest key rows k = some row) :
    row ∈ rows ∧ key row = k := by
  simpa using List.mem_filter.mp (List.mem_of_getLast? hlatest)

theorem latest_eq_none_iff {rows : List ρ} {k : κ} :
    latest key rows k = none ↔ ∀ row ∈ rows, key row ≠ k := by
  simp [latest]

theorem latest_map {τ : Type*} (f : τ → ρ) (rows : List τ) (k : κ) :
    latest key (rows.map f) k = (latest (fun row => key (f row)) rows k).map f := by
  simp only [latest, List.filter_map, List.getLast?_map]
  rfl

theorem exists_latest (key : ρ → κ) {rows : List ρ} {row : ρ} (hrow : row ∈ rows) :
    ∃ last, latest key rows (key row) = some last := by
  cases hlatest : latest key rows (key row) with
  | none => exact absurd rfl (latest_eq_none_iff.mp hlatest row hrow)
  | some last => exact ⟨last, rfl⟩

theorem latest_of_functional {rows : List ρ} (hrows : KeyFunctional key rows) {row : ρ}
    (hrow : row ∈ rows) : latest key rows (key row) = some row := by
  obtain ⟨other, hlatest⟩ := exists_latest key hrow
  obtain ⟨hother, hkey⟩ := mem_of_latest hlatest
  rw [hlatest, hrows other hother row hrow hkey]

/-- The last row of a key is the last one of a finer key, if it has that. -/
theorem latest_of_finer {ι : Type*} [DecidableEq ι] {fine : ρ → ι} {rows : List ρ} {k : κ} {l : ι}
    (hfiner : ∀ row, fine row = l → key row = k) {row : ρ}
    (hlatest : latest key rows k = some row) (hfine : fine row = l) :
    latest fine rows l = some row := by
  induction rows using List.reverseRecOn with
  | nil => cases hlatest
  | append_singleton older newest ih =>
      rw [latest_concat] at hlatest ⊢
      by_cases hnewest : fine newest = l
      · rw [if_pos (hfiner newest hnewest)] at hlatest
        rw [if_pos hnewest, hlatest]
      · rw [if_neg hnewest]
        split at hlatest
        next =>
          obtain rfl := Option.some.inj hlatest
          exact absurd hfine hnewest
        next => exact ih hlatest

/-- The collection holds only last updates, and all of them except dead ones. -/
structure Tracks (collection : Collection key) (history : List ρ) (dead : ρ → Prop) : Prop where
  sound : ∀ row ∈ collection, latest key history (key row) = some row
  complete : ∀ k row, latest key history k = some row → row ∈ collection ∨ dead row

namespace Tracks

variable {collection next : Collection key} {history updates deletions : List ρ}
  {dead dead' : ρ → Prop}

/-- One timestep: update by key after deleting only rows that are dead. -/
theorem settle (htracks : Tracks collection history dead) (hupdates : KeyFunctional key updates)
    (hdeletions : ∀ row ∈ deletions, dead' row) (hdead : ∀ row, dead row → dead' row)
    (hnext : ∀ row, row ∈ next ↔ row ∈ updates ∨
      row ∈ collection ∧ row ∉ deletions ∧ ∀ update ∈ updates, key update ≠ key row) :
    Tracks next (history ++ updates) dead' := by
  constructor
  · intro row hrow
    rw [latest_append]
    rcases (hnext row).mp hrow with hupdate | ⟨hold, _, hkey⟩
    · rw [latest_of_functional hupdates hupdate, Option.some_or]
    · rw [latest_eq_none_iff.mpr hkey, Option.none_or, htracks.sound row hold]
  · intro k row hlatest
    rw [latest_append, Option.or_eq_some_iff] at hlatest
    rcases hlatest with hnew | ⟨hnone, hold⟩
    · exact Or.inl ((hnext row).mpr (Or.inl (mem_of_latest hnew).1))
    · rcases htracks.complete k row hold with hrow | hrow
      · by_cases hdelete : row ∈ deletions
        · exact Or.inr (hdeletions row hdelete)
        · refine Or.inl ((hnext row).mpr (Or.inr ⟨hrow, hdelete, ?_⟩))
          rw [(mem_of_latest hold).2]
          exact latest_eq_none_iff.mp hnone
      · exact Or.inr (hdead row hrow)

/-- Reading live rows from the collection or from the history is the same. -/
theorem lookup_filter (htracks : Tracks collection history dead) {live : ρ → Bool}
    (hlive : ∀ row, dead row → live row = false) (k : κ) :
    (collection.lookup k).filter live = (latest key history k).filter live := by
  cases hlookup : collection.lookup k with
  | some row =>
      obtain ⟨hrow, rfl⟩ := Collection.lookup_eq_some_iff.mp hlookup
      rw [htracks.sound row hrow]
  | none =>
      cases hlatest : latest key history k with
      | none => rfl
      | some row =>
          rcases htracks.complete k row hlatest with hrow | hdead
          · exact absurd (mem_of_latest hlatest).2
              (Collection.lookup_eq_none_iff.mp hlookup row hrow)
          · rw [Option.filter_some, if_neg (by simp [hlive row hdead]), Option.filter_none]

end Tracks

end Bloom

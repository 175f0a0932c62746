import Signpost.Bloom.Collection
import Signpost.Machine.Agreement

/-! # Collections are sets

A timestep sees the messages that have arrived as sets: it cannot tell in which order
they came, or which of them came twice.
-/

namespace Bloom

variable {ρ σ κ : Type*} {key : ρ → κ}

def SameRows (rows others : List ρ) : Prop := ∀ row, row ∈ rows ↔ row ∈ others

namespace SameRows

variable {rows others more rest : List ρ}

theorem refl (rows : List ρ) : SameRows rows rows := fun _ => Iff.rfl

theorem append (hrows : SameRows rows others) (hmore : SameRows more rest) :
    SameRows (rows ++ more) (others ++ rest) := by
  intro row
  rw [List.mem_append, List.mem_append, hrows row, hmore row]

theorem filter (hrows : SameRows rows others) {p q : ρ → Bool} (hsame : ∀ row, p row = q row) :
    SameRows (rows.filter p) (others.filter q) := by
  intro row
  rw [List.mem_filter, List.mem_filter, hrows row, hsame row]

theorem map (hrows : SameRows rows others) (f : ρ → σ) :
    SameRows (rows.map f) (others.map f) := by
  intro row
  simp only [List.mem_map, hrows _]

theorem filterMap (hrows : SameRows rows others) (f : ρ → Option σ) :
    SameRows (rows.filterMap f) (others.filterMap f) := by
  intro row
  simp only [List.mem_filterMap, hrows _]

theorem flatMap (hrows : SameRows rows others) {f g : ρ → List σ}
    (hsame : ∀ row, SameRows (f row) (g row)) : SameRows (rows.flatMap f) (others.flatMap g) := by
  intro row
  simp only [List.mem_flatMap, hrows _, hsame _ row]

theorem functional (hrows : SameRows rows others) :
    KeyFunctional key rows ↔ KeyFunctional key others := by
  simp only [KeyFunctional, hrows _]

theorem perm_of_nodup (hrows : SameRows rows others) (hnodup : rows.Nodup)
    (hothers : others.Nodup) : rows.Perm others :=
  (List.perm_ext_iff_of_nodup hnodup hothers).mpr hrows

end SameRows

namespace Collection

variable {collection other : Collection key}

theorem nodup (collection : Collection key) : collection.rows.Nodup := collection.unique.of_map

theorem perm_of_same (hsame : SameRows collection.rows other.rows) :
    collection.rows.Perm other.rows :=
  hsame.perm_of_nodup collection.nodup other.nodup

variable [DecidableEq κ] [DecidableEq ρ]

/-- Rules derive one collection from the same rows, or neither. -/
theorem derive_same (key : ρ → κ) {rows others : List ρ} (hrows : SameRows rows others) :
    (derive key rows = none ∧ derive key others = none) ∨
      ∃ left right : Collection key, derive key rows = some left ∧
        derive key others = some right ∧ SameRows left.rows right.rows := by
  by_cases hfunctional : KeyFunctional key rows
  · obtain ⟨left, hleft⟩ := Option.ne_none_iff_exists'.mp
      (fun hnone => derive_eq_none_iff.mp hnone hfunctional)
    obtain ⟨right, hright⟩ := Option.ne_none_iff_exists'.mp
      (fun hnone => derive_eq_none_iff.mp hnone (hrows.functional.mp hfunctional))
    refine .inr ⟨left, right, hleft, hright, fun row => ?_⟩
    exact (mem_of_derive hleft).trans ((hrows row).trans (mem_of_derive hright).symm)
  · exact .inl ⟨derive_eq_none_iff.mpr hfunctional,
      derive_eq_none_iff.mpr fun hothers => hfunctional (hrows.functional.mpr hothers)⟩

/-- The same, where a conflict is an error. -/
theorem derive_agree {ε : Type*} (key : ρ → κ) (error : ε) {rows others : List ρ}
    (hrows : SameRows rows others) :
    Machine.Agree (fun left right => SameRows left.rows right.rows)
      (match derive key rows with
        | some derived => .ok derived
        | none => .error error)
      (match derive key others with
        | some derived => .ok derived
        | none => .error error) := by
  rcases derive_same key hrows with ⟨hleft, hright⟩ | ⟨left, right, hleft, hright, hsame⟩
  · rw [hleft, hright]
    exact .error error
  · rw [hleft, hright]
    exact .ok hsame

theorem settle_same (hsame : SameRows collection.rows other.rows) {deletions removals : List ρ}
    (hdeletions : SameRows deletions removals) {updates changes : Collection key}
    (hupdates : SameRows updates.rows changes.rows) :
    SameRows (collection.settle deletions updates).rows (other.settle removals changes).rows := by
  intro row
  have hmem : ∀ row, row ∈ updates ↔ row ∈ changes := hupdates
  have hold : row ∈ collection ↔ row ∈ other := hsame row
  rw [mem_rows, mem_rows, mem_settle, mem_settle, hmem row, hold, hdeletions row]
  simp only [hmem]

end Collection

end Bloom

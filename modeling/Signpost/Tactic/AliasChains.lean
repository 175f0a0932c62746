import Mathlib.Data.Fintype.Pigeonhole
import Signpost.Tactic.DnsResolve

/-! # Aliases without an end

The recursion of the DNS tactic follows the aliases wherever the zones send it
and does not record where it has been. Whether it comes back is a matter of the
chains of aliases alone.
-/

namespace Signpost.DnsResolve

variable {send : String → List Record}

/-- A chain of aliases that begins with the domain and has no end. -/
def EndlessAliases (send : String → List Record) (domain : String) : Prop :=
  ∃ chain : ℕ → String, chain 0 = domain ∧ ∀ n, Alias send (chain n) (chain (n + 1))

/-- There is a depth of recursion with which `resolve` returns. -/
def Terminates (send : String → List Record) (domain : String) : Prop :=
  ∃ fuel result, ∀ more ≥ fuel, resolve send more domain = some result

theorem terminates_iff_doIt (domain : String) :
    Terminates send domain ↔ ∃ fuel, (doIt send fuel domain).isSome := by
  constructor
  · rintro ⟨fuel, result, hall⟩
    refine ⟨fuel, ?_⟩
    obtain ⟨answers, hdo, -⟩ := Option.map_eq_some_iff.mp (hall fuel le_rfl)
    exact Option.isSome_of_eq_some hdo
  · rintro ⟨fuel, hsome⟩
    obtain ⟨answers, hdo⟩ := Option.isSome_iff_exists.mp hsome
    have hresolve : resolve send fuel domain = some (Provisions.resolve answers) := by
      rw [resolve, hdo, Option.map_some]
    exact ⟨fuel, _, fun more hle => resolve_mono hle hresolve⟩

/-- Each level of the recursion goes one alias further along the chain. -/
theorem not_isSome_of_endlessAliases {fuel : ℕ} {domain : String}
    (hendless : EndlessAliases send domain) : ¬ (doIt send fuel domain).isSome := by
  induction fuel generalizing domain with
  | zero => simp [doIt]
  | succ fuel ih =>
      obtain ⟨chain, rfl, hchain⟩ := hendless
      rw [doIt_isSome_iff]
      intro hall
      have hrest : EndlessAliases send (chain 1) :=
        ⟨fun n => chain (n + 1), rfl, fun n => hchain (n + 1)⟩
      exact ih hrest (hall (chain 1) (hchain 0))

/-- A name from which the recursion does not come back has an alias of the same
kind, and these make up the chain. -/
theorem endlessAliases_of_not_isSome {domain : String}
    (hnever : ¬ ∃ fuel, (doIt send fuel domain).isSome) : EndlessAliases send domain := by
  let Lost := {name : String // ¬ ∃ fuel, (doIt send fuel name).isSome}
  have hnext : ∀ name : Lost, ∃ value : Lost, Alias send name.1 value.1 := by
    intro name
    by_contra hnone
    push Not at hnone
    refine name.2 (exists_fuel_of_aliases fun value halias => ?_)
    by_contra hlost
    exact hnone ⟨value, hlost⟩ halias
  choose next hnext using hnext
  let chain : ℕ → Lost := fun n => Nat.rec ⟨domain, hnever⟩ (fun _ => next) n
  exact ⟨fun n => (chain n).1, rfl, fun n => hnext (chain n)⟩

/-- The resolution of a domain ends exactly when every chain of aliases that
begins there does. -/
theorem terminates_iff (send : String → List Record) (domain : String) :
    Terminates send domain ↔ ¬ EndlessAliases send domain := by
  rw [terminates_iff_doIt]
  constructor
  · rintro ⟨fuel, hsome⟩ hendless
    exact not_isSome_of_endlessAliases hendless hsome
  · intro hends
    by_contra hnever
    exact hends (endlessAliases_of_not_isSome hnever)

/-! ## Cycles -/

theorem reaches_of_chain {chain : ℕ → String} (hchain : ∀ n, Alias send (chain n) (chain (n + 1)))
    (n : ℕ) : Reaches send (chain 0) (chain n) := by
  induction n with
  | zero => exact .refl
  | succ n ih => exact ih.tail (hchain n)

theorem transGen_of_chain {chain : ℕ → String}
    (hchain : ∀ n, Alias send (chain n) (chain (n + 1))) (first more : ℕ) :
    Relation.TransGen (Alias send) (chain first) (chain (first + more + 1)) := by
  induction more with
  | zero => exact .single (hchain first)
  | succ more ih => exact ih.tail (hchain (first + more + 1))

/-- A cycle of aliases can be gone round for ever. -/
theorem not_isSome_of_cycle {fuel : ℕ} {name : String}
    (hcycle : Relation.TransGen (Alias send) name name) : ¬ (doIt send fuel name).isSome := by
  induction fuel generalizing name with
  | zero => simp [doIt]
  | succ fuel ih =>
      obtain ⟨value, halias, hrest⟩ := Relation.TransGen.head'_iff.mp hcycle
      rw [doIt_isSome_iff]
      intro hall
      exact ih (Relation.TransGen.tail'_iff.mpr ⟨name, hrest, halias⟩) (hall value halias)

theorem isSome_of_reaches {domain name : String} (hreaches : Reaches send domain name) {fuel : ℕ}
    (hsome : (doIt send fuel domain).isSome) : ∃ less, (doIt send less name).isSome := by
  induction hreaches with
  | refl => exact ⟨fuel, hsome⟩
  | tail _ halias ih =>
      obtain ⟨less, hless⟩ := ih
      cases less with
      | zero => simp [doIt] at hless
      | succ less => exact ⟨less, (doIt_isSome_iff less _).mp hless _ halias⟩

/-- Among names of bounded length, as those of the DNS are, an endless chain runs
into a cycle. -/
theorem endlessAliases_iff_cycle {bound : ℕ}
    (hnames : ∀ name value, Alias send name value → value.length ≤ bound) (domain : String) :
    EndlessAliases send domain ↔
      ∃ name, Reaches send domain name ∧ Relation.TransGen (Alias send) name name := by
  constructor
  · rintro ⟨chain, rfl, hchain⟩
    have hfinite := finite_names bound
    let names : ℕ → {name : String // name.length ≤ bound} :=
      fun n => ⟨chain (n + 1), hnames _ _ (hchain n)⟩
    obtain ⟨one, other, hne, heq⟩ := Finite.exists_ne_map_eq_of_infinite names
    have hsame : chain (one + 1) = chain (other + 1) := congrArg Subtype.val heq
    have hcycle : ∀ first last : ℕ, first < last → chain (first + 1) = chain (last + 1) →
        ∃ name, Reaches send (chain 0) name ∧ Relation.TransGen (Alias send) name name := by
      intro first last hlt hmeet
      obtain ⟨more, rfl⟩ := Nat.exists_eq_add_of_lt hlt
      refine ⟨chain (first + 1), reaches_of_chain hchain _, ?_⟩
      have hround := transGen_of_chain hchain (first + 1) more
      rwa [show first + 1 + more + 1 = first + more + 1 + 1 by omega, ← hmeet] at hround
    rcases Nat.lt_or_gt_of_ne hne with hlt | hlt
    · exact hcycle one other hlt hsame
    · exact hcycle other one hlt hsame.symm
  · rintro ⟨name, hreaches, hcycle⟩
    refine endlessAliases_of_not_isSome ?_
    rintro ⟨fuel, hsome⟩
    obtain ⟨less, hless⟩ := isSome_of_reaches hreaches hsome
    exact not_isSome_of_cycle hcycle hless

/-! ## A name that is its own alias -/

def selfAliased : String → List Record
  | "loop.kle.io" => [.cname "loop.kle.io" 60]
  | _ => []

theorem endlessAliases_selfAliased : EndlessAliases selfAliased "loop.kle.io" :=
  ⟨fun _ => "loop.kle.io", rfl, fun _ => ⟨60, List.mem_singleton_self _⟩⟩

theorem not_terminates_of_selfAliased :
    ¬ ∀ (send : String → List Record) (domain : String), Terminates send domain := by
  intro hclaim
  obtain ⟨fuel, hsome⟩ := (terminates_iff_doIt _).mp (hclaim selfAliased "loop.kle.io")
  exact not_isSome_of_endlessAliases endlessAliases_selfAliased hsome

end Signpost.DnsResolve

import Mathlib.Data.List.TakeWhile
import Signpost.Tactic.Names
import Signpost.Tactic.Tactic

/-! # The grammar of names

A name of the form `RESOURCE@DOMAIN[:PORT]` is decoded into its parts. The
regular expression is not anchored, so that it also finds such a name inside of
other text.
-/

namespace Signpost

open Solver (isGraph)

/-! ## The last separator -/

theorem splitResource_eq_none {text : List Char} (hnot : '@' ∉ text) :
    splitResource text = none := by
  induction text with
  | nil => rfl
  | cons c rest ih =>
      rw [List.mem_cons, not_or] at hnot
      simp [splitResource, ih hnot.2, Ne.symm hnot.1]

/-- Whatever separators a resource contains, the last one is taken. -/
theorem splitResource_append {resource after : List Char} (hgraph : ∀ c ∈ resource, isGraph c)
    (hafter : '@' ∉ after) : splitResource (resource ++ '@' :: after) = some (resource, after) := by
  induction resource with
  | nil =>
      have hat : isGraph '@' = true := by decide
      simp [splitResource, hat, splitResource_eq_none hafter]
  | cons c rest ih =>
      rw [List.forall_mem_cons] at hgraph
      simp [splitResource, hgraph.1, ih hgraph.2]

theorem searchSplit_append {resource after : List Char} (hgraph : ∀ c ∈ resource, isGraph c)
    (hafter : '@' ∉ after) : searchSplit (resource ++ '@' :: after) = some (resource, after) := by
  have hsplit := splitResource_append hgraph hafter
  cases resource with
  | nil => rw [List.nil_append] at hsplit ⊢; rw [searchSplit, hsplit, Option.some_or]
  | cons c rest => rw [List.cons_append] at hsplit ⊢; rw [searchSplit, hsplit, Option.some_or]

/-- The resource may be empty, and what precedes the match is skipped. -/
theorem searchSplit_eq_none_iff (text : List Char) : searchSplit text = none ↔ '@' ∉ text := by
  constructor
  · intro hnone hat
    induction text with
    | nil => cases hat
    | cons c rest ih =>
        rw [searchSplit, Option.or_eq_none_iff] at hnone
        rcases List.mem_cons.mp hat with rfl | hrest
        · have hgraph : isGraph '@' = true := by decide
          rw [splitResource, if_pos hgraph] at hnone
          cases hsplit : splitResource rest <;> simp [hsplit] at hnone
        · exact ih hnone.2 hrest
  · intro hnot
    induction text with
    | nil => rfl
    | cons c rest ih =>
        rw [searchSplit, splitResource_eq_none hnot, Option.none_or]
        exact ih fun hrest => hnot (List.mem_cons_of_mem c hrest)

/-! ## Decoding -/

theorem at_notMem_of_domain {domain : List Char} (hdomain : ∀ c ∈ domain, isDomainChar c) :
    '@' ∉ domain :=
  fun hat => absurd (hdomain '@' hat) (by decide)

/-- Only a string without separator is refused. -/
theorem magicVariablesFrom_eq_none_iff (what : String) :
    magicVariablesFrom what = none ↔ '@' ∉ what.toList := by
  rw [← searchSplit_eq_none_iff, magicVariablesFrom]
  constructor
  · intro hnone
    split at hnone
    next hsearch => exact hsearch
    next resource after _ =>
      revert hnone
      dsimp only
      split <;> intro hnone <;> cases hnone
  · intro hsearch
    rw [hsearch]

theorem magicVariablesFrom_domain {resource domain : List Char}
    (hresource : ∀ c ∈ resource, isGraph c) (hdomain : ∀ c ∈ domain, isDomainChar c) :
    magicVariablesFrom (String.ofList (resource ++ '@' :: domain)) =
      some ⟨String.ofList resource, String.ofList domain, String.ofList domain, none⟩ := by
  have hdrop : domain.dropWhile isDomainChar = [] := List.dropWhile_eq_nil_iff.mpr hdomain
  have htake : domain.takeWhile isDomainChar = domain := List.takeWhile_eq_self_iff.mpr hdomain
  rw [magicVariablesFrom, String.toList_ofList,
    searchSplit_append hresource (at_notMem_of_domain hdomain)]
  simp only [hdrop, htake]

theorem magicVariablesFrom_port {resource domain digits : List Char}
    (hresource : ∀ c ∈ resource, isGraph c) (hdomain : ∀ c ∈ domain, isDomainChar c)
    (hdigits : ∀ c ∈ digits, c.isDigit) :
    magicVariablesFrom (String.ofList (resource ++ '@' :: (domain ++ ':' :: digits))) =
      some ⟨String.ofList resource, String.ofList (domain ++ ':' :: digits),
        String.ofList domain, some (toI digits)⟩ := by
  have hafter : '@' ∉ domain ++ ':' :: digits := by
    rw [List.mem_append, List.mem_cons, not_or, not_or]
    exact ⟨at_notMem_of_domain hdomain, by decide,
      fun hat => absurd (hdigits '@' hat) (by decide)⟩
  have hcolon : isDomainChar ':' = false := by decide
  have hdrop : (domain ++ ':' :: digits).dropWhile isDomainChar = ':' :: digits := by
    rw [List.dropWhile_append_of_pos hdomain, List.dropWhile_cons_of_neg (by simp [hcolon])]
  have htake : (domain ++ ':' :: digits).takeWhile isDomainChar = domain := by
    rw [List.takeWhile_append_of_pos hdomain, List.takeWhile_cons_of_neg (by simp [hcolon]),
      List.append_nil]
  have hport : digits.takeWhile Char.isDigit = digits := List.takeWhile_eq_self_iff.mpr hdigits
  rw [magicVariablesFrom, String.toList_ofList, searchSplit_append hresource hafter]
  simp only [hdrop, htake, hport]

/-! ## Names that are built from parts -/

theorem toI_toDigits (n : ℕ) : toI (Nat.toDigits 10 n) = n :=
  Nat.ofDigitChars_ten_toDigits

/-- What a name has after the separator. -/
def destinationOf (domain : String) : Option ℕ → String
  | none => domain
  | some port => domain ++ ":" ++ toString port

theorem magicVariablesFrom_destinationOf {resource domain : String}
    (hresource : ∀ c ∈ resource.toList, isGraph c)
    (hdomain : ∀ c ∈ domain.toList, isDomainChar c) (port : Option ℕ) :
    magicVariablesFrom (resource ++ "@" ++ destinationOf domain port) =
      some ⟨resource, destinationOf domain port, domain, port⟩ := by
  cases port with
  | none =>
      have hname : resource ++ "@" ++ destinationOf domain none =
          String.ofList (resource.toList ++ '@' :: domain.toList) := by
        simp [destinationOf, ← String.toList_inj]
      rw [hname, magicVariablesFrom_domain hresource hdomain]
      simp [destinationOf]
  | some port =>
      have hdestination : destinationOf domain (some port) =
          String.ofList (domain.toList ++ ':' :: Nat.toDigits 10 port) := by
        simp [destinationOf, ← String.toList_inj]
      have hname : resource ++ "@" ++ destinationOf domain (some port) =
          String.ofList
            (resource.toList ++ '@' :: (domain.toList ++ ':' :: Nat.toDigits 10 port)) := by
        rw [hdestination]
        simp [← String.toList_inj]
      rw [hname, magicVariablesFrom_port hresource hdomain
        fun _ hc => Nat.isDigit_of_mem_toDigits (by decide) (by decide) hc, hdestination,
        toI_toDigits]
      simp

/-- The ways in which a need can give the domain and the port that it is about,
one for each branch of `needFrom`. -/
inductive AsksFor (tactic : Tactic) (domain : String) (port : Option ℕ) (data : NeedData) : Prop
  | destination (hdestination : data.destination = some (destinationOf domain port))
  | domain (hdestination : data.destination = none) (hdomain : data.domain = some domain)
      (hport : data.port = port.map toString)
  | port (hdestination : data.destination = none) (hdomain : data.domain = none) (n : ℕ)
      (hn : port = some n) (hport : data.port = some (toString n))
      (hown : tactic.domain = some domain)
  | own (hdestination : data.destination = none) (hdomain : data.domain = none)
      (hport : data.port = none) (hown : tactic.destination = some (destinationOf domain port))

theorem needFrom_eq_destinationOf {tactic : Tactic} {domain : String} {port : Option ℕ}
    {data : NeedData} (hasks : AsksFor tactic domain port data) :
    (tactic.needFrom data).1 = data.what ++ "@" ++ destinationOf domain port := by
  unfold Tactic.needFrom
  cases hasks with
  | destination hdestination => simp only [hdestination]
  | domain hdestination hdomain hport =>
      cases port <;> simp [hdestination, hdomain, hport, destinationOf]
  | port hdestination hdomain n hn hport hown =>
      subst hn
      simp [hdestination, hdomain, hport, hown, destinationOf]
  | own hdestination hdomain hport hown => simp [hdestination, hdomain, hport, hown]

/-- A name decodes to the parts that it was built from, and so does the name of
a need for these parts. -/
theorem decodes_to_parts (resource domain : String) (port : ℕ)
    (hresource : ∀ c ∈ resource.toList, isGraph c)
    (hdomain : ∀ c ∈ domain.toList, isDomainChar c) :
    magicVariablesFrom (resource ++ "@" ++ domain ++ ":" ++ toString port) =
        some ⟨resource, domain ++ ":" ++ toString port, domain, some port⟩ ∧
      magicVariablesFrom (resource ++ "@" ++ domain) = some ⟨resource, domain, domain, none⟩ ∧
      ∀ (tactic : Tactic) (data : NeedData) (port : Option ℕ), data.what = resource →
        AsksFor tactic domain port data →
          magicVariablesFrom (tactic.needFrom data).1 =
            some ⟨resource, destinationOf domain port, domain, port⟩ := by
  have hdecodes := magicVariablesFrom_destinationOf hresource hdomain
  refine ⟨?_, ?_, ?_⟩
  · have hport := hdecodes (some port)
    simpa only [destinationOf, String.append_assoc] using hport
  · exact hdecodes none
  · intro tactic data port hwhat hasks
    rw [needFrom_eq_destinationOf hasks, hwhat]
    exact hdecodes port

theorem decodes_to_parts_of_nested :
    magicVariablesFrom ("a@b:1" ++ "@" ++ "kle.io" ++ ":" ++ toString 80) =
        some ⟨"a@b:1", "kle.io" ++ ":" ++ toString 80, "kle.io", some 80⟩ ∧
      magicVariablesFrom ("a@b:1" ++ "@" ++ "kle.io") =
        some ⟨"a@b:1", "kle.io", "kle.io", none⟩ ∧
      ∀ (tactic : Tactic) (data : NeedData) (port : Option ℕ), data.what = "a@b:1" →
        AsksFor tactic "kle.io" port data →
          magicVariablesFrom (tactic.needFrom data).1 =
            some ⟨"a@b:1", destinationOf "kle.io" port, "kle.io", port⟩ :=
  decodes_to_parts "a@b:1" "kle.io" 80 (List.all_eq_true.mp (by decide))
    (List.all_eq_true.mp (by decide))

/-! ## Accepted strings -/

/-- The strings of the form `RESOURCE@DOMAIN[:PORT]`. -/
inductive WellFormed : String → Prop
  | domain (resource domain : List Char) (hnonempty : resource ≠ [])
      (hresource : ∀ c ∈ resource, isGraph c) (hhost : domain ≠ [])
      (hdomain : ∀ c ∈ domain, isDomainChar c) :
      WellFormed (String.ofList (resource ++ '@' :: domain))
  | port (resource domain digits : List Char) (hnonempty : resource ≠ [])
      (hresource : ∀ c ∈ resource, isGraph c) (hhost : domain ≠ [])
      (hdomain : ∀ c ∈ domain, isDomainChar c) (hport : digits ≠ [])
      (hdigits : ∀ c ∈ digits, c.isDigit) :
      WellFormed (String.ofList (resource ++ '@' :: (domain ++ ':' :: digits)))

/-- A decimal numeral, possibly with leading zeros. -/
def IsNumeral (digits : List Char) : Prop := digits ≠ [] ∧ ∀ c ∈ digits, c.isDigit

/-- The destination is the domain, followed by a numeral of the port if there is
one. -/
def ReadsDestination (vars : MagicVariables) : Prop :=
  match vars.port with
  | none => vars.destination = vars.domain
  | some port => ∃ digits, IsNumeral digits ∧ toI digits = port ∧
      vars.destination = vars.domain ++ ":" ++ String.ofList digits

/-- If the string is accepted then it is read from its first to its last
character, and a string of another form is refused. -/
structure ReadCompletely (what : String) : Prop where
  reads : ∀ vars, magicVariablesFrom what = some vars →
    what = vars.resource ++ "@" ++ vars.destination ∧ ReadsDestination vars
  refuses : ¬ WellFormed what → magicVariablesFrom what = none

theorem readCompletely_of_wellFormed {what : String} (hform : WellFormed what) :
    ReadCompletely what := by
  refine ⟨?_, fun hnot => absurd hform hnot⟩
  intro vars hvars
  cases hform with
  | domain resource domain _ hresource _ hdomain =>
      rw [magicVariablesFrom_domain hresource hdomain] at hvars
      obtain rfl := Option.some.inj hvars
      exact ⟨by simp [← String.toList_inj], rfl⟩
  | port resource domain digits _ hresource _ hdomain hport hdigits =>
      rw [magicVariablesFrom_port hresource hdomain hdigits] at hvars
      obtain rfl := Option.some.inj hvars
      refine ⟨by simp [← String.toList_inj], digits, ⟨hport, hdigits⟩, rfl, ?_⟩
      simp [← String.toList_inj]

theorem readCompletely_iff (what : String) :
    ReadCompletely what ↔ '@' ∉ what.toList ∨ WellFormed what := by
  constructor
  · intro hread
    by_cases hform : WellFormed what
    · exact .inr hform
    · exact .inl ((magicVariablesFrom_eq_none_iff what).mp (hread.refuses hform))
  · rintro (hnot | hform)
    · have hnone := (magicVariablesFrom_eq_none_iff what).mpr hnot
      refine ⟨?_, fun _ => hnone⟩
      intro vars hvars
      rw [hnone] at hvars
      cases hvars
    · exact readCompletely_of_wellFormed hform

/-- A path after the domain is cut off. -/
theorem not_readCompletely_of_path : ¬ ∀ what, ReadCompletely what := by
  intro hclaim
  have hreads := (hclaim "url@kle.io/index").reads ⟨"url", "kle.io", "kle.io", none⟩ (by decide)
  exact absurd hreads.1 (by decide)

end Signpost

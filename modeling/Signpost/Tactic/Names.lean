import Signpost.Solver.Rules

/-! # Names of truths

A name `RESOURCE@DESTINATION` is taken apart into the magic variables of a
tactic.
-/

namespace Signpost

structure MagicVariables where
  resource : String
  destination : String
  domain : String
  port : Option ℕ
deriving DecidableEq, Repr

/-- The resource and what follows its `@`, when the match starts at the first
character. -/
def splitResource : List Char → Option (List Char × List Char)
  | [] => none
  | c :: rest =>
      if Solver.isGraph c then
        match splitResource rest with
        | some (resource, after) => some (c :: resource, after)
        | none => if c = '@' then some ([], rest) else none
      else none

/-- The split of the leftmost match. -/
def searchSplit : List Char → Option (List Char × List Char)
  | [] => none
  | c :: rest => (splitResource (c :: rest)).or (searchSplit rest)

/-- A character of the class `[[:alnum:]\.\-\_]` of Ruby 1.8. -/
def isDomainChar (c : Char) : Bool := c.isAlphanum ∨ c = '.' ∨ c = '-' ∨ c = '_'

/-- `to_i` of a string of digits. -/
def toI (digits : List Char) : ℕ :=
  digits.foldl (fun value c => 10 * value + (c.toNat - '0'.toNat)) 0

/-- `none` stands for a raised `ResourceTypeException`. -/
def magicVariablesFrom (what : String) : Option MagicVariables :=
  match searchSplit what.toList with
  | none => none
  | some (resource, after) =>
      let domain := after.takeWhile isDomainChar
      match after.dropWhile isDomainChar with
      | ':' :: rest =>
          let digits := rest.takeWhile Char.isDigit
          some ⟨String.ofList resource, String.ofList (domain ++ ':' :: digits),
            String.ofList domain, some (toI digits)⟩
      | _ => some ⟨String.ofList resource, String.ofList domain, String.ofList domain, none⟩

/-- A name with a port, and one with text after the domain. -/
example : magicVariablesFrom "service@localhost:8000" =
    some ⟨"service", "localhost:8000", "localhost", some 8000⟩ := by decide

example : magicVariablesFrom "a@b@kle.io/x y" = some ⟨"a@b", "kle.io", "kle.io", none⟩ := by decide

end Signpost

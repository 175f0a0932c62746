import Mathlib.Algebra.Ring.Int.Defs
import Mathlib.Data.List.Basic

/-! # JSON values and their text

Strings of OCaml are lists of characters here. A `char` is one of the
characters below 256; nothing depends on that bound, so it is not asked for.
-/

namespace Signpost.Frost

abbrev Text := List Char

/-- The floating point numbers of the runtime, as far as JSON uses them:
`float_of_string`, which may fail, and `Printf.sprintf "%g"`. -/
structure Floats (φ : Type) where
  ofString : Text → Option φ
  format : φ → Text

inductive Json (φ : Type)
  | int (i : Int64)
  | bool (b : Bool)
  | float (r : φ)
  | string (s : Text)
  | array (elements : List (Json φ))
  | object (fields : List (Text × Json φ))
  | null

variable {φ : Type}

/-! ## Printing -/

def escapeChar (c : Char) : Text :=
  if c = '\n' then ['\\', 'n']
  else if c = '\t' then ['\\', 't']
  else if c = '\r' then ['\\', 'r']
  else if c = '\x08' then ['\\', 'b']
  else if c = '\\' then ['\\', '\\']
  else if c = '/' then ['\\', '/']
  else if c = '"' then ['\\', '"']
  else if c = '\x0c' then ['\\', 'f']
  else [c]

def escapeString (s : Text) : Text := '"' :: (s.flatMap escapeChar ++ ['"'])

/-- `Printf.sprintf "%Ld"`. -/
def formatInt (i : Int64) : Text :=
  if i.toInt < 0 then '-' :: Nat.toDigits 10 i.toInt.natAbs else Nat.toDigits 10 i.toInt.natAbs

mutual

/-- What `to_fct` hands to its callback, put together. -/
def toText (floats : Floats φ) : Json φ → Text
  | .int i => formatInt i
  | .bool b => if b then ['t', 'r', 'u', 'e'] else ['f', 'a', 'l', 's', 'e']
  | .float r => floats.format r
  | .string s => escapeString s
  | .null => ['n', 'u', 'l', 'l']
  | .array elements => '[' :: (elementsToText floats elements ++ [']'])
  | .object fields => '{' :: (fieldsToText floats fields ++ ['}'])

def elementsToText (floats : Floats φ) : List (Json φ) → Text
  | [] => []
  | [element] => toText floats element
  | element :: rest => toText floats element ++ (',' :: ' ' :: elementsToText floats rest)

def fieldsToText (floats : Floats φ) : List (Text × Json φ) → Text
  | [] => []
  | [(key, value)] => escapeString key ++ (':' :: ' ' :: toText floats value)
  | (key, value) :: rest =>
      escapeString key ++ (':' :: ' ' :: (toText floats value ++
        (',' :: ' ' :: fieldsToText floats rest)))

end

/-! ## Integers -/

/-- The value of a sign and digits. It fails without digits and out of range. -/
def int64OfDigits (negative : Bool) (digits : Text) : Option Int64 :=
  if digits ≠ [] ∧ digits.all Char.isDigit then
    let magnitude : Int := Nat.ofDigitChars 10 digits 0
    let value := if negative then -magnitude else magnitude
    if -2 ^ 63 ≤ value ∧ value < 2 ^ 63 then some (Int64.ofInt value) else none
  else none

/-- `Int64.of_string` on an optional sign followed by digits, which is all that
a parser collects for an integer. -/
def int64OfString (s : Text) : Option Int64 :=
  if s.head? = some '-' then int64OfDigits true s.tail else int64OfDigits false s

theorem all_isDigit_toDigits (n : ℕ) : (Nat.toDigits 10 n).all Char.isDigit = true :=
  List.all_eq_true.mpr fun _ hc => Nat.isDigit_of_mem_toDigits (by decide) (by decide) hc

theorem int64OfDigits_toDigits {i : Int64} {negative : Bool} {n : ℕ}
    (hvalue : (if negative then -(n : Int) else n) = i.toInt) :
    int64OfDigits negative (Nat.toDigits 10 n) = some i := by
  have hrange : -2 ^ 63 ≤ i.toInt ∧ i.toInt < 2 ^ 63 := ⟨i.le_toInt, i.toInt_lt⟩
  rw [int64OfDigits, if_pos ⟨Nat.toDigits_ne_nil, all_isDigit_toDigits n⟩]
  simp only [Nat.ofDigitChars_ten_toDigits, hvalue]
  rw [if_pos hrange, Int64.ofInt_toInt]

theorem int64OfString_formatInt (i : Int64) : int64OfString (formatInt i) = some i := by
  rw [formatInt, int64OfString]
  by_cases hneg : i.toInt < 0
  · rw [if_pos hneg, if_pos List.head?_cons, List.tail_cons]
    apply int64OfDigits_toDigits
    rw [if_pos rfl]
    omega
  · have hhead : (Nat.toDigits 10 i.toInt.natAbs).head? ≠ some '-' := by
      intro hhead
      have hdigit := List.all_eq_true.mp (all_isDigit_toDigits i.toInt.natAbs) '-'
        (List.mem_of_head? hhead)
      exact absurd hdigit (by decide)
    rw [if_neg hneg, if_neg hhead]
    apply int64OfDigits_toDigits
    rw [if_neg (by decide)]
    omega

/-- No printed number has a superfluous zero in front. -/
theorem head_toDigits_ne_zero {n : ℕ} (hpos : 0 < n) (rest : Text) :
    Nat.toDigits 10 n ≠ '0' :: rest := by
  induction n using Nat.strongRecOn generalizing rest with
  | ind n ih =>
      by_cases hsmall : n < 10
      · rw [Nat.toDigits_of_lt_base hsmall]
        intro heq
        have hzero : n.digitChar = Nat.digitChar 0 := (List.cons.inj heq).1
        have hall : ∀ m < 10, m.digitChar = Nat.digitChar 0 → m = 0 := by decide
        exact absurd (hall n hsmall hzero) (Nat.pos_iff_ne_zero.mp hpos)
      · rw [Nat.toDigits_of_base_le (by decide) (by omega)]
        intro heq
        cases hfirst : Nat.toDigits 10 (n / 10) with
        | nil => exact Nat.toDigits_ne_nil hfirst
        | cons c others =>
            rw [hfirst, List.cons_append] at heq
            obtain ⟨rfl, _⟩ := List.cons.inj heq
            exact ih (n / 10) (by omega) (by omega) others hfirst

end Signpost.Frost

import Mathlib.Algebra.Group.Int.Defs
import Mathlib.Data.List.Basic

/-! # Scanning integers

A scanner in the manner of `scanf` reads a decimal integer from the front of a
text and leaves the rest. A sign may stand before the digits, underscores may
stand between and behind them, and the value has to fit into a signed word.
-/

namespace Machine

/-! ## The scanner -/

/-- The digits that come next, and what is left. Underscores are passed over. -/
def scanDigits : List Char → List Char × List Char
  | [] => ([], [])
  | c :: text =>
      if c.isDigit then
        let (digits, rest) := scanDigits text
        (c :: digits, rest)
      else if c = '_' then scanDigits text
      else ([], c :: text)

/-- A number begins with a digit. -/
def scanNumber : List Char → Option (List Char × List Char)
  | [] => none
  | c :: text =>
      if c.isDigit then
        let (digits, rest) := scanDigits text
        some (c :: digits, rest)
      else none

def fitting (bits : ℕ) (value : ℤ) : Option ℤ :=
  if -2 ^ (bits - 1) ≤ value ∧ value < 2 ^ (bits - 1) then some value else none

/-- The value of an optional sign and digits. -/
def intOfToken (bits : ℕ) : List Char → Option ℤ
  | '-' :: digits => fitting bits (-Nat.ofDigitChars 10 digits 0)
  | '+' :: digits => fitting bits (Nat.ofDigitChars 10 digits 0)
  | digits => fitting bits (Nat.ofDigitChars 10 digits 0)

/-- The token for a signed number. -/
def scanSigned : List Char → Option (List Char × List Char)
  | [] => none
  | c :: text =>
      if c = '+' ∨ c = '-' then (scanNumber text).map fun (digits, rest) => (c :: digits, rest)
      else scanNumber (c :: text)

def scanInt (bits : ℕ) (text : List Char) : Option (ℤ × List Char) :=
  (scanSigned text).bind fun (token, rest) => (intOfToken bits token).map fun value => (value, rest)

/-! ## Numerals -/

/-- A character that goes on with a number. -/
def GoesOn (c : Char) : Prop := c.isDigit ∨ c = '_'

def IsNumber (s : List Char) : Prop :=
  ∃ first rest, s = first :: rest ∧ first.isDigit ∧ ∀ c ∈ rest, GoesOn c

def magnitude (s : List Char) : ℕ := Nat.ofDigitChars 10 (s.filter Char.isDigit) 0

/-- The integers as they are written. -/
inductive Numeral : List Char → ℤ → Prop
  | plain {s : List Char} (hnumber : IsNumber s) : Numeral s (magnitude s)
  | plus {s : List Char} (hnumber : IsNumber s) : Numeral ('+' :: s) (magnitude s)
  | minus {s : List Char} (hnumber : IsNumber s) : Numeral ('-' :: s) (-magnitude s)

def Fits (bits : ℕ) (value : ℤ) : Prop := -2 ^ (bits - 1) ≤ value ∧ value < 2 ^ (bits - 1)

/-- A number does not go on with the text. -/
def Stops (text : List Char) : Prop := ∀ c ∈ text.head?, ¬ GoesOn c

theorem fitting_eq_some_iff {bits : ℕ} {value n : ℤ} :
    fitting bits value = some n ↔ value = n ∧ Fits bits n := by
  unfold fitting
  split
  next hfits =>
    rw [Option.some_inj]
    constructor
    · rintro rfl
      exact ⟨rfl, hfits⟩
    · exact And.left
  next hnot =>
    refine iff_of_false (by simp) ?_
    rintro ⟨rfl, hfits⟩
    exact hnot hfits

theorem scanDigits_of_stops {text : List Char} (hstops : Stops text) :
    scanDigits text = ([], text) := by
  cases text with
  | nil => rfl
  | cons c text =>
      have hnot := hstops c rfl
      rw [GoesOn, not_or] at hnot
      rw [scanDigits, if_neg hnot.1, if_neg hnot.2]

theorem scanDigits_append {s rest : List Char} (hall : ∀ c ∈ s, GoesOn c) (hstops : Stops rest) :
    scanDigits (s ++ rest) = (s.filter Char.isDigit, rest) := by
  induction s with
  | nil => exact scanDigits_of_stops hstops
  | cons c s ih =>
      rw [List.forall_mem_cons] at hall
      rw [List.cons_append, scanDigits, ih hall.2]
      by_cases hdigit : c.isDigit
      · rw [if_pos hdigit, List.filter_cons_of_pos hdigit]
      · rw [if_neg hdigit, if_pos (hall.1.resolve_left hdigit), List.filter_cons_of_neg hdigit]

/-- What has been scanned is in front of what is left. -/
theorem exists_of_scanDigits (text : List Char) :
    ∃ s, text = s ++ (scanDigits text).2 ∧ (∀ c ∈ s, GoesOn c) ∧ Stops (scanDigits text).2 := by
  induction text with
  | nil => exact ⟨[], rfl, by simp, by simp [Stops, scanDigits]⟩
  | cons c text ih =>
      obtain ⟨s, htext, hall, hstops⟩ := ih
      rw [scanDigits]
      by_cases hdigit : c.isDigit
      · rw [if_pos hdigit]
        exact ⟨c :: s, congrArg (c :: ·) htext, List.forall_mem_cons.mpr ⟨.inl hdigit, hall⟩,
          hstops⟩
      · rw [if_neg hdigit]
        by_cases hgap : c = '_'
        · rw [if_pos hgap]
          exact ⟨c :: s, congrArg (c :: ·) htext, List.forall_mem_cons.mpr ⟨.inr hgap, hall⟩,
            hstops⟩
        · rw [if_neg hgap]
          refine ⟨[], rfl, by simp, ?_⟩
          intro other hother hgoes
          obtain rfl := Option.some.inj hother
          exact hgoes.elim hdigit hgap

theorem scanNumber_eq_some_iff {text digits rest : List Char} :
    scanNumber text = some (digits, rest) ↔
      ∃ s, text = s ++ rest ∧ IsNumber s ∧ s.filter Char.isDigit = digits ∧ Stops rest := by
  constructor
  · intro hscan
    cases text with
    | nil => cases hscan
    | cons c text =>
        rw [scanNumber] at hscan
        split at hscan
        next hdigit =>
          obtain ⟨rfl, rfl⟩ := Prod.mk.inj (Option.some.inj hscan)
          obtain ⟨s, htext, hall, hstops⟩ := exists_of_scanDigits text
          refine ⟨c :: s, congrArg (c :: ·) htext, ⟨c, s, rfl, hdigit, hall⟩, ?_, hstops⟩
          have hscanned := scanDigits_append hall hstops
          rw [← htext] at hscanned
          rw [List.filter_cons_of_pos hdigit, hscanned]
        next => cases hscan
  · rintro ⟨s, rfl, ⟨first, digits, rfl, hfirst, hall⟩, rfl, hstops⟩
    rw [List.cons_append, scanNumber, if_pos hfirst, scanDigits_append hall hstops,
      List.filter_cons_of_pos hfirst]

/-- A token without a sign has only digits. -/
theorem intOfToken_filter (bits : ℕ) (s : List Char) :
    intOfToken bits (s.filter Char.isDigit) = fitting bits (magnitude s) := by
  have hdigit : ∀ c text, s.filter Char.isDigit = c :: text → c.isDigit := by
    intro c text heq
    exact (List.mem_filter.mp (heq ▸ List.mem_cons_self)).2
  unfold intOfToken
  split
  next heq => exact absurd (hdigit _ _ heq) (by decide)
  next heq => exact absurd (hdigit _ _ heq) (by decide)
  next => rfl

theorem scanSigned_of_isNumber {s rest : List Char} (hnumber : IsNumber s) (hstops : Stops rest) :
    scanSigned (s ++ rest) = some (s.filter Char.isDigit, rest) := by
  have hscan := scanNumber_eq_some_iff.mpr ⟨s, rfl, hnumber, rfl, hstops⟩
  obtain ⟨first, digits, rfl, hfirst, -⟩ := hnumber
  rw [List.cons_append] at hscan ⊢
  rw [scanSigned, if_neg, hscan]
  rintro (rfl | rfl)
  · exact absurd hfirst (by decide)
  · exact absurd hfirst (by decide)

theorem scanSigned_of_sign {sign : Char} (hsign : sign = '+' ∨ sign = '-') {s rest : List Char}
    (hnumber : IsNumber s) (hstops : Stops rest) :
    scanSigned (sign :: s ++ rest) = some (sign :: s.filter Char.isDigit, rest) := by
  rw [List.cons_append, scanSigned, if_pos hsign,
    scanNumber_eq_some_iff.mpr ⟨s, rfl, hnumber, rfl, hstops⟩]
  rfl

theorem exists_of_scanSigned {text token rest : List Char}
    (hscan : scanSigned text = some (token, rest)) :
    ∃ s, IsNumber s ∧ Stops rest ∧
      ((text = s ++ rest ∧ token = s.filter Char.isDigit) ∨
        ∃ sign, (sign = '+' ∨ sign = '-') ∧ text = sign :: s ++ rest ∧
          token = sign :: s.filter Char.isDigit) := by
  cases text with
  | nil => cases hscan
  | cons c text =>
      rw [scanSigned] at hscan
      split at hscan
      next hsign =>
        obtain ⟨⟨digits, left⟩, hnumber, heq⟩ := Option.map_eq_some_iff.mp hscan
        obtain ⟨rfl, rfl⟩ := Prod.mk.inj heq
        obtain ⟨s, rfl, hs, rfl, hstops⟩ := scanNumber_eq_some_iff.mp hnumber
        exact ⟨s, hs, hstops, .inr ⟨c, hsign, rfl, rfl⟩⟩
      next =>
        obtain ⟨s, htext, hs, rfl, hstops⟩ := scanNumber_eq_some_iff.mp hscan
        exact ⟨s, hs, hstops, .inl ⟨htext, rfl⟩⟩

theorem scanInt_of_token {bits : ℕ} {text token rest : List Char} {n : ℤ}
    (hsigned : scanSigned text = some (token, rest)) (htoken : intOfToken bits token = some n) :
    scanInt bits text = some (n, rest) := by
  rw [scanInt, hsigned]
  simp [htoken]

/-- The scanner reads the numerals that fit, as far as they go. -/
theorem scanInt_eq_some_iff {bits : ℕ} {text rest : List Char} {n : ℤ} :
    scanInt bits text = some (n, rest) ↔
      ∃ s, text = s ++ rest ∧ Numeral s n ∧ Fits bits n ∧ Stops rest := by
  constructor
  · intro hscan
    obtain ⟨⟨token, left⟩, hsigned, hvalue⟩ := Option.bind_eq_some_iff.mp hscan
    obtain ⟨value, htoken, heq⟩ := Option.map_eq_some_iff.mp hvalue
    obtain ⟨rfl, rfl⟩ := Prod.mk.inj heq
    obtain ⟨s, hs, hstops, ⟨rfl, rfl⟩ | ⟨sign, rfl | rfl, rfl, rfl⟩⟩ :=
      exists_of_scanSigned hsigned
    · rw [intOfToken_filter, fitting_eq_some_iff] at htoken
      obtain ⟨rfl, hfits⟩ := htoken
      exact ⟨s, rfl, .plain hs, hfits, hstops⟩
    · obtain ⟨rfl, hfits⟩ := fitting_eq_some_iff.mp htoken
      exact ⟨_, rfl, .plus hs, hfits, hstops⟩
    · obtain ⟨rfl, hfits⟩ := fitting_eq_some_iff.mp htoken
      exact ⟨_, rfl, .minus hs, hfits, hstops⟩
  · rintro ⟨s, rfl, hnumeral, hfits, hstops⟩
    have hfitting := fitting_eq_some_iff.mpr ⟨rfl, hfits⟩
    cases hnumeral with
    | plain hs =>
        apply scanInt_of_token (scanSigned_of_isNumber hs hstops)
        rw [intOfToken_filter, hfitting]
    | plus hs => exact scanInt_of_token (scanSigned_of_sign (.inl rfl) hs hstops) hfitting
    | minus hs => exact scanInt_of_token (scanSigned_of_sign (.inr rfl) hs hstops) hfitting

end Machine

import Signpost.Frost.Completeness

/-! # Printed values

The text of a value is in the grammar, as far as the text of each number in it
is: a whole number is printed as the parser reads it, and a float need not be.
-/

namespace Signpost.Frost

variable {φ : Type} {floats : Floats φ}

mutual

/-- The text of every float in the value is read as that float. -/
def Json.Readable (floats : Floats φ) : Json φ → Prop
  | .float r => Number floats (floats.format r) (.float r)
  | .array elements => ElementsReadable floats elements
  | .object fields => FieldsReadable floats fields
  | .int _ | .bool _ | .string _ | .null => True

def ElementsReadable (floats : Floats φ) : List (Json φ) → Prop
  | [] => True
  | element :: rest => element.Readable floats ∧ ElementsReadable floats rest

def FieldsReadable (floats : Floats φ) : List (Text × Json φ) → Prop
  | [] => True
  | (_, value) :: rest => value.Readable floats ∧ FieldsReadable floats rest

end

theorem intPart_formatInt (i : Int64) : IntPart (formatInt i) := by
  have hall := all_isDigit_toDigits i.toInt.natAbs
  constructor
  · unfold formatInt
    split
    next => exact ⟨'-', _, rfl, .inl rfl, hall⟩
    next =>
      cases hdigits : Nat.toDigits 10 i.toInt.natAbs with
      | nil => exact absurd hdigits Nat.toDigits_ne_nil
      | cons c ds =>
          rw [hdigits, List.all_cons, Bool.and_eq_true] at hall
          exact ⟨c, ds, rfl, .inr hall.1, hall.2⟩
  · intro c tl heq
    unfold formatInt at heq
    split at heq
    next => cases heq
    next =>
      rcases Nat.eq_zero_or_pos i.toInt.natAbs with hzero | hpos
      · rw [hzero] at heq
        cases heq
      · exact head_toDigits_ne_zero hpos _ heq

theorem characters_escapeChar (c : Char) {source t : Text} (hsource : Characters source t) :
    Characters (escapeChar c ++ source) (c :: t) := by
  by_cases hspecial : c ∈ ['\n', '\t', '\r', '\x08', '\\', '/', '"', '\x0c']
  · simp only [List.mem_cons, List.not_mem_nil, or_false] at hspecial
    rcases hspecial with rfl | rfl | rfl | rfl | rfl | rfl | rfl | rfl <;>
      exact .escaped rfl hsource
  · simp only [List.mem_cons, List.not_mem_nil, or_false, not_or] at hspecial
    have hself : escapeChar c = [c] := by simp [escapeChar, hspecial]
    rw [hself]
    exact .plain (by simp [isValidUnescapedChar, hspecial]) hsource

theorem characters_escape (s : Text) : Characters (s.flatMap escapeChar) s := by
  induction s with
  | nil => exact .nil
  | cons c s ih => exact characters_escapeChar c ih

theorem elementsToText_cons_cons (first second : Json φ) (others : List (Json φ)) :
    elementsToText floats (first :: second :: others) =
      toText floats first ++ (',' :: ' ' :: elementsToText floats (second :: others)) := by
  simp [elementsToText]

theorem fieldsToText_cons_cons (first second : Text × Json φ) (others : List (Text × Json φ)) :
    fieldsToText floats (first :: second :: others) =
      escapeString first.1 ++ (':' :: ' ' :: (toText floats first.2 ++
        (',' :: ' ' :: fieldsToText floats (second :: others)))) := by
  simp [fieldsToText]

/-! ## Derivations -/

theorem Derives.asElement {text : Text} {v : Json φ} (htext : Derives floats text (.value v)) :
    Derives floats text (.element v) := by
  have helement := Derives.element spaces_nil htext spaces_nil
  rwa [List.nil_append, List.append_nil] at helement

theorem spaces_blank : Spaces [' '] := by simp [Spaces, isSpace]

theorem Derives.afterBlank {text : Text} {v : Json φ} (htext : Derives floats text (.value v)) :
    Derives floats (' ' :: text) (.element v) := by
  have helement := Derives.element spaces_blank htext spaces_nil
  rwa [List.append_nil] at helement

/-- A field as it is printed, at the beginning or after a blank. -/
theorem Derives.printedField {before text key : Text} {v : Json φ} (hbefore : Spaces before)
    (htext : Derives floats text (.value v)) :
    Derives floats (before ++ (escapeString key ++ (':' :: ' ' :: text))) (.field key v) := by
  have hfield := Derives.field hbefore (characters_escape key) spaces_nil htext.afterBlank
  simpa [escapeString] using hfield

mutual

theorem derives_toText (j : Json φ) (hj : j.Readable floats) :
    Derives floats (toText floats j) (.value j) := by
  cases j with
  | int i =>
      rw [toText]
      exact .number (.int (intPart_formatInt i) (int64OfString_formatInt i))
  | bool b =>
      cases b with
      | true => exact .true
      | false => exact .false
  | float r =>
      rw [toText]
      exact .number hj
  | string s =>
      rw [toText]
      exact .string (characters_escape s)
  | null => exact .null
  | array elements =>
      rw [toText]
      cases elements with
      | nil => exact .emptyArray spaces_nil
      | cons element others =>
          -- the first element begins the list, and each of the others is added to its end
          cases others with
          | nil =>
              rw [elementsToText]
              exact .array (.firstElement (derives_toText element hj.1).asElement)
          | cons second others =>
              rw [elementsToText_cons_cons]
              exact .array (derives_elementsToText
                (.firstElement (derives_toText element hj.1).asElement) second others hj.2)
  | object fields =>
      rw [toText]
      cases fields with
      | nil => exact .emptyObject spaces_nil
      | cons field others =>
          cases field with
          | mk key value =>
              have hfirst : Derives floats (escapeString key ++ (':' :: ' ' :: toText floats value))
                  (.fields [(key, value)]) :=
                .firstField (.printedField spaces_nil (derives_toText value hj.1))
              cases others with
              | nil =>
                  rw [fieldsToText]
                  exact .object hfirst
              | cons second others =>
                  cases second with
                  | mk nextKey nextValue =>
                      have htext :
                          fieldsToText floats ((key, value) :: (nextKey, nextValue) :: others) =
                            escapeString key ++ (':' :: ' ' :: toText floats value) ++
                              (',' :: ' ' ::
                                fieldsToText floats ((nextKey, nextValue) :: others)) := by
                        simp [fieldsToText_cons_cons]
                      rw [htext]
                      exact .object (derives_fieldsToText hfirst nextKey nextValue others hj.2)
termination_by sizeOf j

/-- The grammar takes elements from the left, and the printer from the right. -/
theorem derives_elementsToText {text : Text} {l : List (Json φ)}
    (htext : Derives floats text (.elements l)) (element : Json φ) (others : List (Json φ))
    (hreadable : ElementsReadable floats (element :: others)) :
    Derives floats (text ++ (',' :: ' ' :: elementsToText floats (element :: others)))
      (.elements (l ++ element :: others)) := by
  have hnext : Derives floats (text ++ (',' :: ' ' :: toText floats element))
      (.elements (l ++ [element])) :=
    .nextElement htext (derives_toText element hreadable.1).afterBlank
  cases others with
  | nil =>
      rw [elementsToText]
      exact hnext
  | cons second others =>
      have hall := derives_elementsToText hnext second others hreadable.2
      simpa [elementsToText_cons_cons] using hall
termination_by sizeOf (element :: others)

theorem derives_fieldsToText {text : Text} {l : List (Text × Json φ)}
    (htext : Derives floats text (.fields l)) (key : Text) (value : Json φ)
    (others : List (Text × Json φ)) (hreadable : FieldsReadable floats ((key, value) :: others)) :
    Derives floats (text ++ (',' :: ' ' :: fieldsToText floats ((key, value) :: others)))
      (.fields (l ++ (key, value) :: others)) := by
  have hfield : Derives floats (' ' :: (escapeString key ++ (':' :: ' ' :: toText floats value)))
      (.field key value) :=
    .printedField spaces_blank (derives_toText value hreadable.1)
  have hnext := Derives.nextField htext hfield
  cases others with
  | nil => simpa [fieldsToText] using hnext
  | cons second others =>
      cases second with
      | mk nextKey nextValue =>
          have hall := derives_fieldsToText hnext nextKey nextValue others hreadable.2
          simpa [fieldsToText_cons_cons] using hall
termination_by sizeOf ((key, value) :: others)

end

/-! ## Reading back -/

section

variable {c : Char} {text : Text}

theorem not_isSpace_of_isDigit (hc : c.isDigit) : isSpace c = false := by
  simp only [isSpace, decide_eq_false_iff_not]
  rintro (rfl | rfl | rfl | rfl) <;> simp at hc

theorem not_isSpace_of_isExponent (hc : isExponent c) : isSpace c = false := by
  have hcases : c = 'e' ∨ c = 'E' := by simpa [isExponent] using hc
  rcases hcases with rfl | rfl <;> rfl

theorem not_isSpace_of_digits (htext : text.all Char.isDigit) (hc : c ∈ text) :
    isSpace c = false :=
  not_isSpace_of_isDigit (List.all_eq_true.mp htext c hc)

theorem not_isSpace_of_exponent (htext : text.all isExponentChar) (hc : c ∈ text) :
    isSpace c = false := by
  have hchar : c = '+' ∨ c = '-' ∨ c.isDigit := by
    simpa [isExponentChar] using List.all_eq_true.mp htext c hc
  rcases hchar with rfl | rfl | hdigit
  · rfl
  · rfl
  · exact not_isSpace_of_isDigit hdigit

theorem IntPart.not_isSpace (his : IntPart text) (hc : c ∈ text) : isSpace c = false := by
  obtain ⟨⟨first, ds, rfl, hfirst, hds⟩, _⟩ := his
  rcases List.mem_cons.mp hc with rfl | hc
  · rcases hfirst with rfl | hfirst
    · rfl
    · exact not_isSpace_of_isDigit hfirst
  · exact not_isSpace_of_digits hds hc

end

/-- No number has white space in it. -/
theorem Number.not_isSpace {text : Text} {v : Json φ} (hnumber : Number floats text v) {c : Char}
    (hc : c ∈ text) : isSpace c = false := by
  cases hnumber with
  | int his => exact his.not_isSpace hc
  | float his hfs =>
      rcases List.mem_append.mp hc with hc | hc
      · exact his.not_isSpace hc
      · rcases List.mem_cons.mp hc with rfl | hc
        · rfl
        · exact not_isSpace_of_digits hfs hc
  | intExp his he hes =>
      rcases List.mem_append.mp hc with hc | hc
      · exact his.not_isSpace hc
      · rcases List.mem_cons.mp hc with rfl | hc
        · exact not_isSpace_of_isExponent he
        · exact not_isSpace_of_exponent hes hc
  | floatExp his hfs he hes =>
      rcases List.mem_append.mp hc with hc | hc
      · exact his.not_isSpace hc
      · rcases List.mem_cons.mp hc with rfl | hc
        · rfl
        · rcases List.mem_append.mp hc with hc | hc
          · exact not_isSpace_of_digits hfs hc
          · rcases List.mem_cons.mp hc with rfl | hc
            · exact not_isSpace_of_isExponent he
            · exact not_isSpace_of_exponent hes hc

/-- What is no bare number is read back, whatever is behind it. -/
theorem ofString_toText_append {j : Json φ} (hj : j.Readable floats) (hnot : ¬ j.IsNumber)
    (rest : Text) : ofString floats (toText floats j ++ rest) = .ok j := by
  have hdocument : Document floats ([] ++ toText floats j) j :=
    .value spaces_nil (derives_toText j hj) hnot
  exact ofString_of_document hdocument rest

/-- The text of an object is read back as the object. -/
theorem ofString_toText {fields : List (Text × Json φ)} (hfields : FieldsReadable floats fields) :
    ofString floats (toText floats (.object fields)) = .ok (.object fields) := by
  have hread := ofString_toText_append (j := .object fields) hfields id []
  rwa [List.append_nil] at hread

/-- The text of a value is read back as the value, whatever is behind it, unless it
is a bare number: such a text has no end for the parser. -/
theorem ofString_toText_iff {j : Json φ} (hj : j.Readable floats) :
    (∀ rest, ofString floats (toText floats j ++ rest) = .ok j) ↔ ¬ j.IsNumber := by
  constructor
  · intro hall hnumber
    have hown := hall []
    rw [List.append_nil] at hown
    obtain ⟨read, rest, htext, hdocument⟩ := document_of_ofString hown
    have hspaces : ∀ c ∈ toText floats j, isSpace c = false := by
      intro c hc
      cases j with
      | int i =>
          rw [toText] at hc
          have hnumber : Number floats (formatInt i) (.int i) :=
            .int (intPart_formatInt i) (int64OfString_formatInt i)
          exact hnumber.not_isSpace hc
      | float r =>
          rw [toText] at hc
          exact Number.not_isSpace hj hc
      | _ => exact hnumber.elim
    cases hdocument with
    | value _ _ hv => exact hv hnumber
    | number _ _ hc =>
        rename_i c _ _
        have hmem : c ∈ toText floats j := by simp [htext]
        rw [hspaces c hmem] at hc
        cases hc
  · exact fun hnot rest => ofString_toText_append hj hnot rest

/-- A float whose text is read again, and a number that is printed without a point. -/
theorem ofString_toText_iff_half :
    let half : Floats Unit :=
      ⟨fun text => if text = ['0', '.', '5'] then some () else none, fun _ => ['0', '.', '5']⟩
    let j : Json Unit := .array [.float (), .int 3]
    (∀ rest, ofString half (toText half j ++ rest) = .ok j) ↔ ¬ j.IsNumber := by
  intro half j
  have his : IntPart ['0'] :=
    ⟨⟨'0', [], rfl, .inr (by decide), by decide⟩, fun c tl heq => by cases heq⟩
  have hfloat : Number half (['0'] ++ '.' :: ['5']) (.float ()) :=
    .float his (by decide) (by decide)
  exact ofString_toText_iff ⟨hfloat, trivial, trivial⟩

end Signpost.Frost

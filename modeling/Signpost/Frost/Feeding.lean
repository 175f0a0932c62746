import Signpost.Frost.Parser

/-! # Feeding characters

What the parser does with a character is said once for each cursor, and with the
characters of a constant or of a number by induction on them.
-/

namespace Signpost.Frost

open Machine

variable {φ : Type} {floats : Floats φ}

/-! ## One character -/

@[simp] theorem ParseState.goto_goto (s : ParseState φ) (first second : Cursor φ) :
    (s.goto first).goto second = s.goto second := rfl

@[simp] theorem ParseState.stack_goto (s : ParseState φ) (cursor : Cursor φ) :
    (s.goto cursor).stack = s.stack := rfl

@[simp] theorem ParseState.cursor_goto (s : ParseState φ) (cursor : Cursor φ) :
    (s.goto cursor).cursor = cursor := rfl

/-- A finished value sets the cursor, wherever it was. -/
@[simp] theorem finishValue_goto (s : ParseState φ) (cursor : Cursor φ) (v : Json φ) :
    finishValue (s.goto cursor) v = finishValue s v := by
  unfold finishValue
  simp only [ParseState.stack_goto]
  split <;> rfl

theorem parse_done {s : ParseState φ} {v : Json φ} (hdone : s.cursor = .done v) (input : Text) :
    parse floats s input = .ok v := by
  cases input <;> simp [parse, ParseState.getParseResult, hdone]

theorem parse_cons {s : ParseState φ} (hresult : s.getParseResult = none) (c : Char)
    (rest : Text) :
    parse floats s (c :: rest) = parseChar floats s c >>= fun next => parse floats next rest := by
  rw [parse, hresult]

/-- A character that is taken at once. -/
theorem parse_taken {s : ParseState φ} (hresult : s.getParseResult = none) {c : Char}
    {computation : Except Exn (ParseState φ)}
    (hreact : react floats s c = computation.map .taken) (rest : Text) :
    parse floats s (c :: rest) = computation >>= fun next => parse floats next rest := by
  rw [parse_cons hresult, parseChar, hreact]
  cases computation <;> rfl

/-- A character that ends a number. -/
theorem parse_again {s : ParseState φ} (hresult : s.getParseResult = none) {c : Char}
    {computation : Except Exn (ParseState φ)}
    (hreact : react floats s c = computation.map .again)
    (hopen : ∀ next, computation = .ok next → next.getParseResult = none) (rest : Text) :
    parse floats s (c :: rest) =
      computation >>= fun next => parse floats next (c :: rest) := by
  rw [parse_cons hresult, parseChar, hreact]
  cases hcomputation : computation with
  | error exn => rfl
  | ok next => exact (parse_cons (hopen next hcomputation) c rest).symm

/-! ## Strings -/

theorem parse_inString {s : ParseState φ} {cs : Text} (c : Char) (rest : Text) :
    parse floats (s.goto (.inString cs)) (c :: rest) =
      parseInString (s.goto (.inString cs)) cs c >>= fun next => parse floats next rest :=
  parse_taken rfl rfl rest

theorem parse_inStringControl {s : ParseState φ} {cs : Text} (c : Char) (rest : Text) :
    parse floats (s.goto (.inStringControl cs)) (c :: rest) =
      parseInStringControl (s.goto (.inStringControl cs)) cs c >>=
        fun next => parse floats next rest :=
  parse_taken rfl rfl rest

/-! ## Where a value begins -/

def ExpectsValue (s : ParseState φ) : Prop := s.cursor = .start ∨ s.cursor = .expectValue

theorem ExpectsValue.getParseResult {s : ParseState φ} (hs : ExpectsValue s) :
    s.getParseResult = none := by
  rcases hs with hcursor | hcursor <;> simp [ParseState.getParseResult, hcursor]

theorem parse_beginValue {s next : ParseState φ} (hs : ExpectsValue s) {c : Char}
    (hbegin : beginValue s c = some next) (rest : Text) :
    parse floats s (c :: rest) = parse floats next rest := by
  have hreact : react floats s c = (Except.ok next : Except Exn (ParseState φ)).map .taken := by
    rcases hs with hcursor | hcursor
    · simp [react, hcursor, parseStart, hbegin]
    · simp [react, hcursor, parseExpectValue, hbegin]
  rw [parse_taken hs.getParseResult hreact]
  rfl

theorem parse_null {s : ParseState φ} (hs : ExpectsValue s) (rest : Text) :
    parse floats s ('n' :: 'u' :: 'l' :: 'l' :: rest) =
      finishValue s .null >>= fun next => parse floats next rest := by
  have hbegin : beginValue s 'n' = some (s.goto (.inNull 3)) := by simp [beginValue]
  have hnext : ∀ (rem : ℕ) (c : Char) (input : Text),
      parse floats (s.goto (.inNull rem)) (c :: input) =
        parseInNull (s.goto (.inNull rem)) rem c >>= fun next => parse floats next input :=
    fun _ _ input => parse_taken rfl rfl input
  rw [parse_beginValue hs hbegin]
  simp [hnext, parseInNull, bind, Except.bind]

theorem parse_true {s : ParseState φ} (hs : ExpectsValue s) (rest : Text) :
    parse floats s ('t' :: 'r' :: 'u' :: 'e' :: rest) =
      finishValue s (.bool true) >>= fun next => parse floats next rest := by
  have hbegin : beginValue s 't' = some (s.goto (.inTrue 3)) := by simp [beginValue]
  have hnext : ∀ (rem : ℕ) (c : Char) (input : Text),
      parse floats (s.goto (.inTrue rem)) (c :: input) =
        parseInTrue (s.goto (.inTrue rem)) rem c >>= fun next => parse floats next input :=
    fun _ _ input => parse_taken rfl rfl input
  rw [parse_beginValue hs hbegin]
  simp [hnext, parseInTrue, bind, Except.bind]

theorem parse_false {s : ParseState φ} (hs : ExpectsValue s) (rest : Text) :
    parse floats s ('f' :: 'a' :: 'l' :: 's' :: 'e' :: rest) =
      finishValue s (.bool false) >>= fun next => parse floats next rest := by
  have hbegin : beginValue s 'f' = some (s.goto (.inFalse 4)) := by simp [beginValue]
  have hnext : ∀ (rem : ℕ) (c : Char) (input : Text),
      parse floats (s.goto (.inFalse rem)) (c :: input) =
        parseInFalse (s.goto (.inFalse rem)) rem c >>= fun next => parse floats next input :=
    fun _ _ input => parse_taken rfl rfl input
  rw [parse_beginValue hs hbegin]
  simp [hnext, parseInFalse, bind, Except.bind]

/-! ## Numbers -/

theorem parse_digits (s : ParseState φ) (is : Text) {digits : Text}
    (hdigits : digits.all Char.isDigit) (rest : Text) :
    parse floats (s.goto (.inInt is)) (digits ++ rest) =
      parse floats (s.goto (.inInt (digits.reverse ++ is))) rest := by
  induction digits generalizing is with
  | nil => rfl
  | cons c digits ih =>
      obtain ⟨hc, hdigits⟩ := Bool.and_eq_true_iff.mp hdigits
      have hreact : react floats (s.goto (.inInt is)) c =
          (Except.ok (s.goto (.inInt (c :: is))) : Except Exn (ParseState φ)).map .taken := by
        simp [react, parseInInt, parseNumber, hc, Except.map]
      rw [List.cons_append, parse_taken rfl hreact]
      refine (ih (c :: is) hdigits).trans ?_
      rw [List.reverse_cons, List.append_assoc, List.singleton_append]

theorem getParseResult_of_finishValue {s next : ParseState φ} {v : Json φ}
    (hinside : s.stack ≠ []) (hok : finishValue s v = .ok next) : next.getParseResult = none := by
  unfold finishValue at hok
  split at hok
  next hstack => exact absurd hstack hinside
  all_goals first
    | (obtain rfl := Except.ok.inj hok; rfl)
    | cases hok

/-! ## Containers -/

/-- A container is closed. -/
theorem parse_close {s : ParseState φ} (hcursor : s.cursor = .expectCommaOrEnd) {c : Char}
    (hc : c = '}' ∧ s.isParsingObject = true ∨ c = ']' ∧ s.isParsingObject = false)
    (rest : Text) :
    parse floats s (c :: rest) = popStack s >>= fun next => parse floats next rest := by
  apply parse_taken (by simp [ParseState.getParseResult, hcursor])
  rcases hc with ⟨rfl, hobject⟩ | ⟨rfl, hobject⟩
  · simp [react, hcursor, parseExpectCommaOrEnd, hobject]
  · simp [react, hcursor, parseExpectCommaOrEnd, hobject]

theorem finishValue_array {s : ParseState φ} {l : List (Json φ)} {tl : List (IntValue φ)}
    (hstack : s.stack = .array l :: tl) (v : Json φ) :
    finishValue s v = .ok ⟨.expectCommaOrEnd, .array (v :: l) :: tl, s.lineNum⟩ := by
  simp [finishValue, hstack]

theorem finishValue_field {s : ParseState φ} {fields : List (Text × Json φ)} {key : Text}
    {tl : List (IntValue φ)} (hstack : s.stack = .objectNeedsValue fields key :: tl)
    (v : Json φ) :
    finishValue s v = .ok ⟨.expectCommaOrEnd, .object ((key, v) :: fields) :: tl, s.lineNum⟩ := by
  simp [finishValue, hstack]

end Signpost.Frost

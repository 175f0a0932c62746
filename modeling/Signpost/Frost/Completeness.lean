import Signpost.Frost.Soundness

/-! # What the JSON parser does not refuse

Every derivation drives the parser through the text that it derives. The line
number that the parser has come to is left open here, as no value depends on it.
-/

namespace Signpost.Frost

open Machine

variable {φ : Type} {floats : Floats φ}

def ParseState.atLine (s : ParseState φ) (line : ℕ) : ParseState φ := { s with lineNum := line }

section

variable {s : ParseState φ} {c : Char} {text : Text} {v : Json φ}

@[simp] theorem ParseState.cursor_atLine (s : ParseState φ) (line : ℕ) :
    (s.atLine line).cursor = s.cursor := rfl

@[simp] theorem ParseState.stack_atLine (s : ParseState φ) (line : ℕ) :
    (s.atLine line).stack = s.stack := rfl

@[simp] theorem ParseState.atLine_atLine (s : ParseState φ) (line other : ℕ) :
    (s.atLine line).atLine other = s.atLine other := rfl

/-- The line that is reached depends on the line before and on the character alone. -/
theorem exists_updateLineNum_eq (s : ParseState φ) (c : Char) :
    ∃ line, ∀ other : ParseState φ, other.lineNum = s.lineNum →
      other.updateLineNum c = other.atLine line := by
  by_cases hc : c = '\n'
  · refine ⟨s.lineNum + 1, fun other hother => ?_⟩
    simp [ParseState.updateLineNum, ParseState.atLine, hc, hother]
  · refine ⟨s.lineNum, fun other hother => ?_⟩
    simp [ParseState.updateLineNum, ParseState.atLine, hc, ← hother]

/-! ## White space -/

/-- The cursors between the parts of a value. -/
def Cursor.IsBetween : Cursor φ → Prop
  | .start | .expectValue | .expectObjectElemStart | .expectObjectElemColon | .expectCommaOrEnd
  | .expectObjectKey => True
  | _ => False

theorem getParseResult_of_isBetween (hbetween : s.cursor.IsBetween) : s.getParseResult = none := by
  unfold ParseState.getParseResult
  split
  next hcursor =>
    rw [hcursor] at hbetween
    exact hbetween.elim
  next => rfl

theorem react_space (hbetween : s.cursor.IsBetween) (hc : isSpace c) :
    react floats s c =
      (Except.ok (s.updateLineNum c) : Except Exn (ParseState φ)).map .taken := by
  have hcases : c = ' ' ∨ c = '\t' ∨ c = '\n' ∨ c = '\r' := by simpa [isSpace] using hc
  have hbegin : beginValue s c = none := by
    rcases hcases with rfl | rfl | rfl | rfl <;> simp [beginValue]
  unfold Cursor.IsBetween at hbetween
  split at hbetween
  case h_7 => exact hbetween.elim
  all_goals
    rename_i hcursor
    rcases hcases with rfl | rfl | rfl | rfl <;>
      simp [react, hcursor, parseStart, parseExpectValue, parseExpectObjectElemStart,
        parseExpectObjectElemColon, parseExpectCommaOrEnd, parseExpectObjectKey, hbegin, isSpace]

theorem parse_spaces (floats : Floats φ) (hbetween : s.cursor.IsBetween) {ws : Text}
    (hws : Spaces ws) (rest : Text) :
    ∃ line, parse floats s (ws ++ rest) = parse floats (s.atLine line) rest := by
  induction ws generalizing s with
  | nil => exact ⟨s.lineNum, rfl⟩
  | cons c ws ih =>
      obtain ⟨hc, hws⟩ := spaces_cons.mp hws
      obtain ⟨line, hline⟩ := exists_updateLineNum_eq s c
      obtain ⟨last, hlast⟩ := ih (s := s.atLine line) hbetween hws
      refine ⟨last, ?_⟩
      rw [List.cons_append, parse_taken (getParseResult_of_isBetween hbetween)
        (react_space hbetween hc), hline s rfl]
      exact hlast

/-! ## Strings -/

theorem parseInStringControl_of_unescape {e : Char} (he : unescape e = some c) (s : ParseState φ)
    (cs : Text) : parseInStringControl s cs e = .ok (s.goto (.inString (c :: cs))) := by
  unfold unescape at he
  split at he
  next hself =>
    obtain rfl := Option.some.inj he
    exact if_pos hself
  next =>
  split at he
  next hb =>
    obtain rfl := Option.some.inj he
    subst hb
    rfl
  next =>
  split at he
  next hf =>
    obtain rfl := Option.some.inj he
    subst hf
    rfl
  next =>
  split at he
  next hn =>
    obtain rfl := Option.some.inj he
    subst hn
    rfl
  next =>
  split at he
  next hr =>
    obtain rfl := Option.some.inj he
    subst hr
    rfl
  next =>
  split at he
  next ht =>
    obtain rfl := Option.some.inj he
    subst ht
    rfl
  next => cases he

/-- The hexadecimal digits of a unicode escape. -/
theorem parse_hex (s : ParseState φ) (cs digits : Text) {hs : Text} (hne : hs ≠ [])
    (hhex : hs.all isHexChar) (rest : Text) :
    parse floats (s.goto (.inStringHex cs digits hs.length)) (hs ++ rest) =
      parse floats (s.goto (.inString (hs.reverse ++ (digits ++ 'u' :: '\\' :: cs)))) rest := by
  induction hs generalizing digits with
  | nil => exact absurd rfl hne
  | cons c hs ih =>
      obtain ⟨hc, hhex⟩ := Bool.and_eq_true_iff.mp hhex
      rw [List.cons_append]
      refine (parse_taken rfl rfl _).trans ?_
      cases hs with
      | nil =>
          simp only [parseInStringHex, hc, if_true, List.length_cons]
          rfl
      | cons d hs =>
          simp only [parseInStringHex, hc, if_true, List.length_cons]
          refine (ih (c :: digits) (List.cons_ne_nil _ _) hhex).trans ?_
          simp

theorem parse_characters (s : ParseState φ) (cs : Text) {source t : Text}
    (hsource : Characters source t) (rest : Text) :
    parse floats (s.goto (.inString cs)) (source ++ '"' :: rest) =
      finishValue s (.string (cs.reverse ++ t)) >>= fun next => parse floats next rest := by
  have hbackslash : ∀ cs, parseInString (s.goto (.inString cs)) cs '\\' =
      .ok (s.goto (.inStringControl cs)) := fun _ => rfl
  induction hsource generalizing cs with
  | nil => simp [parse_inString, parseInString]
  | @plain c source t hc _ ih =>
      have hplain : c ≠ '\\' ∧ c ≠ '"' := by
        simp only [isValidUnescapedChar, decide_eq_true_eq, not_or] at hc
        exact ⟨hc.2.1, hc.1⟩
      have htaken : parseInString (s.goto (.inString cs)) cs c =
          .ok (s.goto (.inString (c :: cs))) := by
        simp [parseInString, hplain, hc]
      rw [List.cons_append, parse_inString, htaken]
      refine (ih (c :: cs)).trans ?_
      simp
  | @escaped e c source t he _ ih =>
      rw [List.cons_append, List.cons_append, parse_inString, hbackslash]
      refine (parse_inStringControl e _).trans ?_
      rw [parseInStringControl_of_unescape he]
      refine (ih (c :: cs)).trans ?_
      simp
  | @unicode hs source t hlength hhex _ ih =>
      have hne : hs ≠ [] := by
        rintro rfl
        cases hlength
      simp only [List.cons_append, List.append_assoc]
      have htaken : parseInStringControl (s.goto (.inStringControl cs)) cs 'u' =
          .ok (s.goto (.inStringHex cs [] hs.length)) := by
        rw [hlength]
        rfl
      rw [parse_inString, hbackslash]
      refine (parse_inStringControl 'u' _).trans ?_
      rw [htaken]
      refine (parse_hex s cs [] hne hhex _).trans ?_
      refine (ih (hs.reverse ++ ([] ++ 'u' :: '\\' :: cs))).trans ?_
      simp

/-! ## Where a value is expected -/

/-- The container on top takes a value that is not a key. -/
def Awaits (s : ParseState φ) : Prop :=
  match s.stack with
  | [] | .array _ :: _ | .objectNeedsValue _ _ :: _ => True
  | .object _ :: _ | .objectNeedsKey _ :: _ => False

theorem finishValue_of_awaits (hawaits : Awaits s) (v : Json φ) :
    (∀ line, finishValue (s.atLine line) v = .ok ((s.atLine line).goto (.done v))) ∨
      s.stack ≠ [] ∧ ∃ stack, ∀ line,
        finishValue (s.atLine line) v = .ok ⟨.expectCommaOrEnd, stack, line⟩ := by
  unfold Awaits at hawaits
  split at hawaits
  next hstack => exact .inl fun line => by simp [finishValue, hstack]
  next l tl hstack =>
    exact .inr ⟨by simp [hstack], _, fun line => finishValue_array (s := s.atLine line) hstack v⟩
  next fields key tl hstack =>
    exact .inr ⟨by simp [hstack], _, fun line => finishValue_field (s := s.atLine line) hstack v⟩
  next => exact hawaits.elim
  next => exact hawaits.elim

/-- What ends a number. -/
def EndsNumber (s : ParseState φ) (rest : Text) : Prop :=
  ∃ c others, rest = c :: others ∧ (isSpace c ∨ isNumberEnd c ∧ s.stack ≠ [])

/-! ## Numbers -/

theorem parse_collect (s : ParseState φ) {cursor : Text → Cursor φ} {p : Char → Bool}
    (hopen : ∀ cs, (s.goto (cursor cs)).getParseResult = none)
    (hp : ∀ cs c, p c →
      react floats (s.goto (cursor cs)) c = .ok (.taken (s.goto (cursor (c :: cs)))))
    (cs : Text) {digits : Text} (hdigits : digits.all p) (rest : Text) :
    parse floats (s.goto (cursor cs)) (digits ++ rest) =
      parse floats (s.goto (cursor (digits.reverse ++ cs))) rest := by
  induction digits generalizing cs with
  | nil => rfl
  | cons c digits ih =>
      obtain ⟨hc, hdigits⟩ := Bool.and_eq_true_iff.mp hdigits
      have htaken : react floats (s.goto (cursor cs)) c =
          (Except.ok (s.goto (cursor (c :: cs))) : Except Exn (ParseState φ)).map .taken :=
        hp cs c hc
      rw [List.cons_append, parse_taken (hopen cs) htaken]
      refine (ih (c :: cs) hdigits).trans ?_
      simp

/-- No number goes on with what ends one. -/
theorem not_more_of_ends (hc : isSpace c ∨ isNumberEnd c) :
    c.isDigit = false ∧ c ≠ '.' ∧ isExponent c = false ∧ isExponentChar c = false := by
  have hcases : c ∈ [' ', '\t', '\n', '\r', ',', ']', '}'] := by
    simpa [isSpace, isNumberEnd, or_assoc] using hc
  simp only [List.mem_cons, List.not_mem_nil, or_false] at hcases
  rcases hcases with rfl | rfl | rfl | rfl | rfl | rfl | rfl <;> decide

/-- White space that is taken before a value is finished comes to the same as white space
after it. -/
theorem finishValue_space (floats : Floats φ) (hawaits : Awaits s) (v : Json φ)
    (hspace : isSpace c) {line : ℕ}
    (hline : ∀ other : ParseState φ, other.lineNum = s.lineNum →
      other.updateLineNum c = other.atLine line) (others : Text) :
    (finishValue (s.atLine line) v >>= fun next => parse floats next others) =
      finishValue s v >>= fun next => parse floats next (c :: others) := by
  rcases finishValue_of_awaits hawaits v with hdone | ⟨-, stack, hfilled⟩
  -- at the top there is a result, and the rest of the text is not read
  · have hown : finishValue s v = .ok (s.goto (.done v)) := hdone s.lineNum
    rw [hdone line, hown]
    exact (parse_done rfl others).trans (parse_done rfl (c :: others)).symm
  · have hown : finishValue s v = .ok ⟨.expectCommaOrEnd, stack, s.lineNum⟩ := hfilled s.lineNum
    rw [hfilled line, hown]
    have hbetween : (⟨.expectCommaOrEnd, stack, s.lineNum⟩ : ParseState φ).cursor.IsBetween :=
      trivial
    have hskip : react floats (⟨.expectCommaOrEnd, stack, s.lineNum⟩ : ParseState φ) c =
        (Except.ok ⟨.expectCommaOrEnd, stack, line⟩ : Except Exn (ParseState φ)).map .taken := by
      rw [react_space hbetween hspace, hline ⟨.expectCommaOrEnd, stack, s.lineNum⟩ rfl]
      rfl
    exact (parse_taken rfl hskip others).symm

/-- All numbers are finished in the same way. -/
theorem parse_numberEnd {cursor : Cursor φ} (finish : ParseState φ → Except Exn (ParseState φ))
    (jsonType : String) {rest : Text} (hawaits : Awaits s) (hends : EndsNumber s rest)
    (hopen : (s.goto cursor).getParseResult = none)
    (hreact : ∀ c, isSpace c ∨ isNumberEnd c →
      react floats (s.goto cursor) c = parseNumber (s.goto cursor) c none finish jsonType)
    (hfinish : ∀ s, finish s = finishValue s v) :
    parse floats (s.goto cursor) rest =
      finishValue s v >>= fun next => parse floats next rest := by
  obtain ⟨c, others, rfl, hspace | ⟨hend, hinside⟩⟩ := hends
  -- white space is taken together with the number
  · have hnot : isNumberEnd c = false := by
      have hcases : c = ' ' ∨ c = '\t' ∨ c = '\n' ∨ c = '\r' := by simpa [isSpace] using hspace
      rcases hcases with rfl | rfl | rfl | rfl <;> decide
    obtain ⟨line, hline⟩ := exists_updateLineNum_eq s c
    have htaken : react floats (s.goto cursor) c = (finishValue (s.atLine line) v).map .taken := by
      rw [hreact c (.inl hspace), parseNumber]
      simp only [hnot, hspace, if_true, Bool.false_eq_true, if_false, hfinish,
        hline (s.goto cursor) rfl]
      exact congrArg _ (finishValue_goto (s.atLine line) cursor v)
    rw [parse_taken hopen htaken]
    exact finishValue_space floats hawaits v hspace hline others
  -- a comma or a bracket is left for the container
  · have hagain : react floats (s.goto cursor) c = (finishValue s v).map .again := by
      rw [hreact c (.inr hend), parseNumber]
      simp only [hend, if_true, hfinish, finishValue_goto]
    exact parse_again hopen hagain
      (fun next hok => getParseResult_of_finishValue hinside hok) others

theorem toStringWithLeadingZeroCheck_of_intPart {is : Text} (his : IntPart is)
    (s : ParseState φ) : toStringWithLeadingZeroCheck s is.reverse = .ok is := by
  unfold toStringWithLeadingZeroCheck
  rw [List.reverse_reverse]
  split
  next c tl => exact absurd rfl (his.noLeadingZero c tl)
  next => rfl

theorem finishInt_of_intPart {is : Text} {i : Int64} (his : IntPart is)
    (hvalue : int64OfString is = some i) (s : ParseState φ) :
    finishInt s is.reverse = finishValue s (.int i) := by
  simp [finishInt, toStringWithLeadingZeroCheck_of_intPart his, hvalue, bind, Except.bind]

theorem finishFloatWith_of_intPart {is after : Text} {r : φ} (his : IntPart is)
    (hvalue : floats.ofString (is ++ '.' :: after) = some r) (s : ParseState φ) :
    finishFloatWith floats s is.reverse after = finishValue s (.float r) := by
  simp [finishFloatWith, toStringWithLeadingZeroCheck_of_intPart his, hvalue, bind, Except.bind]

/-- The integer part of a number. -/
theorem parse_intPart (hs : ExpectsValue s) {is : Text} (his : SignedDigits is) (rest : Text) :
    parse floats s (is ++ rest) = parse floats (s.goto (.inInt is.reverse)) rest := by
  obtain ⟨c, ds, rfl, hc, hds⟩ := his
  have hbegin : beginValue s c = some (s.goto (.inInt [c])) := by
    have hne : ∀ other : Char, other ≠ '-' → other.isDigit = false → c ≠ other := by
      rintro _ hminus hdigit rfl
      rcases hc with hc | hc
      · exact hminus hc
      · simp [hdigit] at hc
    simp [beginValue, hc, hne 'n' (by decide) (by decide), hne 't' (by decide) (by decide),
      hne 'f' (by decide) (by decide)]
  rw [List.cons_append, parse_beginValue hs hbegin, parse_digits s [c] hds, List.reverse_cons]

theorem parse_goto {cursor later : Cursor φ} (hopen : (s.goto cursor).getParseResult = none)
    (hreact : react floats (s.goto cursor) c = .ok (.taken (s.goto later))) (rest : Text) :
    parse floats (s.goto cursor) (c :: rest) = parse floats (s.goto later) rest := by
  have htaken : react floats (s.goto cursor) c =
      (Except.ok (s.goto later) : Except Exn (ParseState φ)).map .taken := hreact
  exact parse_taken hopen htaken rest

theorem not_digit_of_isExponent {e : Char} (he : isExponent e) : e.isDigit = false ∧ e ≠ '.' := by
  have hcases : e = 'e' ∨ e = 'E' := by simpa [isExponent] using he
  rcases hcases with rfl | rfl <;> decide

/-- Each part of a number is collected under a cursor of its own, and the last one is left
by what ends the number. -/
theorem parse_number {text rest : Text} (hs : ExpectsValue s) (hawaits : Awaits s)
    (hnumber : Number floats text v) (hends : EndsNumber s rest) :
    parse floats s (text ++ rest) = finishValue s v >>= fun next => parse floats next rest := by
  cases hnumber with
  | int his hvalue =>
      rw [parse_intPart hs his.digits]
      refine parse_numberEnd (fun s => finishInt s text.reverse) "int" hawaits hends rfl
        (fun c hc => ?_) (finishInt_of_intPart his hvalue)
      simp [react, parseInInt, not_more_of_ends hc]
  | @float is fs r his hfs hvalue =>
      rw [List.append_assoc, parse_intPart hs his.digits, List.cons_append, parse_goto rfl rfl,
        parse_collect s (fun _ => rfl) (fun cs c hc => ?_) [] hfs, List.append_nil]
      · refine parse_numberEnd (fun s => finishFloat floats s is.reverse fs.reverse) "float" hawaits
          hends rfl (fun c hc => ?_) (fun s => ?_)
        · simp [react, parseInFloat, not_more_of_ends hc]
        · rw [finishFloat, List.reverse_reverse, finishFloatWith_of_intPart his hvalue]
      · simp [react, parseInFloat, parseNumber, hc]
  | @intExp is es e r his he hes hvalue =>
      have hexp : react floats (s.goto (.inInt is.reverse)) e =
          .ok (.taken (s.goto (.inIntExp is.reverse []))) := by
        simp [react, parseInInt, parseNumber, not_digit_of_isExponent he, he]
      rw [List.append_assoc, parse_intPart hs his.digits, List.cons_append, parse_goto rfl hexp,
        parse_collect s (fun _ => rfl) (fun cs c hc => ?_) [] hes, List.append_nil]
      · refine parse_numberEnd (fun s => finishIntExp floats s is.reverse es.reverse) "int_exp"
          hawaits hends rfl (fun c hc => ?_) (fun s => ?_)
        · simp [react, parseInIntExp, not_more_of_ends hc]
        · rw [finishIntExp, List.reverse_reverse, finishFloatWith_of_intPart his hvalue]
      · simp [react, parseInIntExp, parseNumber, hc]
  | @floatExp is fs es e r his hfs he hes hvalue =>
      have hexp : react floats (s.goto (.inFloat is.reverse fs.reverse)) e =
          .ok (.taken (s.goto (.inFloatExp is.reverse fs.reverse []))) := by
        simp [react, parseInFloat, parseNumber, not_digit_of_isExponent he, he]
      rw [List.append_assoc, parse_intPart hs his.digits, List.cons_append, parse_goto rfl rfl,
        List.append_assoc, parse_collect s (fun _ => rfl) (fun cs c hc => ?_) [] hfs,
        List.append_nil, List.cons_append, parse_goto rfl hexp,
        parse_collect s (fun _ => rfl) (fun cs c hc => ?_) [] hes, List.append_nil]
      · refine parse_numberEnd
          (fun s => finishFloatExp floats s is.reverse fs.reverse es.reverse) "float_exp"
          hawaits hends rfl (fun c hc => ?_) (fun s => ?_)
        · simp [react, parseInFloatExp, not_more_of_ends hc]
        · rw [finishFloatExp, List.reverse_reverse, List.reverse_reverse,
            finishFloatWith_of_intPart his hvalue]
      · simp [react, parseInFloatExp, parseNumber, hc]
      · simp [react, parseInFloat, parseNumber, hc]

/-! ## Containers -/

/-- Something stands after an element, at the end of its container or before the next. -/
def Follows (rest : Text) : Prop := ∃ c others, rest = c :: others ∧ isNumberEnd c

theorem follows_cons (hc : isNumberEnd c) (others : Text) : Follows (c :: others) :=
  ⟨c, others, rfl, hc⟩

/-- A key may come, after the fields. -/
def Keyed (s : ParseState φ) (fields : List (Text × Json φ)) (tl : List (IntValue φ)) : Prop :=
  s.cursor = .expectObjectElemStart ∧ fields = [] ∧ s.stack = tl ∨
    s.cursor = .expectObjectKey ∧ s.stack = .object fields :: tl

section

variable {fields : List (Text × Json φ)} {tl : List (IntValue φ)}

theorem Keyed.isBetween (hs : Keyed s fields tl) : s.cursor.IsBetween := by
  rcases hs with ⟨hcursor, _, _⟩ | ⟨hcursor, _⟩ <;> rw [hcursor] <;> trivial

theorem Keyed.atLine (hs : Keyed s fields tl) (line : ℕ) : Keyed (s.atLine line) fields tl := hs

theorem parse_quote (hs : Keyed s fields tl) (rest : Text) :
    parse floats s ('"' :: rest) =
      parse floats ⟨.inString [], .objectNeedsKey fields :: tl, s.lineNum⟩ rest := by
  have hreact : react floats s '"' =
      (Except.ok ⟨.inString [], .objectNeedsKey fields :: tl, s.lineNum⟩ :
        Except Exn (ParseState φ)).map .taken := by
    rcases hs with ⟨hcursor, rfl, rfl⟩ | ⟨hcursor, hstack⟩
    · simp [react, hcursor, parseExpectObjectElemStart]
    · simp [react, hcursor, parseExpectObjectKey, hstack]
  exact parse_taken (getParseResult_of_isBetween hs.isBetween) hreact rest

/-- The colon, and the spaces before it. -/
theorem parse_colon (floats : Floats φ) (fields : List (Text × Json φ)) (tl : List (IntValue φ))
    (key : Text) (line : ℕ) {ws : Text} (hws : Spaces ws) (rest : Text) :
    ∃ later, parse floats ⟨.expectObjectElemColon, .objectNeedsValue fields key :: tl, line⟩
        (ws ++ ':' :: rest) =
      parse floats ⟨.start, .objectNeedsValue fields key :: tl, later⟩ rest := by
  have hbetween : (⟨.expectObjectElemColon, .objectNeedsValue fields key :: tl, line⟩ :
      ParseState φ).cursor.IsBetween := trivial
  have hcolon (later : ℕ) : react floats
      ⟨.expectObjectElemColon, .objectNeedsValue fields key :: tl, later⟩ ':' =
      (Except.ok ⟨.start, .objectNeedsValue fields key :: tl, later⟩ :
        Except Exn (ParseState φ)).map .taken := rfl
  obtain ⟨later, hlater⟩ := parse_spaces floats hbetween hws (':' :: rest)
  exact ⟨later, hlater.trans (parse_taken rfl (hcolon later) rest)⟩

/-- The comma after an element, which tells an array from an object. -/
theorem parse_comma {io : IntValue φ} (line : ℕ) (rest : Text) :
    parse floats ⟨.expectCommaOrEnd, io :: tl, line⟩ (',' :: rest) =
      parse floats ⟨if (⟨.expectCommaOrEnd, io :: tl, line⟩ : ParseState φ).isParsingObject
        then .expectObjectKey else .expectValue, io :: tl, line⟩ rest := by
  have hcomma : react floats ⟨.expectCommaOrEnd, io :: tl, line⟩ ',' =
      (Except.ok ⟨if (⟨.expectCommaOrEnd, io :: tl, line⟩ : ParseState φ).isParsingObject
        then .expectObjectKey else .expectValue, io :: tl, line⟩ :
        Except Exn (ParseState φ)).map .taken := rfl
  exact parse_taken rfl hcomma rest

end

/-! ## Derivations -/

/-- What a phrase has the parser do with a text. -/
def Phrase.Drives (floats : Floats φ) (text : Text) : Phrase φ → Prop
  | .value v => ∀ s rest, ExpectsValue s → Awaits s → (v.IsNumber → EndsNumber s rest) →
      ∃ line, parse floats s (text ++ rest) =
        finishValue (s.atLine line) v >>= fun next => parse floats next rest
  | .element v => ∀ s stack rest, ExpectsValue s → Awaits s → s.stack ≠ [] →
      (∀ line, finishValue (s.atLine line) v = .ok ⟨.expectCommaOrEnd, stack, line⟩) →
      Follows rest →
      ∃ line, parse floats s (text ++ rest) = parse floats ⟨.expectCommaOrEnd, stack, line⟩ rest
  | .elements l => ∀ tl line rest, Follows rest →
      ∃ later, parse floats ⟨.start, .array [] :: tl, line⟩ (text ++ rest) =
        parse floats ⟨.expectCommaOrEnd, .array l.reverse :: tl, later⟩ rest
  | .field key v => ∀ s fields tl rest, Keyed s fields tl → Follows rest →
      ∃ line, parse floats s (text ++ rest) =
        parse floats ⟨.expectCommaOrEnd, .object ((key, v) :: fields) :: tl, line⟩ rest
  | .fields l => ∀ tl line rest, Follows rest →
      ∃ later, parse floats ⟨.expectObjectElemStart, tl, line⟩ (text ++ rest) =
        parse floats ⟨.expectCommaOrEnd, .object l.reverse :: tl, later⟩ rest

/-- A container with nothing but white space in it. -/
theorem parse_empty {s inside : ParseState φ} {first close : Char} {ws : Text}
    (hs : ExpectsValue s) (hbegin : beginValue s first = some inside)
    (hbetween : inside.cursor.IsBetween) (hws : Spaces ws)
    (hclose : ∀ line, react floats (inside.atLine line) close =
      (finishValue (s.atLine line) v).map .taken)
    (hdone : ∀ line, (inside.atLine line).getParseResult = none) (rest : Text) :
    ∃ line, parse floats s (first :: (ws ++ [close]) ++ rest) =
      finishValue (s.atLine line) v >>= fun next => parse floats next rest := by
  obtain ⟨line, hline⟩ := parse_spaces floats hbetween hws (close :: rest)
  refine ⟨line, ?_⟩
  rw [List.cons_append, List.append_assoc, parse_beginValue hs hbegin]
  exact hline.trans (parse_taken (hdone line) (hclose line) rest)

/-- A container whose elements are read, up to its end. -/
theorem parse_container {s inside : ParseState φ} {io : IntValue φ} {first close : Char}
    (hs : ExpectsValue s) (hbegin : beginValue s first = some inside)
    (hread : ∀ rest, ∃ line, parse floats inside (text ++ close :: rest) =
      parse floats ⟨.expectCommaOrEnd, io :: s.stack, line⟩ (close :: rest))
    (hpop : ∀ line, popStack (⟨.expectCommaOrEnd, io :: s.stack, line⟩ : ParseState φ) =
      finishValue ⟨.start, s.stack, line⟩ v)
    (hclose : ∀ line,
      close = '}' ∧
        (⟨.expectCommaOrEnd, io :: s.stack, line⟩ : ParseState φ).isParsingObject = true ∨
      close = ']' ∧
        (⟨.expectCommaOrEnd, io :: s.stack, line⟩ : ParseState φ).isParsingObject = false)
    (rest : Text) :
    ∃ line, parse floats s (first :: (text ++ [close]) ++ rest) =
      finishValue (s.atLine line) v >>= fun next => parse floats next rest := by
  obtain ⟨line, hline⟩ := hread rest
  refine ⟨line, ?_⟩
  rw [List.cons_append, List.append_assoc, parse_beginValue hs hbegin]
  refine hline.trans ?_
  rw [parse_close rfl (hclose line), hpop line, ← finishValue_goto (s.atLine line) .start]
  rfl

theorem drives_emptyArray {ws : Text} (hws : Spaces ws) :
    (Phrase.value (.array [])).Drives floats ('[' :: (ws ++ [']'])) := by
  intro s rest hs _ _
  have hbegin : beginValue s '[' = some ⟨.start, .array [] :: s.stack, s.lineNum⟩ := by
    simp [beginValue]
  refine parse_empty hs hbegin trivial hws (fun line => ?_) (fun _ => rfl) rest
  rw [← finishValue_goto (s.atLine line) .start]
  rfl

theorem drives_array {l : List (Json φ)} (htext : (Phrase.elements l).Drives floats text) :
    (Phrase.value (.array l)).Drives floats ('[' :: (text ++ [']'])) := by
  intro s rest hs _ _
  have hbegin : beginValue s '[' = some ⟨.start, .array [] :: s.stack, s.lineNum⟩ := by
    simp [beginValue]
  have hread (rest : Text) := htext s.stack s.lineNum (']' :: rest) (follows_cons (by decide) rest)
  refine parse_container hs hbegin hread (fun line => ?_) (fun _ => .inr ⟨rfl, rfl⟩) rest
  simp only [popStack, List.reverse_reverse]
  exact finishValue_goto ⟨.start, s.stack, line⟩ .expectCommaOrEnd _

theorem drives_emptyObject {ws : Text} (hws : Spaces ws) :
    (Phrase.value (.object [])).Drives floats ('{' :: (ws ++ ['}'])) := by
  intro s rest hs _ _
  have hbegin : beginValue s '{' = some (s.goto .expectObjectElemStart) := by simp [beginValue]
  refine parse_empty hs hbegin trivial hws (fun line => ?_) (fun _ => rfl) rest
  rw [← finishValue_goto (s.atLine line) .expectObjectElemStart]
  rfl

theorem drives_object {l : List (Text × Json φ)} (htext : (Phrase.fields l).Drives floats text) :
    (Phrase.value (.object l)).Drives floats ('{' :: (text ++ ['}'])) := by
  intro s rest hs _ _
  have hbegin : beginValue s '{' = some (s.goto .expectObjectElemStart) := by simp [beginValue]
  have hread (rest : Text) := htext s.stack s.lineNum ('}' :: rest) (follows_cons (by decide) rest)
  refine parse_container hs hbegin hread (fun line => ?_) (fun _ => .inl ⟨rfl, rfl⟩) rest
  simp only [popStack, List.reverse_reverse]
  exact finishValue_goto ⟨.start, s.stack, line⟩ .expectCommaOrEnd _

/-- What ends an element, which may be a number, is white space or what follows. -/
theorem drives_element {before after : Text} (hbefore : Spaces before)
    (htext : (Phrase.value v).Drives floats text) (hafter : Spaces after) :
    (Phrase.element v).Drives floats (before ++ (text ++ after)) := by
  intro s stack rest hs hawaits hinside hfinish hfollows
  have hbetween : s.cursor.IsBetween := by
    rcases hs with hcursor | hcursor <;> rw [hcursor] <;> trivial
  obtain ⟨line, hline⟩ := parse_spaces floats hbetween hbefore (text ++ (after ++ rest))
  -- a number ends at the white space behind it, and where there is none at the comma or bracket
  have hends : EndsNumber (s.atLine line) (after ++ rest) := by
    obtain ⟨c, others, rfl, hend⟩ := hfollows
    cases after with
    | nil => exact ⟨c, others, rfl, .inr ⟨hend, hinside⟩⟩
    | cons d ds => exact ⟨d, ds ++ c :: others, rfl, .inl (spaces_cons.mp hafter).1⟩
  obtain ⟨later, hlater⟩ := htext (s.atLine line) (after ++ rest) hs hawaits (fun _ => hends)
  have hcomma : (⟨.expectCommaOrEnd, stack, later⟩ : ParseState φ).cursor.IsBetween := trivial
  obtain ⟨last, hlast⟩ := parse_spaces floats hcomma hafter rest
  refine ⟨last, ?_⟩
  rw [List.append_assoc, List.append_assoc, hline, hlater, ParseState.atLine_atLine, hfinish]
  exact hlast

theorem drives_nextElement {next : Text} {l : List (Json φ)}
    (htext : (Phrase.elements l).Drives floats text)
    (hnext : (Phrase.element v).Drives floats next) :
    (Phrase.elements (l ++ [v])).Drives floats (text ++ ',' :: next) := by
  intro tl line rest hfollows
  obtain ⟨later, hlater⟩ := htext tl line (',' :: (next ++ rest)) (follows_cons (by decide) _)
  obtain ⟨last, hlast⟩ := hnext ⟨.expectValue, .array l.reverse :: tl, later⟩
    (.array (l ++ [v]).reverse :: tl) rest (.inr rfl) trivial (List.cons_ne_nil _ _)
    (fun _ => by simp [finishValue, ParseState.atLine]) hfollows
  refine ⟨last, ?_⟩
  rw [List.append_assoc, List.cons_append, hlater, parse_comma]
  exact hlast

theorem drives_field {before source after key : Text} (hbefore : Spaces before)
    (hsource : Characters source key) (hafter : Spaces after)
    (htext : (Phrase.element v).Drives floats text) :
    (Phrase.field key v).Drives floats
      (before ++ '"' :: (source ++ '"' :: (after ++ ':' :: text))) := by
  intro s fields tl rest hs hfollows
  obtain ⟨line, hline⟩ := parse_spaces floats hs.isBetween hbefore
    ('"' :: (source ++ '"' :: (after ++ ':' :: (text ++ rest))))
  obtain ⟨later, hlater⟩ := parse_colon floats fields tl key line hafter (text ++ rest)
  obtain ⟨last, hlast⟩ := htext ⟨.start, .objectNeedsValue fields key :: tl, later⟩
    (.object ((key, v) :: fields) :: tl) rest (.inl rfl) trivial (List.cons_ne_nil _ _)
    (fun _ => rfl) hfollows
  refine ⟨last, ?_⟩
  simp only [List.append_assoc, List.cons_append]
  rw [hline, parse_quote (hs.atLine line)]
  exact (parse_characters ⟨.inString [], .objectNeedsKey fields :: tl, line⟩ [] hsource _).trans
    (hlater.trans hlast)

theorem drives_nextField {next key : Text} {l : List (Text × Json φ)}
    (htext : (Phrase.fields l).Drives floats text)
    (hnext : (Phrase.field key v).Drives floats next) :
    (Phrase.fields (l ++ [(key, v)])).Drives floats (text ++ ',' :: next) := by
  intro tl line rest hfollows
  obtain ⟨later, hlater⟩ := htext tl line (',' :: (next ++ rest)) (follows_cons (by decide) _)
  obtain ⟨last, hlast⟩ := hnext ⟨.expectObjectKey, .object l.reverse :: tl, later⟩ l.reverse
    tl rest (.inr ⟨rfl, rfl⟩) hfollows
  refine ⟨last, ?_⟩
  rw [List.append_assoc, List.cons_append, hlater, parse_comma, List.reverse_append]
  exact hlast

theorem drives_of_derives {phrase : Phrase φ} (hderives : Derives floats text phrase) :
    phrase.Drives floats text := by
  induction hderives with
  | null => exact fun s rest hs _ _ => ⟨s.lineNum, parse_null hs rest⟩
  | true => exact fun s rest hs _ _ => ⟨s.lineNum, parse_true hs rest⟩
  | false => exact fun s rest hs _ _ => ⟨s.lineNum, parse_false hs rest⟩
  | number hnumber =>
      intro s rest hs hawaits hends
      exact ⟨s.lineNum, parse_number hs hawaits hnumber (hends hnumber.isNumber)⟩
  | string hsource =>
      intro s rest hs _ _
      have hbegin : beginValue s '"' = some (s.goto (.inString [])) := by simp [beginValue]
      refine ⟨s.lineNum, ?_⟩
      rw [List.cons_append, List.append_assoc, parse_beginValue hs hbegin]
      exact parse_characters s [] hsource rest
  | emptyArray hws => exact drives_emptyArray hws
  | array _ ih => exact drives_array ih
  | emptyObject hws => exact drives_emptyObject hws
  | object _ ih => exact drives_object ih
  | element hbefore _ hafter ih => exact drives_element hbefore ih hafter
  | firstElement _ ih =>
      intro tl line rest hfollows
      exact ih ⟨.start, .array [] :: tl, line⟩ _ rest (.inl rfl) trivial (List.cons_ne_nil _ _)
        (fun _ => rfl) hfollows
  | nextElement _ _ ih ihNext => exact drives_nextElement ih ihNext
  | field hbefore hsource hafter _ ih => exact drives_field hbefore hsource hafter ih
  | firstField _ ih =>
      intro tl line rest hfollows
      exact ih ⟨.expectObjectElemStart, tl, line⟩ [] tl rest (.inl ⟨rfl, rfl, rfl⟩) hfollows
  | nextField _ _ ih ihNext => exact drives_nextField ih ihNext

/-- A document is read up to its end, and what is behind it is not looked at. -/
theorem ofString_of_document {read : Text} (hdocument : Document floats read v) (rest : Text) :
    ofString floats (read ++ rest) = .ok v := by
  have hstart : (initParseState : ParseState φ).cursor.IsBetween := trivial
  cases hdocument with
  | @value before text v hbefore htext hv =>
      obtain ⟨line, hline⟩ := parse_spaces floats hstart hbefore (text ++ rest)
      obtain ⟨later, hlater⟩ := drives_of_derives htext (initParseState.atLine line) rest (.inl rfl)
        trivial (fun hnumber => absurd hnumber hv)
      rw [ofString, List.append_assoc, hline, hlater]
      exact parse_done rfl rest
  -- a number at the top has to be ended by white space, which is read with it
  | @number before text c v hbefore hnumber hc =>
      obtain ⟨line, hline⟩ := parse_spaces floats hstart hbefore (text ++ ([c] ++ rest))
      have hends : EndsNumber (initParseState.atLine line : ParseState φ) ([c] ++ rest) :=
        ⟨c, rest, rfl, .inl hc⟩
      have hawaits : Awaits (initParseState.atLine line : ParseState φ) := trivial
      rw [ofString, List.append_assoc, List.append_assoc, hline,
        parse_number (.inl rfl) hawaits hnumber hends]
      exact parse_done rfl ([c] ++ rest)

/-- The parser gives a value exactly if the text begins with a document for it. -/
theorem ofString_eq_ok_iff {str : Text} :
    ofString floats str = .ok v ↔
      ∃ read rest, str = read ++ rest ∧ Document floats read v := by
  constructor
  · exact document_of_ofString
  · rintro ⟨read, rest, rfl, hdocument⟩
    exact ofString_of_document hdocument rest

end

end Signpost.Frost

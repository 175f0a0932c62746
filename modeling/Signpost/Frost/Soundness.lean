import Signpost.Frost.Feeding
import Signpost.Frost.Grammar

/-! # What the JSON parser accepts

The text that has been read is a derivation that is not finished yet. Its open
containers are those on the stack, and the cursor says how far the innermost one
has come.
-/

namespace Signpost.Frost

open Machine

variable {φ : Type} {floats : Floats φ}

/-! ## Unfinished derivations -/

/-- A container up to where its next entry begins. -/
inductive Opened {τ : Type} (bracket : Char) (entries : Text → List τ → Prop) :
    Text → List τ → Prop
  | first {ws : Text} (hws : Spaces ws) : Opened bracket entries (bracket :: ws) []
  | next {text ws : Text} {l : List τ} (htext : entries text l) (hws : Spaces ws) :
      Opened bracket entries (bracket :: (text ++ ',' :: ws)) l.reverse

/-- An array up to its next element. -/
def OpenedArray (floats : Floats φ) : Text → List (Json φ) → Prop :=
  Opened '[' fun text l => Derives floats text (.elements l)

/-- An object up to its next key. -/
def OpenedObject (floats : Floats φ) : Text → List (Text × Json φ) → Prop :=
  Opened '{' fun text l => Derives floats text (.fields l)

/-- A container up to where a value is expected in it. -/
inductive Waiting (floats : Floats φ) : Text → IntValue φ → Prop
  | array {text : Text} {l : List (Json φ)} (htext : OpenedArray floats text l) :
      Waiting floats text (.array l)
  | object {text source after before : Text} {fields : List (Text × Json φ)} {key : Text}
      (htext : OpenedObject floats text fields) (hsource : Characters source key)
      (hafter : Spaces after) (hbefore : Spaces before) :
      Waiting floats (text ++ '"' :: (source ++ '"' :: (after ++ ':' :: before)))
        (.objectNeedsValue fields key)

/-- A container after its last value, before the comma or the bracket. -/
inductive Filled (floats : Floats φ) : Text → IntValue φ → Prop
  | array {text : Text} {l : List (Json φ)} (htext : Derives floats text (.elements l)) :
      Filled floats ('[' :: text) (.array l.reverse)
  | object {text : Text} {l : List (Text × Json φ)} (htext : Derives floats text (.fields l)) :
      Filled floats ('{' :: text) (.object l.reverse)

/-- What has been read when a value is expected, with the open containers. -/
inductive Before (floats : Floats φ) : Text → List (IntValue φ) → Prop
  | document {ws : Text} (hws : Spaces ws) : Before floats ws []
  | inside {outer text : Text} {tl : List (IntValue φ)} {io : IntValue φ}
      (houter : Before floats outer tl) (hio : Waiting floats text io) :
      Before floats (outer ++ text) (io :: tl)

/-- A string begins where a value or a key is expected. -/
inductive BeforeString (floats : Floats φ) : Text → List (IntValue φ) → Prop
  | value {text : Text} {stack : List (IntValue φ)} (hbefore : Before floats text stack) :
      BeforeString floats text stack
  | key {outer text : Text} {tl : List (IntValue φ)} {fields : List (Text × Json φ)}
      (houter : Before floats outer tl) (htext : OpenedObject floats text fields) :
      BeforeString floats (outer ++ text) (.objectNeedsKey fields :: tl)

/-- What has been read at each cursor. -/
inductive Reads (floats : Floats φ) : Text → Cursor φ → List (IntValue φ) → Prop
  | start {text : Text} {stack : List (IntValue φ)} (hbefore : Before floats text stack)
      (hfresh : ∀ l tl, stack = .array l :: tl → l = []) : Reads floats text .start stack
  | expectValue {text : Text} {stack : List (IntValue φ)} (hbefore : Before floats text stack) :
      Reads floats text .expectValue stack
  | inNull {text : Text} {stack : List (IntValue φ)} (rem : ℕ)
      (hbefore : Before floats text stack) :
      Reads floats (text ++ ['n', 'u', 'l', 'l'].take (4 - rem)) (.inNull rem) stack
  | inTrue {text : Text} {stack : List (IntValue φ)} (rem : ℕ)
      (hbefore : Before floats text stack) :
      Reads floats (text ++ ['t', 'r', 'u', 'e'].take (4 - rem)) (.inTrue rem) stack
  | inFalse {text : Text} {stack : List (IntValue φ)} (rem : ℕ)
      (hbefore : Before floats text stack) :
      Reads floats (text ++ ['f', 'a', 'l', 's', 'e'].take (5 - rem)) (.inFalse rem) stack
  | inInt {text is : Text} {stack : List (IntValue φ)} (hbefore : Before floats text stack)
      (his : SignedDigits is.reverse) : Reads floats (text ++ is.reverse) (.inInt is) stack
  | inFloat {text is fs : Text} {stack : List (IntValue φ)} (hbefore : Before floats text stack)
      (his : SignedDigits is.reverse) (hfs : fs.reverse.all Char.isDigit) :
      Reads floats (text ++ (is.reverse ++ '.' :: fs.reverse)) (.inFloat is fs) stack
  | inIntExp {text is es : Text} {e : Char} {stack : List (IntValue φ)}
      (hbefore : Before floats text stack) (his : SignedDigits is.reverse) (he : isExponent e)
      (hes : es.reverse.all isExponentChar) :
      Reads floats (text ++ (is.reverse ++ e :: es.reverse)) (.inIntExp is es) stack
  | inFloatExp {text is fs es : Text} {e : Char} {stack : List (IntValue φ)}
      (hbefore : Before floats text stack) (his : SignedDigits is.reverse)
      (hfs : fs.reverse.all Char.isDigit) (he : isExponent e)
      (hes : es.reverse.all isExponentChar) :
      Reads floats (text ++ (is.reverse ++ '.' :: (fs.reverse ++ e :: es.reverse)))
        (.inFloatExp is fs es) stack
  | inString {text source cs : Text} {stack : List (IntValue φ)}
      (hbefore : BeforeString floats text stack) (hsource : Characters source cs.reverse) :
      Reads floats (text ++ '"' :: source) (.inString cs) stack
  | inStringControl {text source cs : Text} {stack : List (IntValue φ)}
      (hbefore : BeforeString floats text stack) (hsource : Characters source cs.reverse) :
      Reads floats (text ++ '"' :: (source ++ ['\\'])) (.inStringControl cs) stack
  | inStringHex {text source cs hs : Text} {rem : ℕ} {stack : List (IntValue φ)}
      (hbefore : BeforeString floats text stack) (hsource : Characters source cs.reverse)
      (hrem : hs.length + rem = 4) (hpos : 0 < rem) (hhs : hs.reverse.all isHexChar) :
      Reads floats (text ++ '"' :: (source ++ '\\' :: 'u' :: hs.reverse)) (.inStringHex cs hs rem)
        stack
  | expectObjectElemStart {text ws : Text} {stack : List (IntValue φ)}
      (hbefore : Before floats text stack) (hws : Spaces ws) :
      Reads floats (text ++ '{' :: ws) .expectObjectElemStart stack
  | expectObjectElemColon {outer text source ws key : Text} {fields : List (Text × Json φ)}
      {tl : List (IntValue φ)} (houter : Before floats outer tl)
      (htext : OpenedObject floats text fields) (hsource : Characters source key)
      (hws : Spaces ws) :
      Reads floats (outer ++ (text ++ '"' :: (source ++ '"' :: ws))) .expectObjectElemColon
        (.objectNeedsValue fields key :: tl)
  | expectCommaOrEnd {outer text : Text} {io : IntValue φ} {tl : List (IntValue φ)}
      (houter : Before floats outer tl) (hio : Filled floats text io) :
      Reads floats (outer ++ text) .expectCommaOrEnd (io :: tl)
  | expectObjectKey {outer text ws : Text} {l : List (Text × Json φ)} {tl : List (IntValue φ)}
      (houter : Before floats outer tl) (htext : Derives floats text (.fields l))
      (hws : Spaces ws) :
      Reads floats (outer ++ '{' :: (text ++ ',' :: ws)) .expectObjectKey (.object l.reverse :: tl)
  | done {text : Text} {v : Json φ} (htext : Document floats text v) :
      Reads floats text (.done v) []

def ReadsState (floats : Floats φ) (text : Text) (s : ParseState φ) : Prop :=
  Reads floats text s.cursor s.stack

section

variable {s next : ParseState φ} {text : Text} {c : Char} {v : Json φ}

@[simp] theorem ParseState.cursor_updateLineNum (s : ParseState φ) (c : Char) :
    (s.updateLineNum c).cursor = s.cursor := by
  unfold ParseState.updateLineNum
  split <;> rfl

@[simp] theorem ParseState.stack_updateLineNum (s : ParseState φ) (c : Char) :
    (s.updateLineNum c).stack = s.stack := by
  unfold ParseState.updateLineNum
  split <;> rfl

/-- Characters that are collected in reverse. -/
theorem all_reverse_cons {collected : Text} {p : Char → Bool} (hall : collected.reverse.all p)
    (hc : p c) : (c :: collected).reverse.all p := by
  rw [List.reverse_cons, List.all_append, hall]
  simpa using hc

/-! ## White space -/

theorem Opened.space {τ : Type} {bracket : Char} {entries : Text → List τ → Prop} {l : List τ}
    (hopened : Opened bracket entries text l) (hc : isSpace c) :
    Opened bracket entries (text ++ [c]) l := by
  cases hopened with
  | first hws => exact .first (hws.concat hc)
  | next htext hws =>
      rw [List.cons_append, List.append_assoc, List.cons_append]
      exact .next htext (hws.concat hc)

theorem Waiting.space {io : IntValue φ} (hwaiting : Waiting floats text io) (hc : isSpace c) :
    Waiting floats (text ++ [c]) io := by
  cases hwaiting with
  | array htext => exact .array (htext.space hc)
  | object htext hsource hafter hbefore =>
      simp only [List.append_assoc, List.cons_append]
      exact .object htext hsource hafter (hbefore.concat hc)

theorem Before.space {stack : List (IntValue φ)} (hbefore : Before floats text stack)
    (hc : isSpace c) : Before floats (text ++ [c]) stack := by
  cases hbefore with
  | document hws => exact .document (hws.concat hc)
  | inside houter hio =>
      rw [List.append_assoc]
      exact .inside houter (hio.space hc)

theorem Filled.space {io : IntValue φ} (hfilled : Filled floats text io) (hc : isSpace c) :
    Filled floats (text ++ [c]) io := by
  cases hfilled with
  | array htext => exact .array (htext.elements_space hc)
  | object htext => exact .object (htext.fields_space hc)

/-! ## Values -/

/-- A value is the next entry of the container that waits for it. -/
theorem Waiting.fill {u : Text} {io : IntValue φ} (hwaiting : Waiting floats text io)
    (hv : Derives floats u (.value v)) :
    ∃ filled, Filled floats (text ++ u) filled ∧
      ∀ tl, s.stack = io :: tl →
        finishValue s v = .ok { s with stack := filled :: tl, cursor := .expectCommaOrEnd } := by
  have helement : ∀ ws, Spaces ws → Derives floats (ws ++ u) (.element v) := by
    intro ws hws
    simpa using Derives.element hws hv spaces_nil
  cases hwaiting with
  | @array _ l hopened =>
      refine ⟨.array (v :: l), ?_, fun tl hstack => by simp [finishValue, hstack]⟩
      cases hopened with
      | first hws => exact .array (l := [v]) (.firstElement (helement _ hws))
      | @next body ws l hbody hws =>
          have hfilled := Filled.array (hbody.nextElement (helement ws hws))
          simpa using hfilled
  | @object opened source after before fields key hopened hsource hafter hbefore =>
      refine ⟨.object ((key, v) :: fields), ?_, fun tl hstack => by simp [finishValue, hstack]⟩
      have hfield : ∀ ws, Spaces ws → Derives floats
          (ws ++ '"' :: (source ++ '"' :: (after ++ ':' :: (before ++ u)))) (.field key v) :=
        fun ws hws => .field hws hsource hafter (helement before hbefore)
      cases hopened with
      | @first ws hws =>
          have hfilled := Filled.object (l := [(key, v)]) (.firstField (hfield ws hws))
          simpa using hfilled
      | @next body ws l hbody hws =>
          have hfilled := Filled.object (hbody.nextField (hfield ws hws))
          simpa using hfilled

/-- After a value, the parser is at its end or inside a container. -/
theorem reads_finishValue {u : Text} (hbefore : Before floats text s.stack)
    (hv : Derives floats u (.value v)) (hok : finishValue s v = .ok next) :
    (s.stack = [] ∧ next.cursor = .done v ∧ next.stack = [] ∧ Spaces text) ∨
      next.cursor = .expectCommaOrEnd ∧ ReadsState floats (text ++ u) next := by
  generalize hstack : s.stack = stack at hbefore
  cases hbefore with
  | document hws =>
      simp only [finishValue, hstack, Except.ok.injEq] at hok
      subst hok
      exact .inl ⟨rfl, rfl, hstack, hws⟩
  | @inside outer inner tl io houter hio =>
      obtain ⟨filled, hfilled, hfinish⟩ := hio.fill (s := s) hv
      rw [hfinish tl hstack] at hok
      obtain rfl := Except.ok.inj hok
      refine .inr ⟨rfl, ?_⟩
      rw [List.append_assoc]
      exact .expectCommaOrEnd houter hfilled

theorem reads_value {u : Text} (hbefore : Before floats text s.stack)
    (hv : Derives floats u (.value v)) (hnot : ¬ v.IsNumber) (hok : finishValue s v = .ok next) :
    ReadsState floats (text ++ u) next := by
  rcases reads_finishValue hbefore hv hok with ⟨-, hcursor, hstack, hws⟩ | ⟨-, hreads⟩
  · rw [ReadsState, hcursor, hstack]
    exact .done (.value hws hv hnot)
  · exact hreads

theorem ReadsState.space (hcursor : s.cursor = .expectCommaOrEnd)
    (hreads : ReadsState floats text s)
    (hc : isSpace c) : ReadsState floats (text ++ [c]) s := by
  rw [ReadsState, hcursor] at hreads ⊢
  generalize s.stack = stack at hreads
  cases hreads with
  | expectCommaOrEnd houter hio =>
      rw [List.append_assoc]
      exact .expectCommaOrEnd houter (hio.space hc)

/-- A number that is ended by white space. -/
theorem reads_number_space {u : Text} (hbefore : Before floats text s.stack)
    (hv : Number floats u v) (hc : isSpace c) (hok : finishValue s v = .ok next) :
    ReadsState floats (text ++ (u ++ [c])) next := by
  rcases reads_finishValue hbefore (.number hv) hok with
    ⟨-, hcursor, hstack, hws⟩ | ⟨hcursor, hreads⟩
  · rw [ReadsState, hcursor, hstack]
    exact .done (.number hws hv hc)
  · rw [← List.append_assoc]
    exact hreads.space hcursor hc

/-! ## Where a value begins -/

theorem reads_beginValue (hbefore : Before floats text s.stack)
    (hbegin : beginValue s c = some next) : ReadsState floats (text ++ [c]) next := by
  unfold beginValue at hbegin
  split at hbegin
  next hc =>
    subst hc
    obtain rfl := Option.some.inj hbegin
    exact .inNull 3 hbefore
  next =>
  split at hbegin
  next hc =>
    subst hc
    obtain rfl := Option.some.inj hbegin
    exact .inTrue 3 hbefore
  next =>
  split at hbegin
  next hc =>
    subst hc
    obtain rfl := Option.some.inj hbegin
    exact .inFalse 4 hbefore
  next =>
  split at hbegin
  next hc =>
    obtain rfl := Option.some.inj hbegin
    have his : SignedDigits [c].reverse := ⟨c, [], rfl, hc, rfl⟩
    exact .inInt hbefore his
  next =>
  split at hbegin
  next hc =>
    subst hc
    obtain rfl := Option.some.inj hbegin
    exact .inString (.value hbefore) .nil
  next =>
  split at hbegin
  next hc =>
    subst hc
    obtain rfl := Option.some.inj hbegin
    exact .expectObjectElemStart hbefore spaces_nil
  next =>
  split at hbegin
  next hc =>
    subst hc
    obtain rfl := Option.some.inj hbegin
    refine .start (.inside hbefore (.array (.first spaces_nil))) ?_
    intro l tl hstack
    exact (IntValue.array.inj (List.cons.inj hstack).1).symm
  next => cases hbegin

theorem reads_parseStart (hreads : Reads floats text .start s.stack)
    (hcursor : s.cursor = .start) (hok : parseStart s c = .ok next) :
    ReadsState floats (text ++ [c]) next := by
  generalize hstack : s.stack = stack at hreads
  cases hreads with
  | start hbefore hfresh =>
      unfold parseStart at hok
      split at hok
      next later hbegin =>
        obtain rfl := Except.ok.inj hok
        exact reads_beginValue (hstack ▸ hbefore) hbegin
      next =>
      split at hok
      next hclose =>
        obtain ⟨rfl, hinside⟩ := hclose
        cases hbefore with
        | document => simp [hstack] at hinside
        | @inside outer inner tl io houter hio =>
            -- only an array that has just been opened is closed where a value begins
            cases hio with
            | object => simp [popStack, hstack, ParseState.raiseInternalError] at hok
            | array hopened =>
                obtain rfl := hfresh _ _ rfl
                simp only [popStack, hstack, List.reverse_nil] at hok
                generalize hempty : ([] : List (Json φ)) = entries at hopened
                cases hopened with
                | first hws =>
                    rw [List.append_assoc]
                    exact reads_value (s := { s with stack := tl }) houter (.emptyArray hws)
                      (fun hnumber => hnumber) hok
                | next hbody =>
                    exact absurd (List.reverse_eq_nil_iff.mp hempty.symm) hbody.elements_ne_nil
      next =>
      split at hok
      next hc =>
        obtain rfl := Except.ok.inj hok
        rw [ReadsState, ParseState.cursor_updateLineNum, ParseState.stack_updateLineNum, hcursor,
          hstack]
        exact .start (hbefore.space hc) hfresh
      next => cases hok

theorem reads_parseExpectValue (hreads : Reads floats text .expectValue s.stack)
    (hcursor : s.cursor = .expectValue) (hok : parseExpectValue s c = .ok next) :
    ReadsState floats (text ++ [c]) next := by
  generalize hstack : s.stack = stack at hreads
  cases hreads with
  | expectValue hbefore =>
      unfold parseExpectValue at hok
      split at hok
      next later hbegin =>
        obtain rfl := Except.ok.inj hok
        exact reads_beginValue (hstack ▸ hbefore) hbegin
      next =>
      split at hok
      next hc =>
        obtain rfl := Except.ok.inj hok
        rw [ReadsState, ParseState.cursor_updateLineNum, ParseState.stack_updateLineNum, hcursor,
          hstack]
        exact .expectValue (hbefore.space hc)
      next => cases hok

/-! ## Literals -/

theorem reads_parseInNull {rem : ℕ} (hreads : Reads floats text (.inNull rem) s.stack)
    (hok : parseInNull s rem c = .ok next) : ReadsState floats (text ++ [c]) next := by
  generalize hstack : s.stack = stack at hreads
  cases hreads with
  | inNull rem hbefore =>
      subst hstack
      unfold parseInNull at hok
      rw [List.append_assoc]
      split at hok
      next hc =>
        obtain ⟨rfl, rfl⟩ := hc
        obtain rfl := Except.ok.inj hok
        exact .inNull 2 hbefore
      next =>
      split at hok
      next hc =>
        obtain ⟨rfl, rfl⟩ := hc
        obtain rfl := Except.ok.inj hok
        exact .inNull 1 hbefore
      next =>
      split at hok
      next hc =>
        obtain ⟨rfl, rfl⟩ := hc
        exact reads_value hbefore .null (fun hnumber => hnumber) hok
      next => cases hok

theorem reads_parseInTrue {rem : ℕ} (hreads : Reads floats text (.inTrue rem) s.stack)
    (hok : parseInTrue s rem c = .ok next) : ReadsState floats (text ++ [c]) next := by
  generalize hstack : s.stack = stack at hreads
  cases hreads with
  | inTrue rem hbefore =>
      subst hstack
      unfold parseInTrue at hok
      rw [List.append_assoc]
      split at hok
      next hc =>
        obtain ⟨rfl, rfl⟩ := hc
        obtain rfl := Except.ok.inj hok
        exact .inTrue 2 hbefore
      next =>
      split at hok
      next hc =>
        obtain ⟨rfl, rfl⟩ := hc
        obtain rfl := Except.ok.inj hok
        exact .inTrue 1 hbefore
      next =>
      split at hok
      next hc =>
        obtain ⟨rfl, rfl⟩ := hc
        exact reads_value hbefore .true (fun hnumber => hnumber) hok
      next => cases hok

theorem reads_parseInFalse {rem : ℕ} (hreads : Reads floats text (.inFalse rem) s.stack)
    (hok : parseInFalse s rem c = .ok next) : ReadsState floats (text ++ [c]) next := by
  generalize hstack : s.stack = stack at hreads
  cases hreads with
  | inFalse rem hbefore =>
      subst hstack
      unfold parseInFalse at hok
      rw [List.append_assoc]
      split at hok
      next hc =>
        obtain ⟨rfl, rfl⟩ := hc
        obtain rfl := Except.ok.inj hok
        exact .inFalse 3 hbefore
      next =>
      split at hok
      next hc =>
        obtain ⟨rfl, rfl⟩ := hc
        obtain rfl := Except.ok.inj hok
        exact .inFalse 2 hbefore
      next =>
      split at hok
      next hc =>
        obtain ⟨rfl, rfl⟩ := hc
        obtain rfl := Except.ok.inj hok
        exact .inFalse 1 hbefore
      next =>
      split at hok
      next hc =>
        obtain ⟨rfl, rfl⟩ := hc
        exact reads_value hbefore .false (fun hnumber => hnumber) hok
      next => cases hok

/-! ## Strings -/

theorem reads_parseInString {cs : Text} (hreads : Reads floats text (.inString cs) s.stack)
    (hok : parseInString s cs c = .ok next) : ReadsState floats (text ++ [c]) next := by
  generalize hstack : s.stack = stack at hreads
  cases hreads with
  | @inString before source _ _ hbefore hsource =>
      unfold parseInString at hok
      rw [List.append_assoc, List.cons_append]
      split at hok
      next hc =>
        subst hc hstack
        obtain rfl := Except.ok.inj hok
        exact .inStringControl hbefore hsource
      next =>
      split at hok
      next hc =>
        subst hc
        cases hbefore with
        | value hbefore =>
            exact reads_value (hstack ▸ hbefore) (.string hsource) (fun hnumber => hnumber) hok
        | key houter htext =>
            simp only [finishValue, hstack, Except.ok.injEq] at hok
            subst hok
            rw [List.append_assoc]
            exact .expectObjectElemColon houter htext hsource spaces_nil
      next =>
      split at hok
      next hc =>
        subst hstack
        obtain rfl := Except.ok.inj hok
        refine .inString hbefore ?_
        rw [List.reverse_cons]
        exact hsource.append (.plain hc .nil)
      next => cases hok

/-- The parser takes the characters after a backslash that have a meaning. -/
theorem parseInStringControl_cases {cs : Text} (hok : parseInStringControl s cs c = .ok next) :
    (∃ d, unescape c = some d ∧ next = s.goto (.inString (d :: cs))) ∨
      c = 'u' ∧ next = s.goto (.inStringHex cs [] 4) := by
  unfold parseInStringControl at hok
  unfold unescape
  split at hok
  next hc => exact .inl ⟨c, if_pos hc, (Except.ok.inj hok).symm⟩
  next hself =>
  rw [if_neg hself]
  split at hok
  next hc => exact .inl ⟨'\x08', if_pos hc, (Except.ok.inj hok).symm⟩
  next hb =>
  rw [if_neg hb]
  split at hok
  next hc => exact .inl ⟨'\x0c', if_pos hc, (Except.ok.inj hok).symm⟩
  next hf =>
  rw [if_neg hf]
  split at hok
  next hc => exact .inl ⟨'\n', if_pos hc, (Except.ok.inj hok).symm⟩
  next hn =>
  rw [if_neg hn]
  split at hok
  next hc => exact .inl ⟨'\r', if_pos hc, (Except.ok.inj hok).symm⟩
  next hr =>
  rw [if_neg hr]
  split at hok
  next hc => exact .inl ⟨'\t', if_pos hc, (Except.ok.inj hok).symm⟩
  next =>
  split at hok
  next hc => exact .inr ⟨hc, (Except.ok.inj hok).symm⟩
  next => cases hok

theorem reads_parseInStringControl {cs : Text}
    (hreads : Reads floats text (.inStringControl cs) s.stack)
    (hok : parseInStringControl s cs c = .ok next) : ReadsState floats (text ++ [c]) next := by
  generalize hstack : s.stack = stack at hreads
  cases hreads with
  | @inStringControl before source _ _ hbefore hsource =>
      subst hstack
      rw [List.append_assoc, List.cons_append, List.append_assoc]
      rcases parseInStringControl_cases hok with ⟨d, hd, rfl⟩ | ⟨rfl, rfl⟩
      · refine .inString hbefore ?_
        rw [List.reverse_cons]
        exact hsource.append (.escaped hd .nil)
      · have hnone : (([] : Text).reverse).all isHexChar := rfl
        exact .inStringHex hbefore hsource rfl (Nat.succ_pos 3) hnone

theorem reads_parseInStringHex {cs hs : Text} {rem : ℕ}
    (hreads : Reads floats text (.inStringHex cs hs rem) s.stack)
    (hok : parseInStringHex s cs hs rem c = .ok next) : ReadsState floats (text ++ [c]) next := by
  generalize hstack : s.stack = stack at hreads
  cases hreads with
  | @inStringHex before source _ _ _ _ hbefore hsource hrem hpos hhs =>
      subst hstack
      unfold parseInStringHex at hok
      split at hok
      next hc =>
        have hall : (c :: hs).reverse.all isHexChar := all_reverse_cons hhs hc
        split at hok
        next hmore =>
          obtain rfl := Except.ok.inj hok
          have hgoal : Reads floats (before ++ '"' :: (source ++ '\\' :: 'u' :: (c :: hs).reverse))
              (.inStringHex cs (c :: hs) (rem - 1)) s.stack := by
            refine .inStringHex hbefore hsource ?_ (by omega) hall
            rw [List.length_cons]
            omega
          rw [ReadsState]
          simpa using hgoal
        next hlast =>
          obtain rfl := Except.ok.inj hok
          have hlength : (c :: hs).reverse.length = 4 := by
            rw [List.length_reverse, List.length_cons]
            omega
          have hunicode : Characters (source ++ '\\' :: 'u' :: (c :: hs).reverse)
              (cs.reverse ++ '\\' :: 'u' :: (c :: hs).reverse) := by
            have hescape := hsource.append (.unicode hlength hall .nil)
            rwa [List.append_nil] at hescape
          have hgoal : Reads floats (before ++ '"' :: (source ++ '\\' :: 'u' :: (c :: hs).reverse))
              (.inString (c :: hs ++ 'u' :: '\\' :: cs)) s.stack :=
            .inString hbefore (by simpa using hunicode)
          rw [ReadsState]
          simpa using hgoal
      next => cases hok

/-! ## Objects -/

theorem reads_parseExpectObjectElemStart
    (hreads : Reads floats text .expectObjectElemStart s.stack)
    (hcursor : s.cursor = .expectObjectElemStart)
    (hok : parseExpectObjectElemStart s c = .ok next) : ReadsState floats (text ++ [c]) next := by
  generalize hstack : s.stack = stack at hreads
  cases hreads with
  | @expectObjectElemStart before ws _ hbefore hws =>
      subst hstack
      unfold parseExpectObjectElemStart at hok
      split at hok
      next hc =>
        subst hc
        obtain rfl := Except.ok.inj hok
        exact .inString (.key hbefore (.first hws)) .nil
      next =>
      rw [List.append_assoc, List.cons_append]
      split at hok
      next hc =>
        subst hc
        exact reads_value hbefore (.emptyObject hws) (fun hnumber => hnumber) hok
      next =>
      split at hok
      next hc =>
        obtain rfl := Except.ok.inj hok
        rw [ReadsState, ParseState.cursor_updateLineNum, ParseState.stack_updateLineNum, hcursor]
        exact .expectObjectElemStart hbefore (hws.concat hc)
      next => cases hok

theorem reads_parseExpectObjectElemColon
    (hreads : Reads floats text .expectObjectElemColon s.stack)
    (hcursor : s.cursor = .expectObjectElemColon)
    (hok : parseExpectObjectElemColon s c = .ok next) : ReadsState floats (text ++ [c]) next := by
  generalize hstack : s.stack = stack at hreads
  cases hreads with
  | @expectObjectElemColon outer body source ws key fields tl houter htext hsource hws =>
      unfold parseExpectObjectElemColon at hok
      simp only [List.append_assoc, List.cons_append]
      split at hok
      next hc =>
        subst hc
        obtain rfl := Except.ok.inj hok
        rw [ReadsState, ParseState.stack_goto, ParseState.cursor_goto, hstack]
        refine .start (.inside houter (.object htext hsource hws spaces_nil)) ?_
        intro l tl hcons
        cases (List.cons.inj hcons).1
      next =>
      split at hok
      next hc =>
        obtain rfl := Except.ok.inj hok
        rw [ReadsState, ParseState.cursor_updateLineNum, ParseState.stack_updateLineNum, hcursor,
          hstack]
        exact .expectObjectElemColon houter htext hsource (hws.concat hc)
      next => cases hok

theorem reads_parseExpectObjectKey (hreads : Reads floats text .expectObjectKey s.stack)
    (hcursor : s.cursor = .expectObjectKey) (hok : parseExpectObjectKey s c = .ok next) :
    ReadsState floats (text ++ [c]) next := by
  generalize hstack : s.stack = stack at hreads
  cases hreads with
  | @expectObjectKey outer body ws l tl houter htext hws =>
      unfold parseExpectObjectKey at hok
      split at hok
      next hc =>
        subst hc
        simp only [hstack, Except.ok.injEq] at hok
        subst hok
        exact .inString (.key houter (.next htext hws)) .nil
      next =>
      split at hok
      next hc =>
        obtain rfl := Except.ok.inj hok
        rw [ReadsState, ParseState.cursor_updateLineNum, ParseState.stack_updateLineNum, hcursor,
          hstack]
        simp only [List.append_assoc, List.cons_append]
        exact .expectObjectKey houter htext (hws.concat hc)
      next => cases hok

theorem reads_parseExpectCommaOrEnd (hreads : Reads floats text .expectCommaOrEnd s.stack)
    (hcursor : s.cursor = .expectCommaOrEnd) (hok : parseExpectCommaOrEnd s c = .ok next) :
    ReadsState floats (text ++ [c]) next := by
  generalize hstack : s.stack = stack at hreads
  cases hreads with
  | @expectCommaOrEnd outer body io tl houter hio =>
      unfold parseExpectCommaOrEnd at hok
      split at hok
      next hc =>
        subst hc
        obtain rfl := Except.ok.inj hok
        rw [ReadsState, ParseState.stack_goto, ParseState.cursor_goto, hstack]
        -- after a comma an array goes on with a value, and an object with a key
        cases hio with
        | array htext =>
            rw [ParseState.isParsingObject, hstack, List.append_assoc]
            exact .expectValue (.inside houter (.array (.next htext spaces_nil)))
        | object htext =>
            rw [ParseState.isParsingObject, hstack, List.append_assoc]
            exact .expectObjectKey houter htext spaces_nil
      next =>
      split at hok
      next hc =>
        -- a bracket closes the container that it belongs to, and no other
        obtain ⟨rfl, hobject⟩ := hc
        cases hio with
        | array => simp [ParseState.isParsingObject, hstack] at hobject
        | object htext =>
            simp only [popStack, hstack, List.reverse_reverse] at hok
            rw [List.append_assoc]
            exact reads_value (s := { s with stack := tl }) houter (.object htext)
              (fun hnumber => hnumber) hok
      next =>
      split at hok
      next hc =>
        obtain ⟨rfl, harray⟩ := hc
        cases hio with
        | object => simp [ParseState.isParsingObject, hstack] at harray
        | array htext =>
            simp only [popStack, hstack, List.reverse_reverse] at hok
            rw [List.append_assoc]
            exact reads_value (s := { s with stack := tl }) houter (.array htext)
              (fun hnumber => hnumber) hok
      next =>
      split at hok
      next hc =>
        obtain rfl := Except.ok.inj hok
        rw [ReadsState, ParseState.cursor_updateLineNum, ParseState.stack_updateLineNum, hcursor,
          hstack, List.append_assoc]
        exact .expectCommaOrEnd houter (hio.space hc)
      next => cases hok

/-! ## Numbers -/

theorem intPart_of_check {is str : Text} (his : SignedDigits is.reverse)
    (hok : toStringWithLeadingZeroCheck s is = .ok str) :
    str = is.reverse ∧ IntPart is.reverse := by
  unfold toStringWithLeadingZeroCheck at hok
  split at hok
  next => cases hok
  next hnot => exact ⟨(Except.ok.inj hok).symm, his, hnot⟩

theorem number_of_finishInt {is : Text} (his : SignedDigits is.reverse)
    (hok : finishInt s is = .ok next) :
    ∃ v, Number floats is.reverse v ∧ finishValue s v = .ok next := by
  obtain ⟨str, hcheck, hok⟩ := bind_eq_ok.mp hok
  obtain ⟨rfl, hpart⟩ := intPart_of_check his hcheck
  split at hok
  next i hvalue => exact ⟨.int i, .int hpart hvalue, hok⟩
  next => cases hok

theorem float_of_finishFloatWith {is after : Text} (his : SignedDigits is.reverse)
    (hok : finishFloatWith floats s is after = .ok next) :
    ∃ r, IntPart is.reverse ∧ floats.ofString (is.reverse ++ '.' :: after) = some r ∧
      finishValue s (.float r) = .ok next := by
  obtain ⟨str, hcheck, hok⟩ := bind_eq_ok.mp hok
  obtain ⟨rfl, hpart⟩ := intPart_of_check his hcheck
  dsimp only at hok
  split at hok
  next r hvalue => exact ⟨r, hpart, hvalue, hok⟩
  next => cases hok

/-- What a reaction leaves. The character after a number has not been read yet,
and cannot be when the number is the document. -/
def ReadsReaction (floats : Floats φ) (text : Text) (c : Char) : Reaction φ → Prop
  | .taken next => ReadsState floats (text ++ [c]) next
  | .again next => (∃ v, next.cursor = .done v) ∨ ReadsState floats text next

/-- All numbers end in the same way. -/
theorem reads_parseNumber {u : Text} {more : Option (Cursor φ)}
    {finish : ParseState φ → Except Exn (ParseState φ)} {jsonType : String} {reaction : Reaction φ}
    (hbefore : Before floats text s.stack)
    (hmore : ∀ cursor, more = some cursor → Reads floats (text ++ (u ++ [c])) cursor s.stack)
    (hfinish : ∀ s next : ParseState φ, finish s = .ok next →
      ∃ v, Number floats u v ∧ finishValue s v = .ok next)
    (hok : parseNumber s c more finish jsonType = .ok reaction) :
    ReadsReaction floats (text ++ u) c reaction := by
  unfold parseNumber at hok
  split at hok
  next cursor =>
    obtain rfl := Except.ok.inj hok
    rw [ReadsReaction, List.append_assoc]
    exact hmore cursor rfl
  next =>
  split at hok
  next =>
    cases hfinished : finish s with
    | error exn => simp [hfinished, Except.map] at hok
    | ok next =>
        simp only [hfinished, Except.map, Except.ok.injEq] at hok
        subst hok
        obtain ⟨v, hv, hnext⟩ := hfinish s next hfinished
        rcases reads_finishValue hbefore (.number hv) hnext with ⟨-, hdone, -⟩ | ⟨-, hreads⟩
        · exact .inl ⟨v, hdone⟩
        · exact .inr hreads
  next =>
  split at hok
  next hc =>
    cases hfinished : finish (s.updateLineNum c) with
    | error exn => simp [hfinished, Except.map] at hok
    | ok next =>
        simp only [hfinished, Except.map, Except.ok.injEq] at hok
        subst hok
        obtain ⟨v, hv, hnext⟩ := hfinish _ next hfinished
        rw [ReadsReaction, List.append_assoc]
        exact reads_number_space (s := s.updateLineNum c)
          (by rwa [ParseState.stack_updateLineNum]) hv hc hnext
  next => cases hok

theorem reads_parseInInt {is : Text} {reaction : Reaction φ}
    (hreads : Reads floats text (.inInt is) s.stack)
    (hok : parseInInt s is c = .ok reaction) : ReadsReaction floats text c reaction := by
  generalize hstack : s.stack = stack at hreads
  cases hreads with
  | @inInt before is _ hbefore his =>
      subst hstack
      refine reads_parseNumber hbefore (fun cursor hcursor => ?_)
        (fun s next => number_of_finishInt his) hok
      split at hcursor
      next hc =>
        obtain rfl := Option.some.inj hcursor
        have hmore : SignedDigits (c :: is).reverse := by
          rw [List.reverse_cons]
          exact his.concat hc
        simpa using Reads.inInt hbefore hmore
      next =>
      split at hcursor
      next hc =>
        subst hc
        obtain rfl := Option.some.inj hcursor
        have hnone : (([] : Text).reverse).all Char.isDigit := rfl
        exact .inFloat hbefore his hnone
      next =>
      split at hcursor
      next hc =>
        obtain rfl := Option.some.inj hcursor
        have hnone : (([] : Text).reverse).all isExponentChar := rfl
        exact .inIntExp hbefore his hc hnone
      next => cases hcursor

theorem reads_parseInFloat {is fs : Text} {reaction : Reaction φ}
    (hreads : Reads floats text (.inFloat is fs) s.stack)
    (hok : parseInFloat floats s is fs c = .ok reaction) :
    ReadsReaction floats text c reaction := by
  generalize hstack : s.stack = stack at hreads
  cases hreads with
  | @inFloat before is fs _ hbefore his hfs =>
      subst hstack
      refine reads_parseNumber hbefore (fun cursor hcursor => ?_) (fun s next hfinish => ?_) hok
      · split at hcursor
        next hc =>
          obtain rfl := Option.some.inj hcursor
          simpa using Reads.inFloat hbefore his (all_reverse_cons hfs hc)
        next =>
        split at hcursor
        next hc =>
          obtain rfl := Option.some.inj hcursor
          have hnone : (([] : Text).reverse).all isExponentChar := rfl
          simpa using Reads.inFloatExp hbefore his hfs hc hnone
        next => cases hcursor
      · obtain ⟨r, hpart, hvalue, hnext⟩ := float_of_finishFloatWith his hfinish
        exact ⟨.float r, .float hpart hfs hvalue, hnext⟩

theorem reads_parseInIntExp {is es : Text} {reaction : Reaction φ}
    (hreads : Reads floats text (.inIntExp is es) s.stack)
    (hok : parseInIntExp floats s is es c = .ok reaction) :
    ReadsReaction floats text c reaction := by
  generalize hstack : s.stack = stack at hreads
  cases hreads with
  | @inIntExp before is es e _ hbefore his he hes =>
      subst hstack
      refine reads_parseNumber hbefore (fun cursor hcursor => ?_) (fun s next hfinish => ?_) hok
      · split at hcursor
        next hc =>
          obtain rfl := Option.some.inj hcursor
          simpa using Reads.inIntExp hbefore his he (all_reverse_cons hes hc)
        next => cases hcursor
      · obtain ⟨r, hpart, hvalue, hnext⟩ := float_of_finishFloatWith his hfinish
        exact ⟨.float r, .intExp hpart he hes hvalue, hnext⟩

theorem reads_parseInFloatExp {is fs es : Text} {reaction : Reaction φ}
    (hreads : Reads floats text (.inFloatExp is fs es) s.stack)
    (hok : parseInFloatExp floats s is fs es c = .ok reaction) :
    ReadsReaction floats text c reaction := by
  generalize hstack : s.stack = stack at hreads
  cases hreads with
  | @inFloatExp before is fs es e _ hbefore his hfs he hes =>
      subst hstack
      refine reads_parseNumber hbefore (fun cursor hcursor => ?_) (fun s next hfinish => ?_) hok
      · split at hcursor
        next hc =>
          obtain rfl := Option.some.inj hcursor
          simpa using Reads.inFloatExp hbefore his hfs he (all_reverse_cons hes hc)
        next => cases hcursor
      · obtain ⟨r, hpart, hvalue, hnext⟩ := float_of_finishFloatWith his hfinish
        exact ⟨.float r, .floatExp hpart hfs he hes hvalue, hnext⟩

/-! ## Whole texts -/

/-- One character, at any cursor. -/
theorem reads_react {reaction : Reaction φ} (hreads : ReadsState floats text s)
    (hok : react floats s c = .ok reaction) : ReadsReaction floats text c reaction := by
  have htaken : ∀ {computation : Except Exn (ParseState φ)},
      (∀ next, computation = .ok next → ReadsState floats (text ++ [c]) next) →
        computation.map .taken = .ok reaction → ReadsReaction floats text c reaction := by
    intro computation hall hmap
    cases computation with
    | error exn => cases hmap
    | ok next =>
        obtain rfl := Except.ok.inj hmap
        exact hall next rfl
  unfold react at hok
  unfold ReadsState at hreads
  split at hok
  all_goals rename_i hcursor
  all_goals rw [hcursor] at hreads
  · exact htaken (fun _ => reads_parseStart hreads hcursor) hok
  · exact htaken (fun _ => reads_parseExpectValue hreads hcursor) hok
  · exact htaken (fun _ => reads_parseInNull hreads) hok
  · exact htaken (fun _ => reads_parseInTrue hreads) hok
  · exact htaken (fun _ => reads_parseInFalse hreads) hok
  · exact reads_parseInInt hreads hok
  · exact reads_parseInFloat hreads hok
  · exact reads_parseInIntExp hreads hok
  · exact reads_parseInFloatExp hreads hok
  · exact htaken (fun _ => reads_parseInString hreads) hok
  · exact htaken (fun _ => reads_parseInStringControl hreads) hok
  · exact htaken (fun _ => reads_parseInStringHex hreads) hok
  · exact htaken (fun _ => reads_parseExpectObjectElemStart hreads hcursor) hok
  · exact htaken (fun _ => reads_parseExpectObjectElemColon hreads hcursor) hok
  · exact htaken (fun _ => reads_parseExpectCommaOrEnd hreads hcursor) hok
  · exact htaken (fun _ => reads_parseExpectObjectKey hreads hcursor) hok
  · cases hok

theorem reads_parseChar (hreads : ReadsState floats text s)
    (hok : parseChar floats s c = .ok next) : ReadsState floats (text ++ [c]) next := by
  induction hrank : s.cursor.rank using Nat.strongRecOn generalizing s with
  | ind rank ih =>
      rw [parseChar] at hok
      split at hok
      next => cases hok
      next later hreact =>
        obtain rfl := Except.ok.inj hok
        exact reads_react hreads hreact
      next later hreact =>
        have hlower := rank_of_react hreact
        rcases reads_react hreads hreact with ⟨v, hdone⟩ | hlater
        · have hrefused : react floats later c =
              later.raiseInternalError "parse called when parse_state is 'Done'" := by
            simp [react, hdone]
          rw [parseChar, hrefused] at hok
          cases hok
        · exact ih later.cursor.rank (hrank ▸ hlower) hlater hok rfl

theorem document_of_getParseResult (hreads : ReadsState floats text s)
    (hresult : s.getParseResult = some v) : Document floats text v := by
  unfold ParseState.getParseResult at hresult
  split at hresult
  next w hcursor =>
    obtain rfl := Option.some.inj hresult
    rw [ReadsState, hcursor] at hreads
    generalize s.stack = stack at hreads
    cases hreads with
    | done htext => exact htext
  next => cases hresult

theorem document_of_parse {input : Text} (hreads : ReadsState floats text s)
    (hok : parse floats s input = .ok v) :
    ∃ read rest, input = read ++ rest ∧ Document floats (text ++ read) v := by
  induction input generalizing s text with
  | nil =>
      unfold parse at hok
      split at hok
      next w hresult =>
        obtain rfl := Except.ok.inj hok
        exact ⟨[], [], rfl, by simpa using document_of_getParseResult hreads hresult⟩
      next => cases hok
  | cons c rest ih =>
      unfold parse at hok
      split at hok
      next w hresult =>
        obtain rfl := Except.ok.inj hok
        exact ⟨[], _, rfl, by simpa using document_of_getParseResult hreads hresult⟩
      next =>
        obtain ⟨next, hchar, hrest⟩ := bind_eq_ok.mp hok
        obtain ⟨read, left, rfl, hdocument⟩ := ih (reads_parseChar hreads hchar) hrest
        exact ⟨c :: read, left, rfl, by simpa using hdocument⟩

/-- What is accepted begins with a document. -/
theorem document_of_ofString {str : Text} (hok : ofString floats str = .ok v) :
    ∃ read rest, str = read ++ rest ∧ Document floats read v := by
  have hstart : ReadsState floats [] (initParseState : ParseState φ) :=
    .start (.document spaces_nil) (fun _ _ hstack => by cases hstack)
  exact document_of_parse hstart hok

end

end Signpost.Frost

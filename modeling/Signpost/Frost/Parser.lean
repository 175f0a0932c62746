import Signpost.Frost.Json
import Signpost.Machine.Run

/-! # The JSON parser

A parser that is fed one character after another. The containers that are not
closed yet are on a stack, and the cursor says what the next character belongs
to.
-/

namespace Signpost.Frost

variable {φ : Type}

/-! ## States and errors -/

inductive Error
  | unexpectedChar (line : ℕ) (c : Char) (jsonType : String)
  | invalidValue (line : ℕ) (value : Text) (jsonType : String)
  | invalidLeadingZero (line : ℕ) (value : Text)
  | unterminatedValue (line : ℕ) (value : String)
  | internalError (line : ℕ) (message : String)
deriving DecidableEq, Repr

inductive Exn
  | parseError (error : Error)
  | invalidArgument (message : String)
  | matchFailure
deriving DecidableEq, Repr

/-- Characters that are collected are kept in reverse. -/
inductive Cursor (φ : Type)
  | start
  | expectValue
  | inNull (rem : ℕ)
  | inTrue (rem : ℕ)
  | inFalse (rem : ℕ)
  | inInt (is : Text)
  | inFloat (is fs : Text)
  | inIntExp (is es : Text)
  | inFloatExp (is fs es : Text)
  | inString (cs : Text)
  | inStringControl (cs : Text)
  | inStringHex (cs hs : Text) (rem : ℕ)
  | expectObjectElemStart
  | expectObjectElemColon
  | expectCommaOrEnd
  | expectObjectKey
  | done (v : Json φ)

/-- A container that is not closed yet, its entries in reverse. -/
inductive IntValue (φ : Type)
  | object (fields : List (Text × Json φ))
  | objectNeedsKey (fields : List (Text × Json φ))
  | objectNeedsValue (fields : List (Text × Json φ)) (key : Text)
  | array (l : List (Json φ))

structure ParseState (φ : Type) where
  cursor : Cursor φ
  stack : List (IntValue φ)
  lineNum : ℕ

def initParseState : ParseState φ := ⟨.start, [], 1⟩

namespace ParseState

def isParsingObject (s : ParseState φ) : Bool :=
  match s.stack with
  | .object _ :: _ | .objectNeedsKey _ :: _ | .objectNeedsValue _ _ :: _ => true
  | .array _ :: _ | [] => false

def getParseResult (s : ParseState φ) : Option (Json φ) :=
  match s.cursor with
  | .done v => some v
  | _ => none

def goto (s : ParseState φ) (cursor : Cursor φ) : ParseState φ := { s with cursor }

def updateLineNum (s : ParseState φ) (c : Char) : ParseState φ :=
  if c = '\n' then { s with lineNum := s.lineNum + 1 } else s

def raiseUnexpectedChar {τ : Type} (s : ParseState φ) (c : Char) (jsonType : String) :
    Except Exn τ :=
  .error (.parseError (.unexpectedChar s.lineNum c jsonType))

def raiseInternalError {τ : Type} (s : ParseState φ) (message : String) : Except Exn τ :=
  .error (.parseError (.internalError s.lineNum message))

end ParseState

def IntValue.toStr : IntValue φ → String
  | .object _ => "object"
  | .objectNeedsKey _ => "object_needing_key"
  | .objectNeedsValue _ _ => "object_needing_value"
  | .array _ => "array"

def isSpace (c : Char) : Bool := c = ' ' ∨ c = '\t' ∨ c = '\n' ∨ c = '\r'

def isHexChar (c : Char) : Bool :=
  c.isDigit ∨ ('a' ≤ c ∧ c ≤ 'f') ∨ ('A' ≤ c ∧ c ≤ 'F')

def isValidUnescapedChar (c : Char) : Bool :=
  ¬ (c = '"' ∨ c = '\\' ∨ c = '\x08' ∨ c = '\x0c' ∨ c = '\n' ∨ c = '\r' ∨ c = '\t')

/-- A character that ends a number and is then parsed again. -/
def isNumberEnd (c : Char) : Bool := c = ',' ∨ c = ']' ∨ c = '}'

/-! ## Finishing a value -/

/-- A finished value is the result, or goes into the container on top. -/
def finishValue (s : ParseState φ) (v : Json φ) : Except Exn (ParseState φ) :=
  match s.stack, v with
  | [], v => .ok (s.goto (.done v))
  | .objectNeedsKey fields :: tl, .string key =>
      .ok { s with stack := .objectNeedsValue fields key :: tl, cursor := .expectObjectElemColon }
  | .objectNeedsValue fields key :: tl, v =>
      .ok { s with stack := .object ((key, v) :: fields) :: tl, cursor := .expectCommaOrEnd }
  | .array l :: tl, v =>
      .ok { s with stack := .array (v :: l) :: tl, cursor := .expectCommaOrEnd }
  | io :: _, _ => s.raiseInternalError ("unexpected " ++ io.toStr ++ " on stack at finish_value")

def popStack (s : ParseState φ) : Except Exn (ParseState φ) :=
  match s.stack with
  | .object fields :: tl => finishValue { s with stack := tl } (.object fields.reverse)
  | .array l :: tl => finishValue { s with stack := tl } (.array l.reverse)
  | io :: _ => s.raiseInternalError ("unexpected " ++ io.toStr ++ " on stack at pop_stack")
  | [] => s.raiseInternalError "empty stack at pop_stack"

def toStringWithLeadingZeroCheck (s : ParseState φ) (is : Text) : Except Exn Text :=
  match is.reverse with
  | '0' :: c :: tl => .error (.parseError (.invalidLeadingZero s.lineNum ('0' :: c :: tl)))
  | ris => .ok ris

def finishInt (s : ParseState φ) (is : Text) : Except Exn (ParseState φ) := do
  let str ← toStringWithLeadingZeroCheck s is
  match int64OfString str with
  | some int => finishValue s (.int int)
  | none => .error (.parseError (.invalidValue s.lineNum str "int"))

/-- The three kinds of floating point numbers differ in what follows the
integer part. -/
def finishFloatWith (floats : Floats φ) (s : ParseState φ) (is after : Text) :
    Except Exn (ParseState φ) := do
  let int ← toStringWithLeadingZeroCheck s is
  let str := int ++ '.' :: after
  match floats.ofString str with
  | some float => finishValue s (.float float)
  | none => .error (.parseError (.invalidValue s.lineNum str "float"))

def finishIntExp (floats : Floats φ) (s : ParseState φ) (is es : Text) :
    Except Exn (ParseState φ) :=
  finishFloatWith floats s is ('e' :: es.reverse)

def finishFloat (floats : Floats φ) (s : ParseState φ) (is fs : Text) :
    Except Exn (ParseState φ) :=
  finishFloatWith floats s is fs.reverse

def finishFloatExp (floats : Floats φ) (s : ParseState φ) (is fs es : Text) :
    Except Exn (ParseState φ) :=
  finishFloatWith floats s is (fs.reverse ++ 'e' :: es.reverse)

/-! ## One character -/

/-- What a character does: it is taken, or it has only ended a number and is to
be parsed once more. -/
inductive Reaction (φ : Type)
  | taken (next : ParseState φ)
  | again (next : ParseState φ)

/-- The characters that begin a value. -/
def beginValue (s : ParseState φ) (c : Char) : Option (ParseState φ) :=
  if c = 'n' then some (s.goto (.inNull 3))
  else if c = 't' then some (s.goto (.inTrue 3))
  else if c = 'f' then some (s.goto (.inFalse 4))
  else if c = '-' ∨ c.isDigit then some (s.goto (.inInt [c]))
  else if c = '"' then some (s.goto (.inString []))
  else if c = '{' then some (s.goto .expectObjectElemStart)
  else if c = '[' then some { s with stack := .array [] :: s.stack, cursor := .start }
  else none

def parseStart (s : ParseState φ) (c : Char) : Except Exn (ParseState φ) :=
  match beginValue s c with
  | some next => .ok next
  | none =>
      -- an array may end before its first element
      if c = ']' ∧ ¬ s.stack.isEmpty then popStack s
      else if isSpace c then .ok (s.updateLineNum c)
      else s.raiseUnexpectedChar c "start"

def parseExpectValue (s : ParseState φ) (c : Char) : Except Exn (ParseState φ) :=
  match beginValue s c with
  | some next => .ok next
  | none =>
      if isSpace c then .ok (s.updateLineNum c) else s.raiseUnexpectedChar c "value"

def parseInNull (s : ParseState φ) (rem : ℕ) (c : Char) : Except Exn (ParseState φ) :=
  if c = 'u' ∧ rem = 3 then .ok (s.goto (.inNull 2))
  else if c = 'l' ∧ rem = 2 then .ok (s.goto (.inNull 1))
  else if c = 'l' ∧ rem = 1 then finishValue s .null
  else s.raiseUnexpectedChar c "null"

def parseInTrue (s : ParseState φ) (rem : ℕ) (c : Char) : Except Exn (ParseState φ) :=
  if c = 'r' ∧ rem = 3 then .ok (s.goto (.inTrue 2))
  else if c = 'u' ∧ rem = 2 then .ok (s.goto (.inTrue 1))
  else if c = 'e' ∧ rem = 1 then finishValue s (.bool true)
  else s.raiseUnexpectedChar c "true"

def parseInFalse (s : ParseState φ) (rem : ℕ) (c : Char) : Except Exn (ParseState φ) :=
  if c = 'a' ∧ rem = 4 then .ok (s.goto (.inFalse 3))
  else if c = 'l' ∧ rem = 3 then .ok (s.goto (.inFalse 2))
  else if c = 's' ∧ rem = 2 then .ok (s.goto (.inFalse 1))
  else if c = 'e' ∧ rem = 1 then finishValue s (.bool false)
  else s.raiseUnexpectedChar c "false"

/-- A number goes on, or it is finished by a space or by what follows it. -/
def parseNumber (s : ParseState φ) (c : Char) (more : Option (Cursor φ))
    (finish : ParseState φ → Except Exn (ParseState φ)) (jsonType : String) :
    Except Exn (Reaction φ) :=
  match more with
  | some cursor => .ok (.taken (s.goto cursor))
  | none =>
      if isNumberEnd c then (finish s).map .again
      else if isSpace c then (finish (s.updateLineNum c)).map .taken
      else s.raiseUnexpectedChar c jsonType

def isExponent (c : Char) : Bool := c = 'e' ∨ c = 'E'

def isExponentChar (c : Char) : Bool := c = '+' ∨ c = '-' ∨ c.isDigit

def parseInInt (s : ParseState φ) (is : Text) (c : Char) : Except Exn (Reaction φ) :=
  parseNumber s c
    (if c.isDigit then some (.inInt (c :: is))
      else if c = '.' then some (.inFloat is [])
      else if isExponent c then some (.inIntExp is [])
      else none)
    (fun s => finishInt s is) "int"

def parseInFloat (floats : Floats φ) (s : ParseState φ) (is fs : Text) (c : Char) :
    Except Exn (Reaction φ) :=
  parseNumber s c
    (if c.isDigit then some (.inFloat is (c :: fs))
      else if isExponent c then some (.inFloatExp is fs [])
      else none)
    (fun s => finishFloat floats s is fs) "float"

def parseInIntExp (floats : Floats φ) (s : ParseState φ) (is es : Text) (c : Char) :
    Except Exn (Reaction φ) :=
  parseNumber s c (if isExponentChar c then some (.inIntExp is (c :: es)) else none)
    (fun s => finishIntExp floats s is es) "int_exp"

def parseInFloatExp (floats : Floats φ) (s : ParseState φ) (is fs es : Text) (c : Char) :
    Except Exn (Reaction φ) :=
  parseNumber s c (if isExponentChar c then some (.inFloatExp is fs (c :: es)) else none)
    (fun s => finishFloatExp floats s is fs es) "float_exp"

def parseInString (s : ParseState φ) (cs : Text) (c : Char) : Except Exn (ParseState φ) :=
  if c = '\\' then .ok (s.goto (.inStringControl cs))
  else if c = '"' then finishValue s (.string cs.reverse)
  else if isValidUnescapedChar c then .ok (s.goto (.inString (c :: cs)))
  else s.raiseUnexpectedChar c "string"

def parseInStringControl (s : ParseState φ) (cs : Text) (c : Char) : Except Exn (ParseState φ) :=
  if c = '"' ∨ c = '\\' ∨ c = '/' then .ok (s.goto (.inString (c :: cs)))
  else if c = 'b' then .ok (s.goto (.inString ('\x08' :: cs)))
  else if c = 'f' then .ok (s.goto (.inString ('\x0c' :: cs)))
  else if c = 'n' then .ok (s.goto (.inString ('\n' :: cs)))
  else if c = 'r' then .ok (s.goto (.inString ('\r' :: cs)))
  else if c = 't' then .ok (s.goto (.inString ('\t' :: cs)))
  else if c = 'u' then .ok (s.goto (.inStringHex cs [] 4))
  else s.raiseUnexpectedChar c "string_control"

/-- Unicode escapes are left in place. -/
def parseInStringHex (s : ParseState φ) (cs hs : Text) (rem : ℕ) (c : Char) :
    Except Exn (ParseState φ) :=
  if isHexChar c then
    if rem > 1 then .ok (s.goto (.inStringHex cs (c :: hs) (rem - 1)))
    else .ok (s.goto (.inString (c :: hs ++ 'u' :: '\\' :: cs)))
  else s.raiseUnexpectedChar c "string_unicode"

def parseExpectObjectElemStart (s : ParseState φ) (c : Char) : Except Exn (ParseState φ) :=
  if c = '"' then .ok { s with stack := .objectNeedsKey [] :: s.stack, cursor := .inString [] }
  else if c = '}' then finishValue s (.object [])
  else if isSpace c then .ok (s.updateLineNum c)
  else s.raiseUnexpectedChar c "object_start"

def parseExpectObjectElemColon (s : ParseState φ) (c : Char) : Except Exn (ParseState φ) :=
  if c = ':' then .ok (s.goto .start)
  else if isSpace c then .ok (s.updateLineNum c)
  else s.raiseUnexpectedChar c "object_elem_colon"

def parseExpectCommaOrEnd (s : ParseState φ) (c : Char) : Except Exn (ParseState φ) :=
  if c = ',' then .ok (s.goto (if s.isParsingObject then .expectObjectKey else .expectValue))
  else if c = '}' ∧ s.isParsingObject then popStack s
  else if c = ']' ∧ ¬ s.isParsingObject then popStack s
  else if isSpace c then .ok (s.updateLineNum c)
  else s.raiseUnexpectedChar c "comma_or_end"

def parseExpectObjectKey (s : ParseState φ) (c : Char) : Except Exn (ParseState φ) :=
  if c = '"' then
    match s.stack with
    | .object fields :: tl =>
        .ok { s with stack := .objectNeedsKey fields :: tl, cursor := .inString [] }
    | io :: _ => s.raiseInternalError ("unexpected " ++ io.toStr ++ " on stack at object_key")
    | [] => s.raiseInternalError "empty stack at object_key"
  else if isSpace c then .ok (s.updateLineNum c)
  else s.raiseUnexpectedChar c "object_key"

def react (floats : Floats φ) (s : ParseState φ) (c : Char) : Except Exn (Reaction φ) :=
  match s.cursor with
  | .start => (parseStart s c).map .taken
  | .expectValue => (parseExpectValue s c).map .taken
  | .inNull rem => (parseInNull s rem c).map .taken
  | .inTrue rem => (parseInTrue s rem c).map .taken
  | .inFalse rem => (parseInFalse s rem c).map .taken
  | .inInt is => parseInInt s is c
  | .inFloat is fs => parseInFloat floats s is fs c
  | .inIntExp is es => parseInIntExp floats s is es c
  | .inFloatExp is fs es => parseInFloatExp floats s is fs es c
  | .inString cs => (parseInString s cs c).map .taken
  | .inStringControl cs => (parseInStringControl s cs c).map .taken
  | .inStringHex cs hs rem => (parseInStringHex s cs hs rem c).map .taken
  | .expectObjectElemStart => (parseExpectObjectElemStart s c).map .taken
  | .expectObjectElemColon => (parseExpectObjectElemColon s c).map .taken
  | .expectCommaOrEnd => (parseExpectCommaOrEnd s c).map .taken
  | .expectObjectKey => (parseExpectObjectKey s c).map .taken
  | .done _ => s.raiseInternalError "parse called when parse_state is 'Done'"

/-- How often a character may still be parsed: twice inside a number. -/
def Cursor.rank : Cursor φ → ℕ
  | .inInt _ | .inFloat _ _ | .inIntExp _ _ | .inFloatExp _ _ _ => 1
  | _ => 0

theorem rank_of_finishValue {s next : ParseState φ} {v : Json φ}
    (hok : finishValue s v = .ok next) : next.cursor.rank = 0 := by
  unfold finishValue at hok
  split at hok
  all_goals first
    | (obtain rfl := Except.ok.inj hok; rfl)
    | cases hok

theorem rank_of_finishInt {s next : ParseState φ} {is : Text} (hok : finishInt s is = .ok next) :
    next.cursor.rank = 0 := by
  obtain ⟨str, _, hok⟩ := Machine.bind_eq_ok.mp hok
  split at hok
  · exact rank_of_finishValue hok
  · cases hok

theorem rank_of_finishFloatWith {floats : Floats φ} {s next : ParseState φ} {is after : Text}
    (hok : finishFloatWith floats s is after = .ok next) : next.cursor.rank = 0 := by
  obtain ⟨int, _, hok⟩ := Machine.bind_eq_ok.mp hok
  dsimp only at hok
  split at hok
  · exact rank_of_finishValue hok
  · cases hok

theorem rank_of_parseNumber {s next : ParseState φ} {c : Char} {more : Option (Cursor φ)}
    {finish : ParseState φ → Except Exn (ParseState φ)} {jsonType : String}
    (hfinish : ∀ s next, finish s = .ok next → next.cursor.rank = 0)
    (hok : parseNumber s c more finish jsonType = .ok (.again next)) : next.cursor.rank = 0 := by
  unfold parseNumber at hok
  split at hok
  next => cases hok
  next =>
    split at hok
    next =>
      cases hfinished : finish s with
      | error _ => simp [hfinished, Except.map] at hok
      | ok later =>
          simp only [hfinished, Except.map, Except.ok.injEq, Reaction.again.injEq] at hok
          exact hok ▸ hfinish s later hfinished
    next =>
      split at hok
      next => cases hfinished : finish (s.updateLineNum c) <;> simp [hfinished, Except.map] at hok
      next => cases hok

/-- A character is parsed again only when it has ended a number. -/
theorem rank_of_react {floats : Floats φ} {s next : ParseState φ} {c : Char}
    (hok : react floats s c = .ok (.again next)) : next.cursor.rank < s.cursor.rank := by
  have hmap : ∀ {computation : Except Exn (ParseState φ)},
      computation.map Reaction.taken ≠ .ok (.again next) := by
    intro computation
    cases computation <;> simp [Except.map]
  unfold react at hok
  split at hok
  case h_6 hcursor =>
    rw [hcursor, rank_of_parseNumber (fun _ _ => rank_of_finishInt) hok]
    exact Nat.one_pos
  case h_7 hcursor =>
    rw [hcursor, rank_of_parseNumber (fun _ _ => rank_of_finishFloatWith) hok]
    exact Nat.one_pos
  case h_8 hcursor =>
    rw [hcursor, rank_of_parseNumber (fun _ _ => rank_of_finishFloatWith) hok]
    exact Nat.one_pos
  case h_9 hcursor =>
    rw [hcursor, rank_of_parseNumber (fun _ _ => rank_of_finishFloatWith) hok]
    exact Nat.one_pos
  case h_17 => cases hok
  all_goals exact absurd hok hmap

def parseChar (floats : Floats φ) (s : ParseState φ) (c : Char) : Except Exn (ParseState φ) :=
  match _hreact : react floats s c with
  | .error exn => .error exn
  | .ok (.taken next) => .ok next
  | .ok (.again next) => parseChar floats next c
termination_by s.cursor.rank
decreasing_by exact rank_of_react _hreact

/-! ## Whole texts -/

/-- The loop of `parse`. It ends with a value, or by reading past the end, so
the parser never finds its own loop incomplete. -/
def parse (floats : Floats φ) (s : ParseState φ) (input : Text) : Except Exn (Json φ) :=
  match s.getParseResult with
  | some v => .ok v
  | none =>
      match input with
      | [] => .error (.invalidArgument "index out of bounds")
      | c :: rest => do
          let next ← parseChar floats s c
          parse floats next rest

def ofString (floats : Floats φ) (str : Text) : Except Exn (Json φ) :=
  parse floats initParseState str

end Signpost.Frost

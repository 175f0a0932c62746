import Signpost.Machine.Regexp

/-! # The syntax of regular expressions

The syntax of Ruby 1.8, apart from escapes for control and meta characters. A
pattern is cut into tokens, from which the expression is built with a stack of
open groups.
-/

namespace Machine.Regexp

/-! ## Characters -/

def isWordLetter (c : Char) : Bool := c.isAlphanum ∨ c = '_'

def isSpaceLetter (c : Char) : Bool := c = ' ' ∨ 9 ≤ c.toNat ∧ c.toNat ≤ 13

def isHexLetter (c : Char) : Bool := c.isDigit ∨ c.toLower ∈ ['a', 'b', 'c', 'd', 'e', 'f']

def isOctalLetter (c : Char) : Bool := '0' ≤ c ∧ c ≤ '7'

def isGraphLetter (c : Char) : Bool := 33 ≤ c.toNat ∧ c.toNat ≤ 126

def digitValue (c : Char) : ℕ :=
  if c.isDigit then c.toNat - '0'.toNat else c.toLower.toNat - 'a'.toNat + 10

def numeral (base : ℕ) (digits : List Char) : ℕ :=
  digits.foldl (fun value c => base * value + digitValue c) 0

/-- A bracket expression such as `[:alnum:]`. -/
def posixClass (name : String) : Option (Char → Bool) :=
  match name with
  | "alnum" => some Char.isAlphanum
  | "alpha" => some Char.isAlpha
  | "blank" => some fun c => c = ' ' ∨ c = '\t'
  | "cntrl" => some fun c => c.toNat < 32 ∨ c.toNat = 127
  | "digit" => some Char.isDigit
  | "graph" => some isGraphLetter
  | "lower" => some Char.isLower
  | "print" => some fun c => c = ' ' ∨ isGraphLetter c
  | "punct" => some fun c => isGraphLetter c ∧ ¬ c.isAlphanum
  | "space" => some isSpaceLetter
  | "upper" => some Char.isUpper
  | "xdigit" => some isHexLetter
  | _ => none

/-- The letters that stand for a set of letters behind a backslash. -/
def setEscape (c : Char) : Option (Char → Bool) :=
  match c with
  | 'w' => some isWordLetter
  | 'W' => some fun c => !isWordLetter c
  | 's' => some isSpaceLetter
  | 'S' => some fun c => !isSpaceLetter c
  | 'd' => some Char.isDigit
  | 'D' => some fun c => !c.isDigit
  | _ => none

/-- What stands behind a backslash for one character, and what comes after it. -/
def charEscape : List Char → Option (Char × List Char)
  | [] => none
  | 't' :: rest => some ('\t', rest)
  | 'n' :: rest => some ('\n', rest)
  | 'r' :: rest => some ('\r', rest)
  | 'f' :: rest => some (Char.ofNat 12, rest)
  | 'v' :: rest => some (Char.ofNat 11, rest)
  | 'a' :: rest => some (Char.ofNat 7, rest)
  | 'e' :: rest => some (Char.ofNat 27, rest)
  | 'x' :: rest =>
      let digits := (rest.take 2).takeWhile isHexLetter
      if digits = [] then none
      else some (Char.ofNat (numeral 16 digits), rest.drop digits.length)
  | c :: rest =>
      let digits := ((c :: rest).take 3).takeWhile isOctalLetter
      if digits = [] then some (c, rest)
      else some (Char.ofNat (numeral 8 digits), (c :: rest).drop digits.length)

/-! ## Character classes -/

/-- One character of a class, which may begin a range, or a set of them. -/
def classElement : List Char → Option ((Char ⊕ (Char → Bool)) × List Char)
  | [] => none
  | '[' :: ':' :: rest =>
      match rest.dropWhile Char.isAlpha with
      | ':' :: ']' :: after =>
          (posixClass (String.ofList (rest.takeWhile Char.isAlpha))).map fun set =>
            (.inr set, after)
      | _ => some (.inl '[', ':' :: rest)
  | '\\' :: 'b' :: rest => some (.inl (Char.ofNat 8), rest)
  | '\\' :: c :: rest =>
      match setEscape c with
      | some set => some (.inr set, rest)
      | none => (charEscape (c :: rest)).map fun (d, after) => (.inl d, after)
  | ['\\'] => none
  | c :: rest => some (.inl c, rest)

/-- The elements of a class up to the bracket that closes it. A closing bracket
in the first place is an element. -/
def classBody : ℕ → Bool → (Char → Bool) → List Char → Option ((Char → Bool) × List Char)
  | 0, _, _, _ => none
  | fuel + 1, isFirst, set, text =>
      match isFirst, text with
      | false, ']' :: rest => some (set, rest)
      | _, _ => do
          let (element, rest) ← classElement text
          match element, rest with
          | .inl low, '-' :: c :: more =>
              if c = ']' then classBody fuel false (fun d => set d || d = low) rest
              else
                match ← classElement (c :: more) with
                | (.inl high, after) =>
                    if high < low then none
                    else classBody fuel false (fun d => set d || low ≤ d && d ≤ high) after
                | (.inr _, _) => none
          | .inl e, _ => classBody fuel false (fun d => set d || d = e) rest
          | .inr other, _ => classBody fuel false (fun d => set d || other d) rest

/-- A class after its opening bracket. -/
def charClass : List Char → Option ((Char → Bool) × List Char)
  | '^' :: rest =>
      (classBody (rest.length + 1) true (fun _ => false) rest).map fun (set, after) =>
        (fun c => !set c, after)
  | text => classBody (text.length + 1) true (fun _ => false) text

/-! ## Tokens -/

structure Options where
  ignoreCase : Bool := false
  multiline : Bool := false
  extended : Bool := false

inductive GroupKind
  | capture
  | plain
  | look (positive : Bool)
  | atomic

/-- A quantifier may follow an item, but not an anchor. -/
inductive Token
  | item (r : Regexp Char)
  | anchor (r : Regexp Char)
  | quantifier (least : ℕ) (most : Option ℕ) (greedy : Bool)
  | openGroup (kind : GroupKind)
  | closeGroup
  | bar

/-- The beginning of the text or of a line. -/
def lineStart : Regexp Char :=
  .anchor fun before _ => before = [] ∨ before.head? = some '\n'

def lineEnd : Regexp Char := .anchor fun _ after => after = [] ∨ after.head? = some '\n'

def textStart : Regexp Char := .anchor fun before _ => before = []

def textEnd : Regexp Char := .anchor fun _ after => after = []

/-- The end of the text, or a last newline. -/
def lastLineEnd : Regexp Char := .anchor fun _ after => after = [] ∨ after = ['\n']

/-- A word letter on one side only. -/
def wordBoundary (isBoundary : Bool) : Regexp Char :=
  .anchor fun before after =>
    (before.head?.any isWordLetter != after.head?.any isWordLetter) = isBoundary

def letterToken (options : Options) (isIn : Char → Bool) : Token :=
  .item <| .letter fun c =>
    if options.ignoreCase then isIn c || isIn c.toLower || isIn c.toUpper else isIn c

/-- What stands behind a backslash outside of a class. A number of one digit
refers to a group. -/
def escapeToken (options : Options) : List Char → Option (Token × List Char)
  | [] => none
  | 'A' :: rest => some (.anchor textStart, rest)
  | 'G' :: rest => some (.anchor textStart, rest)
  | 'Z' :: rest => some (.anchor lastLineEnd, rest)
  | 'z' :: rest => some (.anchor textEnd, rest)
  | 'b' :: rest => some (.anchor (wordBoundary true), rest)
  | 'B' :: rest => some (.anchor (wordBoundary false), rest)
  | c :: rest =>
      match setEscape c with
      | some set => some (letterToken options set, rest)
      | none =>
          if c.isDigit ∧ c ≠ '0' ∧ ¬ rest.head?.any isOctalLetter then
            some (.item (.backReference (digitValue c)), rest)
          else (charEscape (c :: rest)).map fun (d, after) => (letterToken options (· = d), after)

/-- The numbers in braces. -/
def interval (text : List Char) : Option (ℕ × Option ℕ × List Char) :=
  let low := text.takeWhile Char.isDigit
  match text.dropWhile Char.isDigit with
  | '}' :: after => if low = [] then none else some (numeral 10 low, some (numeral 10 low), after)
  | ',' :: rest =>
      let high := rest.takeWhile Char.isDigit
      match rest.dropWhile Char.isDigit with
      | '}' :: after =>
          if low = [] ∧ high = [] then none
          else some (numeral 10 low, if high = [] then none else some (numeral 10 high), after)
      | _ => none
  | _ => none

def quantifierToken (least : ℕ) (most : Option ℕ) : List Char → Token × List Char
  | '?' :: rest => (.quantifier least most false, rest)
  | rest => (.quantifier least most true, rest)

/-- The options that letters switch on, and off after a hyphen. -/
def switchOptions (options : Options) (on : Bool) : List Char → Options × List Char
  | 'i' :: rest => switchOptions { options with ignoreCase := on } on rest
  | 'm' :: rest => switchOptions { options with multiline := on } on rest
  | 'x' :: rest => switchOptions { options with extended := on } on rest
  | '-' :: rest => switchOptions options false rest
  | rest => (options, rest)

/-- What a token is, the options of the open groups after it, and the rest. -/
abbrev Lexed := List Token × List Options × List Char

/-- A group after its opening parenthesis. -/
def groupToken (options : Options) (outer : List Options) : List Char → Option Lexed
  | '?' :: '#' :: rest => some ([], options :: outer, (rest.dropWhile (· ≠ ')')).drop 1)
  | '?' :: ':' :: rest => some ([.openGroup .plain], options :: options :: outer, rest)
  | '?' :: '=' :: rest => some ([.openGroup (.look true)], options :: options :: outer, rest)
  | '?' :: '!' :: rest => some ([.openGroup (.look false)], options :: options :: outer, rest)
  | '?' :: '>' :: rest => some ([.openGroup .atomic], options :: options :: outer, rest)
  | '?' :: rest =>
      match switchOptions options true rest with
      | (switched, ')' :: after) => some ([], switched :: outer, after)
      | (switched, ':' :: after) => some ([.openGroup .plain], switched :: options :: outer, after)
      | _ => none
  | rest => some ([.openGroup .capture], options :: options :: outer, rest)

/-- The next token, in a group with the given options. -/
def lex (options : Options) (outer : List Options) (c : Char) (rest : List Char) : Option Lexed :=
  let one := fun (token : Token × List Char) => ([token.1], options :: outer, token.2)
  match c with
  | '\\' => (escapeToken options rest).map one
  | '[' => (charClass rest).map fun (set, after) => one (letterToken options set, after)
  | '(' => groupToken options outer rest
  | ')' => some ([.closeGroup], outer, rest)
  | '|' => some (one (.bar, rest))
  | '*' => some (one (quantifierToken 0 none rest))
  | '+' => some (one (quantifierToken 1 none rest))
  | '?' => some (one (quantifierToken 0 (some 1) rest))
  | '{' =>
      match interval rest with
      | some (least, some most, after) =>
          if most < least then none else some (one (quantifierToken least (some most) after))
      | some (least, none, after) => some (one (quantifierToken least none after))
      | none => some (one (letterToken options (· = '{'), rest))
  | '^' => some (one (.anchor lineStart, rest))
  | '$' => some (one (.anchor lineEnd, rest))
  | '.' => some (one (letterToken options (fun d => options.multiline || d ≠ '\n'), rest))
  | c =>
      if options.extended && isSpaceLetter c then some ([], options :: outer, rest)
      else if options.extended && c = '#' then
        some ([], options :: outer, rest.dropWhile (· ≠ '\n'))
      else some (one (letterToken options (· = c), rest))

/-- The tokens of a pattern. Closing a group that is not open leaves no options. -/
def tokens : ℕ → List Options → List Char → Option (List Token)
  | 0, _, _ => none
  | _ + 1, _, [] => some []
  | _ + 1, [], _ => none
  | fuel + 1, options :: outer, c :: rest => do
      let (front, opened, after) ← lex options outer c rest
      let others ← tokens fuel opened after
      pure (front ++ others)

/-! ## Expressions -/

/-- A group that is being read. The last branch and the last item are first. -/
structure Frame where
  kind : GroupKind
  number : ℕ
  branches : List (Regexp Char)
  items : List (Regexp Char)
  quantifiable : Bool

def seqOf (items : List (Regexp Char)) : Regexp Char :=
  items.foldl (fun later item => .seq item later) .empty

def altOf (last : Regexp Char) (branches : List (Regexp Char)) : Regexp Char :=
  branches.foldl (fun later branch => .alt branch later) last

def Frame.inside (frame : Frame) : Regexp Char := altOf (seqOf frame.items) frame.branches

def Frame.result (frame : Frame) : Regexp Char :=
  match frame.kind with
  | .capture => .capture frame.number frame.inside
  | .plain => frame.inside
  | .look positive => .look positive frame.inside
  | .atomic => .atomic frame.inside

def Frame.push (frame : Frame) (r : Regexp Char) (quantifiable : Bool) : Frame :=
  { frame with items := r :: frame.items, quantifiable := quantifiable }

/-- The open groups, the innermost one first, and the number of captures. -/
def parseToken : List Frame × ℕ → Token → Option (List Frame × ℕ)
  | ([], _), _ => none
  | (frame :: outer, captures), .item r => some (frame.push r true :: outer, captures)
  | (frame :: outer, captures), .anchor r => some (frame.push r false :: outer, captures)
  | (frame :: outer, captures), .quantifier least most greedy =>
      match frame.quantifiable, frame.items with
      | true, item :: items =>
          some ({ frame with items := .repeat least most greedy item :: items } :: outer, captures)
      | _, _ => none
  | (frame :: outer, captures), .openGroup kind =>
      let captured := match kind with
        | .capture => captures + 1
        | _ => captures
      some (⟨kind, captured, [], [], false⟩ :: frame :: outer, captured)
  | (frame :: outer, captures), .closeGroup =>
      match outer with
      | [] => none
      | parent :: outer => some (parent.push frame.result true :: outer, captures)
  | (frame :: outer, captures), .bar =>
      some ({ frame with
        branches := seqOf frame.items :: frame.branches
        items := []
        quantifiable := false } :: outer, captures)

def parseTokens (list : List Token) : Option (Regexp Char) := do
  match ← list.foldlM parseToken ([⟨.plain, 0, [], [], false⟩], 0) with
  | ([frame], _) => some frame.inside
  | _ => none

/-- `Regexp.new`. `none` stands for a `RegexpError`. -/
def parse (pattern : List Char) : Option (Regexp Char) :=
  (tokens (pattern.length + 1) [{}] pattern).bind parseTokens

def escapeLetter (c : Char) : List Char :=
  if c = '\n' then ['\\', 'n']
  else if c = '\t' then ['\\', 't']
  else if c = '\r' then ['\\', 'r']
  else if c = Char.ofNat 12 then ['\\', 'f']
  else if c ∈ "[]{}()|-*.\\?+^$# ".toList then ['\\', c]
  else [c]

/-- `Regexp.escape`. -/
def escape (text : List Char) : List Char := text.flatMap escapeLetter

theorem length_le_length_escape (text : List Char) : text.length ≤ (escape text).length := by
  induction text with
  | nil => exact Nat.le_refl 0
  | cons c text ih =>
      have hletter : 1 ≤ (escapeLetter c).length := by
        unfold escapeLetter
        repeat' split
        all_goals simp
      rw [escape, List.flatMap_cons, List.length_append, List.length_cons, Nat.add_comm]
      exact Nat.add_le_add hletter ih

/-- A text that stays as it is has no backslash, which is escaped by another one. -/
theorem not_backslash_mem_of_escape_eq {text : List Char} (heq : escape text = text) :
    '\\' ∉ text := by
  intro hmem
  obtain ⟨front, back, rfl⟩ := List.append_of_mem hmem
  have hfront := length_le_length_escape front
  have hback := length_le_length_escape back
  have hbackslash : (escapeLetter '\\').length = 2 := by decide
  have hlength := congrArg List.length heq
  simp only [escape, List.flatMap_append, List.flatMap_cons, List.length_append, List.length_cons,
    hbackslash] at hlength hfront hback
  omega

/-! ## Patterns with an anchor in front

The anchor belongs to the first branch of the pattern only.
-/

section Anchored

variable {frame anchored : Frame} {stack stack' next : List Frame}

/-- The same frame, but with `lineStart` before its first branch. -/
inductive Anchored : Frame → Frame → Prop
  | items {frame : Frame} (hbranches : frame.branches = []) :
      Anchored frame { frame with items := frame.items ++ [lineStart] }
  | branches {frame : Frame} {later : List (Regexp Char)} {first : Regexp Char}
      (hbranches : frame.branches = later ++ [first]) :
      Anchored frame { frame with branches := later ++ [.seq lineStart first] }

/-- The outermost frame has the anchor. -/
def StackAnchored (stack stack' : List Frame) : Prop :=
  ∃ inner frame anchored, stack = inner ++ [frame] ∧ stack' = inner ++ [anchored] ∧
    Anchored frame anchored

theorem seqOf_append_singleton (items : List (Regexp Char)) (item : Regexp Char) :
    seqOf (items ++ [item]) = .seq item (seqOf items) := by
  rw [seqOf, List.foldl_append]
  rfl

theorem altOf_append_singleton (last : Regexp Char) (branches : List (Regexp Char))
    (branch : Regexp Char) :
    altOf last (branches ++ [branch]) = .alt branch (altOf last branches) := by
  rw [altOf, List.foldl_append]
  rfl

theorem run_seq_lineStart (r : Regexp Char) {cursor : Cursor Char} (hstart : cursor.before = []) :
    (Regexp.seq lineStart r).run cursor = r.run cursor := by
  simp [run, lineStart, hstart]

theorem Anchored.run_inside (hanchored : Anchored frame anchored) {cursor : Cursor Char}
    (hstart : cursor.before = []) : anchored.inside.run cursor = frame.inside.run cursor := by
  cases hanchored with
  | items hbranches =>
      rw [Frame.inside, Frame.inside, hbranches]
      simp only [seqOf_append_singleton]
      exact run_seq_lineStart _ hstart
  | branches hbranches =>
      rw [Frame.inside, Frame.inside, hbranches]
      simp only [altOf_append_singleton]
      exact congrArg (· ++ _) (run_seq_lineStart _ hstart)

theorem Anchored.push (hanchored : Anchored frame anchored) (r : Regexp Char)
    (quantifiable : Bool) :
    Anchored (frame.push r quantifiable) (anchored.push r quantifiable) := by
  cases hanchored with
  | items hbranches => exact .items hbranches
  | branches hbranches => exact .branches hbranches

theorem StackAnchored.outermost (hanchored : Anchored frame anchored) :
    StackAnchored [frame] [anchored] :=
  ⟨[], frame, anchored, rfl, rfl, hanchored⟩

theorem StackAnchored.cons (top : Frame) (hstack : StackAnchored stack stack') :
    StackAnchored (top :: stack) (top :: stack') := by
  obtain ⟨inner, frame, anchored, rfl, rfl, hanchored⟩ := hstack
  exact ⟨top :: inner, frame, anchored, rfl, rfl, hanchored⟩

/-- A token in the outermost frame. -/
theorem Anchored.parseToken (hanchored : Anchored frame anchored) {captures captures' : ℕ}
    {token : Token} (hparse : parseToken ([frame], captures) token = some (next, captures')) :
    ∃ next', Regexp.parseToken ([anchored], captures) token = some (next', captures') ∧
      StackAnchored next next' := by
  cases token with
  | item r =>
      obtain ⟨rfl, rfl⟩ := Prod.mk.inj (Option.some.inj hparse)
      exact ⟨_, rfl, .outermost (hanchored.push r true)⟩
  | anchor r =>
      obtain ⟨rfl, rfl⟩ := Prod.mk.inj (Option.some.inj hparse)
      exact ⟨_, rfl, .outermost (hanchored.push r false)⟩
  | quantifier least most greedy =>
      obtain ⟨kind, number, branches, items, quantifiable⟩ := frame
      cases items with
      | nil => cases quantifiable <;> cases hparse
      | cons item items =>
          cases quantifiable with
          | false => cases hparse
          | true =>
              obtain ⟨rfl, rfl⟩ := Prod.mk.inj (Option.some.inj hparse)
              cases hanchored with
              | items hbranches => exact ⟨_, rfl, .outermost (.items hbranches)⟩
              | branches hbranches => exact ⟨_, rfl, .outermost (.branches hbranches)⟩
  | openGroup kind =>
      obtain ⟨rfl, rfl⟩ := Prod.mk.inj (Option.some.inj hparse)
      exact ⟨_, rfl, .cons _ (.outermost hanchored)⟩
  | closeGroup => cases hparse
  | bar =>
      obtain ⟨rfl, rfl⟩ := Prod.mk.inj (Option.some.inj hparse)
      refine ⟨_, rfl, .outermost ?_⟩
      cases hanchored with
      | items hbranches =>
          rw [seqOf_append_singleton, hbranches]
          exact @Anchored.branches _ [] _ rfl
      | branches hbranches =>
          exact @Anchored.branches _ (seqOf frame.items :: _) _ (by rw [hbranches]; rfl)

/-- A token in a group. -/
theorem parseToken_inner (hstack : StackAnchored stack stack') {top : Frame}
    {captures captures' : ℕ} {token : Token}
    (hparse : parseToken (top :: stack, captures) token = some (next, captures')) :
    ∃ next', parseToken (top :: stack', captures) token = some (next', captures') ∧
      StackAnchored next next' := by
  cases token with
  | closeGroup =>
      obtain ⟨inner, frame, anchored, rfl, rfl, hanchored⟩ := hstack
      cases inner with
      | nil =>
          obtain ⟨rfl, rfl⟩ := Prod.mk.inj (Option.some.inj hparse)
          exact ⟨_, rfl, .outermost (hanchored.push top.result true)⟩
      | cons parent inner =>
          obtain ⟨rfl, rfl⟩ := Prod.mk.inj (Option.some.inj hparse)
          exact ⟨_, rfl, parent.push top.result true :: inner, frame, anchored, rfl, rfl, hanchored⟩
  | quantifier least most greedy =>
      obtain ⟨kind, number, branches, items, quantifiable⟩ := top
      cases items with
      | nil => cases quantifiable <;> cases hparse
      | cons item items =>
          cases quantifiable with
          | false => cases hparse
          | true =>
              obtain ⟨rfl, rfl⟩ := Prod.mk.inj (Option.some.inj hparse)
              exact ⟨_, rfl, hstack.cons _⟩
  | openGroup kind =>
      obtain ⟨rfl, rfl⟩ := Prod.mk.inj (Option.some.inj hparse)
      exact ⟨_, rfl, (hstack.cons top).cons _⟩
  | item r | anchor r | bar =>
      obtain ⟨rfl, rfl⟩ := Prod.mk.inj (Option.some.inj hparse)
      exact ⟨_, rfl, hstack.cons _⟩

theorem foldlM_anchored (hstack : StackAnchored stack stack') {captures captures' : ℕ}
    {list : List Token}
    (hparse : list.foldlM parseToken (stack, captures) = some (next, captures')) :
    ∃ next', list.foldlM parseToken (stack', captures) = some (next', captures') ∧
      StackAnchored next next' := by
  induction list generalizing stack stack' captures with
  | nil =>
      obtain ⟨rfl, rfl⟩ := Prod.mk.inj (Option.some.inj hparse)
      exact ⟨_, rfl, hstack⟩
  | cons token list ih =>
      rw [List.foldlM_cons] at hparse
      obtain ⟨⟨middle, count⟩, htoken, hlist⟩ := Option.bind_eq_some_iff.mp hparse
      have hstep : ∃ middle', parseToken (stack', captures) token = some (middle', count) ∧
          StackAnchored middle middle' := by
        obtain ⟨inner, frame, anchored, rfl, rfl, hanchored⟩ := hstack
        cases inner with
        | nil => exact hanchored.parseToken htoken
        | cons top inner =>
            exact parseToken_inner ⟨inner, frame, anchored, rfl, rfl, hanchored⟩ htoken
      obtain ⟨middle', htoken', hmiddle⟩ := hstep
      obtain ⟨next', hlist', hnext⟩ := ih hmiddle hlist
      refine ⟨next', ?_, hnext⟩
      rw [List.foldlM_cons]
      exact Option.bind_eq_some_iff.mpr ⟨_, htoken', hlist'⟩

theorem tokens_caret (fuel : ℕ) (options : Options) (pattern : List Char) :
    tokens (fuel + 1) [options] ('^' :: pattern) =
      (tokens fuel [options] pattern).map (.anchor lineStart :: ·) := by
  cases htokens : tokens fuel [options] pattern <;> simp [tokens, lex, htokens]

/-- A pattern with the anchor in front can be read if the pattern can, and matches
what the pattern matches as a whole. -/
theorem exists_parse_anchored {pattern : List Char} {r : Regexp Char}
    (hparse : parse pattern = some r) :
    ∃ r', parse ('^' :: pattern) = some r' ∧
      ∀ text, r.isWholeMatch text → r'.isMatch text := by
  obtain ⟨list, htokens, hlist⟩ := Option.bind_eq_some_iff.mp hparse
  obtain ⟨⟨stack, captures⟩, hstack, hresult⟩ := Option.bind_eq_some_iff.mp hlist
  have hanchor : StackAnchored [⟨.plain, 0, [], [], false⟩] [⟨.plain, 0, [], [lineStart], false⟩] :=
    .outermost (.items rfl)
  obtain ⟨stack', hstack', inner, frame, anchored, rfl, rfl, hframe⟩ :=
    foldlM_anchored hanchor hstack
  cases inner with
  | cons top inner => cases inner <;> cases hresult
  | nil =>
      obtain rfl := Option.some.inj hresult
      refine ⟨anchored.inside, ?_, fun text hwhole => ?_⟩
      · rw [parse, List.length_cons, tokens_caret, htokens, Option.map_some, Option.bind_some]
        exact Option.bind_eq_some_iff.mpr ⟨([anchored], captures), hstack', rfl⟩
      · obtain ⟨cursor, hcursor, _⟩ := List.any_eq_true.mp hwhole
        rw [isMatch, List.any_eq_true]
        refine ⟨⟨[], text, fun _ => none⟩, by cases text <;> simp [cursors], ?_⟩
        rw [hframe.run_inside rfl]
        cases hrun : frame.inside.run ⟨[], text, fun _ => none⟩ with
        | nil => rw [hrun] at hcursor; cases hcursor
        | cons => rfl

end Anchored

end Machine.Regexp

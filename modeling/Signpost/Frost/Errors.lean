import Signpost.Frost.Feeding

/-! # Where the JSON parser fails

The line number of a state counts the line breaks that have been read, so an
error tells where it has been found. A text is given up at the first character
for which there is no reaction, whatever stands behind.
-/

namespace Signpost.Frost

open Machine

variable {φ : Type} {floats : Floats φ}

/-- Lines are counted from one. -/
def lineAfter (read : Text) : ℕ := 1 + read.count '\n'

/-- An error about a value that ends on the line. -/
def Error.IsOn (line : ℕ) : Error → Prop
  | .invalidValue l _ _ | .invalidLeadingZero l _ | .internalError l _ => l = line
  | .unexpectedChar _ _ _ | .unterminatedValue _ _ => False

/-- A character that is refused is told with the line that it stands on. A value that
is refused is told after its last character has been counted. -/
def Exn.IsAt (line : ℕ) (c : Char) (exn : Exn) : Prop :=
  (∃ jsonType, exn = .parseError (.unexpectedChar line c jsonType)) ∨
    ∃ e, exn = .parseError e ∧ e.IsOn (line + [c].count '\n')

/-! ## Finishing a value -/

/-- A computation that takes no further character. -/
def Settles (line : ℕ) (computation : Except Exn (ParseState φ)) : Prop :=
  match computation with
  | .ok next => next.lineNum = line
  | .error exn => ∃ e, exn = .parseError e ∧ e.IsOn line

section

variable {s : ParseState φ} {c : Char}

theorem settles_finishValue (s : ParseState φ) (v : Json φ) :
    Settles s.lineNum (finishValue s v) := by
  unfold finishValue
  split
  case h_5 => exact ⟨_, rfl, rfl⟩
  all_goals exact rfl

theorem settles_popStack (s : ParseState φ) : Settles s.lineNum (popStack s) := by
  unfold popStack
  split
  next tl _ => exact settles_finishValue { s with stack := tl } _
  next tl _ => exact settles_finishValue { s with stack := tl } _
  next => exact ⟨_, rfl, rfl⟩
  next => exact ⟨_, rfl, rfl⟩

/-- A number is finished once its text is without a leading zero. -/
theorem settles_leadingZero (s : ParseState φ) (is : Text)
    {finish : Text → Except Exn (ParseState φ)} (hfinish : ∀ str, Settles s.lineNum (finish str)) :
    Settles s.lineNum (toStringWithLeadingZeroCheck s is >>= finish) := by
  unfold toStringWithLeadingZeroCheck
  split
  next => exact ⟨_, rfl, rfl⟩
  next => exact hfinish _

theorem settles_finishInt (s : ParseState φ) (is : Text) :
    Settles s.lineNum (finishInt s is) := by
  refine settles_leadingZero s is fun str => ?_
  split
  next => exact settles_finishValue s _
  next => exact ⟨_, rfl, rfl⟩

theorem settles_finishFloatWith (s : ParseState φ) (is after : Text) :
    Settles s.lineNum (finishFloatWith floats s is after) := by
  refine settles_leadingZero s is fun int => ?_
  dsimp only
  split
  next => exact settles_finishValue s _
  next => exact ⟨_, rfl, rfl⟩

/-! ## One character -/

/-- A computation that takes a character. -/
def Steps (line : ℕ) (c : Char) (computation : Except Exn (ParseState φ)) : Prop :=
  match computation with
  | .ok next => next.lineNum = line + [c].count '\n'
  | .error exn => exn.IsAt line c

theorem Settles.steps {line : ℕ} {computation : Except Exn (ParseState φ)}
    (hsettles : Settles line computation) (hc : c ≠ '\n') : Steps line c computation := by
  have hcount : line + [c].count '\n' = line := by simp [hc]
  cases computation with
  | ok next => exact hsettles.trans hcount.symm
  | error exn =>
      refine .inr ?_
      rw [hcount]
      exact hsettles

theorem steps_goto {next : ParseState φ} (hc : c ≠ '\n') (hline : next.lineNum = s.lineNum) :
    Steps s.lineNum c (.ok next) := by
  have hsettles : Settles s.lineNum (Except.ok next) := hline
  exact hsettles.steps hc

theorem steps_raiseUnexpectedChar (s : ParseState φ) (c : Char) (jsonType : String) :
    Steps s.lineNum c (s.raiseUnexpectedChar c jsonType : Except Exn (ParseState φ)) :=
  .inl ⟨jsonType, rfl⟩

theorem lineNum_updateLineNum (s : ParseState φ) (c : Char) :
    (s.updateLineNum c).lineNum = s.lineNum + [c].count '\n' := by
  unfold ParseState.updateLineNum
  split
  next hc => simp [hc]
  next hc => simp [hc]

/-- White space between values, at the end of the alternatives. -/
theorem steps_space (s : ParseState φ) (c : Char) (jsonType : String) :
    Steps s.lineNum c (if isSpace c then .ok (s.updateLineNum c)
      else s.raiseUnexpectedChar c jsonType) := by
  split
  next => exact lineNum_updateLineNum s c
  next => exact steps_raiseUnexpectedChar s c jsonType

/-- The alternatives for a character that is no line break. -/
theorem steps_ite {p : Prop} [Decidable p] {line : ℕ} {yes no : Except Exn (ParseState φ)}
    (hc : p → c ≠ '\n') (hyes : p → Settles line yes) (hno : Steps line c no) :
    Steps line c (if p then yes else no) := by
  split
  next hp => exact (hyes hp).steps (hc hp)
  next => exact hno

theorem beginValue_some {next : ParseState φ} (hbegin : beginValue s c = some next) :
    c ≠ '\n' ∧ next.lineNum = s.lineNum := by
  unfold beginValue at hbegin
  constructor
  · rintro rfl
    simp at hbegin
  · repeat' split at hbegin
    all_goals first
      | (obtain rfl := Option.some.inj hbegin; rfl)
      | cases hbegin

theorem steps_beginValue {no : Except Exn (ParseState φ)} (hno : Steps s.lineNum c no) :
    Steps s.lineNum c (match beginValue s c with
      | some next => .ok next
      | none => no) := by
  split
  next hbegin =>
    obtain ⟨hc, hline⟩ := beginValue_some hbegin
    exact steps_goto hc hline
  next => exact hno

theorem steps_parseStart (s : ParseState φ) (c : Char) : Steps s.lineNum c (parseStart s c) := by
  refine steps_beginValue (steps_ite ?_ (fun _ => settles_popStack s) (steps_space s c "start"))
  rintro ⟨rfl, _⟩
  decide

theorem steps_parseExpectValue (s : ParseState φ) (c : Char) :
    Steps s.lineNum c (parseExpectValue s c) :=
  steps_beginValue (steps_space s c "value")

theorem steps_parseInNull (s : ParseState φ) (rem : ℕ) (c : Char) :
    Steps s.lineNum c (parseInNull s rem c) := by
  refine steps_ite ?_ (fun _ => rfl) (steps_ite ?_ (fun _ => rfl) (steps_ite ?_
    (fun _ => settles_finishValue s _) (steps_raiseUnexpectedChar s c "null")))
  all_goals
    rintro ⟨rfl, _⟩
    decide

theorem steps_parseInTrue (s : ParseState φ) (rem : ℕ) (c : Char) :
    Steps s.lineNum c (parseInTrue s rem c) := by
  refine steps_ite ?_ (fun _ => rfl) (steps_ite ?_ (fun _ => rfl) (steps_ite ?_
    (fun _ => settles_finishValue s _) (steps_raiseUnexpectedChar s c "true")))
  all_goals
    rintro ⟨rfl, _⟩
    decide

theorem steps_parseInFalse (s : ParseState φ) (rem : ℕ) (c : Char) :
    Steps s.lineNum c (parseInFalse s rem c) := by
  refine steps_ite ?_ (fun _ => rfl) (steps_ite ?_ (fun _ => rfl) (steps_ite ?_ (fun _ => rfl)
    (steps_ite ?_ (fun _ => settles_finishValue s _) (steps_raiseUnexpectedChar s c "false"))))
  all_goals
    rintro ⟨rfl, _⟩
    decide

theorem steps_parseInString (s : ParseState φ) (cs : Text) (c : Char) :
    Steps s.lineNum c (parseInString s cs c) := by
  refine steps_ite ?_ (fun _ => rfl) (steps_ite ?_ (fun _ => settles_finishValue s _)
    (steps_ite ?_ (fun _ => rfl) (steps_raiseUnexpectedChar s c "string")))
  all_goals
    rintro hc rfl
    revert hc
    decide

theorem steps_parseInStringControl (s : ParseState φ) (cs : Text) (c : Char) :
    Steps s.lineNum c (parseInStringControl s cs c) := by
  refine steps_ite ?_ (fun _ => rfl) (steps_ite ?_ (fun _ => rfl) (steps_ite ?_ (fun _ => rfl)
    (steps_ite ?_ (fun _ => rfl) (steps_ite ?_ (fun _ => rfl) (steps_ite ?_ (fun _ => rfl)
      (steps_ite ?_ (fun _ => rfl) (steps_raiseUnexpectedChar s c "string_control")))))))
  all_goals
    rintro hc rfl
    revert hc
    decide

theorem steps_parseInStringHex (s : ParseState φ) (cs hs : Text) (rem : ℕ) (c : Char) :
    Steps s.lineNum c (parseInStringHex s cs hs rem c) := by
  refine steps_ite ?_ (fun _ => ?_) (steps_raiseUnexpectedChar s c "string_unicode")
  · rintro hc rfl
    revert hc
    decide
  · split <;> exact rfl

theorem steps_parseExpectObjectElemStart (s : ParseState φ) (c : Char) :
    Steps s.lineNum c (parseExpectObjectElemStart s c) := by
  refine steps_ite ?_ (fun _ => rfl) (steps_ite ?_ (fun _ => settles_finishValue s _)
    (steps_space s c "object_start"))
  all_goals
    rintro rfl
    decide

theorem steps_parseExpectObjectElemColon (s : ParseState φ) (c : Char) :
    Steps s.lineNum c (parseExpectObjectElemColon s c) := by
  refine steps_ite ?_ (fun _ => rfl) (steps_space s c "object_elem_colon")
  rintro rfl
  decide

theorem steps_parseExpectCommaOrEnd (s : ParseState φ) (c : Char) :
    Steps s.lineNum c (parseExpectCommaOrEnd s c) := by
  refine steps_ite ?_ (fun _ => rfl) (steps_ite ?_ (fun _ => settles_popStack s)
    (steps_ite ?_ (fun _ => settles_popStack s) (steps_space s c "comma_or_end")))
  · rintro rfl
    decide
  all_goals
    rintro ⟨rfl, _⟩
    decide

theorem steps_parseExpectObjectKey (s : ParseState φ) (c : Char) :
    Steps s.lineNum c (parseExpectObjectKey s c) := by
  refine steps_ite ?_ (fun _ => ?_) (steps_space s c "object_key")
  · rintro rfl
    decide
  · split
    next => exact rfl
    next => exact ⟨_, rfl, rfl⟩
    next => exact ⟨_, rfl, rfl⟩

/-- A character that has only ended a number is no line break. -/
def Reacts (line : ℕ) (c : Char) (computation : Except Exn (Reaction φ)) : Prop :=
  match computation with
  | .ok (.taken next) => next.lineNum = line + [c].count '\n'
  | .ok (.again next) => next.lineNum = line ∧ c ≠ '\n'
  | .error exn => exn.IsAt line c

theorem Steps.taken {line : ℕ} {computation : Except Exn (ParseState φ)}
    (hsteps : Steps line c computation) : Reacts line c (computation.map .taken) := by
  cases computation <;> exact hsteps

theorem reacts_parseNumber (s : ParseState φ) {more : Option (Cursor φ)}
    {finish : ParseState φ → Except Exn (ParseState φ)} (jsonType : String)
    (hmore : more.isSome → c ≠ '\n') (hfinish : ∀ s, Settles s.lineNum (finish s)) :
    Reacts s.lineNum c (parseNumber s c more finish jsonType) := by
  unfold parseNumber
  split
  next cursor =>
    have hsteps : Steps s.lineNum c (.ok (s.goto cursor)) := steps_goto (hmore rfl) rfl
    exact hsteps.taken
  next =>
  split
  -- a comma or a bracket is not counted here, as it is parsed again
  next hend =>
    have hc : c ≠ '\n' := by
      rintro rfl
      revert hend
      decide
    have hsettles := hfinish s
    cases hfinished : finish s with
    | ok next =>
        rw [hfinished] at hsettles
        exact ⟨hsettles, hc⟩
    | error exn =>
        rw [hfinished] at hsettles
        exact hsettles.steps hc
  next =>
  split
  -- white space is counted before the number is finished
  next =>
    have hsettles := hfinish (s.updateLineNum c)
    rw [lineNum_updateLineNum] at hsettles
    cases hfinished : finish (s.updateLineNum c) with
    | ok next =>
        rw [hfinished] at hsettles
        exact hsettles
    | error exn =>
        rw [hfinished] at hsettles
        exact .inr hsettles
  next => exact .inl ⟨jsonType, rfl⟩

theorem reacts_react (floats : Floats φ) (hopen : s.getParseResult = none ∨ c ≠ '\n') :
    Reacts s.lineNum c (react floats s c) := by
  have hnewline : ¬ isExponentChar '\n' ∧ ¬ isExponent '\n' ∧ ¬ Char.isDigit '\n' := by decide
  unfold react
  split
  next => exact (steps_parseStart s c).taken
  next => exact (steps_parseExpectValue s c).taken
  next rem _ => exact (steps_parseInNull s rem c).taken
  next rem _ => exact (steps_parseInTrue s rem c).taken
  next rem _ => exact (steps_parseInFalse s rem c).taken
  next is _ =>
    refine reacts_parseNumber s "int" ?_ fun s => settles_finishInt s is
    rintro hmore rfl
    simp [hnewline] at hmore
  next is fs _ =>
    refine reacts_parseNumber s "float" ?_ fun s => settles_finishFloatWith s is fs.reverse
    rintro hmore rfl
    simp [hnewline] at hmore
  next is es _ =>
    refine reacts_parseNumber s "int_exp" ?_ fun s =>
      settles_finishFloatWith s is ('e' :: es.reverse)
    rintro hmore rfl
    simp [hnewline] at hmore
  next is fs es _ =>
    refine reacts_parseNumber s "float_exp" ?_ fun s =>
      settles_finishFloatWith s is (fs.reverse ++ 'e' :: es.reverse)
    rintro hmore rfl
    simp [hnewline] at hmore
  next cs _ => exact (steps_parseInString s cs c).taken
  next cs _ => exact (steps_parseInStringControl s cs c).taken
  next cs hs rem _ => exact (steps_parseInStringHex s cs hs rem c).taken
  next => exact (steps_parseExpectObjectElemStart s c).taken
  next => exact (steps_parseExpectObjectElemColon s c).taken
  next => exact (steps_parseExpectCommaOrEnd s c).taken
  next => exact (steps_parseExpectObjectKey s c).taken
  -- a value that is done has a result, and is asked for no more characters
  next v hcursor =>
    rcases hopen with hopen | hc
    · simp [ParseState.getParseResult, hcursor] at hopen
    · have hsettles : Settles s.lineNum
          (s.raiseInternalError "parse called when parse_state is 'Done'" :
            Except Exn (ParseState φ)) := ⟨_, rfl, rfl⟩
      exact (hsettles.steps hc).taken

/-- A character is counted once, however often it is parsed. -/
theorem steps_parseChar (floats : Floats φ) (hopen : s.getParseResult = none ∨ c ≠ '\n') :
    Steps s.lineNum c (parseChar floats s c) := by
  have hreacts := reacts_react floats hopen
  fun_induction parseChar floats s c with
  | case1 s exn hreact =>
      rw [hreact] at hreacts
      exact hreacts
  | case2 s next hreact =>
      rw [hreact] at hreacts
      exact hreacts
  -- the character has ended a number, and is parsed again after it
  | case3 s next hreact ih =>
      rw [hreact] at hreacts
      obtain ⟨hline, hc⟩ := hreacts
      rw [← hline]
      exact ih (.inr hc) (reacts_react floats (.inr hc))

/-! ## Whole texts -/

/-- A text that is not given up is read to its end. -/
theorem parse_error_cases {exn : Exn} {str : Text} (herror : parse floats s str = .error exn) :
    exn = .invalidArgument "index out of bounds" ∨
      ∃ read c rest, str = read ++ c :: rest ∧
        parse floats s read = .error (.invalidArgument "index out of bounds") ∧
        (∀ other, parse floats s (read ++ c :: other) = .error exn) ∧
        exn.IsAt (s.lineNum + read.count '\n') c := by
  induction str generalizing s with
  | nil =>
      cases hresult : s.getParseResult with
      | some v => simp [parse, hresult] at herror
      | none =>
          simp only [parse, hresult, Except.error.injEq] at herror
          exact .inl herror.symm
  | cons c rest ih =>
      cases hresult : s.getParseResult with
      | some v => simp [parse, hresult] at herror
      | none =>
          have hsteps := steps_parseChar (c := c) floats (.inl hresult)
          rw [parse_cons hresult] at herror
          cases hnext : parseChar floats s c with
          -- the text is given up here, whatever it goes on with
          | error other =>
              rw [hnext] at herror hsteps
              obtain rfl := Except.error.inj herror
              refine .inr ⟨[], c, rest, rfl, by simp [parse, hresult], fun _ => ?_, hsteps⟩
              rw [List.nil_append, parse_cons hresult, hnext]
              rfl
          | ok next =>
              rw [hnext] at herror hsteps
              rcases ih herror with hend | ⟨read, d, others, rfl, hread, hother, hat⟩
              · exact .inl hend
              · refine .inr ⟨c :: read, d, others, rfl, ?_, fun other => ?_, ?_⟩
                · rw [parse_cons hresult, hnext]
                  exact hread
                · rw [List.cons_append, parse_cons hresult, hnext]
                  exact hother other
                · have hline : next.lineNum = s.lineNum + [c].count '\n' := hsteps
                  have hcount : (c :: read).count '\n' = [c].count '\n' + read.count '\n' := by
                    rw [← List.count_append, List.singleton_append]
                  rw [hcount, ← Nat.add_assoc, ← hline]
                  exact hat

end

end Signpost.Frost

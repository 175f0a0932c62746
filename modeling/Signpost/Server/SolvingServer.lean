import Signpost.Machine.Run
import Signpost.Solver.Protocol

/-! # The solving server

A server that puts the requests of its clients as questions to the solver. It
writes a line when a question calls back, and a line when a question has not
been answered for 30 seconds. One connection is modelled, with all the requests
that are sent on it.
-/

namespace Signpost.SolvingServer

open Machine

variable {α : Type}

/-! ## The connection -/

/-- A value of a truth, which may be an array. -/
inductive Value (α : Type)
  | array (items : List α)
  | single (item : α)

/-- A line that is sent to the client. -/
inductive Reply (α : Type)
  | ok (result : List α) (what userInfo : String)
  | failed (message : String)

/-- A chunk of data, as `JSON.parse` reads it unless it is blank. -/
inductive Chunk
  | blank
  | work (what userInfo : String) (terminate : Bool)
  | malformed

/-- A question together with the variables of the blocks that wait for it. It is
`working` until it calls back for the first time. -/
structure Question where
  what : String
  userInfo : String
  working : Bool := true
  stopped : Bool := false
  timer : Bool := true

structure State where
  receivedResults : Bool := false
  isOpen : Bool := true
  questions : List Question := []

inductive Event (α : Type)
  | receiveData (chunk : Chunk)
  | callback (request : ℕ) (truths : List (Fact (Value α)))
  | stop (request : ℕ)
  | timeout (request : ℕ)

inductive ServerError
  | disabled
  | parserError
deriving DecidableEq, Repr

def results (truths : List (Fact (Value α))) : List α :=
  truths.flatMap fun fact =>
    match fact.truth with
    | .array items => items
    | .single item => [item]

/-- Taking a truth apart assigns to the `user_info` of the request. -/
def lastUserInfo (userInfo : String) (truths : List (Fact (Value α))) : String :=
  truths.foldl (fun _ fact => fact.userInfo) userInfo

/-- What is written to a connection that has been closed is lost. -/
def sendData (state : State) (reply : Reply α) : Option (Reply α) :=
  if state.isOpen then some reply else none

def receiveData (state : State) (what userInfo : String) (terminate : Bool) : State :=
  { state with
    questions := state.questions ++ [{ what, userInfo }]
    isOpen := !terminate }

def callback (state : State) (request : ℕ) (question : Question)
    (truths : List (Fact (Value α))) : State × Option (Reply α) :=
  let userInfo := lastUserInfo question.userInfo truths
  ({ state with
      receivedResults := true
      questions := state.questions.set request { question with userInfo, working := false } },
    sendData state (.ok (results truths) question.what userInfo))

def timeout (state : State) (request : ℕ) (question : Question) : State × Option (Reply α) :=
  ({ state with questions := state.questions.set request { question with timer := false } },
    if state.receivedResults then none else sendData state (.failed "Timeout"))

def step (state : State) : Event α → Except ServerError (State × Option (Reply α))
  | .receiveData chunk =>
      if state.isOpen then
        match chunk with
        | .blank => .ok (state, none)
        | .work what userInfo terminate => .ok (receiveData state what userInfo terminate, none)
        | .malformed => .error .parserError
      else .error .disabled
  | .callback request truths =>
      match state.questions[request]? with
      | some question =>
          if question.stopped then .error .disabled
          else .ok (callback state request question truths)
      | none => .error .disabled
  | .stop request =>
      match state.questions[request]? with
      | some question =>
          if question.working then .error .disabled
          else
            .ok ({ state with
              questions := state.questions.set request { question with stopped := true } }, none)
      | none => .error .disabled
  | .timeout request =>
      match state.questions[request]? with
      | some question =>
          if question.timer then .ok (timeout state request question) else .error .disabled
      | none => .error .disabled

abbrev Record (α : Type) := List (Transition State (Event α) (Option (Reply α)))

/-! ## Replies -/

/-- The request whose block runs. -/
def Event.request? : Event α → Option ℕ
  | .receiveData _ => none
  | .callback request _ => some request
  | .stop _ => none
  | .timeout request => some request

def concerns (request : ℕ) (now : Transition State (Event α) (Option (Reply α))) : Bool :=
  now.input.request? = some request

/-- The lines that are sent to the client for a request. -/
def repliesTo (request : ℕ) (steps : Record α) : List (Reply α) :=
  (steps.filter (concerns request)).filterMap fun now => now.output

/-- What comes first for a request, its callback or its timeout. -/
def firstEvent (request : ℕ) (steps : Record α) : Option (Event α) :=
  (steps.find? (concerns request)).map fun now => now.input

/-- A callback is answered with OK and its results, a timeout with FAILED. -/
def Answers : Event α → Reply α → Prop
  | .callback _ truths, .ok result _ _ => result = results truths
  | .timeout _, .failed _ => True
  | _, _ => False

/-- What comes first is answered, and the answer is the only line that is sent
for the request. -/
def AnsweredOnce (request : ℕ) (steps : Record α) : Prop :=
  match firstEvent request steps with
  | none => repliesTo request steps = []
  | some event => ∃ reply, repliesTo request steps = [reply] ∧ Answers event reply

/-- Neither has the question called back nor has its time run out. -/
def Pending (state : State) (request : ℕ) : Prop :=
  ∃ question, state.questions[request]? = some question ∧ question.working ∧ question.timer

/-- A callback for a request that is pending comes while the connection is open,
and any further one when it is closed. A timeout of a request that has not been
called back finds the connection open, and no request has been called back on
it. -/
def Harmless (state : State) : Event α → Prop
  | .receiveData _ => True
  | .callback request _ => Pending state request ↔ state.isOpen
  | .stop _ => True
  | .timeout request => Pending state request → state.isOpen ∧ ¬ state.receivedResults

/-! ## Steps -/

/-- Whether the question still waits for a callback, and for its timeout. -/
def flags (state : State) (request : ℕ) : Option (Bool × Bool) :=
  state.questions[request]?.map fun question => (question.working, question.timer)

theorem pending_iff (state : State) (request : ℕ) :
    Pending state request ↔ flags state request = some (true, true) := by
  simp [Pending, flags]

theorem flags_set {questions : List Question} {request : ℕ} {question after : Question}
    (hquestion : questions[request]? = some question) (receivedResults isOpen : Bool)
    (other : ℕ) :
    flags ⟨receivedResults, isOpen, questions.set request after⟩ other =
      if other = request then some (after.working, after.timer)
      else flags ⟨receivedResults, isOpen, questions⟩ other := by
  have hlt := (List.getElem?_eq_some_iff.mp hquestion).1
  unfold flags
  by_cases heq : other = request
  · subst heq
    simp [hlt]
  · simp [heq, Ne.symm heq]

/-- An event that runs no block sends nothing. It leaves the requests as they
are, but for a new one. -/
structure Quiet (state next : State) (output : Option (Reply α)) : Prop where
  output : output = none
  receivedResults : next.receivedResults = state.receivedResults
  isOpen : next.isOpen → state.isOpen
  flags : ∀ request, flags next request = flags state request ∨
    flags state request = none ∧ flags next request = some (true, true)

theorem quiet_of_step {state next : State} {event : Event α} {output : Option (Reply α)}
    (hstep : step state event = .ok (next, output)) (hquiet : event.request? = none) :
    Quiet state next output := by
  cases event with
  | callback request truths => cases hquiet
  | timeout request => cases hquiet
  | stop request =>
      simp only [step] at hstep
      split at hstep
      next question hquestion =>
        split at hstep
        next => cases hstep
        next =>
          cases hstep
          refine ⟨rfl, rfl, id, fun other => .inl ?_⟩
          rw [flags_set hquestion]
          split
          next heq => simp [heq, flags, hquestion]
          next => rfl
      next => cases hstep
  | receiveData chunk =>
      simp only [step] at hstep
      split at hstep
      next hopen =>
        cases chunk with
        | malformed => cases hstep
        | blank =>
            cases hstep
            exact ⟨rfl, rfl, id, fun _ => .inl rfl⟩
        | work what userInfo terminate =>
            cases hstep
            refine ⟨rfl, rfl, fun _ => hopen, fun request => ?_⟩
            unfold flags receiveData
            rcases Nat.lt_trichotomy request state.questions.length with hlt | heq | hgt
            · exact .inl (by rw [List.getElem?_append_left hlt])
            · exact .inr (by simp [heq])
            · have hlength : (state.questions ++ [({ what, userInfo } : Question)]).length ≤
                  request := by
                rw [List.length_append]
                exact hgt
              exact .inl (by rw [List.getElem?_eq_none hlength,
                List.getElem?_eq_none (Nat.le_of_lt hgt)])
      next => cases hstep

theorem step_callback {state next : State} {request : ℕ} {truths : List (Fact (Value α))}
    {output : Option (Reply α)}
    (hstep : step state (.callback request truths) = .ok (next, output)) :
    ∃ what userInfo working timer, flags state request = some (working, timer) ∧
      output = sendData state (.ok (results truths) what userInfo) ∧
      next.receivedResults = true ∧ next.isOpen = state.isOpen ∧
      flags next request = some (false, timer) ∧
      ∀ other, other ≠ request → flags next other = flags state other := by
  simp only [step] at hstep
  split at hstep
  next question hquestion =>
    split at hstep
    next => cases hstep
    next =>
      cases hstep
      refine ⟨_, _, question.working, question.timer, ?_, rfl, rfl, rfl, ?_, fun other hother => ?_⟩
      · simp [flags, hquestion]
      · rw [flags_set hquestion, if_pos rfl]
      · rw [flags_set hquestion, if_neg hother]
        rfl
  next => cases hstep

theorem step_timeout {state next : State} {request : ℕ} {output : Option (Reply α)}
    (hstep : step state (.timeout request) = .ok (next, output)) :
    ∃ working, flags state request = some (working, true) ∧
      output = (if state.receivedResults then none else sendData state (.failed "Timeout")) ∧
      next.receivedResults = state.receivedResults ∧ next.isOpen = state.isOpen ∧
      flags next request = some (working, false) ∧
      ∀ other, other ≠ request → flags next other = flags state other := by
  simp only [step] at hstep
  split at hstep
  next question hquestion =>
    split at hstep
    next htimer =>
      cases hstep
      refine ⟨question.working, ?_, rfl, rfl, rfl, ?_, fun other hother => ?_⟩
      · simp [flags, hquestion, htimer]
      · rw [flags_set hquestion, if_pos rfl]
      · rw [flags_set hquestion, if_neg hother]
    next => cases hstep
  next => cases hstep

/-! ## What the record says of a request -/

theorem firstEvent_concat (request : ℕ) (steps : Record α)
    (now : Transition State (Event α) (Option (Reply α))) :
    firstEvent request (steps ++ [now]) =
      (firstEvent request steps).or (if concerns request now then some now.input else none) := by
  unfold firstEvent
  cases hfind : steps.find? (concerns request) <;> cases hnow : concerns request now <;>
    simp [List.find?_append, hfind, hnow]

theorem repliesTo_concat (request : ℕ) (steps : Record α)
    (now : Transition State (Event α) (Option (Reply α))) :
    repliesTo request (steps ++ [now]) =
      repliesTo request steps ++ if concerns request now then now.output.toList else [] := by
  unfold repliesTo
  rw [List.filter_append, List.filterMap_append]
  cases hnow : concerns request now
  · simp [hnow]
  · cases hout : now.output <;> simp [hnow, hout]

theorem answeredOnce_iff_of_none {request : ℕ} {steps : Record α}
    (hfirst : firstEvent request steps = none) :
    AnsweredOnce request steps ↔ repliesTo request steps = [] := by
  simp only [AnsweredOnce, hfirst]

theorem answeredOnce_iff_of_some {request : ℕ} {steps : Record α} {event : Event α}
    (hfirst : firstEvent request steps = some event) :
    AnsweredOnce request steps ↔
      ∃ reply, repliesTo request steps = [reply] ∧ Answers event reply := by
  simp only [AnsweredOnce, hfirst]

/-- The flags of a request agree with what came first for it. A callback that
was not answered found the connection closed. -/
inductive Tracks (request : ℕ) (steps : Record α) (state : State) : Prop
  | pending (hfirst : firstEvent request steps = none) (hreplies : repliesTo request steps = [])
      (hflags : flags state request = none ∨ flags state request = some (true, true))
  | called (truths : List (Fact (Value α)))
      (hfirst : firstEvent request steps = some (.callback request truths))
      (hreceived : state.receivedResults) (timer : Bool)
      (hflags : flags state request = some (false, timer))
      (hclosed : repliesTo request steps = [] → ¬ state.isOpen)
  | timedOut (hfirst : firstEvent request steps = some (.timeout request)) (working : Bool)
      (hflags : flags state request = some (working, false))

/-- What an event of another request can change. -/
theorem frame_of_step {state next : State} {event : Event α} {output : Option (Reply α)}
    (hstep : step state event = .ok (next, output)) {request : ℕ}
    (hother : event.request? ≠ some request) :
    (state.receivedResults → next.receivedResults) ∧ (next.isOpen → state.isOpen) ∧
      (flags next request = flags state request ∨
        flags state request = none ∧ flags next request = some (true, true)) := by
  cases event with
  | callback one truths =>
      obtain ⟨_, _, _, _, _, _, hreceived, hopen, _, hframe⟩ := step_callback hstep
      have hne : request ≠ one := fun heq => hother (by rw [heq]; rfl)
      exact ⟨fun _ => hreceived, fun h => hopen ▸ h, .inl (hframe request hne)⟩
  | timeout one =>
      obtain ⟨_, _, _, hreceived, hopen, _, hframe⟩ := step_timeout hstep
      have hne : request ≠ one := fun heq => hother (by rw [heq]; rfl)
      exact ⟨fun h => hreceived ▸ h, fun h => hopen ▸ h, .inl (hframe request hne)⟩
  | receiveData chunk =>
      have hquiet := quiet_of_step hstep rfl
      exact ⟨fun h => hquiet.receivedResults ▸ h, hquiet.isOpen, hquiet.flags request⟩
  | stop one =>
      have hquiet := quiet_of_step hstep rfl
      exact ⟨fun h => hquiet.receivedResults ▸ h, hquiet.isOpen, hquiet.flags request⟩

theorem concat_of_other {request : ℕ} {now : Transition State (Event α) (Option (Reply α))}
    (hother : now.input.request? ≠ some request) (steps : Record α) :
    firstEvent request (steps ++ [now]) = firstEvent request steps ∧
      repliesTo request (steps ++ [now]) = repliesTo request steps := by
  have hnot : concerns request now = false := by simpa [concerns]
  rw [firstEvent_concat, repliesTo_concat, hnot]
  simp

theorem concat_of_own (request : ℕ) {now : Transition State (Event α) (Option (Reply α))}
    (hown : now.input.request? = some request) (steps : Record α) :
    firstEvent request (steps ++ [now]) =
        (firstEvent request steps).or (some now.input) ∧
      repliesTo request (steps ++ [now]) = repliesTo request steps ++ now.output.toList := by
  have hyes : concerns request now = true := by simpa [concerns]
  rw [firstEvent_concat, repliesTo_concat, hyes]
  simp

theorem tracks_concat_of_other {request : ℕ} {steps : Record α}
    {now : Transition State (Event α) (Option (Reply α))}
    (hstep : step now.before now.input = .ok (now.after, now.output))
    (hother : now.input.request? ≠ some request) (htracks : Tracks request steps now.before) :
    Tracks request (steps ++ [now]) now.after := by
  obtain ⟨hreceived, hopen, hflags⟩ := frame_of_step hstep hother
  obtain ⟨hsame, hreplies⟩ := concat_of_other hother steps
  have hkeep : ∀ own, flags now.before request = some own → flags now.after request = some own := by
    intro own hown
    rcases hflags with hflags | ⟨hnone, _⟩
    · rw [hflags, hown]
    · rw [hnone] at hown
      cases hown
  cases htracks with
  | pending hfirst hempty hpending =>
      refine .pending (hsame.trans hfirst) (hreplies.trans hempty) ?_
      rcases hflags with hflags | ⟨_, hnew⟩
      · rw [hflags]
        exact hpending
      · exact .inr hnew
  | called truths hfirst hresults timer hcalled hclosed =>
      refine .called truths (hsame.trans hfirst) (hreceived hresults) timer (hkeep _ hcalled) ?_
      rw [hreplies]
      exact fun hempty hafter => hclosed hempty (hopen hafter)
  | timedOut hfirst working hworking =>
      exact .timedOut (hsame.trans hfirst) working (hkeep _ hworking)

/-- What a callback does, by what came first for its request. -/
theorem concat_of_callback {request : ℕ} {steps : Record α}
    {now : Transition State (Event α) (Option (Reply α))} {truths : List (Fact (Value α))}
    (hstep : step now.before now.input = .ok (now.after, now.output))
    (hinput : now.input = .callback request truths) (htracks : Tracks request steps now.before) :
    Tracks request (steps ++ [now]) now.after ∧
      (AnsweredOnce request (steps ++ [now]) ↔
        AnsweredOnce request steps ∧ Harmless now.before now.input) := by
  obtain ⟨hsome, hreplies⟩ := concat_of_own request (by rw [hinput]; rfl) steps
  rw [hinput] at hstep hsome
  obtain ⟨what, userInfo, working, timer, hbefore, hout, hreceived, hopen, hafter, -⟩ :=
    step_callback hstep
  have hharmless : Harmless now.before now.input ↔
      ((working = true ∧ timer = true) ↔ now.before.isOpen) := by
    rw [hinput, Harmless, pending_iff, hbefore]
    simp
  rw [hout, sendData] at hreplies
  cases htracks with
  | pending hfirst hempty hflags =>
      obtain ⟨rfl, rfl⟩ : working = true ∧ timer = true := by
        rcases hflags with hflags | hflags <;> rw [hbefore] at hflags <;> cases hflags
        exact ⟨rfl, rfl⟩
      rw [hfirst, Option.none_or] at hsome
      rw [hempty, List.nil_append] at hreplies
      refine ⟨.called truths hsome hreceived true hafter ?_, ?_⟩
      · rw [hreplies, hopen]
        split <;> simp_all
      · rw [answeredOnce_iff_of_some hsome, answeredOnce_iff_of_none hfirst, hharmless, hreplies]
        cases now.before.isOpen <;> simp [hempty, Answers]
  | called first hfirst hresults timer' hflags hclosed =>
      obtain ⟨rfl, rfl⟩ : working = false ∧ timer' = timer := by
        rw [hbefore] at hflags
        cases hflags
        exact ⟨rfl, rfl⟩
      rw [hfirst, Option.some_or] at hsome
      refine ⟨.called first hsome hreceived timer' hafter ?_, ?_⟩
      · rw [hreplies, hopen]
        intro hempty
        exact hclosed (List.append_eq_nil_iff.mp hempty).1
      · rw [answeredOnce_iff_of_some hsome, answeredOnce_iff_of_some hfirst, hharmless, hreplies]
        cases hstate : now.before.isOpen with
        | false => simp
        | true =>
            -- a second line, since the first callback has found the connection open too
            have hlines : repliesTo request steps ≠ [] := fun hempty => hclosed hempty hstate
            obtain ⟨line, lines, hcons⟩ := List.exists_cons_of_ne_nil hlines
            simp [hcons]
  | timedOut hfirst working' hflags =>
      obtain ⟨rfl, rfl⟩ : working' = working ∧ timer = false := by
        rw [hbefore] at hflags
        cases hflags
        exact ⟨rfl, rfl⟩
      rw [hfirst, Option.some_or] at hsome
      refine ⟨.timedOut hsome false hafter, ?_⟩
      rw [answeredOnce_iff_of_some hsome, answeredOnce_iff_of_some hfirst, hharmless, hreplies]
      cases now.before.isOpen with
      | false => simp
      | true =>
          -- a line with OK after the timeout
          cases hlines : repliesTo request steps <;> simp [Answers]

/-- What a timeout does, by what came first for its request. -/
theorem concat_of_timeout {request : ℕ} {steps : Record α}
    {now : Transition State (Event α) (Option (Reply α))}
    (hstep : step now.before now.input = .ok (now.after, now.output))
    (hinput : now.input = .timeout request) (htracks : Tracks request steps now.before) :
    Tracks request (steps ++ [now]) now.after ∧
      (AnsweredOnce request (steps ++ [now]) ↔
        AnsweredOnce request steps ∧ Harmless now.before now.input) := by
  obtain ⟨hsome, hreplies⟩ := concat_of_own request (by rw [hinput]; rfl) steps
  rw [hinput] at hstep hsome
  obtain ⟨working, hbefore, hout, hreceived, hopen, hafter, -⟩ := step_timeout hstep
  have hharmless : Harmless now.before now.input ↔
      (working = true → now.before.isOpen ∧ ¬ now.before.receivedResults) := by
    rw [hinput, Harmless, pending_iff, hbefore]
    simp
  rw [hout, sendData] at hreplies
  cases htracks with
  | pending hfirst hempty hflags =>
      obtain rfl : working = true := by
        rcases hflags with hflags | hflags <;> rw [hbefore] at hflags <;> cases hflags
        rfl
      rw [hfirst, Option.none_or] at hsome
      rw [hempty, List.nil_append] at hreplies
      refine ⟨.timedOut hsome true hafter, ?_⟩
      rw [answeredOnce_iff_of_some hsome, answeredOnce_iff_of_none hfirst, hharmless, hreplies]
      cases now.before.isOpen <;> cases now.before.receivedResults <;> simp [hempty, Answers]
  | called first hfirst hresults timer hflags hclosed =>
      obtain ⟨rfl, rfl⟩ : working = false ∧ timer = true := by
        rw [hbefore] at hflags
        cases hflags
        exact ⟨rfl, rfl⟩
      rw [hfirst, Option.some_or] at hsome
      rw [if_pos hresults, Option.toList_none, List.append_nil] at hreplies
      refine ⟨.called first hsome (hreceived ▸ hresults) false hafter ?_, ?_⟩
      · rw [hreplies, hopen]
        exact hclosed
      · rw [answeredOnce_iff_of_some hsome, answeredOnce_iff_of_some hfirst, hharmless, hreplies]
        simp
  | timedOut hfirst working' hflags =>
      rw [hbefore] at hflags
      cases hflags

/-! ## Runs -/

/-- One more step of a run, seen from one request. -/
theorem concat_of_step {steps : Record α} (now : Transition State (Event α) (Option (Reply α)))
    (hstep : step now.before now.input = .ok (now.after, now.output)) {request : ℕ}
    (htracks : Tracks request steps now.before) :
    Tracks request (steps ++ [now]) now.after ∧
      (AnsweredOnce request (steps ++ [now]) ↔ AnsweredOnce request steps ∧
        (now.input.request? = some request → Harmless now.before now.input)) := by
  by_cases hown : now.input.request? = some request
  · simp only [hown, forall_const]
    cases hinput : now.input with
    | receiveData chunk => rw [hinput] at hown; cases hown
    | stop one => rw [hinput] at hown; cases hown
    | callback one truths =>
        rw [hinput] at hown
        obtain rfl := Option.some.inj hown
        exact hinput ▸ concat_of_callback hstep hinput htracks
    | timeout one =>
        rw [hinput] at hown
        obtain rfl := Option.some.inj hown
        exact hinput ▸ concat_of_timeout hstep hinput htracks
  · obtain ⟨hfirst, hreplies⟩ := concat_of_other hown steps
    refine ⟨tracks_concat_of_other hstep hown htracks, ?_⟩
    unfold AnsweredOnce
    rw [hfirst, hreplies]
    simp [hown]

theorem tracks_of_run {steps : Record α} {state : State} (hrun : Run step {} steps state)
    (request : ℕ) : Tracks request steps state := by
  induction hrun with
  | start => exact .pending rfl rfl (.inl rfl)
  | extend prior hstep ih => exact (concat_of_step _ hstep ih).1

/-- Each request gets its one line exactly when all events of the run are
harmless where they happen. -/
theorem answeredOnce_iff {steps : Record α} {state : State} (hrun : Run step {} steps state) :
    (∀ request, AnsweredOnce request steps) ↔ ∀ now ∈ steps, Harmless now.before now.input := by
  induction hrun with
  | start => simp [AnsweredOnce, firstEvent, repliesTo]
  | @extend steps state next event output prior hstep ih =>
      let now : Transition State (Event α) (Option (Reply α)) := ⟨state, event, output, next⟩
      have hone := fun request =>
        (concat_of_step now hstep (tracks_of_run prior request)).2
      have hlast : (∀ request, event.request? = some request → Harmless state event) ↔
          Harmless state event := by
        cases event <;> simp [Event.request?, Harmless]
      rw [forall_congr' hone, forall_and, ih, hlast]
      simp [or_imp, forall_and]

/-! ## Two requests on one connection -/

/-- The first request is answered, the second one is not. -/
def twoRequests : List (Event String) :=
  [.receiveData (.work "ip_for_domain@kle.io" "carol" false),
    .receiveData (.work "ip_for_domain@signpo.st" "carol" false),
    .callback 0 [⟨"ip_for_domain@kle.io", "dns", "GLOBAL", "alpha", .array ["10.0.0.1"]⟩],
    .stop 0, .timeout 0, .timeout 1]

theorem answeredOnce_iff_of_twoRequests :
    (∀ request, AnsweredOnce request (record step {} twoRequests)) ↔
      ∀ now ∈ record step {} twoRequests, Harmless now.before now.input :=
  answeredOnce_iff (run_record step {} twoRequests)

/-- The answer to the first request suppresses the reply to the second. -/
theorem not_answeredOnce_of_twoRequests :
    ¬ ∀ (steps : Record String) (state : State), Run step {} steps state →
      ∀ request, AnsweredOnce request steps := by
  intro hclaim
  have hanswered := hclaim _ _ (run_record step {} twoRequests) 1
  have hreplies : repliesTo 1 (record step {} twoRequests) = [] := rfl
  have hfirst : firstEvent 1 (record step {} twoRequests) = some (.timeout 1) := rfl
  rw [answeredOnce_iff_of_some hfirst, hreplies] at hanswered
  obtain ⟨reply, hnil, -⟩ := hanswered
  cases hnil

end Signpost.SolvingServer

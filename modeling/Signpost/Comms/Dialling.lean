import Signpost.Comms.CommunicationCentre
import Signpost.Machine.Run

/-! # Dialling other signposts

The communication centre dials the signposts of a list that it receives. It asks
the solver for an address first, and the answer opens the connection.
-/

namespace Signpost.Dialling

open Machine

variable {α δ : Type}

/-! ## Questions and connections -/

/-- The parameters of `connect_to_signpost` that the block of its question holds,
and what the question asks for. -/
structure Dial where
  host : String
  port : ℕ
  what : String
deriving DecidableEq, Repr

/-- The arguments of `EventMachine::connect`. The address is the value of a
truth. -/
structure Connection where
  truth : Fact String
  port : ℕ
deriving DecidableEq, Repr

def Connection.ip (connection : Connection) : String := connection.truth.truth

structure State (δ : Type) where
  centre : CommunicationCentre δ
  /-- What the solver knows. -/
  known : List (Fact String)
  dials : List Dial

/-- A signpost does not connect with itself. -/
def State.newChannel (state : State δ) (channel : CommsChannel) : State δ :=
  if channel.name = state.centre.name then state
  else { state with
    centre := { state.centre with channels := state.centre.channels ++ [channel] } }

def State.channelClosed (state : State δ) (name : String) : State δ :=
  if name = state.centre.name then state
  else { state with
    centre := { state.centre with
      channels := state.centre.channels.filter fun channel => channel.name ≠ name } }

inductive Event (α : Type)
  | newChannel (channel : CommsChannel)
  | channelClosed (name : String)
  | receive (now : Int) (exportable : List (Provision α)) (channel : String) (data : Data α)
  | learn (known : List (Fact String))
  | answer (dial : ℕ) (truths : List (Fact String))

inductive DiallingError
  | disabled
  | runtimeError
deriving DecidableEq, Repr

/-- The question of `connect_to_signpost`. The domain that it asks about is the
one of the centre. -/
def connectToSignpost (domain host : String) (port : ℕ) : Dial :=
  ⟨host, port, "connectable_ip@" ++ domain⟩

/-- The block of the question. -/
def connect (dial : Dial) : List (Fact String) → Except DiallingError Connection
  | [] => .error .runtimeError
  | first :: _ => .ok ⟨first, dial.port⟩

variable [DecidableEq δ] (digest : Data α → δ) (domain : String)

/-- A question is answered with truths that the solver knows and that have the
name asked for. -/
def step (state : State δ) : Event α → Except DiallingError (State δ × Option Connection)
  | .newChannel channel => .ok (state.newChannel channel, none)
  | .channelClosed name => .ok (state.channelClosed name, none)
  | .receive now exportable channel data =>
      let (centre, received) := state.centre.receive digest now exportable channel data
      .ok ({ state with
        centre
        dials := state.dials ++
          received.dialled.map fun (host, port) => connectToSignpost domain host port }, none)
  | .learn known => .ok ({ state with known }, none)
  | .answer index truths =>
      match state.dials[index]? with
      | none => .error .disabled
      | some dial =>
          if ∀ fact ∈ truths, fact ∈ state.known ∧ fact.what = dial.what then do
            let connection ← connect dial truths
            return (state, some connection)
          else .error .disabled

abbrev Record (α δ : Type) := List (Transition (State δ) (Event α) (Option Connection))

/-! ## What is dialled -/

/-- The step receives a list with an entry for this host and this port, of a
signpost that is not connected. -/
def Lists (received : Transition (State δ) (Event α) (Option Connection)) (dial : Dial) : Prop :=
  ∃ now exportable channel data signposts, received.input = .receive now exportable channel data ∧
    data.signposts = some signposts ∧ ∃ entry ∈ signposts,
      entry.name ≠ received.before.centre.name ∧
      entry.name ∉ (received.before.centre.channels.map fun channel => channel.name) ∧
      entry.ip = dial.host ∧ entry.port = dial.port

/-- The step answers the question of a dial. -/
def AnswersDial (now : Transition (State δ) (Event α) (Option Connection)) (dial : Dial) : Prop :=
  ∃ index truths, now.input = .answer index truths ∧ now.before.dials[index]? = some dial

/-- The answer opens the connection. -/
def Opens (now : Transition (State δ) (Event α) (Option Connection)) (dial : Dial)
    (connection : Connection) : Prop :=
  AnswersDial now dial ∧ now.output = some connection

/-- Each connection is opened for an entry of a list that was received before. It
goes to an address that is known for the host of that entry, and to the port of
that entry. -/
structure DialsListed (steps : Record α δ) : Prop where
  listed : ∀ before now, before ++ [now] <+: steps → ∀ dial connection,
    Opens now dial connection → ∃ received ∈ before, Lists received dial
  own : ∀ now ∈ steps, ∀ dial connection, Opens now dial connection →
    connection.truth ∈ now.before.known ∧
      connection.truth.what = "connectable_ip@" ++ dial.host ∧ connection.port = dial.port
  apart : ∀ now ∈ steps, ∀ other ∈ steps, ∀ dial connection dial' connection',
    Opens now dial connection → Opens other dial' connection' → dial.host ≠ dial'.host →
      connection.truth.what ≠ connection'.truth.what

/-! ## Steps -/

variable {digest} {domain}

omit [DecidableEq δ] in
@[simp] theorem dials_newChannel (state : State δ) (channel : CommsChannel) :
    (state.newChannel channel).dials = state.dials := by
  unfold State.newChannel
  split <;> rfl

omit [DecidableEq δ] in
@[simp] theorem dials_channelClosed (state : State δ) (name : String) :
    (state.channelClosed name).dials = state.dials := by
  unfold State.channelClosed
  split <;> rfl

/-- The signposts that the centre dials when it receives a message. -/
theorem mem_dialled {centre : CommunicationCentre δ} {now : Int}
    {exportable : List (Provision α)} {channel : String} {data : Data α} {host : String} {port : ℕ}
    (hmem : (host, port) ∈ (centre.receive digest now exportable channel data).2.dialled) :
    ∃ signposts, data.signposts = some signposts ∧ ∃ entry ∈ signposts,
      entry.name ≠ centre.name ∧
      entry.name ∉ (centre.channels.map fun channel => channel.name) ∧
      entry.ip = host ∧ entry.port = port := by
  unfold CommunicationCentre.receive at hmem
  split at hmem
  next =>
    cases hsignposts : data.signposts with
    | none => simp [hsignposts] at hmem
    | some signposts =>
        simp only [hsignposts, Option.elim_some, CommunicationCentre.connectToSignposts,
          List.mem_map, List.mem_filter, decide_eq_true_eq] at hmem
        obtain ⟨entry, ⟨hentry, hname, hchannel, -⟩, heq⟩ := hmem
        obtain ⟨rfl, rfl⟩ := Prod.mk.inj heq
        exact ⟨signposts, rfl, entry, hentry, hname, by simpa using hchannel, rfl, rfl⟩
  next => cases hmem

/-- A new dial asks about the domain of the centre, and it is for an entry of
the list that the step receives. -/
theorem dial_of_step (now : Transition (State δ) (Event α) (Option Connection))
    (hstep : step digest domain now.before now.input = .ok (now.after, now.output)) {dial : Dial}
    (hdial : dial ∈ now.after.dials) :
    dial ∈ now.before.dials ∨ dial.what = "connectable_ip@" ++ domain ∧ Lists now dial := by
  obtain ⟨before, input, output, after⟩ := now
  dsimp only at hstep hdial ⊢
  cases input with
  | newChannel channel =>
      cases hstep
      exact .inl (by simpa using hdial)
  | channelClosed name =>
      cases hstep
      exact .inl (by simpa using hdial)
  | learn known =>
      cases hstep
      exact .inl hdial
  | receive now exportable channel data =>
      cases hstep
      rcases List.mem_append.mp hdial with hold | hnew
      · exact .inl hold
      · obtain ⟨⟨host, port⟩, hdialled, rfl⟩ := List.mem_map.mp hnew
        obtain ⟨signposts, hsignposts, hentry⟩ := mem_dialled hdialled
        exact .inr ⟨rfl, now, exportable, channel, data, signposts, rfl, hsignposts, hentry⟩
  | answer index truths =>
      simp only [step] at hstep
      split at hstep
      next => cases hstep
      next =>
        split at hstep
        next =>
          obtain ⟨connection, -, hok⟩ := bind_eq_ok.mp hstep
          cases hok
          exact .inl hdial
        next => cases hstep

/-- A connection goes to the value of a known truth with the name asked for, and
to the port of the dial. -/
theorem opens_of_step {now : Transition (State δ) (Event α) (Option Connection)}
    (hstep : step digest domain now.before now.input = .ok (now.after, now.output)) {dial : Dial}
    (hanswers : AnswersDial now dial) :
    dial ∈ now.before.dials ∧ ∃ connection, now.output = some connection ∧
      connection.truth ∈ now.before.known ∧ connection.truth.what = dial.what ∧
      connection.port = dial.port := by
  obtain ⟨index, truths, hinput, hdial⟩ := hanswers
  refine ⟨List.mem_of_getElem? hdial, ?_⟩
  rw [hinput] at hstep
  simp only [step, hdial] at hstep
  split at hstep
  next hanswer =>
    obtain ⟨connection, hconnect, hok⟩ := bind_eq_ok.mp hstep
    cases truths with
    | nil => cases hconnect
    | cons first rest =>
        cases hconnect
        obtain ⟨hknown, hwhat⟩ := hanswer first List.mem_cons_self
        exact ⟨_, (Prod.mk.inj (Except.ok.inj hok)).2.symm, hknown, hwhat, rfl⟩
  next => cases hstep

/-! ## Runs -/

variable {start : State δ} {steps : Record α δ} {state : State δ}

theorem dial_of_run (hrun : Run (step digest domain) start steps state)
    (hstart : start.dials = []) {dial : Dial} (hdial : dial ∈ state.dials) :
    dial.what = "connectable_ip@" ++ domain ∧ ∃ received ∈ steps, Lists received dial := by
  induction hrun with
  | start =>
      rw [hstart] at hdial
      cases hdial
  | @extend steps state next event output prior hstep ih =>
      rcases dial_of_step ⟨state, event, output, next⟩ hstep hdial with hold | ⟨hwhat, hnew⟩
      · obtain ⟨hwhat, received, hreceived, hlists⟩ := ih hold
        exact ⟨hwhat, received, List.mem_append_left _ hreceived, hlists⟩
      · exact ⟨hwhat, _, List.mem_append_right _ (List.mem_singleton_self _), hnew⟩

theorem append_right_inj (first one other : String) :
    first ++ one = first ++ other ↔ one = other := by
  simp [← String.toList_inj]

/-- Dialling goes to the listed signposts exactly when every entry whose question
is answered has the domain of the centre for its host. -/
theorem dialsListed_iff (hrun : Run (step digest domain) start steps state)
    (hstart : start.dials = []) :
    DialsListed steps ↔ ∀ now ∈ steps, ∀ dial, AnswersDial now dial → dial.host = domain := by
  have hanswered : ∀ now ∈ steps, ∀ dial, AnswersDial now dial →
      ∃ connection, now.output = some connection ∧ connection.truth ∈ now.before.known ∧
        connection.truth.what = "connectable_ip@" ++ domain ∧ connection.port = dial.port := by
    intro now hnow dial hanswers
    obtain ⟨before, hinitial, hprior, hstep⟩ := hrun.exists_isPrefix hnow
    obtain ⟨hdial, connection, hout, hknown, hwhat, hport⟩ := opens_of_step hstep hanswers
    exact ⟨connection, hout, hknown, hwhat.trans (dial_of_run hprior hstart hdial).1, hport⟩
  constructor
  · intro hlisted now hnow dial hanswers
    obtain ⟨connection, hout, -, hwhat, -⟩ := hanswered now hnow dial hanswers
    have hname := (hlisted.own now hnow dial connection ⟨hanswers, hout⟩).2.1
    rw [hwhat, append_right_inj] at hname
    exact hname.symm
  · intro hdomain
    refine ⟨?_, ?_, ?_⟩
    · intro before now hinitial dial connection hopens
      obtain ⟨hprior, hstep⟩ := hrun.of_isPrefix hinitial
      exact (dial_of_run hprior hstart (opens_of_step hstep hopens.1).1).2
    · intro now hnow dial connection hopens
      obtain ⟨own, hout, hown⟩ := hanswered now hnow dial hopens.1
      obtain rfl := Option.some.inj (hout.symm.trans hopens.2)
      rw [hdomain now hnow dial hopens.1]
      exact hown
    · intro now hnow other hother dial connection dial' connection' hopens hopens' hne
      rw [hdomain now hnow dial hopens.1, hdomain other hother dial' hopens'.1] at hne
      exact absurd rfl hne

/-! ## A mesh of three signposts -/

/-- The answer about the domain, which is where the root signpost is. -/
def rootAddress : Fact String := ⟨"connectable_ip@kle.io", "dns", "GLOBAL", "alpha", "10.0.0.1"⟩

def peerAddress : Fact String :=
  ⟨"connectable_ip@10.0.0.2", "dns", "GLOBAL", "alpha", "10.0.0.2"⟩

/-- The centre of a signpost that is connected with the root signpost. -/
def meshStart : State ℕ := ⟨⟨"alpha", [⟨"kle.io", "10.0.0.1", 8987⟩], fun _ => none⟩, [], []⟩

/-- The root signpost lists another one, which is dialled. -/
def meshEvents : List (Event String) :=
  [.learn [rootAddress, peerAddress],
    .receive 10 [] "kle.io" { signposts := some [⟨"beta", "10.0.0.2", 9000⟩] },
    .answer 0 [rootAddress]]

theorem dialsListed_iff_of_mesh :
    DialsListed (record (step (fun _ => 0) "kle.io") meshStart meshEvents) ↔
      ∀ now ∈ record (step (fun _ => 0) "kle.io") meshStart meshEvents, ∀ dial,
        AnswersDial now dial → dial.host = "kle.io" :=
  dialsListed_iff (run_record _ meshStart meshEvents) rfl

/-- The connection for the listed signpost goes to the root signpost. -/
theorem not_dialsListed_of_mesh :
    ¬ ∀ (digest : Data String → ℕ) (domain : String) (start state : State ℕ)
      (steps : Record String ℕ), Run (step digest domain) start steps state → start.dials = [] →
        DialsListed steps := by
  intro hclaim
  have hlisted := hclaim (fun _ => 0) "kle.io" meshStart _ _
    (run_record _ meshStart meshEvents) rfl
  have hopens := hlisted.own _ (List.getElem_mem (n := 2) (by decide))
    ⟨"10.0.0.2", 9000, "connectable_ip@kle.io"⟩ ⟨rootAddress, 9000⟩
    ⟨⟨0, [rootAddress], rfl, rfl⟩, rfl⟩
  exact absurd hopens.2.1 (by decide)

end Signpost.Dialling

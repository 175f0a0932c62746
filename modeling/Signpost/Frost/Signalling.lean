import Signpost.Frost.Server

/-! # Signalling over datagrams

Clients say hello again and again, and the server calls a client back when its DNS
part looks for a connection to it. Datagrams may be lost, doubled and overtaken,
and are cut off where the receiving buffer ends.
-/

namespace Signpost.Frost

open Machine

variable {φ τ α : Type}

inductive Endpoint
  | server
  | client (ip : Text) (port : Int64)
deriving DecidableEq

/-- A call that is created when it is its turn to be sent. -/
inductive Sending
  | rpc (methodName : Text) (args : List Text)
  | notification (methodName : Text) (args : List Text)

/-- What the direct connection sends, one after the other. -/
def directConnectionCalls : List Sending :=
  [.rpc "get_local_ips".toList [], .rpc "try_connecting_to".toList ["foo".toList],
    .notification "test".toList ["foo".toList, "bar".toList]]

/-- The table and the counter of the server, the calls that wait for the one before
them, the datagrams under way, and the threads that an exception has ended. -/
structure Signalling where
  nodes : Nodes
  rpcIdCounter : Int63
  sending : List (Endpoint × List Sending)
  inFlight : List (Endpoint × Text)
  ended : List (Endpoint × Exn)

inductive SignalEvent
  | hello (nodeName ip : Text) (port : Int64)
  | connect (a b : Text)
  /-- A datagram has been handed over, and the next call is created. -/
  | resume (index : ℕ)
  | sendFails (index : ℕ)
  | deliver (index : ℕ)
  | duplicate (index : ℕ)
  | lose (index : ℕ)

structure SignalOutput where
  sent : Option (Endpoint × Rpc) := none
  handled : Option (Endpoint × Option Rpc) := none

inductive SignalError
  | disabled
  | raised (exn : Exn)

namespace Signalling

variable (floats : Floats φ) (runtime : Runtime τ α) (signalling : Signalling)

/-- `Signal.send`. -/
def send (endpoint : Endpoint) (rpc : Rpc) : Except SignalError (Signalling × SignalOutput) :=
  match rpcToString floats rpc with
  | .ok buf =>
      .ok ({ signalling with inFlight := signalling.inFlight ++ [(endpoint, buf)] },
        { sent := some (endpoint, rpc) })
  | .error exn => .error (.raised exn)

/-- The first of the calls is sent, and the others wait for it. -/
def sendFirst (endpoint : Endpoint) :
    List Sending → Except SignalError (Signalling × SignalOutput)
  | [] => .ok (signalling, {})
  | .rpc methodName args :: rest =>
      let (rpc, rpcIdCounter) := createRpc methodName args signalling.rpcIdCounter
      send floats
        { signalling with rpcIdCounter, sending := signalling.sending ++ [(endpoint, rest)] }
        endpoint rpc
  | .notification methodName args :: rest =>
      send floats { signalling with sending := signalling.sending ++ [(endpoint, rest)] }
        endpoint (createNotification methodName args)

/-- What a thread does with a datagram. Clients only print what they are called for. -/
def handle (endpoint : Endpoint) (datagram : Text) : Signalling × SignalOutput :=
  match rpcOfString floats (received datagram) with
  | .error exn => ({ signalling with ended := signalling.ended ++ [(endpoint, exn)] }, {})
  | .ok rpc =>
      match endpoint with
      | .server =>
          ({ signalling with nodes := handleRpc signalling.nodes rpc },
            { handled := some (endpoint, rpc) })
      | .client _ _ => (signalling, { handled := some (endpoint, rpc) })

def step : SignalEvent → Except SignalError (Signalling × SignalOutput)
  | .hello nodeName ip port => send floats signalling .server (.hello nodeName ip port)
  | .connect _ b =>
      match signalling.nodes.signallingChannel b with
      | none => .ok (signalling, {})
      | some (ip, port) =>
          -- otherwise the text is no address, and nothing is sent
          if runtime.inetAddrOfString ip then
            sendFirst floats signalling (.client ip port) directConnectionCalls
          else .ok (signalling, {})
  | .resume index =>
      match signalling.sending[index]? with
      | none => .error .disabled
      | some (endpoint, calls) =>
          sendFirst floats { signalling with sending := signalling.sending.eraseIdx index }
            endpoint calls
  | .sendFails index =>
      .ok ({ signalling with sending := signalling.sending.eraseIdx index }, {})
  | .deliver index =>
      match signalling.inFlight[index]? with
      | none => .error .disabled
      | some (endpoint, datagram) =>
          .ok (handle floats { signalling with inFlight := signalling.inFlight.eraseIdx index }
            endpoint datagram)
  | .duplicate index =>
      match signalling.inFlight[index]? with
      | none => .error .disabled
      | some entry => .ok ({ signalling with inFlight := signalling.inFlight ++ [entry] }, {})
  | .lose index => .ok ({ signalling with inFlight := signalling.inFlight.eraseIdx index }, {})

def initial : Signalling := ⟨initialNodes, 0, [], [], []⟩

end Signalling

abbrev SignalStep := Transition Signalling SignalEvent SignalOutput

abbrev SignalRun (floats : Floats φ) (runtime : Runtime τ α) :
    List SignalStep → Signalling → Prop :=
  Run (Signalling.step floats runtime) Signalling.initial

/-! ## Datagrams that are cut off -/

/-- The text of a call that is cut off is refused, or has lost nothing that matters. -/
theorem rpcOfString_take {floats : Floats φ} {rpc : Rpc} {text : Text} (hcreated : Created rpc)
    (htext : rpcToString floats rpc = .ok text) (count : ℕ) :
    rpcOfString floats (text.take count) = .ok none ∨
      rpcOfString floats (text.take count) = .ok (some rpc) := by
  obtain ⟨fields, hjson, hreadable, hrpc⟩ := rpcToJson_of_created floats hcreated
  have hwhole : toText floats (.object fields) = text := by
    rw [rpcToString, hjson] at htext
    exact Except.ok.inj htext
  cases htaken : ofString floats (text.take count) with
  | error exn =>
      left
      rw [rpcOfString, htaken]
  | ok v =>
      right
      obtain ⟨read, rest, hread, hdocument⟩ := document_of_ofString htaken
      -- the parser has not looked at what was cut off
      have hparsed : ofString floats text = .ok v := by
        have hsplit : text = read ++ (rest ++ text.drop count) := by
          rw [← List.append_assoc, ← hread, List.take_append_drop]
        rw [hsplit]
        exact ofString_of_document hdocument _
      rw [← hwhole, ofString_toText hreadable] at hparsed
      obtain rfl := Except.ok.inj hparsed
      rw [rpcOfString, htaken]
      exact hrpc

/-! ## What is sent and handled -/

def SentTo (steps : List SignalStep) (endpoint : Endpoint) (rpc : Rpc) : Prop :=
  ∃ step ∈ steps, step.output.sent = some (endpoint, rpc)

def requestId : Rpc → Option Int64
  | .request _ _ id => some id
  | .hello _ _ _ | .notification _ _ | .response _ _ _ => none

/-- The identifiers of the requests, in the order in which they have been sent. -/
def requestIds (steps : List SignalStep) : List Int64 :=
  steps.filterMap fun step => step.output.sent.bind fun sent => requestId sent.2

/-- The identifiers that the counter has given, one after the other. -/
structure Numbered (ids : List Int64) (rpcIdCounter : Int63) : Prop where
  counter : rpcIdCounter = BitVec.ofNat 63 ids.length
  given : ids = (List.range ids.length).map fun n => (freshId (BitVec.ofNat 63 n)).1

/-- Every thread lives, every call that is handled has been sent to where it is
handled, every address has been told in a hello, and the requests are numbered. -/
structure Honest (floats : Floats φ) (steps : List SignalStep) (signalling : Signalling) :
    Prop where
  ended : signalling.ended = []
  inFlight : ∀ entry ∈ signalling.inFlight, ∃ rpc, Created rpc ∧ SentTo steps entry.1 rpc ∧
    rpcToString floats rpc = .ok entry.2
  nodes : ∀ name ip port, signalling.nodes.signallingChannel name = some (ip, port) →
    initialNodes.signallingChannel name = some (ip, port) ∨
      SentTo steps .server (.hello name ip port)
  handled : ∀ earlier now later, steps = earlier ++ now :: later → ∀ endpoint rpc,
    now.output.handled = some (endpoint, some rpc) → SentTo earlier endpoint rpc
  numbered : Numbered (requestIds steps) signalling.rpcIdCounter

section

variable {floats : Floats φ} {steps : List SignalStep} {signalling next : Signalling}
  {last : SignalStep} {endpoint : Endpoint} {rpc : Rpc}

theorem Numbered.concat {ids : List Int64} {rpcIdCounter : Int63}
    (hids : Numbered ids rpcIdCounter) :
    Numbered (ids ++ [(freshId rpcIdCounter).1]) (freshId rpcIdCounter).2 := by
  obtain ⟨rfl, hgiven⟩ := hids
  constructor
  · rw [freshId, List.length_append, List.length_singleton, BitVec.ofNat_add]
    rfl
  · rw [List.length_append, List.length_singleton, List.range_succ, List.map_append, ← hgiven]
    rfl

theorem freshId_injective {rpcIdCounter other : Int63}
    (heq : (freshId rpcIdCounter).1 = (freshId other).1) : rpcIdCounter = other := by
  have hfits : ∀ counter : Int63, -2 ^ 63 ≤ counter.toInt ∧ counter.toInt < 2 ^ 63 :=
    fun counter => ⟨by have := counter.le_toInt; omega, by have := counter.toInt_lt; omega⟩
  have hints := congrArg Int64.toInt heq
  rw [freshId, freshId, Int64.toInt_ofInt_of_le (hfits _).1 (hfits _).2,
    Int64.toInt_ofInt_of_le (hfits _).1 (hfits _).2] at hints
  exact (BitVec.add_left_inj 1).mp (BitVec.toInt_inj.mp hints)

/-- As long as the counter has not come round, no two requests have one identifier. -/
theorem Numbered.nodup {ids : List Int64} {rpcIdCounter : Int63}
    (hids : Numbered ids rpcIdCounter) (hlength : ids.length ≤ 2 ^ 63) : ids.Nodup := by
  rw [hids.given]
  refine List.Nodup.map_on (fun n hn m hm heq => ?_) List.nodup_range
  have hn := List.mem_range.mp hn
  have hm := List.mem_range.mp hm
  have hcounters := congrArg BitVec.toNat (freshId_injective heq)
  rw [BitVec.toNat_ofNat, BitVec.toNat_ofNat] at hcounters
  omega

theorem SentTo.concat (hsent : SentTo steps endpoint rpc) (last : SignalStep) :
    SentTo (steps ++ [last]) endpoint rpc := by
  obtain ⟨step, hmem, houtput⟩ := hsent
  exact ⟨step, List.mem_append_left _ hmem, houtput⟩

theorem requestIds_concat (steps : List SignalStep) (last : SignalStep) :
    requestIds (steps ++ [last]) =
      requestIds steps ++ (last.output.sent.bind fun sent => requestId sent.2).toList := by
  rw [requestIds, List.filterMap_append]
  cases hid : last.output.sent.bind fun sent => requestId sent.2 <;>
    simp [requestIds, hid]

/-- The entries of a record in which only the last has been handled. -/
theorem handled_concat
    (hsteps : ∀ earlier now later, steps = earlier ++ now :: later → ∀ endpoint rpc,
      now.output.handled = some (endpoint, some rpc) → SentTo earlier endpoint rpc)
    (hlast : ∀ endpoint rpc, last.output.handled = some (endpoint, some rpc) →
      SentTo steps endpoint rpc) (earlier : List SignalStep) (now : SignalStep)
    (later : List SignalStep) (hsplit : steps ++ [last] = earlier ++ now :: later)
    (endpoint : Endpoint) (rpc : Rpc) (hhandled : now.output.handled = some (endpoint, some rpc)) :
    SentTo earlier endpoint rpc := by
  rcases append_cons_eq_concat.mp hsplit.symm with ⟨rfl, rfl, _⟩ | ⟨rest, _, hbefore⟩
  · exact hlast endpoint rpc hhandled
  · exact hsteps earlier now rest hbefore.symm endpoint rpc hhandled

/-- A step that neither sends nor handles, on fewer datagrams or the same again. -/
theorem Honest.quiet (hhonest : Honest floats steps signalling)
    (hinFlight : next.inFlight ⊆ signalling.inFlight) (hended : next.ended = signalling.ended)
    (hnodes : next.nodes = signalling.nodes)
    (hcounter : next.rpcIdCounter = signalling.rpcIdCounter) (houtput : last.output = {}) :
    Honest floats (steps ++ [last]) next where
  ended := hended.trans hhonest.ended
  inFlight entry hentry := by
    obtain ⟨rpc, hcreated, hsent, htext⟩ := hhonest.inFlight entry (hinFlight hentry)
    exact ⟨rpc, hcreated, hsent.concat last, htext⟩
  nodes name ip port hchannel := by
    rw [hnodes] at hchannel
    exact (hhonest.nodes name ip port hchannel).imp_right fun hsent => hsent.concat last
  handled := by
    refine handled_concat hhonest.handled fun endpoint rpc hhandled => ?_
    rw [houtput] at hhandled
    cases hhandled
  numbered := by
    rw [requestIds_concat, houtput, hcounter]
    simpa using hhonest.numbered

/-- Sending a call, with the identifier that the counter has just given. -/
theorem Honest.send {before : Signalling} (hhonest : Honest floats steps signalling)
    (hinFlight : before.inFlight = signalling.inFlight)
    (hended : before.ended = signalling.ended) (hnodes : before.nodes = signalling.nodes)
    (hcreated : Created rpc)
    (hids : Numbered (requestIds steps ++ (requestId rpc).toList) before.rpcIdCounter)
    (hok : before.send floats endpoint rpc = .ok (next, last.output)) :
    Honest floats (steps ++ [last]) next := by
  unfold Signalling.send at hok
  split at hok
  next buf hbuf =>
    obtain ⟨rfl, houtput⟩ := Prod.mk.inj (Except.ok.inj hok)
    have hsentNow : SentTo (steps ++ [last]) endpoint rpc :=
      ⟨last, List.mem_concat_self, by rw [← houtput]⟩
    refine ⟨hended.trans hhonest.ended, fun entry hentry => ?_, fun name ip port hchannel => ?_,
      ?_, ?_⟩
    · rcases List.mem_append.mp hentry with hold | hnew
      · rw [hinFlight] at hold
        obtain ⟨other, hother, hsent, htext⟩ := hhonest.inFlight entry hold
        exact ⟨other, hother, hsent.concat last, htext⟩
      -- what is new under way is the call itself, as it was written
      · obtain rfl := List.mem_singleton.mp hnew
        exact ⟨rpc, hcreated, hsentNow, hbuf⟩
    · rw [hnodes] at hchannel
      exact (hhonest.nodes name ip port hchannel).imp_right fun hsent => hsent.concat last
    · refine handled_concat hhonest.handled fun other call hhandled => ?_
      rw [← houtput] at hhandled
      cases hhandled
    · rw [requestIds_concat, ← houtput]
      exact hids
  next => cases hok

theorem Honest.sendFirst {before : Signalling} {calls : List Sending}
    (hhonest : Honest floats steps signalling) (hinFlight : before.inFlight = signalling.inFlight)
    (hended : before.ended = signalling.ended) (hnodes : before.nodes = signalling.nodes)
    (hcounter : before.rpcIdCounter = signalling.rpcIdCounter)
    (hok : before.sendFirst floats endpoint calls = .ok (next, last.output)) :
    Honest floats (steps ++ [last]) next := by
  cases calls with
  | nil =>
      obtain ⟨rfl, houtput⟩ := Prod.mk.inj (Except.ok.inj hok)
      exact hhonest.quiet (fun _ hentry => hinFlight ▸ hentry) hended hnodes hcounter houtput.symm
  | cons call rest =>
      cases call with
      | rpc methodName args =>
          have hcreated := created_createRpc methodName args before.rpcIdCounter
          refine hhonest.send ?_ ?_ ?_ hcreated ?_ hok
          · exact hinFlight
          · exact hended
          · exact hnodes
          · rw [hcounter]
            exact hhonest.numbered.concat
      | notification methodName args =>
          refine hhonest.send ?_ ?_ ?_ (.notification methodName args) ?_ hok
          · exact hinFlight
          · exact hended
          · exact hnodes
          · rw [hcounter]
            simpa [createNotification, requestId] using hhonest.numbered

theorem signallingChannel_handleRpc {nodes : Nodes} {call : Option Rpc} {name ip : Text}
    {port : Int64} (hchannel : (handleRpc nodes call).signallingChannel name = some (ip, port)) :
    nodes.signallingChannel name = some (ip, port) ∨ call = some (.hello name ip port) := by
  cases call with
  | none => exact .inl hchannel
  | some rpc =>
      cases rpc with
      | hello node channelIp channelPort =>
          -- a hello sets the channel of the node that it names, and of no other
          by_cases hsame : name = node
          · subst hsame
            right
            simpa [handleRpc, Nodes.signallingChannel, Nodes.get, Nodes.updateSigChannel,
              Nodes.update] using hchannel
          · left
            simpa [handleRpc, Nodes.signallingChannel, Nodes.get, Nodes.updateSigChannel,
              Nodes.update, Function.update_of_ne hsame] using hchannel
      | request | notification | response => exact .inl hchannel

/-- The server registers who says hello, and clients change nothing. -/
theorem handle_cases {before : Signalling} {datagram : Text} {call : Option Rpc}
    {output : SignalOutput} (hcall : rpcOfString floats (received datagram) = .ok call)
    (hok : before.handle floats endpoint datagram = (next, output)) :
    next = { before with nodes := next.nodes } ∧ output = { handled := some (endpoint, call) } ∧
      (next.nodes = before.nodes ∨
        endpoint = .server ∧ next.nodes = handleRpc before.nodes call) := by
  unfold Signalling.handle at hok
  rw [hcall] at hok
  cases endpoint with
  | server =>
      obtain ⟨rfl, houtput⟩ := Prod.mk.inj hok
      exact ⟨rfl, houtput.symm, .inr ⟨rfl, rfl⟩⟩
  | client ip port =>
      obtain ⟨rfl, houtput⟩ := Prod.mk.inj hok
      exact ⟨rfl, houtput.symm, .inl rfl⟩

/-- A datagram that arrives, whole or cut off. -/
theorem Honest.handle {before : Signalling} {datagram : Text} (hcreated : Created rpc)
    (hhonest : Honest floats steps signalling) (hinFlight : before.inFlight ⊆ signalling.inFlight)
    (hended : before.ended = signalling.ended) (hnodes : before.nodes = signalling.nodes)
    (hcounter : before.rpcIdCounter = signalling.rpcIdCounter)
    (hsent : SentTo steps endpoint rpc) (htext : rpcToString floats rpc = .ok datagram)
    (hok : before.handle floats endpoint datagram = (next, last.output)) :
    Honest floats (steps ++ [last]) next := by
  -- what is left of a text that was cut off is not read as another call
  obtain ⟨call, hcall, hknown⟩ : ∃ call, rpcOfString floats (received datagram) = .ok call ∧
      ∀ handled, call = some handled → handled = rpc := by
    rcases rpcOfString_take hcreated htext 4096 with hnone | hsome
    · exact ⟨none, hnone, fun _ heq => by cases heq⟩
    · exact ⟨some rpc, hsome, fun _ heq => (Option.some.inj heq).symm⟩
  obtain ⟨hnext, houtput, htable⟩ := handle_cases hcall hok
  rw [hnext]
  refine ⟨hended.trans hhonest.ended, fun entry hentry => ?_, fun name ip port hchannel => ?_, ?_,
    ?_⟩
  · obtain ⟨other, hother, hold, hbuf⟩ := hhonest.inFlight entry (hinFlight hentry)
    exact ⟨other, hother, hold.concat last, hbuf⟩
  · have hold : before.nodes.signallingChannel name = some (ip, port) ∨
        endpoint = .server ∧ call = some (.hello name ip port) := by
      rcases htable with hsame | ⟨hserver, hhandled⟩
      · rw [hsame] at hchannel
        exact .inl hchannel
      · rw [hhandled] at hchannel
        exact (signallingChannel_handleRpc hchannel).imp_right fun heq => ⟨hserver, heq⟩
    -- a channel in the table is an old one, or that of the hello that has just come in
    rcases hold with hold | ⟨rfl, hhello⟩
    · rw [hnodes] at hold
      exact (hhonest.nodes name ip port hold).imp_right fun hsent => hsent.concat last
    · obtain rfl := hknown _ hhello
      exact .inr (hsent.concat last)
  · refine handled_concat hhonest.handled fun other handled hhandled => ?_
    rw [houtput] at hhandled
    have hpair : (endpoint, call) = (other, some handled) := Option.some.inj hhandled
    obtain ⟨rfl, hcallIs⟩ := Prod.mk.inj hpair
    rw [hknown handled hcallIs]
    exact hsent
  · rw [requestIds_concat, houtput, hcounter]
    simpa using hhonest.numbered

theorem Honest.step {runtime : Runtime τ α} (hhonest : Honest floats steps signalling)
    {event : SignalEvent} (hok : signalling.step floats runtime event = .ok (next, last.output)) :
    Honest floats (steps ++ [last]) next := by
  -- events that send nothing new and are heard by nobody
  have hquiet : ∀ {inFlight : List (Endpoint × Text)} {sending : List (Endpoint × List Sending)},
      inFlight ⊆ signalling.inFlight →
      Except.ok ({ signalling with inFlight, sending }, ({} : SignalOutput)) =
        (Except.ok (next, last.output) : Except SignalError (Signalling × SignalOutput)) →
      Honest floats (steps ++ [last]) next := by
    intro inFlight sending hsubset hok
    obtain ⟨rfl, houtput⟩ := Prod.mk.inj (Except.ok.inj hok)
    exact hhonest.quiet hsubset rfl rfl rfl houtput.symm
  cases event with
  | hello nodeName ip port =>
      refine hhonest.send rfl rfl rfl (.hello nodeName ip port) ?_ hok
      simpa [requestId] using hhonest.numbered
  | connect a b =>
      simp only [Signalling.step] at hok
      split at hok
      next => exact hquiet (List.Subset.refl _) hok
      next =>
      split at hok
      next => exact hhonest.sendFirst rfl rfl rfl rfl hok
      next => exact hquiet (List.Subset.refl _) hok
  | resume index =>
      simp only [Signalling.step] at hok
      split at hok
      next => cases hok
      next => refine hhonest.sendFirst ?_ ?_ ?_ ?_ hok <;> rfl
  | sendFails index => exact hquiet (List.Subset.refl _) hok
  | deliver index =>
      simp only [Signalling.step] at hok
      split at hok
      next => cases hok
      next endpoint datagram hentry =>
        obtain ⟨rpc, hcreated, hsent, htext⟩ :=
          hhonest.inFlight (endpoint, datagram) (List.mem_of_getElem? hentry)
        refine Honest.handle hcreated hhonest ?_ ?_ ?_ ?_ hsent htext (Except.ok.inj hok)
        · exact List.eraseIdx_subset
        all_goals rfl
  | duplicate index =>
      simp only [Signalling.step] at hok
      split at hok
      next => cases hok
      next entry hentry =>
        have hsubset : signalling.inFlight ++ [entry] ⊆ signalling.inFlight :=
          List.append_subset.mpr ⟨List.Subset.refl _,
            List.cons_subset.mpr ⟨List.mem_of_getElem? hentry, List.nil_subset _⟩⟩
        exact hquiet hsubset hok
  | lose index => exact hquiet List.eraseIdx_subset hok

theorem Honest.ofRun {runtime : Runtime τ α} (hrun : SignalRun floats runtime steps signalling) :
    Honest floats steps signalling := by
  induction hrun with
  | start =>
      refine ⟨rfl, fun _ hentry => ?_, fun _ _ _ hchannel => .inl hchannel,
        fun earlier now later hsplit => ?_, rfl, rfl⟩
      · cases hentry
      · simp at hsplit
  | extend prior hstep ih => exact ih.step hstep

/-- However datagrams are lost, doubled, overtaken and cut off. No two requests are
mixed up before the counter has come round. -/
theorem honest_of_run {runtime : Runtime τ α} (hrun : SignalRun floats runtime steps signalling) :
    Honest floats steps signalling ∧
      ((requestIds steps).length ≤ 2 ^ 63 → (requestIds steps).Nodup) := by
  have hhonest := Honest.ofRun hrun
  exact ⟨hhonest, hhonest.numbered.nodup⟩

end

/-- A client says hello twice, and is called back when a connection to it is looked for. -/
def phoneEvents : List SignalEvent :=
  [.hello "phone".toList "10.0.0.2".toList 4445, .duplicate 0, .deliver 0,
    .connect "laptop".toList "phone".toList, .deliver 1, .deliver 0, .resume 0]

def phoneSteps : List SignalStep :=
  record (Signalling.step noFloats lenient) Signalling.initial phoneEvents

theorem honest_of_run_phone :
    Honest noFloats phoneSteps
        (final (Signalling.step noFloats lenient) Signalling.initial phoneEvents) ∧
      requestIds phoneSteps = [1, 2] ∧ (requestIds phoneSteps).Nodup := by
  have hrun := honest_of_run (run_record (Signalling.step noFloats lenient) _ phoneEvents)
  have hids : requestIds phoneSteps = [1, 2] := by decide +kernel
  have hlength : (requestIds phoneSteps).length ≤ 2 ^ 63 := by rw [hids]; decide
  exact ⟨hrun.1, hids, hrun.2 hlength⟩

end Signpost.Frost

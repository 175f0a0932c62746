import Signpost.Engine.Connecting

/-! # The tactics of the engine and their calls

A tactic of the engine makes its remote calls, one after the other, and returns fixed
addresses. What it returns is of the kind that its check has returned, so that the checks of
the search hold when the stack is run.
-/

namespace Signpost.Engine

open Machine

/-! ## Remote calls -/

inductive Payload
  | payload (arguments : List String)
  | emptyPayload
deriving DecidableEq, Repr

inductive RpcResponse
  | success (response : String)
  | failure (err : String)
  | timeout
deriving DecidableEq, Repr

structure RpcCall where
  channel : String
  rpc : String
  payload : Payload
deriving DecidableEq, Repr

/-- What invokes a call, as `Sch.invoke_rpc` does, and what it changes by that. -/
abbrev InvokeRpc (ω : Type) := RpcCall → ω → RpcResponse × ω

/-- The one that the engine has. -/
def notImplemented : InvokeRpc (List String) := fun call lines =>
  (.failure "Not implemented",
    lines ++ ["Making RPC call through '" ++ call.channel ++ "'"])

/-- The world of the calls, and the lines that the tactics print. -/
structure Session (ω : Type) where
  world : ω
  printed : List String

/-- A tactic, the calls that it makes to connect two nodes, and the addresses that it
returns then. -/
structure Dialogue where
  tactic : Tactic
  calls : Node → Node → List RpcCall
  returned : Addressable × Addressable

variable {ω : Type} (invokeRpc : InvokeRpc ω)

def doRpc (name : String) (call : RpcCall) (session : Session ω) :
    Except Exn String × Session ω :=
  let (response, world) := invokeRpc call session.world
  match response with
  | .success response => (.ok response, { session with world })
  | .failure err =>
      (.error .tacticFailed, ⟨world, session.printed ++ [name ++ " failed with " ++ err]⟩)
  | .timeout => (.error .tacticFailed, ⟨world, session.printed ++ [name ++ " timed out"]⟩)

/-- One call after the other, each under the name of its tactic. -/
def doRpcs : List (String × RpcCall) → Session ω → Except Exn Unit × Session ω
  | [], session => (.ok (), session)
  | (name, call) :: rest, session =>
      match doRpc invokeRpc name call session with
      | (.ok _, next) => doRpcs rest next
      | (.error e, next) => (.error e, next)

namespace Dialogue

def named (dialogue : Dialogue) (nodeA nodeB : Node) : List (String × RpcCall) :=
  (dialogue.calls nodeA nodeB).map fun call => (dialogue.tactic.name, call)

def toModule (dialogue : Dialogue) : Module (Session ω) where
  toTactic := dialogue.tactic
  connect a b session :=
    let (result, next) := doRpcs invokeRpc (dialogue.named a.1 b.1) session
    (result.map fun _ => dialogue.returned, next)

end Dialogue

/-! ## The tactics of the engine -/

def iodineDialogue : Dialogue where
  tactic := iodine
  calls nodeA nodeB :=
    [⟨nodeB.controlChannel, "RunIodineServer", .emptyPayload⟩,
      ⟨nodeA.controlChannel, "ConnectToIodineServer", .payload ["ip:UseAddrB"]⟩]
  returned := (.ipAddressInstance ⟨"12.0.0.1", "iodine"⟩, .ipAddressInstance ⟨"12.0.0.2", "iodine"⟩)

def openvpnDialogue : Dialogue where
  tactic := openvpn
  calls _ nodeB := [⟨nodeB.controlChannel, "RunOpenVPNServer", .emptyPayload⟩]
  returned :=
    (.srvInstance ⟨⟨"12.0.0.1", "openvpn"⟩, 1234⟩, .srvInstance ⟨⟨"12.0.0.2", "openvpn"⟩, 1203⟩)

def torDialogue : Dialogue where
  tactic := tor
  calls nodeA _ := [⟨nodeA.controlChannel, "ConnectToTorProxy", .emptyPayload⟩]
  returned := (.srvInstance ⟨⟨"12.0.0.1", "tor"⟩, 1234⟩, .srvInstance ⟨⟨"12.0.0.2", "tor"⟩, 1203⟩)

def engineDialogues : List Dialogue := [iodineDialogue, openvpnDialogue, torDialogue]

/-! ## Kinds of addresses -/

inductive AddressKind
  | ip
  | srv
deriving DecidableEq, Repr

def Addressable.kind : Addressable → AddressKind
  | .ipAddressInstance _ => .ip
  | .srvInstance _ => .srv

def SameKinds (addrs others : Addressable × Addressable) : Prop :=
  addrs.1.kind = others.1.kind ∧ addrs.2.kind = others.2.kind

/-- The check looks at the kinds of addresses only, and promises what is returned later. -/
structure Dialogue.Promises (dialogue : Dialogue) : Prop where
  accepts : ∀ {addrs others promised : Addressable × Addressable}, SameKinds addrs others →
    dialogue.tactic.checkStackability addrs.1 addrs.2 = some promised →
    (dialogue.tactic.checkStackability others.1 others.2).isSome
  returns : ∀ {addrs promised : Addressable × Addressable},
    dialogue.tactic.checkStackability addrs.1 addrs.2 = some promised →
    SameKinds promised dialogue.returned

theorem promises_onIpAddresses {dialogue : Dialogue} {dummy : Addressable}
    (hcheck : dialogue.tactic.checkStackability = onIpAddresses dummy)
    (hreturned : SameKinds (dummy, dummy) dialogue.returned) : dialogue.Promises := by
  constructor
  · rintro ⟨addr1, addr2⟩ ⟨other1, other2⟩ promised ⟨h1, h2⟩ haccepted
    rw [hcheck] at haccepted ⊢
    cases addr1 <;> cases addr2 <;> cases haccepted
    cases other1 with
    | srvInstance => cases h1
    | ipAddressInstance =>
        cases other2 with
        | srvInstance => cases h2
        | ipAddressInstance => rfl
  · rintro ⟨addr1, addr2⟩ promised haccepted
    rw [hcheck] at haccepted
    cases addr1 <;> cases addr2 <;> cases haccepted
    exact hreturned

theorem promises_engineDialogues : ∀ dialogue ∈ engineDialogues, dialogue.Promises := by
  intro dialogue hmem
  simp only [engineDialogues, List.mem_cons, List.not_mem_nil, or_false] at hmem
  rcases hmem with rfl | rfl | rfl
  · exact promises_onIpAddresses rfl ⟨rfl, rfl⟩
  · exact promises_onIpAddresses rfl ⟨rfl, rfl⟩
  · exact promises_onIpAddresses rfl ⟨rfl, rfl⟩

/-! ## A stack as one dialogue -/

variable {invokeRpc} {nodeA nodeB : Node}

theorem doRpcs_append (first rest : List (String × RpcCall)) (session : Session ω) :
    doRpcs invokeRpc (first ++ rest) session =
      match doRpcs invokeRpc first session with
      | (.ok (), next) => doRpcs invokeRpc rest next
      | (.error e, next) => (.error e, next) := by
  induction first generalizing session with
  | nil => rfl
  | cons entry first ih =>
      rw [List.cons_append, doRpcs, doRpcs]
      cases doRpc invokeRpc entry.1 entry.2 session with
      | mk result next =>
          cases result with
          | ok response => exact ih next
          | error e => rfl

theorem tacticFailed_of_doRpc {name : String} {call : RpcCall} {session next : Session ω} {e : Exn}
    (hraised : doRpc invokeRpc name call session = (.error e, next)) : e = .tacticFailed := by
  simp only [doRpc] at hraised
  split at hraised
  next => cases hraised
  next =>
    obtain ⟨heq, -⟩ := Prod.mk.inj hraised
    exact (Except.error.inj heq).symm
  next =>
    obtain ⟨heq, -⟩ := Prod.mk.inj hraised
    exact (Except.error.inj heq).symm

theorem tacticFailed_of_doRpcs {entries : List (String × RpcCall)} {session next : Session ω}
    {e : Exn} (hraised : doRpcs invokeRpc entries session = (.error e, next)) :
    e = .tacticFailed := by
  induction entries generalizing session with
  | nil => cases hraised
  | cons entry rest ih =>
      rw [doRpcs] at hraised
      cases hrpc : doRpc invokeRpc entry.1 entry.2 session with
      | mk result last =>
          rw [hrpc] at hraised
          cases result with
          | ok response => exact ih hraised
          | error raised =>
              obtain ⟨heq, -⟩ := Prod.mk.inj hraised
              obtain rfl := Except.error.inj heq
              exact tacticFailed_of_doRpc hrpc

variable (invokeRpc)

/-- The calls of a stack, given with the tactic on top first, from the bottom up. -/
def stackCalls (nodeA nodeB : Node) (stack : List Dialogue) : List (String × RpcCall) :=
  stack.reverse.flatMap fun dialogue => dialogue.named nodeA nodeB

theorem stackCalls_cons (dialogue : Dialogue) (beneath : List Dialogue) :
    stackCalls nodeA nodeB (dialogue :: beneath) =
      stackCalls nodeA nodeB beneath ++ dialogue.named nodeA nodeB := by
  simp [stackCalls]

/-- Running a stack makes the calls of its tactics, until one of them does not succeed. -/
theorem connectStack_eq_doRpcs (stack : List Dialogue) (acc : Addressable × Addressable)
    (session : Session ω) :
    let effect := connectStack nodeA nodeB (stack.map (Dialogue.toModule invokeRpc)) acc session
    (effect.result.map fun _ => (), effect.world) =
      doRpcs invokeRpc (stackCalls nodeA nodeB stack) session := by
  induction stack with
  | nil => rfl
  | cons dialogue beneath ih =>
      simp only at ih ⊢
      rw [stackCalls_cons, doRpcs_append, ← ih, List.map_cons, connectStack]
      cases hresult : (connectStack nodeA nodeB (beneath.map (Dialogue.toModule invokeRpc)) acc
        session).result with
      | error e =>
          rw [Action.andThen_of_error hresult]
          rfl
      -- what is beneath is connected, and its addresses do not change the calls on top
      | ok addrs =>
          rw [Action.andThen_of_ok hresult]
          simp only [callConnect, Dialogue.toModule, Except.map]
          cases doRpcs invokeRpc (dialogue.named nodeA nodeB) (connectStack nodeA nodeB
            (beneath.map (Dialogue.toModule invokeRpc)) acc session).world with
          | mk last next => cases last <;> rfl

/-! ## The checks hold when a stack is run -/

/-- A call of a stack that was called with the addresses of what is beneath it. -/
theorem accepted_of_bottomUp {order : List (Module (Session ω))}
    {addrs acc last : Addressable × Addressable} {checks : List (Check (Session ω))}
    {calls : List (Call (Session ω))} {result : Except Exn (Addressable × Addressable)}
    (hmodules : ∀ tactic ∈ order, ∃ dialogue : Dialogue, dialogue.Promises ∧
      tactic = dialogue.toModule invokeRpc)
    (hreturned : ∀ call ∈ calls, ∃ session, call.returned =
      (call.tactic.connect call.left call.right session).1)
    (hchecks : ChecksUp order addrs checks last)
    (hcalls : BottomUp nodeA nodeB order acc calls result)
    (hkinds : SameKinds addrs acc) :
    ∀ call ∈ calls, (call.tactic.checkStackability call.left.2 call.right.2).isSome := by
  induction order generalizing addrs acc checks calls with
  | nil =>
      obtain ⟨rfl, -⟩ := hcalls
      exact fun _ hcall => absurd hcall List.not_mem_nil
  | cons tactic above ih =>
      obtain ⟨promised, laterChecks, rfl, haccepted, hchecks⟩ := hchecks
      obtain ⟨returned, laterCalls, rfl, hrest⟩ := hcalls
      rw [List.forall_mem_cons] at hreturned hmodules
      obtain ⟨⟨dialogue, hpromises, rfl⟩, hmodules⟩ := hmodules
      refine List.forall_mem_cons.mpr ⟨hpromises.accepts hkinds haccepted, ?_⟩
      cases returned with
      | error e =>
          obtain ⟨rfl, -⟩ := hrest
          exact fun _ hcall => absurd hcall List.not_mem_nil
      -- the tactic has returned what it promises, and so the one above it is accepted too
      | ok next =>
          obtain ⟨⟨session, hconnect⟩, hreturned⟩ := hreturned
          refine ih hmodules hreturned hchecks hrest ?_
          have hnext : next = dialogue.returned := by
            simp only [Dialogue.toModule] at hconnect
            cases hrpcs : doRpcs invokeRpc (dialogue.named nodeA nodeB) session with
            | mk result after =>
                rw [hrpcs] at hconnect
                cases result with
                | ok value => exact Except.ok.inj hconnect
                | error e => cases hconnect
          exact hnext ▸ hpromises.returns haccepted

/-! ## What the search lists -/

/-- The search stacks what is available, and nothing else. -/
theorem subset_of_tryModule {available modules usedTactics : List (Module ω)}
    {properties : List ChannelProperty} {checks : List (Check ω)} {results tree : List (Checked ω)}
    {addr1 addr2 : Addressable} (hmodules : modules ⊆ available) (hused : usedTactics ⊆ available)
    (hresults : ∀ checked ∈ results, checked.connection.1 ⊆ available)
    (htry : tryModule modules usedTactics properties checks results addr1 addr2 = some tree) :
    ∀ checked ∈ tree, checked.connection.1 ⊆ available := by
  -- `results` goes through the whole search, and so it is part of the law
  induction modules using search_induction generalizing usedTactics properties checks results tree
    addr1 addr2 with
  | hstep modules ih =>
      rw [tryModule_unfold] at htry
      have hfirst : ∀ checked ∈ ⟨(usedTactics, properties), checks⟩ :: results,
          checked.connection.1 ⊆ available := List.forall_mem_cons.mpr ⟨hused, hresults⟩
      refine law_of_foldlM (P := fun acc => ∀ checked ∈ acc, checked.connection.1 ⊆ available) ?_
        hfirst htry
      intro acc next tactic htactic hacc hnext
      have htacticAvailable : tactic ∈ available := hmodules (List.mem_filter.mp htactic).1
      have hexcept : modulesExcept tactic modules ⊆ available :=
        List.Subset.trans (List.filter_subset_self _) hmodules
      cases hcheck : tactic.checkStackability addr1 addr2 with
      | none =>
          rw [hcheck] at hnext
          obtain rfl := Option.some.inj hnext
          exact hacc
      | some addrs =>
          rw [hcheck, Option.bind_some] at hnext
          cases hrest : tryModule (modulesExcept tactic modules) (tactic :: usedTactics)
              (nonProvidedProperties tactic.toTactic properties ++ properties)
              (checks ++ [⟨tactic, addr1, addr2, addrs⟩]) acc addrs.1 addrs.2 with
          | none =>
              rw [hrest] at hnext
              obtain rfl := Option.some.inj hnext
              exact hacc
          | some more =>
              rw [hrest] at hnext
              obtain rfl := Option.some.inj hnext
              exact ih properties tactic htactic hexcept
                (List.cons_subset.mpr ⟨htacticAvailable, hused⟩) hacc hrest

/-- A stack of modules that are dialogues is a stack of dialogues. -/
theorem exists_dialogues {available : List Dialogue} {stack : List (Module (Session ω))}
    (hsubset : stack ⊆ available.map (Dialogue.toModule invokeRpc)) :
    ∃ dialogues ⊆ available, stack = dialogues.map (Dialogue.toModule invokeRpc) := by
  induction stack with
  | nil => exact ⟨[], List.nil_subset _, rfl⟩
  | cons tactic beneath ih =>
      obtain ⟨htactic, hbeneath⟩ := List.cons_subset.mp hsubset
      obtain ⟨dialogue, hdialogue, rfl⟩ := List.mem_map.mp htactic
      obtain ⟨dialogues, hdialogues, rfl⟩ := ih hbeneath
      exact ⟨dialogue :: dialogues, List.cons_subset.mpr ⟨hdialogue, hdialogues⟩, rfl⟩

/-! ## Connecting with dialogues -/

/-- The stacks in turn, and a line for each one of which all calls succeed. -/
def converse (invokeRpc : InvokeRpc ω) (nodeA nodeB : Node) :
    List (List Dialogue × List ChannelProperty) → Session ω → List String × Session ω
  | [], session => ([], session)
  | (stack, properties) :: rest, session =>
      match doRpcs invokeRpc (stackCalls nodeA nodeB stack) session with
      | (.ok (), next) =>
          let (lines, last) := converse invokeRpc nodeA nodeB rest next
          (connectedLine nodeA nodeB (stack.map (Dialogue.toModule invokeRpc)) properties :: lines,
            last)
      | (.error _, next) => converse invokeRpc nodeA nodeB rest next

/-- The lines that say that a stack is connected. -/
def linesOf (events : List (Event ω)) : List String :=
  events.filterMap fun event =>
    match event with
    | .call _ => none
    | .printed line => some line

/-- A stack of dialogues as the engine lists it. -/
abbrev connectionOf (invokeRpc : InvokeRpc ω) (listed : List Dialogue × List ChannelProperty) :
    Connection (Session ω) :=
  (listed.1.map (Dialogue.toModule invokeRpc), listed.2)

theorem linesOf_append (events later : List (Event ω)) :
    linesOf (events ++ later) = linesOf events ++ linesOf later := List.filterMap_append ..

theorem linesOf_calls (calls : List (Call ω)) : linesOf (calls.map Event.call) = [] := by
  simp [linesOf, List.filterMap_map]

section Connecting

variable (nodeA nodeB)

/-- A stack is connected if all of its calls succeed, and nothing is raised if not. -/
theorem connectOne_dialogues (stack : List Dialogue) (properties : List ChannelProperty)
    (session : Session ω) :
    let modules := stack.map (Dialogue.toModule invokeRpc)
    let effect := connectOne nodeA nodeB (modules, properties) session
    let outcome := doRpcs invokeRpc (stackCalls nodeA nodeB stack) session
    effect.result = .ok () ∧ effect.world = outcome.2 ∧
      linesOf effect.entries = match outcome.1 with
        | .ok () => [connectedLine nodeA nodeB modules properties]
        | .error _ => [] := by
  intro modules effect outcome
  have hstack : (((connectStack nodeA nodeB modules (nodeA.addressable, nodeB.addressable)
      session).result.map fun _ => ()), (connectStack nodeA nodeB modules
        (nodeA.addressable, nodeB.addressable) session).world) = outcome :=
    connectStack_eq_doRpcs invokeRpc stack (nodeA.addressable, nodeB.addressable) session
  obtain ⟨calls, hcalls, -⟩ := connectStack_bottomUp nodeA nodeB modules
    (nodeA.addressable, nodeB.addressable) session
  have heffect : effect = ((connectStack nodeA nodeB modules
      (nodeA.addressable, nodeB.addressable)).andThen fun _ => Action.write
        (.printed (connectedLine nodeA nodeB modules properties))).handle
          (fun e => e = .tacticFailed) session := rfl
  rw [heffect, ← hstack]
  cases hresult : (connectStack nodeA nodeB modules (nodeA.addressable, nodeB.addressable)
    session).result with
  -- a call has failed, which is what `connect` catches
  | error e =>
      rw [hresult] at hstack
      obtain rfl : e = .tacticFailed := tacticFailed_of_doRpcs hstack.symm
      rw [Action.handle_of_caught (congrArg _ (Action.andThen_of_error hresult)) (by decide),
        Action.andThen_of_error hresult]
      exact ⟨rfl, rfl, by rw [hcalls, linesOf_calls]; rfl⟩
  | ok addrs =>
      rw [Action.handle_of_ok (congrArg _ (Action.andThen_of_ok hresult)),
        Action.andThen_of_ok hresult]
      exact ⟨rfl, rfl, by rw [linesOf_append, hcalls, linesOf_calls]; rfl⟩

theorem iter_dialogues (listed : List (List Dialogue × List ChannelProperty))
    (session : Session ω) :
    let effect := Action.iter (connectOne nodeA nodeB) (listed.map (connectionOf invokeRpc)) session
    effect.result = .ok () ∧
      (linesOf effect.entries, effect.world) = converse invokeRpc nodeA nodeB listed session := by
  induction listed generalizing session with
  | nil => exact ⟨rfl, rfl⟩
  | cons first rest ih =>
      obtain ⟨hok, hworld, hlines⟩ :=
        connectOne_dialogues invokeRpc nodeA nodeB first.1 first.2 session
      obtain ⟨hrest, hconverse⟩ := ih (doRpcs invokeRpc (stackCalls nodeA nodeB first.1) session).2
      obtain ⟨hlater, hlast⟩ := Prod.mk.inj hconverse
      intro effect
      have heffect : effect = ((connectOne nodeA nodeB (connectionOf invokeRpc first)).andThen
          fun _ => Action.iter (connectOne nodeA nodeB) (rest.map (connectionOf invokeRpc)))
            session := rfl
      rw [Action.andThen_of_ok hok] at heffect
      have hworld : (connectOne nodeA nodeB (connectionOf invokeRpc first) session).world =
          (doRpcs invokeRpc (stackCalls nodeA nodeB first.1) session).2 := hworld
      have hlines : linesOf
          (connectOne nodeA nodeB (connectionOf invokeRpc first) session).entries = _ := hlines
      rw [hworld] at heffect
      rw [heffect]
      refine ⟨hrest, ?_⟩
      rw [linesOf_append, hlines, hlater, hlast, converse]
      cases doRpcs invokeRpc (stackCalls nodeA nodeB first.1) session with
      | mk result next => cases result <;> rfl

/-- A call has returned what its tactic returns in some world. -/
def Truthful (event : Event ω) : Prop :=
  ∀ call, event = .call call →
    ∃ world, call.returned = (call.tactic.connect call.left call.right world).1

theorem keeps_connectStack (stack : List (Module ω)) (acc : Addressable × Addressable) :
    (connectStack nodeA nodeB stack acc).Keeps Truthful fun _ => True := by
  induction stack with
  | nil => exact .done acc
  | cons tactic beneath ih =>
      refine ih.andThen fun addrs => ⟨fun world event hevent call heq => ?_, fun _ _ _ => trivial⟩
      obtain rfl := List.mem_singleton.mp hevent
      obtain rfl := Event.call.inj heq
      exact ⟨world, rfl⟩

theorem keeps_connectOne (connection : Connection ω) :
    (connectOne nodeA nodeB connection).Keeps Truthful fun _ => True := by
  have hline : Action.Keeps Truthful (fun _ => True)
      (Action.write (.printed (connectedLine nodeA nodeB connection.1 connection.2)) :
        Action ω (Event ω) Exn Unit) := .write fun _ heq => by cases heq
  have hstack := keeps_connectStack nodeA nodeB connection.1
    (nodeA.addressable, nodeB.addressable)
  exact (hstack.andThen fun _ => hline).handle fun _ _ _ => trivial

variable {nodeA nodeB}

/-- The calls for a stack of the search take addresses that their checks accept. -/
theorem accepted_of_connectOne {available : List Dialogue}
    (hpromises : ∀ dialogue ∈ available, dialogue.Promises) {checked : Checked (Session ω)}
    (hordered : checked.Ordered)
    (hsubset : checked.connection.1 ⊆ available.map (Dialogue.toModule invokeRpc))
    (hkinds : SameKinds (fooIp, fooIp) (nodeA.addressable, nodeB.addressable))
    {session : Session ω} {call : Call (Session ω)}
    (hcall : .call call ∈ (connectOne nodeA nodeB checked.connection session).entries) :
    (call.tactic.checkStackability call.left.2 call.right.2).isSome := by
  obtain ⟨last, hchecks⟩ := hordered
  obtain ⟨calls, result, hup, hentries⟩ :=
    connectOne_attempted nodeA nodeB checked.connection session
  have hcallsSubset : ∀ other, other ∈ calls →
      .call other ∈ (connectOne nodeA nodeB checked.connection session).entries := by
    intro other hother
    rw [hentries]
    exact List.mem_append_left _ (List.mem_map_of_mem hother)
  have hmem : call ∈ calls := by
    rw [hentries] at hcall
    rcases List.mem_append.mp hcall with hcall | hline
    · obtain ⟨other, hother, heq⟩ := List.mem_map.mp hcall
      exact Event.call.inj heq ▸ hother
    · cases result with
      | ok addrs => cases List.mem_singleton.mp hline
      | error e => cases hline
  refine accepted_of_bottomUp invokeRpc ?_ ?_ hchecks hup hkinds call hmem
  · intro tactic htactic
    obtain ⟨dialogue, hdialogue, rfl⟩ := List.mem_map.mp (hsubset (List.mem_reverse.mp htactic))
    exact ⟨dialogue, hpromises dialogue hdialogue, rfl⟩
  · intro other hother
    exact (keeps_connectOne nodeA nodeB checked.connection).writes session (.call other)
      (hcallsSubset other hother) other rfl

end Connecting

/-! ## The tactics of the engine are connected -/

/-- `possible_connections` leaves out the stack without tactics. -/
def possibleConnections (tree : List (Checked ω)) : List (Checked ω) :=
  tree.filter fun checked =>
    ¬ (checked.connection.1.isEmpty ∧ checked.connection.2.isEmpty)

theorem exists_listed (available : List Dialogue) {connections : List (Connection (Session ω))}
    (hsubset : ∀ connection ∈ connections,
      connection.1 ⊆ available.map (Dialogue.toModule invokeRpc)) :
    ∃ listed : List (List Dialogue × List ChannelProperty),
      connections = listed.map (connectionOf invokeRpc) := by
  induction connections with
  | nil => exact ⟨[], rfl⟩
  | cons connection rest ih =>
      obtain ⟨hfirst, hrest⟩ := List.forall_mem_cons.mp hsubset
      obtain ⟨dialogues, -, hstack⟩ := exists_dialogues invokeRpc hfirst
      obtain ⟨listed, rfl⟩ := ih hrest
      exact ⟨(dialogues, connection.2) :: listed, by rw [List.map_cons, connectionOf, ← hstack]⟩

theorem subset_of_possibleConnections {available : List (Module ω)} {tree : List (Checked ω)}
    (htree : checkedTree available = some tree) :
    ∀ checked ∈ possibleConnections tree, checked.connection.1 ⊆ available := by
  intro checked hchecked
  exact subset_of_tryModule (List.Subset.refl _) (List.nil_subset _)
    (fun _ hmem => absurd hmem List.not_mem_nil) htree checked (List.mem_filter.mp hchecked).1

theorem pathsForReq_connectionOf (listed : List (List Dialogue × List ChannelProperty))
    (requirements : List ChannelProperty) :
    pathsForReq (listed.map (connectionOf invokeRpc)) requirements =
      (listed.filter fun stack => ∀ r ∈ requirements, r ∈ stack.2).map
        (connectionOf invokeRpc) := by
  rw [pathsForReq, List.filter_map]
  congr 1
  apply List.filter_congr
  intro stack _
  simp [List.filter_eq_nil_iff]

/-- Every call of the engine is made while a stack of the search is connected. -/
theorem accepted_of_connectNodes {available : List Dialogue}
    (hpromises : ∀ dialogue ∈ available, dialogue.Promises) {tree : List (Checked (Session ω))}
    (hordered : ∀ checked ∈ tree, checked.Ordered)
    (hsubset : ∀ checked ∈ possibleConnections tree,
      checked.connection.1 ⊆ available.map (Dialogue.toModule invokeRpc))
    (hkinds : SameKinds (fooIp, fooIp) (nodeA.addressable, nodeB.addressable))
    {requirements : List ChannelProperty} {session : Session ω} {call : Call (Session ω)}
    (hcall : .call call ∈ (connectNodes nodeA nodeB
      ((possibleConnections tree).map Checked.connection) requirements session).entries) :
    (call.tactic.checkStackability call.left.2 call.right.2).isSome := by
  simp only [connectNodes, pathsForReq_map, Action.entries_iter, List.mem_flatMap] at hcall
  obtain ⟨visit, hvisit, hcall⟩ := hcall
  obtain ⟨checked, hchecked, hconnection⟩ :=
    List.mem_map.mp ((Action.visits_isPrefix _ _ _).subset (List.mem_map_of_mem hvisit))
  have hpossible := (List.mem_filter.mp hchecked).1
  rw [← hconnection] at hcall
  exact accepted_of_connectOne invokeRpc hpromises
    (hordered checked (List.mem_filter.mp hpossible).1) (hsubset checked hpossible) hkinds hcall

/-- Connecting two nodes makes the calls of one usable stack after the other, each up to the
first that does not succeed. Nothing is raised, a line is printed for the stacks of which all
calls succeed, and every tactic gets addresses that its check accepts. -/
theorem connectNodes_engine (invokeRpc : InvokeRpc ω) (nodeA nodeB : Node)
    (hnodeA : nodeA.addressable.kind = .ip) (hnodeB : nodeB.addressable.kind = .ip)
    (requirements : List ChannelProperty) (session : Session ω) :
    ∃ (tree : List (Checked (Session ω))) (listed : List (List Dialogue × List ChannelProperty)),
      checkedTree (engineDialogues.map (Dialogue.toModule invokeRpc)) = some tree ∧
      buildStaticTacticTree [iodine, openvpn, tor] = some (tree.map Checked.result) ∧
      (possibleConnections tree).map Checked.connection = listed.map (connectionOf invokeRpc) ∧
      let effect := connectNodes nodeA nodeB (listed.map (connectionOf invokeRpc)) requirements
        session
      effect.result = .ok () ∧
      (linesOf effect.entries, effect.world) = converse invokeRpc nodeA nodeB
        (listed.filter fun stack => ∀ r ∈ requirements, r ∈ stack.2) session ∧
      ∀ call, .call call ∈ effect.entries →
        (call.tactic.checkStackability call.left.2 call.right.2).isSome := by
  obtain ⟨tree, htree, hresults, hordered⟩ :=
    checkedTree_spec (engineDialogues.map (Dialogue.toModule invokeRpc))
  have hsubset := subset_of_possibleConnections htree
  obtain ⟨listed, hlisted⟩ :=
    exists_listed invokeRpc engineDialogues (List.forall_mem_map.mpr hsubset)
  refine ⟨tree, listed, htree, hresults, hlisted, ?_⟩
  have hiter := iter_dialogues invokeRpc nodeA nodeB
    (listed.filter fun stack => ∀ r ∈ requirements, r ∈ stack.2) session
  rw [← pathsForReq_connectionOf] at hiter
  refine ⟨hiter.1, hiter.2, fun call hcall => ?_⟩
  rw [← hlisted] at hcall
  exact accepted_of_connectNodes invokeRpc promises_engineDialogues hordered hsubset
    ⟨hnodeA.symm, hnodeB.symm⟩ hcall

/-- A node with its signalling channel. -/
def createNode (name : String) (ips : List Addressable) (hips : ips ≠ []) : Node :=
  ⟨name, "Signalling channel for " ++ name, ips, hips⟩

def laptop : Node :=
  createNode "laptop" [.ipAddressInstance ⟨"0.0.0.0", "Initial"⟩] (List.cons_ne_nil _ _)

def home : Node :=
  createNode "home" [.ipAddressInstance ⟨"0.0.0.0", "Initial"⟩] (List.cons_ne_nil _ _)

theorem connectNodes_engine_laptop :
    ∃ (tree : List (Checked (Session (List String))))
      (listed : List (List Dialogue × List ChannelProperty)),
      checkedTree (engineDialogues.map (Dialogue.toModule notImplemented)) = some tree ∧
      (possibleConnections tree).map Checked.connection =
        listed.map (connectionOf notImplemented) ∧
      (connectNodes laptop home (listed.map (connectionOf notImplemented)) [.authentication]
        ⟨[], []⟩).result = .ok () := by
  obtain ⟨tree, listed, htree, -, hlisted, hok, -⟩ :=
    connectNodes_engine notImplemented laptop home rfl rfl [.authentication] ⟨[], []⟩
  exact ⟨tree, listed, htree, hlisted, hok⟩

end Signpost.Engine

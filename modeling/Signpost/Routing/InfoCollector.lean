import Signpost.Bloom.Collection
import Signpost.Machine.Run

/-! # Collecting routing information

A routing node keeps the nodes, devices and links of its domain in tables. A
timestep evaluates every rule once over the tables as they stand and the
messages that arrived. Tables change between timesteps.
-/

namespace Signpost.Routing

open Bloom Machine

/-! ## Rows -/

/-- The address that a node or a tactic listens on. -/
abbrev Host := String

structure Contact where
  host : Host
  name : String
deriving DecidableEq

structure NodeRow where
  host : Host
  name : String
  lastHeartbeat : Int
deriving DecidableEq

structure DeviceKey where
  clientId : String
  interfaceType : String
  interfaceId : String
deriving DecidableEq

structure DeviceRow where
  clientId : String
  interfaceType : String
  interfaceId : String
  address : String
deriving DecidableEq

structure LinkKey where
  fromNode : String
  toDevice : String
  strategy : String
  interface : String
deriving DecidableEq

structure LinkRow where
  fromNode : String
  toDevice : String
  strategy : String
  interface : String
  latency : Int
  bandwidth : Int
  overhead : Int
  ttl : Int
  evalLength : Int
deriving DecidableEq

structure LinkTtl where
  fromNode : String
  toDevice : String
  strategy : String
  interface : String
  expires : Int
deriving DecidableEq

/-- What a tactic reports when it can connect to a device. -/
structure EvaluationResult where
  strategy : String
  deviceName : String
  address : String
  interface : String
  latency : Int
  bandwidth : Int
  overhead : Int
  ttl : Int
  evalDuration : Int
deriving DecidableEq

structure FailedResult where
  strategy : String
  deviceName : String
  interfaceId : String
deriving DecidableEq

def NodeRow.key (row : NodeRow) : Host := row.host

def Contact.key (row : Contact) : Host := row.host

def DeviceRow.key (row : DeviceRow) : DeviceKey :=
  ⟨row.clientId, row.interfaceType, row.interfaceId⟩

def LinkRow.key (row : LinkRow) : LinkKey :=
  ⟨row.fromNode, row.toDevice, row.strategy, row.interface⟩

def LinkTtl.key (row : LinkTtl) : LinkKey :=
  ⟨row.fromNode, row.toDevice, row.strategy, row.interface⟩

/-! ## Messages -/

/-- The payloads of the channels. A tactic signs up as a `Contact`. -/
inductive Message
  | heart (node : Contact)
  | connect (node : Contact)
  | nodeDiscovery (node : NodeRow)
  | requestDeviceInfo (node : Contact)
  | serveDeviceInfo (device : DeviceRow)
  | getLinks (node : Contact)
  | pushLink (link : LinkRow)
  | tacticSignup (tactic : Contact)
  | tacticEvaluationResult (result : EvaluationResult)
  | failedEvaluationResult (result : FailedResult)
deriving DecidableEq

/-- The messages that arrive in one timestep, the devices that are updated
locally, the timers that fire, and the clock. -/
structure Batch where
  messages : List Message := []
  newDevice : List DeviceRow := []
  heartbeatTimer : Bool := false
  ttlChecker : Bool := false
  now : Int
deriving DecidableEq

namespace Batch

def heart (batch : Batch) : List Contact :=
  batch.messages.filterMap fun
    | .heart node => some node
    | _ => none

def connect (batch : Batch) : List Contact :=
  batch.messages.filterMap fun
    | .connect node => some node
    | _ => none

def nodeDiscovery (batch : Batch) : List NodeRow :=
  batch.messages.filterMap fun
    | .nodeDiscovery node => some node
    | _ => none

def requestDeviceInfo (batch : Batch) : List Contact :=
  batch.messages.filterMap fun
    | .requestDeviceInfo node => some node
    | _ => none

def serveDeviceInfo (batch : Batch) : List DeviceRow :=
  batch.messages.filterMap fun
    | .serveDeviceInfo device => some device
    | _ => none

def getLinks (batch : Batch) : List Contact :=
  batch.messages.filterMap fun
    | .getLinks node => some node
    | _ => none

def pushLink (batch : Batch) : List LinkRow :=
  batch.messages.filterMap fun
    | .pushLink link => some link
    | _ => none

def tacticSignup (batch : Batch) : List Contact :=
  batch.messages.filterMap fun
    | .tacticSignup tactic => some tactic
    | _ => none

def tacticEvaluationResult (batch : Batch) : List EvaluationResult :=
  batch.messages.filterMap fun
    | .tacticEvaluationResult result => some result
    | _ => none

def failedEvaluationResult (batch : Batch) : List FailedResult :=
  batch.messages.filterMap fun
    | .failedEvaluationResult result => some result
    | _ => none

/-- The payloads of one channel are those of its messages. -/
theorem mem_payloads {τ : Type} {messages : List Message} {payload : Message → Option τ}
    {message : τ → Message} (hpayload : ∀ arrived value,
      payload arrived = some value ↔ arrived = message value) {value : τ} :
    value ∈ messages.filterMap payload ↔ message value ∈ messages := by
  simp only [List.mem_filterMap, hpayload, exists_eq_right]

variable {batch : Batch}

@[simp] theorem mem_heart {node : Contact} :
    node ∈ batch.heart ↔ .heart node ∈ batch.messages :=
  mem_payloads fun arrived _ => by cases arrived <;> simp

@[simp] theorem mem_connect {node : Contact} :
    node ∈ batch.connect ↔ .connect node ∈ batch.messages :=
  mem_payloads fun arrived _ => by cases arrived <;> simp

@[simp] theorem mem_nodeDiscovery {node : NodeRow} :
    node ∈ batch.nodeDiscovery ↔ .nodeDiscovery node ∈ batch.messages :=
  mem_payloads fun arrived _ => by cases arrived <;> simp

@[simp] theorem mem_requestDeviceInfo {node : Contact} :
    node ∈ batch.requestDeviceInfo ↔ .requestDeviceInfo node ∈ batch.messages :=
  mem_payloads fun arrived _ => by cases arrived <;> simp

@[simp] theorem mem_serveDeviceInfo {device : DeviceRow} :
    device ∈ batch.serveDeviceInfo ↔ .serveDeviceInfo device ∈ batch.messages :=
  mem_payloads fun arrived _ => by cases arrived <;> simp

@[simp] theorem mem_getLinks {node : Contact} :
    node ∈ batch.getLinks ↔ .getLinks node ∈ batch.messages :=
  mem_payloads fun arrived _ => by cases arrived <;> simp

@[simp] theorem mem_pushLink {link : LinkRow} :
    link ∈ batch.pushLink ↔ .pushLink link ∈ batch.messages :=
  mem_payloads fun arrived _ => by cases arrived <;> simp

@[simp] theorem mem_tacticSignup {tactic : Contact} :
    tactic ∈ batch.tacticSignup ↔ .tacticSignup tactic ∈ batch.messages :=
  mem_payloads fun arrived _ => by cases arrived <;> simp

@[simp] theorem mem_tacticEvaluationResult {result : EvaluationResult} :
    result ∈ batch.tacticEvaluationResult ↔ .tacticEvaluationResult result ∈ batch.messages :=
  mem_payloads fun arrived _ => by cases arrived <;> simp

@[simp] theorem mem_failedEvaluationResult {result : FailedResult} :
    result ∈ batch.failedEvaluationResult ↔ .failedEvaluationResult result ∈ batch.messages :=
  mem_payloads fun arrived _ => by cases arrived <;> simp

end Batch

/-! ## Rules -/

/-- A routing node. -/
structure Node where
  host : Host
  name : String
  heartbeatFrequency : Int
deriving DecidableEq

structure State where
  nodes : Collection NodeRow.key
  devices : Collection DeviceRow.key
  tactics : Collection Contact.key
  links : Collection LinkRow.key
  linkTtls : Collection LinkTtl.key

def State.empty : State :=
  ⟨Collection.empty, Collection.empty, Collection.empty, Collection.empty, Collection.empty⟩

variable (node : Node) (state : State) (batch : Batch)

def Node.contact : Contact := ⟨node.host, node.name⟩

/-- `nodes.exists?` for a host. -/
def State.Knows (host : Host) : Prop := ∃ row ∈ state.nodes.rows, row.host = host

instance (host : Host) : Decidable (state.Knows host) :=
  inferInstanceAs (Decidable (∃ row ∈ state.nodes.rows, row.host = host))

/-- Nodes that have not been heard of for two heartbeats. -/
def deadNodes : List NodeRow :=
  if batch.heartbeatTimer then
    state.nodes.rows.filter fun row =>
      row.lastHeartbeat < batch.now - node.heartbeatFrequency * 2
  else []

def nodesToConnectTo : List NodeRow :=
  batch.nodeDiscovery.filter fun row => ¬ state.Knows row.host

def unseenNodes : List Contact :=
  batch.connect.filter fun contact => ¬ state.Knows contact.host

/-- The rows that heartbeats, discoveries and connects leave in `nodes`. -/
def nodeUpdates : List NodeRow :=
  batch.heart.map (fun contact => ⟨contact.host, contact.name, batch.now⟩) ++
    ((nodesToConnectTo state batch).map (fun row => ⟨row.host, row.name, batch.now⟩) ++
      (unseenNodes state batch).map fun contact => ⟨contact.host, contact.name, batch.now⟩)

def newDeviceInfo : List DeviceRow :=
  batch.serveDeviceInfo.filter fun device => device ∉ state.devices

def deadLinks : List LinkRow :=
  state.links.rows.filter fun link =>
    (deadNodes node state batch).any fun dead => dead.name = link.fromNode

def ttledLinks : List LinkTtl :=
  if batch.ttlChecker then state.linkTtls.rows.filter fun lttl => lttl.expires < batch.now else []

def expiredLinks : List LinkRow :=
  (ttledLinks state batch).flatMap fun lttl =>
    state.links.rows.filter fun link => link.key = lttl.key

/-- The link that a local evaluation has found. -/
def Node.link (result : EvaluationResult) : LinkRow where
  fromNode := node.name
  toDevice := result.deviceName
  strategy := result.strategy
  interface := result.interface
  latency := result.latency
  bandwidth := result.bandwidth
  overhead := result.overhead
  ttl := result.ttl
  evalLength := result.evalDuration

/-- A failed tactic is tried again after ten minutes. -/
def Node.failed (now : Int) (result : FailedResult) : LinkTtl :=
  ⟨node.name, result.deviceName, result.strategy, result.interfaceId, now + 10 * 60⟩

/-- A link from this node is evaluated again before it expires. -/
def Node.lifetime (link : LinkRow) : Int :=
  if link.fromNode = node.name then link.ttl - link.evalLength - 1 else link.ttl

def Node.linkTtl (now : Int) (link : LinkRow) : LinkTtl :=
  ⟨link.fromNode, link.toDevice, link.strategy, link.interface, now + node.lifetime link⟩

def linkTtlUpdates : List LinkTtl :=
  batch.failedEvaluationResult.map (node.failed batch.now) ++
    batch.pushLink.map (node.linkTtl batch.now)

/-- Expired links from this node that a local tactic has to evaluate again. -/
def reevaluations : List (Host × DeviceRow) :=
  state.tactics.rows.flatMap fun tactic =>
    (ttledLinks state batch).flatMap fun lttl =>
      (state.devices.rows.filter fun device =>
        lttl.toDevice = device.clientId ∧ lttl.interface = device.interfaceId ∧
          lttl.fromNode = node.name ∧ lttl.strategy = tactic.name).map
        fun device => (tactic.host, device)

/-- What a timestep sends to `tactics`. -/
def evalTacticRequest : List (Host × DeviceRow) :=
  (state.tactics.rows.flatMap fun tactic =>
    (newDeviceInfo state batch).map fun device => (tactic.host, device)) ++
  ((batch.tacticSignup.flatMap fun tactic =>
    state.devices.rows.map fun device => (tactic.host, device)) ++
  reevaluations node state batch)

def heartbeats : List (Host × Message) :=
  if batch.heartbeatTimer then
    state.nodes.rows.map fun row => (row.host, Message.heart node.contact)
  else []

def connects : List (Host × Message) :=
  (nodesToConnectTo state batch).map fun row => (row.host, Message.connect node.contact)

/-- A node that connects is told of all nodes that were known before. -/
def discoveries : List (Host × Message) :=
  batch.connect.flatMap fun newNode =>
    state.nodes.rows.map fun existingNode => (newNode.host, Message.nodeDiscovery existingNode)

def servedDevices : List (Host × Message) :=
  batch.requestDeviceInfo.flatMap fun request =>
    state.devices.rows.map fun device => (request.host, Message.serveDeviceInfo device)

def announcedDevices : List (Host × Message) :=
  state.nodes.rows.flatMap fun row =>
    batch.newDevice.map fun device => (row.host, Message.serveDeviceInfo device)

def servedLinks : List (Host × Message) :=
  batch.getLinks.flatMap fun request =>
    state.links.rows.map fun link => (request.host, Message.pushLink link)

def evaluatedLinks : List (Host × Message) :=
  state.nodes.rows.flatMap fun row =>
    batch.tacticEvaluationResult.map fun result => (row.host, Message.pushLink (node.link result))

/-- What a timestep sends to other nodes, and to itself. -/
def sends : List (Host × Message) :=
  heartbeats node state batch ++ (connects node state batch ++ (discoveries state batch ++
    (servedDevices state batch ++ (announcedDevices state batch ++
      (servedLinks state batch ++ evaluatedLinks node state batch)))))

structure Output where
  sent : List (Host × Message) := []
  evalTacticRequest : List (Host × DeviceRow) := []

/-- The keyed collections that rules derive rows into. -/
inductive KeyedCollection
  | nodes
  | devices
  | newDevice
  | tactics
  | links
  | linkTtls
deriving DecidableEq

inductive CollectorError
  | keyConflict (collection : KeyedCollection)
deriving DecidableEq

def derive {ρ κ : Type} [DecidableEq ρ] [DecidableEq κ] (collection : KeyedCollection)
    (key : ρ → κ) (rows : List ρ) : Except CollectorError (Collection key) :=
  match Collection.derive key rows with
  | some derived => .ok derived
  | none => .error (.keyConflict collection)

def timestep : Except CollectorError (State × Output) := do
  let nodes ← derive .nodes NodeRow.key (nodeUpdates state batch)
  let devices ← derive .devices DeviceRow.key (newDeviceInfo state batch)
  let _ ← derive .newDevice DeviceRow.key batch.newDevice
  let tactics ← derive .tactics Contact.key batch.tacticSignup
  let links ← derive .links LinkRow.key batch.pushLink
  let linkTtls ← derive .linkTtls LinkTtl.key (linkTtlUpdates node batch)
  -- the sends read the tables as they stand before the updates
  pure
    ({ nodes := state.nodes.settle (deadNodes node state batch) nodes
       devices := state.devices.settle [] devices
       tactics := state.tactics.settle [] tactics
       links := state.links.settle (deadLinks node state batch ++ expiredLinks state batch) links
       linkTtls := state.linkTtls.settle (ttledLinks state batch) linkTtls },
     { sent := sends node state batch
       evalTacticRequest := evalTacticRequest node state batch })

/-! ## What a timestep does -/

/-- Everything a completed timestep says about its sends and the tables of the next
timestep. -/
structure Fires (next : State) (output : Output) : Prop where
  mem_nodes : ∀ row, row ∈ next.nodes ↔ row ∈ nodeUpdates state batch ∨
    row ∈ state.nodes ∧ row ∉ deadNodes node state batch ∧
      ∀ update ∈ nodeUpdates state batch, update.key ≠ row.key
  devices_functional : KeyFunctional DeviceRow.key (newDeviceInfo state batch)
  mem_devices : ∀ row, row ∈ next.devices ↔ row ∈ newDeviceInfo state batch ∨
    row ∈ state.devices ∧ ∀ update ∈ newDeviceInfo state batch, update.key ≠ row.key
  mem_links : ∀ row, row ∈ next.links ↔ row ∈ batch.pushLink ∨
    row ∈ state.links ∧ row ∉ deadLinks node state batch ++ expiredLinks state batch ∧
      ∀ update ∈ batch.pushLink, update.key ≠ row.key
  linkTtls_functional : KeyFunctional LinkTtl.key (linkTtlUpdates node batch)
  mem_linkTtls : ∀ row, row ∈ next.linkTtls ↔ row ∈ linkTtlUpdates node batch ∨
    row ∈ state.linkTtls ∧ row ∉ ttledLinks state batch ∧
      ∀ update ∈ linkTtlUpdates node batch, update.key ≠ row.key
  links_functional : KeyFunctional LinkRow.key batch.pushLink
  sent_eq : output.sent = sends node state batch

section Derive

variable {ρ κ : Type} [DecidableEq ρ] [DecidableEq κ] {collection : KeyedCollection}
  {key : ρ → κ} {rows : List ρ}

theorem derive_eq_ok {derived : Collection key} (hok : derive collection key rows = .ok derived) :
    KeyFunctional key rows ∧ ∀ row, row ∈ derived ↔ row ∈ rows := by
  unfold derive at hok
  split at hok
  next h =>
    cases hok
    exact ⟨(Collection.derive_eq_some_iff.mp h).1, fun _ => Collection.mem_of_derive h⟩
  next => cases hok

/-- Rows that are derived into a table replace those with their keys. -/
theorem mem_settle_derive {table derived : Collection key} {deletions : List ρ}
    (hok : derive collection key rows = .ok derived) (row : ρ) :
    row ∈ table.settle deletions derived ↔ row ∈ rows ∨
      row ∈ table ∧ row ∉ deletions ∧ ∀ update ∈ rows, key update ≠ key row := by
  simp only [Collection.mem_settle, (derive_eq_ok hok).2]

end Derive

variable {node state batch}

theorem fires_of_timestep {next : State} {output : Output}
    (hok : timestep node state batch = .ok (next, output)) :
    Fires node state batch next output := by
  simp only [timestep, bind_eq_ok] at hok
  obtain ⟨nodes, hnodes, devices, hdevices, _, _, tactics, _, links, hlinks, linkTtls, hlinkTtls,
    hresult⟩ := hok
  obtain ⟨rfl, rfl⟩ := Prod.mk.inj (Except.ok.inj hresult)
  constructor
  case mem_nodes => exact mem_settle_derive hnodes
  case devices_functional => exact (derive_eq_ok hdevices).1
  case mem_devices =>
    intro row
    rw [mem_settle_derive hdevices]
    simp
  case mem_links => exact mem_settle_derive hlinks
  case linkTtls_functional => exact (derive_eq_ok hlinkTtls).1
  case mem_linkTtls => exact mem_settle_derive hlinkTtls
  case links_functional => exact (derive_eq_ok hlinks).1
  case sent_eq => rfl

def TakesHeart (batch : Batch) (sender : Host) : Prop :=
  ∃ contact, .heart contact ∈ batch.messages ∧ contact.host = sender

def TakesDiscovery (batch : Batch) (found : Host) : Prop :=
  ∃ row, .nodeDiscovery row ∈ batch.messages ∧ row.host = found

def TakesConnect (batch : Batch) (sender : Host) : Prop :=
  ∃ contact, .connect contact ∈ batch.messages ∧ contact.host = sender

/-- The messages of the batch name the host. -/
def HearsOf (batch : Batch) (host : Host) : Prop :=
  TakesHeart batch host ∨ TakesDiscovery batch host ∨ TakesConnect batch host

theorem exists_nodeUpdates {host : Host} (hknows : ¬ state.Knows host) :
    (∃ row ∈ nodeUpdates state batch, row.host = host) ↔ HearsOf batch host := by
  simp only [nodeUpdates, nodesToConnectTo, unseenNodes, List.mem_append, List.mem_map,
    List.mem_filter, decide_eq_true_eq, Batch.mem_heart, Batch.mem_nodeDiscovery,
    Batch.mem_connect, HearsOf, TakesHeart, TakesDiscovery, TakesConnect]
  constructor
  · rintro ⟨row, ⟨contact, hmem, rfl⟩ | ⟨found, ⟨hmem, _⟩, rfl⟩ | ⟨contact, ⟨hmem, _⟩, rfl⟩, hhost⟩
    · exact Or.inl ⟨contact, hmem, hhost⟩
    · exact Or.inr (Or.inl ⟨found, hmem, hhost⟩)
    · exact Or.inr (Or.inr ⟨contact, hmem, hhost⟩)
  · rintro (⟨contact, hmem, rfl⟩ | ⟨found, hmem, rfl⟩ | ⟨contact, hmem, rfl⟩)
    · exact ⟨_, Or.inl ⟨contact, hmem, rfl⟩, rfl⟩
    · exact ⟨_, Or.inr (Or.inl ⟨found, ⟨hmem, hknows⟩, rfl⟩), rfl⟩
    · exact ⟨_, Or.inr (Or.inr ⟨contact, ⟨hmem, hknows⟩, rfl⟩), rfl⟩

@[simp] theorem not_knows_empty (host : Host) : ¬ State.empty.Knows host := by
  rintro ⟨row, hrow, _⟩
  cases hrow

namespace Fires

variable {next : State} {output : Output}

/-- While no node is declared dead, a node gets to know those that it hears of and
forgets none. -/
theorem knows_iff (hfires : Fires node state batch next output)
    (halive : deadNodes node state batch = []) {host : Host} :
    next.Knows host ↔ state.Knows host ∨ HearsOf batch host := by
  constructor
  · rintro ⟨row, hrow, rfl⟩
    rcases (hfires.mem_nodes row).mp hrow with hupdate | ⟨hold, _⟩
    · by_cases hknows : state.Knows row.host
      · exact Or.inl hknows
      · exact Or.inr ((exists_nodeUpdates hknows).mp ⟨row, hupdate, rfl⟩)
    · exact Or.inl ⟨row, hold, rfl⟩
  · intro hhost
    by_cases hupdated : ∃ row ∈ nodeUpdates state batch, row.host = host
    · obtain ⟨row, hrow, hsame⟩ := hupdated
      exact ⟨row, (hfires.mem_nodes row).mpr (Or.inl hrow), hsame⟩
    · by_cases hknows : state.Knows host
      · obtain ⟨row, hrow, rfl⟩ := hknows
        refine ⟨row, (hfires.mem_nodes row).mpr (Or.inr ⟨hrow, by simp [halive], ?_⟩), rfl⟩
        exact fun update hupdate hkey => hupdated ⟨update, hupdate, hkey⟩
      · exact absurd ((exists_nodeUpdates hknows).mpr (hhost.resolve_left hknows)) hupdated

end Fires

/-! ## What a timestep sends -/

section Sends

variable {target : Host}

theorem mem_heartbeats {message : Message} :
    (target, message) ∈ heartbeats node state batch ↔
      batch.heartbeatTimer = true ∧ state.Knows target ∧ message = .heart node.contact := by
  unfold heartbeats
  split
  next htimer =>
    simp only [htimer, State.Knows, List.mem_map, Prod.mk.injEq]
    grind
  next htimer => simp [htimer]

theorem mem_connects {message : Message} :
    (target, message) ∈ connects node state batch ↔
      TakesDiscovery batch target ∧ ¬ state.Knows target ∧ message = .connect node.contact := by
  simp only [connects, nodesToConnectTo, TakesDiscovery, List.mem_map, List.mem_filter,
    Batch.mem_nodeDiscovery, decide_eq_true_eq, Prod.mk.injEq]
  constructor
  · rintro ⟨row, ⟨hmem, hknows⟩, rfl, rfl⟩
    exact ⟨⟨row, hmem, rfl⟩, hknows, rfl⟩
  · rintro ⟨⟨row, hmem, rfl⟩, hknows, rfl⟩
    exact ⟨row, ⟨hmem, hknows⟩, rfl, rfl⟩

theorem mem_discoveries {message : Message} :
    (target, message) ∈ discoveries state batch ↔
      TakesConnect batch target ∧ ∃ row ∈ state.nodes, message = .nodeDiscovery row := by
  simp only [discoveries, TakesConnect, List.mem_flatMap, List.mem_map, Batch.mem_connect,
    Prod.mk.injEq, Collection.mem_rows]
  grind

theorem mem_announcedDevices {message : Message} :
    (target, message) ∈ announcedDevices state batch ↔
      state.Knows target ∧ ∃ device ∈ batch.newDevice, message = .serveDeviceInfo device := by
  simp only [announcedDevices, List.mem_flatMap, List.mem_map, Prod.mk.injEq, State.Knows]
  grind

theorem mem_servedLinks {message : Message} :
    (target, message) ∈ servedLinks state batch ↔
      ∃ link ∈ state.links, message = .pushLink link ∧
        ∃ contact, .getLinks contact ∈ batch.messages ∧ contact.host = target := by
  simp only [servedLinks, List.mem_flatMap, List.mem_map, Batch.mem_getLinks, Prod.mk.injEq,
    Collection.mem_rows]
  grind

theorem mem_evaluatedLinks {message : Message} :
    (target, message) ∈ evaluatedLinks node state batch ↔
      state.Knows target ∧ ∃ result, .tacticEvaluationResult result ∈ batch.messages ∧
        message = .pushLink (node.link result) := by
  simp only [evaluatedLinks, List.mem_flatMap, List.mem_map, Batch.mem_tacticEvaluationResult,
    Prod.mk.injEq, State.Knows]
  grind

theorem mem_sends_heart {contact : Contact} :
    (target, .heart contact) ∈ sends node state batch ↔
      batch.heartbeatTimer = true ∧ state.Knows target ∧ contact = node.contact := by
  simp [sends, mem_heartbeats, mem_connects, mem_discoveries, servedDevices, mem_announcedDevices,
    mem_servedLinks, mem_evaluatedLinks]

theorem mem_sends_connect {contact : Contact} :
    (target, .connect contact) ∈ sends node state batch ↔
      TakesDiscovery batch target ∧ ¬ state.Knows target ∧ contact = node.contact := by
  simp [sends, mem_heartbeats, mem_connects, mem_discoveries, servedDevices, mem_announcedDevices,
    mem_servedLinks, mem_evaluatedLinks]

theorem mem_sends_nodeDiscovery {row : NodeRow} :
    (target, .nodeDiscovery row) ∈ sends node state batch ↔
      TakesConnect batch target ∧ row ∈ state.nodes := by
  simp [sends, mem_heartbeats, mem_connects, mem_discoveries, servedDevices, mem_announcedDevices,
    mem_servedLinks, mem_evaluatedLinks]

end Sends

/-! ## Starting -/

/-- The tables of the server and of a client when they start. -/
def bootstrapState (node : Node) (isServer : Bool) (now : Int) : State :=
  if isServer then
    { State.empty with nodes := ⟨[⟨node.host, node.name, now⟩], List.nodup_singleton _⟩ }
  else State.empty

/-- A client asks the server for everything. -/
def bootstrapSends (node : Node) (isServer : Bool) (server : Host) : List (Host × Message) :=
  if isServer then []
  else [(server, .connect node.contact), (server, .requestDeviceInfo node.contact),
    (server, .getLinks node.contact)]

end Signpost.Routing

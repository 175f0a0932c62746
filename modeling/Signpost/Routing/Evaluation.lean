import Signpost.Routing.Provenance

/-! # The tactics that evaluate links

Every tactic is a process of its own. It signs up with the node that has started
it, and runs a prober for each device that the node asks about. What the prober
prints decides what the node is told.
-/

namespace Signpost.Routing

open Bloom Machine

/-! ## What a prober prints -/

/-- The numbers of the pattern `/SUCCESS ([\d]*) ([\d]*) ([\d]*) ([\d]*)/`. -/
structure Numbers where
  latency : ℕ
  bandwidth : ℕ
  overhead : ℕ
  ttl : ℕ
deriving DecidableEq

def successWord : List Char := ['S', 'U', 'C', 'C', 'E', 'S', 'S']

/-- Groups of digits, each behind a blank. A group may be empty, and is then zero. -/
def numberGroups : ℕ → List Char → Option (List ℕ)
  | 0, _ => some []
  | count + 1, ' ' :: rest =>
      (numberGroups count (rest.dropWhile Char.isDigit)).map
        (Nat.ofDigitChars 10 (rest.takeWhile Char.isDigit) 0 :: ·)
  | _ + 1, _ => none

def numbersAt (text : List Char) : Option Numbers :=
  if successWord <+: text then
    match numberGroups 4 (text.drop successWord.length) with
    | some [latency, bandwidth, overhead, ttl] => some ⟨latency, bandwidth, overhead, ttl⟩
    | _ => none
  else none

/-- The first place in the text where the pattern matches. -/
def successNumbers : List Char → Option Numbers
  | [] => none
  | c :: rest => (numbersAt (c :: rest)).or (successNumbers rest)

/-! ## Processes -/

structure Process where
  name : String
  tacticSolver : Host
  supportedInterfaces : List String
deriving DecidableEq

/-- What a tactic sends when its prober has printed a text and the evaluation has
taken some seconds. After a failure it adds the time to the text, and the thread
ends in a second failure, when the message has been sent. -/
def Process.evaluateInput (process : Process) (device : DeviceRow) (printed : List Char)
    (evaluationTime : Int) : List Message :=
  if device.interfaceType ∈ process.supportedInterfaces then
    match successNumbers printed with
    | some numbers =>
        [.tacticEvaluationResult
          { strategy := process.name
            deviceName := device.clientId
            address := device.address
            interface := device.interfaceId
            latency := numbers.latency
            bandwidth := numbers.bandwidth
            overhead := numbers.overhead
            ttl := numbers.ttl
            evalDuration := evaluationTime }]
    | none => [.failedEvaluationResult ⟨process.name, device.clientId, device.interfaceId⟩]
  else []

/-- The routing nodes, the tactics under the addresses that they listen on, and the
requests that are under way to them. -/
structure Field where
  network : Network
  tactics : Host → Option Process
  requests : List (Host × DeviceRow)

inductive FieldEvent
  | start (host : Host) (now : Int)
  | timestep (host : Host) (batch : Batch)
  | startTactic (address : Host) (process : Process)
  | evaluate (address : Host) (device : DeviceRow) (printed : List Char) (evaluationTime : Int)
  | timeout (address : Host) (device : DeviceRow)
deriving DecidableEq

/-- Messages of a tactic to its node. -/
def tell (config : Config) (network : Network) (node : Host) :
    List Message → Except NetworkError Network
  | [] => .ok network
  | message :: rest => do
      let (next, _) ← step config network (.report node message)
      tell config next node rest

def fieldStep (config : Config) (field : Field) : FieldEvent → Except NetworkError (Field × Output)
  | .start host now => do
      let (network, output) ← step config field.network (.start host now)
      pure ({ field with network }, output)
  | .timestep host batch => do
      let (network, output) ← step config field.network (.timestep host batch)
      pure ({ field with network, requests := field.requests ++ output.evalTacticRequest }, output)
  | .startTactic address process =>
      match field.tactics address with
      | some _ => .error .disabled
      | none => do
          let network ← tell config field.network process.tacticSolver
            [.tacticSignup ⟨address, process.name⟩]
          let tactics := Function.update field.tactics address process
          pure ({ field with network, tactics }, {})
  | .evaluate address device printed evaluationTime =>
      if (address, device) ∈ field.requests then
        match field.tactics address with
        | none => .error .disabled
        | some process => do
            let network ← tell config field.network process.tacticSolver
              (process.evaluateInput device printed evaluationTime)
            pure ({ field with network, requests := field.requests.erase (address, device) }, {})
      else .error .disabled
  | .timeout address device =>
      if (address, device) ∈ field.requests then
        .ok ({ field with requests := field.requests.erase (address, device) }, {})
      else .error .disabled

def initialField : Field := ⟨initial, fun _ => none, []⟩

abbrev FieldStep := Transition Field FieldEvent Output

abbrev FieldRun (config : Config) : List FieldStep → Field → Prop :=
  Run (fieldStep config) initialField

/-! ## What is told in a field -/

section

variable (config : Config) (steps : List FieldStep)

def AddedAt (device : DeviceRow) : Prop :=
  ∃ step ∈ steps, ∃ host batch, step.input = .timestep host batch ∧ device ∈ batch.newDevice

/-- A tactic of the node has run its prober for a device that had been added before. -/
structure Evaluated (host : Host) (process : Process) (device : DeviceRow) (printed : List Char)
    (evaluationTime : Int) : Prop where
  node : process.tacticSolver = host
  evaluation : ∃ earlier now later address, steps = earlier ++ now :: later ∧
    AddedAt earlier device ∧ now.input = .evaluate address device printed evaluationTime ∧
      now.before.tactics address = some process

def Concludes (host : Host) (message : Message) : Prop :=
  ∃ process device printed evaluationTime,
    Evaluated steps host process device printed evaluationTime ∧
      message ∈ process.evaluateInput device printed evaluationTime

/-- What goes back to a prober, and what a node has been started with. -/
def Truth.ofField : Truth where
  contact contact := ∃ step ∈ steps, ∃ host now,
    step.input = .start host now ∧ contact = (config.node host).contact
  device device := AddedAt steps device
  link link := ∃ host result, Concludes steps host (.tacticEvaluationResult result) ∧
    link = (config.node host).link result
  signup host tactic := ∃ step ∈ steps, ∃ process,
    step.input = .startTactic tactic.host process ∧ process.tacticSolver = host ∧
      process.name = tactic.name
  result host result := Concludes steps host (.tacticEvaluationResult result)
  failure host result := Concludes steps host (.failedEvaluationResult result)

/-- Nodes, tables and messages tell what may be told, and a tactic is asked about
devices that have been added. -/
structure InField (truth : Truth) (config : Config) (field : Field) : Prop where
  network : truth.InNetwork config field.network
  contacts : ∀ host, field.network.Started host → truth.contact (config.node host).contact
  requests : ∀ request ∈ field.requests,
    (∃ host name, truth.signup host ⟨request.1, name⟩) ∧ truth.device request.2

end

section

variable {truth : Truth} {config : Config} {network next : Network} {field : Field}

/-- A tactic that only says what may be told. -/
theorem inNetwork_tell {node : Host} {messages : List Message}
    (hmessages : ∀ message ∈ messages, truth.Tells node message)
    (hok : tell config network node messages = .ok next)
    (hnetwork : truth.InNetwork config network) :
    truth.InNetwork config next ∧ next.states = network.states := by
  induction messages generalizing network with
  | nil =>
      obtain rfl := Except.ok.inj hok
      exact ⟨hnetwork, rfl⟩
  | cons message rest ih =>
      obtain ⟨⟨told, output⟩, hstep, hrest⟩ := bind_eq_ok.mp hok
      have htold := Truth.inNetwork_report hnetwork (hmessages message List.mem_cons_self) hstep
      obtain ⟨_, hstates, _⟩ := report_cases hstep
      obtain ⟨hnext, hsame⟩ :=
        ih (fun other hother => hmessages other (List.mem_cons_of_mem _ hother)) hrest htold
      exact ⟨hnext, hsame.trans hstates⟩

theorem InField.of_tell (hfield : InField truth config field) {tactics : Host → Option Process}
    {requests : List (Host × DeviceRow)} (hnext : truth.InNetwork config next)
    (hstates : next.states = field.network.states) (hrequests : requests ⊆ field.requests) :
    InField truth config ⟨next, tactics, requests⟩ := by
  refine ⟨hnext, fun host hstarted => hfield.contacts host ?_, fun request hrequest =>
    hfield.requests request (hrequests hrequest)⟩
  obtain ⟨state, hstate⟩ := hstarted
  exact ⟨state, hstates ▸ hstate⟩

/-! ## One lemma for each event -/

variable {later : Field} {output : Output}

theorem inField_initial : InField truth config initialField := by
  refine ⟨⟨fun host state hstate => ?_, fun entry hentry => ?_⟩, fun host hstarted => ?_,
    fun request hrequest => ?_⟩
  · cases hstate
  · cases hentry
  · obtain ⟨state, hstate⟩ := hstarted
    cases hstate
  · cases hrequest

theorem InField.start (hfield : InField truth config field) {host : Host} {now : Int}
    (hself : truth.contact (config.node host).contact)
    (hstep : fieldStep config field (.start host now) = .ok (later, output)) :
    InField truth config later := by
  obtain ⟨⟨network, sent⟩, hok, hnext⟩ := bind_eq_ok.mp hstep
  obtain ⟨rfl, rfl⟩ := Prod.mk.inj (Except.ok.inj hnext)
  refine ⟨Truth.inNetwork_start hfield.network hself hok, fun other hstarted => ?_,
    hfield.requests⟩
  rcases started_of_step hok hstarted with hbefore | ⟨_, hevent⟩
  · exact hfield.contacts other hbefore
  · obtain ⟨rfl, _⟩ := Event.start.inj hevent
    exact hself

theorem InField.timestep (hfield : InField truth config field) (hclosed : truth.Closed config)
    {host : Host} {batch : Batch} (hdevices : ∀ device ∈ batch.newDevice, truth.device device)
    (hstep : fieldStep config field (.timestep host batch) = .ok (later, output)) :
    InField truth config later := by
  obtain ⟨⟨network, sent⟩, hok, hnext⟩ := bind_eq_ok.mp hstep
  obtain ⟨rfl, rfl⟩ := Prod.mk.inj (Except.ok.inj hnext)
  obtain ⟨state, after, hfound, htimestep, hstates⟩ := timestep_of_step hok
  obtain ⟨_, _, hsteps⟩ := timestep_cases hok
  refine ⟨Truth.inNetwork_timestep hfield.network hclosed hdevices (hfield.contacts host) hok,
    fun other hstarted => ?_, ?_⟩
  · rcases started_of_step hok hstarted with hbefore | ⟨_, hevent⟩
    · exact hfield.contacts other hbefore
    · cases hevent
  -- a request is under way from before, or the node has made it in this timestep
  · rintro ⟨tactic, device⟩ hrequest
    rcases List.mem_append.mp hrequest with hold | hasked
    · exact hfield.requests _ hold
    · have hmessages : ∀ message ∈ batch.messages,
          truth.Tells (config.node host).host message := fun message hmem =>
        hfield.network.mail (host, message) (hsteps.taken message hmem)
      obtain ⟨⟨name, hsignup⟩, hdevice⟩ := Truth.asks_timestep htimestep
        (hfield.network.tables host state hfound) hmessages hasked
      exact ⟨⟨_, name, hsignup⟩, hdevice⟩

theorem InField.startTactic (hfield : InField truth config field) {address : Host}
    {process : Process} (hsignup : truth.signup process.tacticSolver ⟨address, process.name⟩)
    (hstep : fieldStep config field (.startTactic address process) = .ok (later, output)) :
    InField truth config later := by
  simp only [fieldStep] at hstep
  split at hstep
  next => cases hstep
  next =>
    obtain ⟨network, htell, hnext⟩ := bind_eq_ok.mp hstep
    obtain ⟨rfl, rfl⟩ := Prod.mk.inj (Except.ok.inj hnext)
    have htells : ∀ message ∈ [Message.tacticSignup ⟨address, process.name⟩],
        truth.Tells process.tacticSolver message := by
      intro message hmessage
      obtain rfl := List.mem_singleton.mp hmessage
      exact hsignup
    obtain ⟨htold, hstates⟩ := inNetwork_tell htells htell hfield.network
    exact hfield.of_tell htold hstates (List.Subset.refl _)

/-- The tactic that evaluates has been asked to. -/
theorem InField.evaluate (hfield : InField truth config field) {address : Host}
    {device : DeviceRow} {printed : List Char} {evaluationTime : Int}
    (htells : ∀ process, field.tactics address = some process →
      (address, device) ∈ field.requests →
      ∀ message ∈ process.evaluateInput device printed evaluationTime,
        truth.Tells process.tacticSolver message)
    (hstep : fieldStep config field (.evaluate address device printed evaluationTime) =
      .ok (later, output)) :
    InField truth config later := by
  simp only [fieldStep] at hstep
  split at hstep
  next hrequest =>
    split at hstep
    next => cases hstep
    next process hprocess =>
      obtain ⟨network, htell, hnext⟩ := bind_eq_ok.mp hstep
      obtain ⟨rfl, rfl⟩ := Prod.mk.inj (Except.ok.inj hnext)
      obtain ⟨htold, hstates⟩ :=
        inNetwork_tell (htells process hprocess hrequest) htell hfield.network
      exact hfield.of_tell htold hstates List.erase_subset
  next => cases hstep

theorem InField.timeout (hfield : InField truth config field) {address : Host}
    {device : DeviceRow}
    (hstep : fieldStep config field (.timeout address device) = .ok (later, output)) :
    InField truth config later := by
  simp only [fieldStep] at hstep
  split at hstep
  next =>
    obtain ⟨rfl, rfl⟩ := Prod.mk.inj (Except.ok.inj hstep)
    exact hfield.of_tell hfield.network rfl List.erase_subset
  next => cases hstep

end

/-! ## Every run -/

/-- Every message of an evaluation is a result or a failure. -/
theorem evaluateInput_cases {process : Process} {device : DeviceRow} {printed : List Char}
    {evaluationTime : Int} {message : Message}
    (hmessage : message ∈ process.evaluateInput device printed evaluationTime) :
    device.interfaceType ∈ process.supportedInterfaces ∧
      ((∃ numbers, successNumbers printed = some numbers ∧ message = .tacticEvaluationResult
        { strategy := process.name
          deviceName := device.clientId
          address := device.address
          interface := device.interfaceId
          latency := numbers.latency
          bandwidth := numbers.bandwidth
          overhead := numbers.overhead
          ttl := numbers.ttl
          evalDuration := evaluationTime }) ∨
        message = .failedEvaluationResult ⟨process.name, device.clientId, device.interfaceId⟩) := by
  unfold Process.evaluateInput at hmessage
  split at hmessage
  next hsupported =>
    split at hmessage
    next numbers hnumbers =>
      exact ⟨hsupported, .inl ⟨numbers, hnumbers, List.mem_singleton.mp hmessage⟩⟩
    next => exact ⟨hsupported, .inr (List.mem_singleton.mp hmessage)⟩
  next => cases hmessage

theorem concludes_of_mem {steps : List FieldStep} {host : Host} {process : Process}
    {device : DeviceRow} {printed : List Char} {evaluationTime : Int}
    (hevaluated : Evaluated steps host process device printed evaluationTime)
    {config : Config} {message : Message}
    (hmessage : message ∈ process.evaluateInput device printed evaluationTime) :
    (Truth.ofField config steps).Tells host message := by
  have hconcludes : Concludes steps host message := ⟨_, _, _, _, hevaluated, hmessage⟩
  rcases evaluateInput_cases hmessage with ⟨-, ⟨numbers, -, rfl⟩ | rfl⟩
  · exact hconcludes
  · exact hconcludes

theorem closed_ofField (config : Config) (steps : List FieldStep) :
    (Truth.ofField config steps).Closed config :=
  fun host result hresult => ⟨host, result, hresult, rfl⟩

/-- Part of a run, in terms of the whole run. -/
theorem inField_of_run {config : Config} {steps all : List FieldStep} {field : Field}
    (hrun : FieldRun config steps field) (hall : steps <+: all) :
    InField (Truth.ofField config all) config field := by
  induction hrun generalizing all with
  | start => exact inField_initial
  | @extend steps field next event output prior hstep ih =>
      have hfield := ih ((List.prefix_append _ _).trans hall)
      have hlast : ⟨field, event, output, next⟩ ∈ all := hall.subset List.mem_concat_self
      cases event with
      | start host now =>
          exact hfield.start ⟨_, hlast, host, now, rfl, rfl⟩ hstep
      | timestep host batch =>
          exact hfield.timestep (closed_ofField config all)
            (fun device hdevice => ⟨_, hlast, host, batch, rfl, hdevice⟩) hstep
      | startTactic address process =>
          exact hfield.startTactic ⟨_, hlast, process, rfl, rfl, rfl⟩ hstep
      | evaluate address device printed evaluationTime =>
          refine hfield.evaluate (fun process hprocess hrequest message hmessage => ?_) hstep
          obtain ⟨later, hsteps⟩ := hall
          rw [List.append_assoc, List.singleton_append] at hsteps
          -- the device has been added in the part of the run before
          have hadded : AddedAt steps device :=
            ((ih (List.prefix_refl steps)).requests _ hrequest).2
          have hevaluated : Evaluated all process.tacticSolver process device printed
              evaluationTime :=
            ⟨rfl, steps, _, later, address, hsteps.symm, hadded, rfl, hprocess⟩
          exact concludes_of_mem hevaluated hmessage
      | timeout address device => exact hfield.timeout hstep

/-- Every link of every node is what a prober has printed for a device on an
interface that its tactic supports, at the node that the link is from. -/
theorem link_of_fieldRun {config : Config} {steps : List FieldStep} {field : Field}
    (hrun : FieldRun config steps field) {host : Host} {state : State}
    (hstate : field.network.states host = some state) {link : LinkRow}
    (hlink : link ∈ state.links) :
    ∃ process device printed evaluationTime numbers,
      Evaluated steps process.tacticSolver process device printed evaluationTime ∧
        device.interfaceType ∈ process.supportedInterfaces ∧
        successNumbers printed = some numbers ∧
        link =
          { fromNode := config.name process.tacticSolver
            toDevice := device.clientId
            strategy := process.name
            interface := device.interfaceId
            latency := numbers.latency
            bandwidth := numbers.bandwidth
            overhead := numbers.overhead
            ttl := numbers.ttl
            evalLength := evaluationTime } := by
  have hfield := inField_of_run hrun (List.prefix_refl _)
  obtain ⟨node, result, ⟨process, device, printed, evaluationTime, hevaluated, hmessage⟩, rfl⟩ :=
    (hfield.network.tables host state hstate).links link hlink
  obtain rfl := hevaluated.node
  rcases evaluateInput_cases hmessage with ⟨hsupported, ⟨numbers, hnumbers, hresult⟩ | hfailure⟩
  · obtain rfl := Message.tacticEvaluationResult.inj hresult
    exact ⟨process, device, printed, evaluationTime, numbers, hevaluated, hsupported, hnumbers, rfl⟩
  · cases hfailure

/-! ## A link of the server -/

def addedPhone : DeviceRow := ⟨"phone", "eth", "eth0", "10.0.0.5"⟩

def direct : Process := ⟨"direct_connection", "server", ["eth"]⟩

def printedSuccess : List Char :=
  successWord ++ [' ', '2', '0', ' ', '1', '0', '0', ' ', '0', ' ', '6', '0', '\n']

/-- The server asks its tactic about a device, and is told of a link. -/
def evaluatingEvents : List FieldEvent :=
  let result : EvaluationResult :=
    ⟨"direct_connection", "phone", "10.0.0.5", "eth0", 20, 100, 0, 60, 2⟩
  [.start "server" 0, .startTactic "server:1" direct,
    .timestep "server"
      { messages := [.tacticSignup ⟨"server:1", "direct_connection"⟩], newDevice := [addedPhone],
        now := 1 },
    .timestep "server" { messages := [.serveDeviceInfo addedPhone], now := 2 },
    .evaluate "server:1" addedPhone printedSuccess 2,
    .timestep "server" { messages := [.tacticEvaluationResult result], now := 5 },
    .timestep "server"
      { messages := [.pushLink (((namedByHost "server").node "server").link result)], now := 6 }]

def printedLink : LinkRow := ⟨"server", "phone", "direct_connection", "eth0", 20, 100, 0, 60, 2⟩

theorem exists_printedLink :
    ∃ state, (final (fieldStep (namedByHost "server")) initialField
      evaluatingEvents).network.states "server" = some state ∧ printedLink ∈ state.links := by
  have hany : ((final (fieldStep (namedByHost "server")) initialField
      evaluatingEvents).network.states "server").any (printedLink ∈ ·.links) = true := by
    decide +kernel
  obtain ⟨state, hstate, hlink⟩ := (Option.any_eq_true _ _).mp hany
  exact ⟨state, hstate, of_decide_eq_true hlink⟩

theorem link_of_fieldRun_phone :
    ∃ process device printed evaluationTime numbers,
      Evaluated (record (fieldStep (namedByHost "server")) initialField evaluatingEvents)
          process.tacticSolver process device printed evaluationTime ∧
        device.interfaceType ∈ process.supportedInterfaces ∧
        successNumbers printed = some numbers ∧
        printedLink =
          { fromNode := (namedByHost "server").name process.tacticSolver
            toDevice := device.clientId
            strategy := process.name
            interface := device.interfaceId
            latency := numbers.latency
            bandwidth := numbers.bandwidth
            overhead := numbers.overhead
            ttl := numbers.ttl
            evalLength := evaluationTime } := by
  obtain ⟨state, hstate, hlink⟩ := exists_printedLink
  exact link_of_fieldRun (run_record _ _ evaluatingEvents) hstate hlink

end Signpost.Routing

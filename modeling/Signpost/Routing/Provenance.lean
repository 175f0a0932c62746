import Signpost.Routing.Network

/-! # Where routing information comes from

The tables of a node are told by others, who may have been told themselves. None
of them adds anything: whatever is told goes back to a node that has started, to
a device that has been added at a node, or to a report of a local tactic.
-/

namespace Signpost.Routing

open Bloom Machine

/-- What may be told, of each kind of row. Tactics tell it to their own nodes. -/
structure Truth where
  contact : Contact → Prop
  device : DeviceRow → Prop
  link : LinkRow → Prop
  signup : Host → Contact → Prop
  result : Host → EvaluationResult → Prop
  failure : Host → FailedResult → Prop

namespace Truth

variable (truth : Truth)

def Tells (receiver : Host) : Message → Prop
  | .heart contact | .connect contact | .requestDeviceInfo contact | .getLinks contact =>
      truth.contact contact
  | .nodeDiscovery row => truth.contact ⟨row.host, row.name⟩
  | .serveDeviceInfo device => truth.device device
  | .pushLink link => truth.link link
  | .tacticSignup tactic => truth.signup receiver tactic
  | .tacticEvaluationResult result => truth.result receiver result
  | .failedEvaluationResult result => truth.failure receiver result

/-- The link is told, or the node has been told that it cannot be made. -/
def Expiring (node : Node) (row : LinkTtl) : Prop :=
  (∃ link, truth.link link ∧ row.key = link.key) ∨
    ∃ result, truth.failure node.host result ∧
      row.key = ⟨node.name, result.deviceName, result.strategy, result.interfaceId⟩

structure InTables (node : Node) (state : State) : Prop where
  nodes : ∀ row ∈ state.nodes, truth.contact ⟨row.host, row.name⟩
  devices : ∀ row ∈ state.devices, truth.device row
  tactics : ∀ row ∈ state.tactics, truth.signup node.host row
  links : ∀ row ∈ state.links, truth.link row
  linkTtls : ∀ row ∈ state.linkTtls, truth.Expiring node row

/-- Nothing else is in a table or under way. -/
structure InNetwork (config : Config) (network : Network) : Prop where
  tables : ∀ host state, network.states host = some state →
    truth.InTables (config.node host) state
  mail : ∀ entry ∈ network.mail, truth.Tells entry.1 entry.2

/-- What comes into the domain with an event. -/
def Permits (config : Config) : Event → Prop
  | .start host _ => truth.contact (config.node host).contact
  | .timestep _ batch => ∀ device ∈ batch.newDevice, truth.device device
  | .report host message => truth.Tells host message

/-- A node makes a link of a result. -/
def Closed (config : Config) : Prop :=
  ∀ host result, truth.result host result → truth.link ((config.node host).link result)

end Truth

/-! ## One timestep -/

section

variable {truth : Truth} {node : Node} {state next : State} {batch : Batch} {output : Output}

theorem Truth.tells_sends (htables : truth.InTables node state)
    (hmessages : ∀ message ∈ batch.messages, truth.Tells node.host message)
    (hdevices : ∀ device ∈ batch.newDevice, truth.device device)
    (hself : truth.contact node.contact)
    (hclosed : ∀ result, truth.result node.host result → truth.link (node.link result))
    {receiver : Host} {message : Message}
    (hsent : (receiver, message) ∈ sends node state batch) : truth.Tells receiver message := by
  simp only [sends, List.mem_append, mem_heartbeats, mem_connects, mem_discoveries,
    mem_announcedDevices, mem_servedLinks, mem_evaluatedLinks] at hsent
  rcases hsent with ⟨_, _, rfl⟩ | ⟨_, _, rfl⟩ | ⟨_, row, hrow, rfl⟩ | hserved |
    ⟨_, device, hdevice, rfl⟩ | ⟨link, hlink, rfl, _⟩ | ⟨_, result, hresult, rfl⟩
  · exact hself
  · exact hself
  · exact htables.nodes row hrow
  · simp only [servedDevices, List.mem_flatMap, List.mem_map, Prod.mk.injEq] at hserved
    obtain ⟨_, _, device, hdevice, _, rfl⟩ := hserved
    exact htables.devices device hdevice
  · exact hdevices device hdevice
  · exact htables.links link hlink
  · exact hclosed result (hmessages _ hresult)

/-- A timestep that has completed, with the table that no other result speaks of. -/
theorem mem_tactics_of_timestep (hok : timestep node state batch = .ok (next, output))
    {row : Contact} (hrow : row ∈ next.tactics) :
    .tacticSignup row ∈ batch.messages ∨ row ∈ state.tactics := by
  simp only [timestep, bind_eq_ok] at hok
  obtain ⟨_, _, _, _, _, _, tactics, htactics, _, _, _, _, hresult⟩ := hok
  obtain ⟨rfl, _⟩ := Prod.mk.inj (Except.ok.inj hresult)
  rcases (mem_settle_derive htactics row).mp hrow with hnew | ⟨hold, _⟩
  · exact .inl (Batch.mem_tacticSignup.mp hnew)
  · exact .inr hold

theorem evalTacticRequest_of_timestep (hok : timestep node state batch = .ok (next, output)) :
    output.evalTacticRequest = evalTacticRequest node state batch := by
  simp only [timestep, bind_eq_ok] at hok
  obtain ⟨_, _, _, _, _, _, _, _, _, _, _, _, hresult⟩ := hok
  obtain ⟨_, rfl⟩ := Prod.mk.inj (Except.ok.inj hresult)
  rfl

theorem Truth.inTables_timestep (hok : timestep node state batch = .ok (next, output))
    (htables : truth.InTables node state)
    (hmessages : ∀ message ∈ batch.messages, truth.Tells node.host message) :
    truth.InTables node next := by
  have hfires := fires_of_timestep hok
  refine ⟨fun row hrow => ?_, fun row hrow => ?_, fun row hrow => ?_, fun row hrow => ?_,
    fun row hrow => ?_⟩
  · rcases (hfires.mem_nodes row).mp hrow with hnew | ⟨hold, _⟩
    · simp only [nodeUpdates, nodesToConnectTo, unseenNodes, List.mem_append, List.mem_map,
        List.mem_filter, Batch.mem_heart, Batch.mem_nodeDiscovery, Batch.mem_connect] at hnew
      rcases hnew with ⟨contact, hcontact, rfl⟩ | ⟨found, ⟨hfound, _⟩, rfl⟩ |
        ⟨contact, ⟨hcontact, _⟩, rfl⟩
      · exact hmessages _ hcontact
      · exact hmessages _ hfound
      · exact hmessages _ hcontact
    · exact htables.nodes row hold
  · rcases (hfires.mem_devices row).mp hrow with hnew | ⟨hold, _⟩
    · exact hmessages _ (Batch.mem_serveDeviceInfo.mp (List.mem_filter.mp hnew).1)
    · exact htables.devices row hold
  · rcases mem_tactics_of_timestep hok hrow with hnew | hold
    · exact hmessages _ hnew
    · exact htables.tactics row hold
  · rcases (hfires.mem_links row).mp hrow with hnew | ⟨hold, _⟩
    · exact hmessages _ (Batch.mem_pushLink.mp hnew)
    · exact htables.links row hold
  · rcases (hfires.mem_linkTtls row).mp hrow with hnew | ⟨hold, _⟩
    · simp only [linkTtlUpdates, List.mem_append, List.mem_map, Batch.mem_failedEvaluationResult,
        Batch.mem_pushLink] at hnew
      rcases hnew with ⟨result, hresult, rfl⟩ | ⟨link, hlink, rfl⟩
      · exact .inr ⟨result, hmessages _ hresult, rfl⟩
      · exact .inl ⟨link, hmessages _ hlink, rfl⟩
    · exact htables.linkTtls row hold

/-- A node asks its own tactics about devices that it has been told of. -/
theorem Truth.asks_timestep (hok : timestep node state batch = .ok (next, output))
    (htables : truth.InTables node state)
    (hmessages : ∀ message ∈ batch.messages, truth.Tells node.host message)
    {tactic : Host} {device : DeviceRow} (hasked : (tactic, device) ∈ output.evalTacticRequest) :
    (∃ name, truth.signup node.host ⟨tactic, name⟩) ∧ truth.device device := by
  rw [evalTacticRequest_of_timestep hok] at hasked
  simp only [evalTacticRequest, reevaluations, List.mem_append, List.mem_flatMap, List.mem_map,
    List.mem_filter, Prod.mk.injEq] at hasked
  rcases hasked with ⟨row, hrow, device, hdevice, rfl, rfl⟩ |
    ⟨row, hrow, device, hdevice, rfl, rfl⟩ |
    ⟨row, hrow, _, _, device, ⟨hdevice, _⟩, rfl, rfl⟩
  · exact ⟨⟨row.name, htables.tactics row hrow⟩,
      hmessages _ (Batch.mem_serveDeviceInfo.mp (List.mem_filter.mp hdevice).1)⟩
  · exact ⟨⟨row.name, hmessages _ (Batch.mem_tacticSignup.mp hrow)⟩,
      htables.devices device hdevice⟩
  · exact ⟨⟨row.name, htables.tactics row hrow⟩, htables.devices device hdevice⟩

end

/-! ## Whole runs -/

section

variable {truth : Truth} {config : Config} {network next : Network} {output : Output}

/-- A timestep as the network takes it. -/
theorem timestep_of_step {host : Host} {batch : Batch}
    (hok : step config network (.timestep host batch) = .ok (next, output)) :
    ∃ state after, network.states host = some state ∧
      timestep (config.node host) state batch = .ok (after, output) ∧
      next.states = Function.update network.states host (some after) := by
  simp only [step] at hok
  split at hok
  next => cases hok
  next state hfound =>
  split at hok
  next => cases hok
  next =>
  split at hok
  next => cases hok
  next after sent htimestep =>
    cases hok
    exact ⟨state, after, hfound, htimestep, rfl⟩

theorem Truth.inTables_bootstrap {node : Node} (hself : truth.contact node.contact)
    (isServer : Bool) (now : Int) : truth.InTables node (bootstrapState node isServer now) := by
  have hempty : truth.InTables node State.empty := by
    constructor <;>
      · intro row hrow
        cases hrow
  unfold bootstrapState
  split
  next =>
    refine { hempty with nodes := fun row hrow => ?_ }
    obtain rfl := List.mem_singleton.mp hrow
    exact hself
  next => exact hempty

/-- The tables of the network, when those of one node have been replaced. -/
theorem Truth.inTables_update
    (hnetwork : truth.InNetwork config network) {host : Host} {after : State}
    (hafter : truth.InTables (config.node host) after)
    (hstates : next.states = Function.update network.states host (some after)) :
    ∀ other state, next.states other = some state →
      truth.InTables (config.node other) state := by
  intro other state hstate
  rw [hstates] at hstate
  by_cases hsame : other = host
  · subst hsame
    rw [Function.update_self] at hstate
    obtain rfl := Option.some.inj hstate
    exact hafter
  · rw [Function.update_of_ne hsame] at hstate
    exact hnetwork.tables other state hstate

theorem Truth.inNetwork_start (hnetwork : truth.InNetwork config network) {host : Host}
    {now : Int} (hself : truth.contact (config.node host).contact)
    (hok : step config network (.start host now) = .ok (next, output)) :
    truth.InNetwork config next := by
  obtain ⟨_, hstates, hmail⟩ := start_cases hok
  constructor
  · exact inTables_update hnetwork (inTables_bootstrap hself _ now) hstates
  · intro entry hentry
    rw [hmail, List.mem_append] at hentry
    rcases hentry with hold | hsent
    · exact hnetwork.mail entry hold
    · unfold bootstrapSends at hsent
      split at hsent
      next => cases hsent
      -- a client sends the server three messages, and all of them name the client itself
      next =>
        simp only [List.mem_cons, List.not_mem_nil, or_false] at hsent
        rcases hsent with rfl | rfl | rfl <;> exact hself

theorem Truth.inNetwork_timestep (hnetwork : truth.InNetwork config network)
    (hclosed : truth.Closed config) {host : Host} {batch : Batch}
    (hdevices : ∀ device ∈ batch.newDevice, truth.device device)
    (hself : network.Started host → truth.contact (config.node host).contact)
    (hok : step config network (.timestep host batch) = .ok (next, output)) :
    truth.InNetwork config next := by
  obtain ⟨state, after, hfound, htimestep, hstates⟩ := timestep_of_step hok
  obtain ⟨_, _, hsteps⟩ := timestep_cases hok
  have htables := hnetwork.tables host state hfound
  -- a batch is taken out of the mail, and so it says what may be told
  have hmessages : ∀ message ∈ batch.messages, truth.Tells host message :=
    fun message hmem => hnetwork.mail (host, message) (hsteps.taken message hmem)
  constructor
  · exact inTables_update hnetwork (inTables_timestep htimestep htables hmessages) hstates
  · rintro ⟨receiver, message⟩ hentry
    obtain rfl := Option.some.inj (hsteps.found.symm.trans hfound)
    rcases hsteps.mem_mail hentry with hold | hsent
    · exact hnetwork.mail _ hold
    · exact tells_sends htables hmessages hdevices (hself ⟨_, hfound⟩) (hclosed host) hsent

theorem Truth.inNetwork_report (hnetwork : truth.InNetwork config network) {host : Host}
    {message : Message} (htells : truth.Tells host message)
    (hok : step config network (.report host message) = .ok (next, output)) :
    truth.InNetwork config next := by
  obtain ⟨_, hstates, hmail⟩ := report_cases hok
  constructor
  · intro other state hstate
    exact hnetwork.tables other state (hstates ▸ hstate)
  · intro entry hentry
    rw [hmail, List.mem_append, List.mem_singleton] at hentry
    rcases hentry with hold | rfl
    · exact hnetwork.mail entry hold
    · exact htells

theorem Truth.inNetwork_step (hnetwork : truth.InNetwork config network)
    (hclosed : truth.Closed config) {event : Event} (hpermits : truth.Permits config event)
    (hself : ∀ host, network.Started host → truth.contact (config.node host).contact)
    (hok : step config network event = .ok (next, output)) : truth.InNetwork config next := by
  cases event with
  | start host now => exact Truth.inNetwork_start hnetwork hpermits hok
  | timestep host batch => exact Truth.inNetwork_timestep hnetwork hclosed hpermits (hself host) hok
  | report host message => exact Truth.inNetwork_report hnetwork hpermits hok

/-- Only a node that starts is new among those that have started. -/
theorem started_of_step {event : Event} (hok : step config network event = .ok (next, output))
    {host : Host} (hstarted : next.Started host) :
    network.Started host ∨ ∃ now, event = .start host now := by
  obtain ⟨after, hafter⟩ := hstarted
  cases event with
  | start other now =>
      obtain ⟨_, hstates, _⟩ := start_cases hok
      by_cases hsame : host = other
      · exact .inr ⟨now, by rw [hsame]⟩
      · rw [hstates, Function.update_of_ne hsame] at hafter
        exact .inl ⟨after, hafter⟩
  | timestep other batch =>
      obtain ⟨before, _, hfound, _, hstates⟩ := timestep_of_step hok
      by_cases hsame : host = other
      · exact .inl ⟨before, hsame ▸ hfound⟩
      · rw [hstates, Function.update_of_ne hsame] at hafter
        exact .inl ⟨after, hafter⟩
  | report other message =>
      obtain ⟨_, hstates, _⟩ := report_cases hok
      exact .inl ⟨after, hstates ▸ hafter⟩

/-- In a run whose events bring in what may be told, nothing else is ever told. -/
theorem NetworkRun.inNetwork {steps : List NetworkStep} (hrun : NetworkRun config steps network)
    (hclosed : truth.Closed config) (hpermits : ∀ step ∈ steps, truth.Permits config step.input) :
    truth.InNetwork config network ∧
      ∀ host, network.Started host → truth.contact (config.node host).contact := by
  induction hrun with
  | start =>
      constructor
      · constructor
        · intro host state hstate
          cases hstate
        · intro entry hentry
          cases hentry
      · rintro host ⟨state, hstate⟩
        cases hstate
  | @extend steps state next event output prior hstep ih =>
      obtain ⟨hnetwork, hself⟩ := ih fun step hmem => hpermits step (List.mem_append_left _ hmem)
      have hevent : truth.Permits config event := hpermits _ List.mem_concat_self
      refine ⟨Truth.inNetwork_step hnetwork hclosed hevent hself hstep, ?_⟩
      intro host hstarted
      rcases started_of_step hstep hstarted with hbefore | ⟨now, rfl⟩
      · exact hself host hbefore
      · exact hevent

end

/-! ## What a run has brought in -/

section

variable (config : Config) (steps : List NetworkStep)

def Added (device : DeviceRow) : Prop :=
  ∃ step ∈ steps, ∃ host batch, step.input = .timestep host batch ∧ device ∈ batch.newDevice

def Reported (host : Host) (message : Message) : Prop :=
  ∃ step ∈ steps, step.input = .report host message

/-- The events of a run, and nothing else. -/
def Truth.ofRun : Truth where
  contact contact := ∃ step ∈ steps, ∃ host now,
    step.input = .start host now ∧ contact = (config.node host).contact
  device device := Added steps device
  link link := ∃ host result, Reported steps host (.tacticEvaluationResult result) ∧
    link = (config.node host).link result
  signup host tactic := Reported steps host (.tacticSignup tactic)
  result host result := Reported steps host (.tacticEvaluationResult result)
  failure host result := Reported steps host (.failedEvaluationResult result)

end

/-- Whatever order messages arrive in, the tables of all nodes and the messages under
way say only what some event of the run has brought in. -/
theorem inNetwork_ofRun {config : Config} {steps : List NetworkStep} {network : Network}
    (hrun : NetworkRun config steps network) :
    (Truth.ofRun config steps).InNetwork config network := by
  refine (hrun.inNetwork ?_ ?_).1
  · exact fun host result hresult => ⟨host, result, hresult, rfl⟩
  · intro step hmem
    cases hinput : step.input with
    | start host now => exact ⟨step, hmem, host, now, hinput, rfl⟩
    | timestep host batch => exact fun device hdevice => ⟨step, hmem, host, batch, hinput, hdevice⟩
    | report host message =>
        have htactic : message.ofTactic = true := by
          have hok := hrun.step_eq hmem
          rw [hinput] at hok
          exact (report_cases hok).1
        cases message with
        | tacticSignup tactic => exact ⟨step, hmem, hinput⟩
        | tacticEvaluationResult result => exact ⟨step, hmem, hinput⟩
        | failedEvaluationResult result => exact ⟨step, hmem, hinput⟩
        | heart | connect | nodeDiscovery | requestDeviceInfo | serveDeviceInfo | getLinks
        | pushLink => cases htactic

/-- A client joins, and a device is added at the server. -/
def addingEvents : List Event :=
  [.start "server" 0, .start "client" 1,
    .timestep "server" ⟨[.connect ⟨"client", "client"⟩],
      [⟨"phone", "eth", "eth0", "10.0.0.5"⟩], false, false, 2⟩]

theorem inNetwork_ofRun_adding :
    (Truth.ofRun (namedByHost "server")
      (record (step (namedByHost "server")) initial addingEvents)).InNetwork
        (namedByHost "server") (final (step (namedByHost "server")) initial addingEvents) :=
  inNetwork_ofRun (run_record _ _ _)

end Signpost.Routing

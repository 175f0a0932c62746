import Signpost.Routing.Network

/-! # What a node records of its own

A device that is updated locally and a link that a local tactic has evaluated are
sent to the nodes of the `nodes` table. They reach the tables of the node itself
only if it has a row for itself there.
-/

namespace Signpost.Routing

open Bloom Machine

variable {config : Config} {network next : Network} {steps earlier later : List NetworkStep}
  {host : Host} {device : DeviceRow} {link : LinkRow}

/-! ## Devices -/

def HasDevice (network : Network) (host : Host) (device : DeviceRow) : Prop :=
  ∃ state, network.states host = some state ∧ device ∈ state.devices

instance : Decidable (HasDevice network host device) :=
  decidable_of_iff ((network.states host).any fun state => device ∈ state.devices) <| by
    simp [HasDevice, Option.any_eq_true]

/-- The devices that are updated in the step, on whichever node. -/
def updatedDevices (step : NetworkStep) : List DeviceRow :=
  match step.input with
  | .timestep _ batch => batch.newDevice
  | .start _ _ | .report _ _ => []

def Updates (key : DeviceKey) (step : NetworkStep) : Prop :=
  ∃ device ∈ updatedDevices step, device.key = key

instance (key : DeviceKey) : DecidablePred (Updates key) := fun step =>
  inferInstanceAs (Decidable (∃ device ∈ updatedDevices step, device.key = key))

def UpdatesDevice (host : Host) (device : DeviceRow) (step : NetworkStep) : Prop :=
  ∃ batch, step.input = .timestep host batch ∧ device ∈ batch.newDevice

/-- A node has the devices that it has updated, until a newer update. -/
def RecordsDevices (steps : List NetworkStep) (network : Network) : Prop :=
  ∀ earlier updating later, steps = earlier ++ updating :: later →
    ∀ host device, UpdatesDevice host device updating →
      HasDevice network host device ∨ ∃ step ∈ later, Updates device.key step

/-- Whenever the node takes in another row of the device that it does not have, the
row of the device is still under way to it. -/
def NotStale (host : Host) (device : DeviceRow) (step : NetworkStep) : Prop :=
  ∀ batch state, step.input = .timestep host batch → step.before.states host = some state →
    ∀ stale ∈ newDeviceInfo state batch, stale.key = device.key → stale ≠ device →
      (host, .serveDeviceInfo device) ∈ step.before.mail.diff (batch.taken host)

def NoneStale (steps : List NetworkStep) : Prop :=
  ∀ earlier updating later, steps = earlier ++ updating :: later →
    ∀ host device, UpdatesDevice host device updating →
      (∀ step ∈ later, ¬ Updates device.key step) → ∀ step ∈ later, NotStale host device step

/-- The node that updates a device or takes in an evaluation in the step. -/
def producer (step : NetworkStep) : Option Host :=
  match step.input with
  | .timestep host batch =>
      if batch.newDevice = [] ∧ batch.tacticEvaluationResult = [] then none else some host
  | .start _ _ | .report _ _ => none

/-- A node has a row for itself whenever it produces something. -/
def KnowsItself (steps : List NetworkStep) : Prop :=
  ∀ step ∈ steps, ∀ host ∈ producer step, step.before.Knows host host

instance : DecidablePred KnowsItself := fun steps =>
  inferInstanceAs (Decidable (∀ step ∈ steps, ∀ host ∈ producer step, step.before.Knows host host))

theorem KnowsItself.of_timestep (hself : KnowsItself steps) {step : NetworkStep}
    (hstep : step ∈ steps) {batch : Batch} (hinput : step.input = .timestep host batch)
    (hproduces : ¬ (batch.newDevice = [] ∧ batch.tacticEvaluationResult = [])) :
    step.before.Knows host host := by
  apply hself step hstep
  rw [producer, hinput]
  exact if_neg hproduces

namespace Steps

variable {batch : Batch} {state after : State}

theorem device_under_way (hsteps : Steps config network host batch state after next)
    (hself : network.Knows host host) (hdevice : device ∈ batch.newDevice) :
    (host, .serveDeviceInfo device) ∈ next.mail := by
  apply hsteps.mem_mail_of_sends
  obtain ⟨found, hfound, hknows⟩ := hself
  obtain rfl := Option.some.inj (hsteps.found.symm.trans hfound)
  simp only [sends, List.mem_append]
  exact Or.inr (Or.inr (Or.inr (Or.inr (Or.inl
    (mem_announcedDevices.mpr ⟨hknows, device, hdevice, rfl⟩)))))

theorem hasDevice (hsteps : Steps config network host batch state after next)
    (hfresh : ∀ stale ∈ newDeviceInfo state batch, stale.key = device.key → stale = device)
    (hdevice : device ∈ state.devices ∨ .serveDeviceInfo device ∈ batch.messages) :
    HasDevice next host device := by
  obtain ⟨_, hfires⟩ := hsteps.fires
  refine ⟨after, by rw [hsteps.states_eq, Function.update_self], (hfires.mem_devices device).mpr ?_⟩
  by_cases hheld : device ∈ state.devices
  · by_cases hnew : device ∈ newDeviceInfo state batch
    · exact Or.inl hnew
    · refine Or.inr ⟨hheld, fun update hupdate hkey => hnew ?_⟩
      rwa [← hfresh update hupdate hkey]
  · left
    exact List.mem_filter.mpr
      ⟨Batch.mem_serveDeviceInfo.mpr (hdevice.resolve_left hheld), decide_eq_true hheld⟩

end Steps

/-- The update is under way to the node, or is in its table. -/
def Underway (host : Host) (device : DeviceRow) (network : Network) : Prop :=
  (host, .serveDeviceInfo device) ∈ network.mail ∨ HasDevice network host device

theorem Underway.step {last : NetworkStep} (hunderway : Underway host device last.before)
    (hok : step config last.before last.input = .ok (last.after, last.output))
    (hstale : NotStale host device last) : Underway host device last.after := by
  by_cases hother : ∀ batch, last.input ≠ .timestep host batch
  · obtain ⟨hmail, hstates⟩ := kept_of_step hok hother
    rcases hunderway with hmem | ⟨state, hstate, hdevice⟩
    · exact Or.inl (hmail _ hmem)
    · exact Or.inr ⟨state, hstates state hstate, hdevice⟩
  · push Not at hother
    obtain ⟨batch, hinput⟩ := hother
    rw [hinput] at hok
    obtain ⟨state, after, hsteps⟩ := timestep_cases hok
    by_cases hfresh : ∀ stale ∈ newDeviceInfo state batch, stale.key = device.key → stale = device
    · rcases hunderway with hmem | ⟨found, hfound, hdevice⟩
      · rcases hsteps.mem_mail_or_mem hmem with hstill | ⟨_, htaken⟩
        · exact Or.inl hstill
        · exact Or.inr (hsteps.hasDevice hfresh (Or.inr htaken))
      · obtain rfl := Option.some.inj (hsteps.found.symm.trans hfound)
        exact Or.inr (hsteps.hasDevice hfresh (Or.inl hdevice))
    · push Not at hfresh
      obtain ⟨stale, hmem, hkey, hdiffers⟩ := hfresh
      left
      rw [hsteps.mail_eq]
      exact List.mem_append_left _
        (hstale batch state hinput hsteps.found stale hmem hkey hdiffers)

theorem recordsDevices (hrun : NetworkRun config steps network) (hself : KnowsItself steps)
    (hstale : NoneStale steps) (hquiet : network.mail = []) : RecordsDevices steps network := by
  rintro earlier updating later rfl host device ⟨batch, hinput, hdevice⟩
  by_cases hnewer : ∃ step ∈ later, Updates device.key step
  · exact Or.inr hnewer
  · push Not at hnewer
    have hfresh := hstale earlier updating later rfl host device ⟨batch, hinput, hdevice⟩ hnewer
    have hmem : updating ∈ earlier ++ updating :: later := by simp
    have hok := Run.step_eq hrun hmem
    rw [hinput] at hok
    obtain ⟨state, after, hsteps⟩ := timestep_cases hok
    have hknows := hself.of_timestep hmem hinput fun hnone =>
      List.ne_nil_of_mem hdevice hnone.1
    have hend : Underway host device network := by
      apply Run.since (P := fun _ network => Underway host device network) hrun
      · exact Or.inl (hsteps.device_under_way hknows hdevice)
      · intro middle last hinitial hlast hbefore
        have hlater : last ∈ later := hinitial.subset (by simp)
        exact hbefore.step hlast (hfresh last hlater)
    rcases hend with hmail | hhas
    · rw [hquiet] at hmail
      cases hmail
    · exact Or.inl hhas

/-! ## Links -/

def HasLink (network : Network) (host : Host) (key : LinkKey) : Prop :=
  ∃ state, network.states host = some state ∧ ∃ link ∈ state.links, link.key = key

/-- The node takes in a link with the key. -/
def TakesLink (host : Host) (key : LinkKey) (step : NetworkStep) : Prop :=
  ∃ batch, step.input = .timestep host batch ∧ ∃ link ∈ batch.pushLink, link.key = key

/-- The node finds that the recorded lifetime of a link with the key has expired. -/
def Expires (host : Host) (key : LinkKey) (step : NetworkStep) : Prop :=
  ∃ batch state, step.input = .timestep host batch ∧ step.before.states host = some state ∧
    ∃ lttl ∈ ttledLinks state batch, lttl.key = key

/-- The link has been in the table, and its recorded lifetime has expired since. -/
def ExpiredAfter (host : Host) (key : LinkKey) (steps : List NetworkStep) : Prop :=
  ∃ earlier expiring later, steps = earlier ++ expiring :: later ∧
    Expires host key expiring ∧ ∃ step ∈ earlier, TakesLink host key step

/-- A node has the links that its tactics have evaluated, until they expire. -/
def RecordsLinks (config : Config) (steps : List NetworkStep) (network : Network) : Prop :=
  ∀ earlier reporting later, steps = earlier ++ reporting :: later →
    ∀ host result, reporting.input = .report host (.tacticEvaluationResult result) →
      HasLink network host ((config.node host).link result).key ∨
        ExpiredAfter host ((config.node host).link result).key later

/-- The links of its own that a node removes because a node of its name is dead. -/
def ownDeadLinks (config : Config) (step : NetworkStep) : List LinkRow :=
  match step.input with
  | .timestep host batch =>
      (step.before.states host).elim [] fun state =>
        (deadLinks (config.node host) state batch).filter fun link =>
          link.fromNode = config.name host
  | .start _ _ | .report _ _ => []

def NotDead (config : Config) (steps : List NetworkStep) : Prop :=
  ∀ step ∈ steps, ownDeadLinks config step = []

instance : DecidablePred (NotDead config) := fun steps =>
  inferInstanceAs (Decidable (∀ step ∈ steps, ownDeadLinks config step = []))

theorem NotDead.of_timestep (hdead : NotDead config steps) {step : NetworkStep}
    (hstep : step ∈ steps) {batch : Batch} {state : State}
    (hinput : step.input = .timestep host batch) (hstate : step.before.states host = some state)
    (hlink : link ∈ deadLinks (config.node host) state batch) :
    link.fromNode ≠ config.name host := by
  have hnone := hdead step hstep
  simp only [ownDeadLinks, hinput, hstate, Option.elim_some, List.filter_eq_nil_iff,
    decide_eq_true_eq] at hnone
  exact hnone link hlink

/-- The evaluation or the link is under way to the node, or the link has been taken in
and is there or has expired. -/
def LinkUnderway (config : Config) (host : Host) (result : EvaluationResult)
    (since : List NetworkStep) (network : Network) : Prop :=
  (host, .tacticEvaluationResult result) ∈ network.mail ∨
    (host, .pushLink ((config.node host).link result)) ∈ network.mail ∨
    (HasLink network host ((config.node host).link result).key ∧
      ∃ step ∈ since, TakesLink host ((config.node host).link result).key step) ∨
    ExpiredAfter host ((config.node host).link result).key since

theorem ExpiredAfter.concat {key : LinkKey} (hexpired : ExpiredAfter host key steps)
    (last : NetworkStep) : ExpiredAfter host key (steps ++ [last]) := by
  obtain ⟨earlier, expiring, later, rfl, hrest⟩ := hexpired
  exact ⟨earlier, expiring, later ++ [last], by simp, hrest⟩

namespace Steps

variable {batch : Batch} {state after : State} {result : EvaluationResult}

theorem link_under_way (hsteps : Steps config network host batch state after next)
    (hself : network.Knows host host) (hresult : .tacticEvaluationResult result ∈ batch.messages) :
    (host, .pushLink ((config.node host).link result)) ∈ next.mail := by
  apply hsteps.mem_mail_of_sends
  obtain ⟨found, hfound, hknows⟩ := hself
  obtain rfl := Option.some.inj (hsteps.found.symm.trans hfound)
  simp only [sends, List.mem_append]
  exact Or.inr (Or.inr (Or.inr (Or.inr (Or.inr (Or.inr
    (mem_evaluatedLinks.mpr ⟨hknows, result, hresult, rfl⟩))))))

theorem hasLink_of_pushLink (hsteps : Steps config network host batch state after next)
    (hlink : link ∈ batch.pushLink) : HasLink next host link.key := by
  obtain ⟨_, hfires⟩ := hsteps.fires
  exact ⟨after, by rw [hsteps.states_eq, Function.update_self], link,
    (hfires.mem_links link).mpr (Or.inl hlink), rfl⟩

/-- A link stays in the table unless its node is declared dead or it expires. -/
theorem hasLink_of_mem (hsteps : Steps config network host batch state after next)
    (hlink : link ∈ state.links) (hdead : link ∉ deadLinks (config.node host) state batch)
    (hexpired : link ∉ expiredLinks state batch) : HasLink next host link.key := by
  obtain ⟨_, hfires⟩ := hsteps.fires
  by_cases hreplaced : ∃ update ∈ batch.pushLink, update.key = link.key
  · obtain ⟨update, hupdate, hkey⟩ := hreplaced
    rw [← hkey]
    exact hsteps.hasLink_of_pushLink hupdate
  · push Not at hreplaced
    refine ⟨after, by rw [hsteps.states_eq, Function.update_self], link, ?_, rfl⟩
    refine (hfires.mem_links link).mpr (Or.inr ⟨hlink, ?_, hreplaced⟩)
    simp [hdead, hexpired]

/-- A link with the key stays, or the lifetime that is recorded for the key has expired. -/
theorem hasLink_or_expires (hsteps : Steps config network host batch state after next)
    {key : LinkKey} (hhas : HasLink network host key)
    (hdead : ∀ link ∈ deadLinks (config.node host) state batch, link.fromNode ≠ key.fromNode) :
    HasLink next host key ∨ ∃ lttl ∈ ttledLinks state batch, lttl.key = key := by
  obtain ⟨found, hfound, held, hheld, rfl⟩ := hhas
  obtain rfl := Option.some.inj (hsteps.found.symm.trans hfound)
  by_cases hexpired : held ∈ expiredLinks state batch
  · obtain ⟨lttl, hlttl, hmatch⟩ := List.mem_flatMap.mp hexpired
    have hsame : held.key = lttl.key := of_decide_eq_true (List.mem_filter.mp hmatch).2
    exact Or.inr ⟨lttl, hlttl, hsame.symm⟩
  · exact Or.inl (hsteps.hasLink_of_mem hheld (fun hmem => hdead held hmem rfl) hexpired)

end Steps

theorem LinkUnderway.step {result : EvaluationResult} {since : List NetworkStep}
    {last : NetworkStep} (hunderway : LinkUnderway config host result since last.before)
    (hok : step config last.before last.input = .ok (last.after, last.output))
    (hself : ∀ batch, last.input = .timestep host batch → batch.tacticEvaluationResult ≠ [] →
      last.before.Knows host host)
    (hdead : ∀ batch state, last.input = .timestep host batch →
      last.before.states host = some state →
        ∀ link ∈ deadLinks (config.node host) state batch, link.fromNode ≠ config.name host) :
    LinkUnderway config host result (since ++ [last]) last.after := by
  by_cases hother : ∀ batch, last.input ≠ .timestep host batch
  · obtain ⟨hmail, hstates⟩ := kept_of_step hok hother
    rcases hunderway with hmem | hmem | ⟨⟨state, hstate, hlink⟩, step, hstep, htakes⟩ | hexpired
    · exact Or.inl (hmail _ hmem)
    · exact Or.inr (Or.inl (hmail _ hmem))
    · exact Or.inr (Or.inr (Or.inl ⟨⟨state, hstates state hstate, hlink⟩, step,
        List.mem_append_left _ hstep, htakes⟩))
    · exact Or.inr (Or.inr (Or.inr (hexpired.concat last)))
  · push Not at hother
    obtain ⟨batch, hinput⟩ := hother
    rw [hinput] at hok
    obtain ⟨state, after, hsteps⟩ := timestep_cases hok
    rcases hunderway with hmem | hmem | ⟨hhas, step, hstep, htakes⟩ | hexpired
    · rcases hsteps.mem_mail_or_mem hmem with hstill | ⟨_, htaken⟩
      · exact Or.inl hstill
      · have hresult := Batch.mem_tacticEvaluationResult.mpr htaken
        have hknows := hself batch hinput (List.ne_nil_of_mem hresult)
        exact Or.inr (Or.inl (hsteps.link_under_way hknows htaken))
    · rcases hsteps.mem_mail_or_mem hmem with hstill | ⟨_, htaken⟩
      · exact Or.inr (Or.inl hstill)
      · have hlink := Batch.mem_pushLink.mpr htaken
        exact Or.inr (Or.inr (Or.inl ⟨hsteps.hasLink_of_pushLink hlink, last, by simp, batch,
          hinput, _, hlink, rfl⟩))
    · rcases hsteps.hasLink_or_expires hhas (hdead batch state hinput hsteps.found) with
        hstays | hexpires
      · exact Or.inr (Or.inr (Or.inl ⟨hstays, step, List.mem_append_left _ hstep, htakes⟩))
      · exact Or.inr (Or.inr (Or.inr ⟨since, last, [], rfl,
          ⟨batch, state, hinput, hsteps.found, hexpires⟩, step, hstep, htakes⟩))
    · exact Or.inr (Or.inr (Or.inr (hexpired.concat last)))

theorem recordsLinks (hrun : NetworkRun config steps network) (hself : KnowsItself steps)
    (hdead : NotDead config steps) (hquiet : network.mail = []) :
    RecordsLinks config steps network := by
  rintro earlier reporting later rfl host result hinput
  have hmem : reporting ∈ earlier ++ reporting :: later := by simp
  have hok := Run.step_eq hrun hmem
  rw [hinput] at hok
  have hend : LinkUnderway config host result later network := by
    apply Run.since (P := LinkUnderway config host result) hrun
    · left
      rw [(report_cases hok).2.2]
      simp
    · intro middle last hinitial hlast hbefore
      have hlater : last ∈ earlier ++ reporting :: later :=
        List.mem_append_right _ (List.mem_cons_of_mem _ (hinitial.subset (by simp)))
      apply hbefore.step hlast
      · exact fun batch hbatch hresult =>
          hself.of_timestep hlater hbatch fun hnone => hresult hnone.2
      · exact fun batch state hbatch hstate link => hdead.of_timestep hlater hbatch hstate
  rcases hend with hmail | hmail | ⟨hhas, _⟩ | hexpired
  · rw [hquiet] at hmail
    cases hmail
  · rw [hquiet] at hmail
    cases hmail
  · exact Or.inl hhas
  · exact Or.inr hexpired

/-- A node that has a row for itself whenever it produces something has everything that
it produced when nothing is under way. -/
theorem recordsOwn_of_knowsItself (hrun : NetworkRun config steps network)
    (hself : KnowsItself steps) (hstale : NoneStale steps) (hdead : NotDead config steps)
    (hquiet : network.mail = []) :
    RecordsDevices steps network ∧ RecordsLinks config steps network :=
  ⟨recordsDevices hrun hself hstale hquiet, recordsLinks hrun hself hdead hquiet⟩

/-! ## A client that does not know itself yet -/

def phone : DeviceRow := ⟨"phone", "eth", "eth0", "10.0.0.5"⟩

/-- A client joins, and learns of itself when it connects to the server again. -/
def joinEvents (updated : List DeviceRow) : List Event :=
  [.start "server" 0, .start "client" 0,
    .timestep "client" { newDevice := updated, now := 0 },
    .timestep "server"
      { messages := [.connect ⟨"client", "client"⟩, .requestDeviceInfo ⟨"client", "client"⟩,
          .getLinks ⟨"client", "client"⟩], now := 0 },
    .timestep "client" { messages := [.nodeDiscovery ⟨"server", "server", 0⟩], now := 0 },
    .timestep "server" { messages := [.connect ⟨"client", "client"⟩], now := 0 },
    .timestep "client"
      { messages := [.nodeDiscovery ⟨"server", "server", 0⟩,
          .nodeDiscovery ⟨"client", "client", 0⟩], now := 0 },
    .timestep "client" { messages := [.connect ⟨"client", "client"⟩], now := 0 },
    .timestep "client"
      { messages := [.nodeDiscovery ⟨"server", "server", 0⟩,
          .nodeDiscovery ⟨"client", "client", 0⟩], now := 0 }]

def phoneResult : EvaluationResult :=
  ⟨"direct_connection", "phone", "10.0.0.5", "eth0", 20, 100, 0, 60, 2⟩

def producingEvents : List Event :=
  let link := ((namedByHost "server").node "client").link phoneResult
  joinEvents [] ++
    [.timestep "client" { newDevice := [phone], now := 0 },
      .timestep "client" { messages := [.serveDeviceInfo phone], now := 0 },
      .timestep "server" { messages := [.serveDeviceInfo phone], now := 0 },
      .report "client" (.tacticEvaluationResult phoneResult),
      .timestep "client" { messages := [.tacticEvaluationResult phoneResult], now := 0 },
      .timestep "client" { messages := [.pushLink link], now := 0 },
      .timestep "server" { messages := [.pushLink link], now := 0 }]

def producingSteps : List NetworkStep :=
  record (step (namedByHost "server")) initial producingEvents

theorem noneStale_producing : NoneStale producingSteps := by
  -- the run has one update, and no other row of the device
  have hphone : producingEvents.all (fun event =>
      match event with
      | .timestep _ batch => (batch.newDevice ++ batch.serveDeviceInfo).all (· = phone)
      | .start _ _ | .report _ _ => true) = true := by
    decide +kernel
  have hdevices : ∀ step ∈ producingSteps, ∀ host batch, step.input = .timestep host batch →
      ∀ device ∈ batch.newDevice ++ batch.serveDeviceInfo, device = phone := by
    intro step hstep host batch hinput device hdevice
    have hbatch := List.all_eq_true.mp hphone _ (input_mem_of_record hstep)
    rw [hinput] at hbatch
    exact of_decide_eq_true (List.all_eq_true.mp hbatch device hdevice)
  intro earlier updating later hsplit host device hupdates _ step hstep batch state hinput _ stale
    hstale _ hdiffers
  obtain ⟨updated, hupdating, hdevice⟩ := hupdates
  have hstalePhone := hdevices step (by simp [hsplit, hstep]) host batch hinput stale
    (List.mem_append_right _ (List.mem_filter.mp hstale).1)
  have hdevicePhone := hdevices updating (by simp [hsplit]) host updated hupdating device
    (List.mem_append_left _ hdevice)
  exact absurd (hstalePhone.trans hdevicePhone.symm) hdiffers

theorem recordsOwn_of_knowsItself_producing :
    RecordsDevices producingSteps (final (step (namedByHost "server")) initial producingEvents) ∧
      RecordsLinks (namedByHost "server") producingSteps
        (final (step (namedByHost "server")) initial producingEvents) :=
  recordsOwn_of_knowsItself (run_record (step (namedByHost "server")) initial producingEvents)
    (by decide +kernel) noneStale_producing (by decide +kernel) (by decide +kernel)

def earlySteps : List NetworkStep :=
  record (step (namedByHost "server")) initial (joinEvents [phone])

theorem not_recordsOwn_of_early :
    ¬ ∀ (steps : List NetworkStep) (network : Network),
      NetworkRun (namedByHost "server") steps network → network.mail = [] →
        RecordsDevices steps network ∧ RecordsLinks (namedByHost "server") steps network := by
  intro hclaim
  obtain ⟨updating, hupdating, hupdate⟩ := (Option.any_eq_true _ _).mp
    (by decide +kernel : earlySteps[2]?.any (fun step =>
      step.input = .timestep "client" { newDevice := [phone], now := 0 }) = true)
  have hsplit : earlySteps = earlySteps.take 2 ++ updating :: earlySteps.drop 3 := by
    obtain ⟨hlength, rfl⟩ := List.getElem?_eq_some_iff.mp hupdating
    rw [← List.drop_eq_getElem_cons, List.take_append_drop]
  have hmissing : ¬ HasDevice (final (step (namedByHost "server")) initial (joinEvents [phone]))
      "client" phone := by
    decide +kernel
  have hlast : ¬ ∃ step ∈ earlySteps.drop 3, Updates phone.key step := by decide +kernel
  obtain ⟨hrecords, _⟩ := hclaim _ _
    (run_record (step (namedByHost "server")) initial (joinEvents [phone])) (by decide +kernel)
  have hphone : UpdatesDevice "client" phone updating :=
    ⟨_, of_decide_eq_true hupdate, List.mem_cons_self⟩
  exact (hrecords _ _ _ hsplit "client" phone hphone).elim hmissing hlast

end Signpost.Routing

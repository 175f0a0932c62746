import Signpost.Routing.Network

/-! # The full mesh of nodes

A client that joins is told of the nodes that the server knew before, connects
to those it does not know, and is known to them from then on. Two clients whose
connects the server takes in together are not told of each other until one of
them connects to the server again.
-/

namespace Signpost.Routing

open Bloom Machine

def Message.ofConnections : Message → Bool
  | .connect _ | .nodeDiscovery _ => true
  | _ => false

namespace Network

variable (network : Network)

/-- A connect is under way. -/
def Connecting (sender receiver : Host) : Prop :=
  ∃ contact, (receiver, .connect contact) ∈ network.mail ∧ contact.host = sender

/-- The receiver is being told of a node. -/
def Discovering (found receiver : Host) : Prop :=
  ∃ row, (receiver, .nodeDiscovery row) ∈ network.mail ∧ row.host = found

/-- No connect and no `node_discovery` is under way. -/
def Settled : Prop := ∀ entry ∈ network.mail, entry.2.ofConnections = false

instance : Decidable network.Settled :=
  inferInstanceAs (Decidable (∀ entry ∈ network.mail, entry.2.ofConnections = false))

def FullMesh : Prop :=
  ∀ left right, left ≠ right → network.Started left → network.Started right →
    network.Knows left right

variable {network} {sender receiver found : Host}

theorem Settled.not_connecting (hsettled : network.Settled) :
    ¬ network.Connecting sender receiver := by
  rintro ⟨contact, hmem, _⟩
  cases hsettled _ hmem

theorem Settled.not_discovering (hsettled : network.Settled) :
    ¬ network.Discovering found receiver := by
  rintro ⟨row, hmem, _⟩
  cases hsettled _ hmem

end Network

/-! ## What a timestep does to the mesh -/

variable {config : Config} {network next : Network} {output : Output}

namespace Steps

variable {host sender receiver found : Host} {batch : Batch} {state after : State}

theorem started_iff (hsteps : Steps config network host batch state after next) (other : Host) :
    next.Started other ↔ network.Started other := by
  simp only [Network.Started, hsteps.states_eq]
  by_cases hother : other = host
  · subst hother
    simp [hsteps.found]
  · simp [hother]

theorem knows_self (hsteps : Steps config network host batch state after next) (other : Host) :
    network.Knows host other ↔ state.Knows other := by
  simp [Network.Knows, hsteps.found]

theorem knows_iff (hsteps : Steps config network host batch state after next)
    (halive : deadNodes (config.node host) state batch = []) (knower other : Host) :
    next.Knows knower other ↔
      network.Knows knower other ∨ knower = host ∧ HearsOf batch other := by
  obtain ⟨output, hfires⟩ := hsteps.fires
  simp only [Network.Knows, hsteps.states_eq]
  by_cases hknower : knower = host
  · subst hknower
    simp [hsteps.found, hfires.knows_iff halive]
  · simp [hknower]

theorem knows_of_knows (hsteps : Steps config network host batch state after next)
    (halive : deadNodes (config.node host) state batch = []) {knower other : Host}
    (hold : network.Knows knower other) : next.Knows knower other :=
  (hsteps.knows_iff halive knower other).mpr (Or.inl hold)

theorem knows_of_takesDiscovery (hsteps : Steps config network host batch state after next)
    (halive : deadNodes (config.node host) state batch = [])
    (hdiscovery : TakesDiscovery batch found) : next.Knows host found :=
  (hsteps.knows_iff halive host found).mpr (Or.inr ⟨rfl, Or.inr (Or.inl hdiscovery)⟩)

theorem knows_of_takesConnect (hsteps : Steps config network host batch state after next)
    (halive : deadNodes (config.node host) state batch = [])
    (hconnect : TakesConnect batch sender) : next.Knows host sender :=
  (hsteps.knows_iff halive host sender).mpr (Or.inr ⟨rfl, Or.inr (Or.inr hconnect)⟩)

theorem connecting (hsteps : Steps config network host batch state after next)
    (hnext : next.Connecting sender receiver) :
    network.Connecting sender receiver ∨
      sender = host ∧ TakesDiscovery batch receiver ∧ ¬ state.Knows receiver := by
  obtain ⟨contact, hmem, rfl⟩ := hnext
  rcases hsteps.mem_mail hmem with hold | hsent
  · exact Or.inl ⟨contact, hold, rfl⟩
  · obtain ⟨hdiscovery, hknows, rfl⟩ := mem_sends_connect.mp hsent
    exact Or.inr ⟨rfl, hdiscovery, hknows⟩

theorem connecting_of_takesDiscovery (hsteps : Steps config network host batch state after next)
    (hdiscovery : TakesDiscovery batch receiver) (hknows : ¬ state.Knows receiver) :
    next.Connecting host receiver :=
  ⟨(config.node host).contact,
    hsteps.mem_mail_of_sends (mem_sends_connect.mpr ⟨hdiscovery, hknows, rfl⟩), rfl⟩

theorem connecting_or_takes (hsteps : Steps config network host batch state after next)
    (hold : network.Connecting sender receiver) :
    next.Connecting sender receiver ∨ receiver = host ∧ TakesConnect batch sender := by
  obtain ⟨contact, hmem, rfl⟩ := hold
  rcases hsteps.mem_mail_or_mem hmem with hnext | ⟨hhost, htaken⟩
  · exact Or.inl ⟨contact, hnext, rfl⟩
  · exact Or.inr ⟨hhost, contact, htaken, rfl⟩

theorem discovering (hsteps : Steps config network host batch state after next)
    (hnext : next.Discovering found receiver) :
    network.Discovering found receiver ∨ TakesConnect batch receiver ∧ state.Knows found := by
  obtain ⟨row, hmem, rfl⟩ := hnext
  rcases hsteps.mem_mail hmem with hold | hsent
  · exact Or.inl ⟨row, hold, rfl⟩
  · obtain ⟨hconnect, hrow⟩ := mem_sends_nodeDiscovery.mp hsent
    exact Or.inr ⟨hconnect, row, hrow, rfl⟩

theorem discovering_of_takesConnect (hsteps : Steps config network host batch state after next)
    (hconnect : TakesConnect batch receiver) (hknows : state.Knows found) :
    next.Discovering found receiver := by
  obtain ⟨row, hrow, rfl⟩ := hknows
  exact ⟨row, hsteps.mem_mail_of_sends (mem_sends_nodeDiscovery.mpr ⟨hconnect, hrow⟩), rfl⟩

theorem discovering_or_takes (hsteps : Steps config network host batch state after next)
    (hold : network.Discovering found receiver) :
    next.Discovering found receiver ∨ receiver = host ∧ TakesDiscovery batch found := by
  obtain ⟨row, hmem, rfl⟩ := hold
  rcases hsteps.mem_mail_or_mem hmem with hnext | ⟨hhost, htaken⟩
  · exact Or.inl ⟨row, hnext, rfl⟩
  · exact Or.inr ⟨hhost, row, htaken, rfl⟩

theorem of_takesConnect (hsteps : Steps config network host batch state after next)
    (htakes : TakesConnect batch sender) : network.Connecting sender host := by
  obtain ⟨contact, hmem, rfl⟩ := htakes
  exact ⟨contact, hsteps.taken _ hmem, rfl⟩

theorem of_takesDiscovery (hsteps : Steps config network host batch state after next)
    (htakes : TakesDiscovery batch found) : network.Discovering found host := by
  obtain ⟨row, hmem, rfl⟩ := htakes
  exact ⟨row, hsteps.taken _ hmem, rfl⟩

end Steps

/-! ## What the other events do to the mesh -/

section Start

variable {host sender receiver found : Host} {now : Int}

theorem knows_start_iff (hok : step config network (.start host now) = .ok (next, output))
    (knower other : Host) :
    next.Knows knower other ↔ network.Knows knower other ∨
      host = config.server ∧ knower = host ∧ other = host := by
  obtain ⟨hnone, hstates, _⟩ := start_cases hok
  simp only [Network.Knows, hstates]
  by_cases hknower : knower = host
  · subst hknower
    simp only [Function.update_self, Option.some.injEq, exists_eq_left', hnone, bootstrapState]
    split
    next hserver =>
      have hsame : knower = config.server := of_decide_eq_true hserver
      simp [State.Knows, Config.node, hsame, eq_comm]
    next hclient =>
      have hdiffers : knower ≠ config.server := fun hsame => hclient (decide_eq_true hsame)
      simp [hdiffers]
  · simp [hknower]

theorem started_start_iff (hok : step config network (.start host now) = .ok (next, output))
    (other : Host) : next.Started other ↔ network.Started other ∨ other = host := by
  obtain ⟨_, hstates, _⟩ := start_cases hok
  simp only [Network.Started, hstates]
  by_cases hother : other = host
  · subst hother
    simp
  · simp [hother]

theorem mem_mail_start_iff (hok : step config network (.start host now) = .ok (next, output))
    (receiver : Host) (message : Message) :
    (receiver, message) ∈ next.mail ↔ (receiver, message) ∈ network.mail ∨
      host ≠ config.server ∧ receiver = config.server ∧
        message ∈ [.connect (config.node host).contact,
          .requestDeviceInfo (config.node host).contact, .getLinks (config.node host).contact] := by
  obtain ⟨_, _, hmail⟩ := start_cases hok
  rw [hmail, List.mem_append, bootstrapSends]
  by_cases hserver : host = config.server
  · simp [hserver]
  · simp only [hserver, decide_false]
    simp
    grind

theorem connecting_start_iff (hok : step config network (.start host now) = .ok (next, output)) :
    next.Connecting sender receiver ↔ network.Connecting sender receiver ∨
      host ≠ config.server ∧ sender = host ∧ receiver = config.server := by
  constructor
  · rintro ⟨contact, hmem, rfl⟩
    rcases (mem_mail_start_iff hok _ _).mp hmem with hold | ⟨hclient, hreceiver, hsent⟩
    · exact Or.inl ⟨contact, hold, rfl⟩
    · have hcontact : contact = (config.node host).contact := by simpa using hsent
      exact Or.inr ⟨hclient, congrArg Contact.host hcontact, hreceiver⟩
  · rintro (⟨contact, hold, rfl⟩ | ⟨hclient, rfl, rfl⟩)
    · exact ⟨contact, (mem_mail_start_iff hok _ _).mpr (Or.inl hold), rfl⟩
    · exact ⟨(config.node sender).contact,
        (mem_mail_start_iff hok _ _).mpr (Or.inr ⟨hclient, rfl, List.mem_cons_self⟩), rfl⟩

theorem discovering_start_iff (hok : step config network (.start host now) = .ok (next, output)) :
    next.Discovering found receiver ↔ network.Discovering found receiver := by
  simp [Network.Discovering, mem_mail_start_iff hok]

end Start

/-- A report of a tactic changes nothing that the mesh is made of. -/
structure SameMesh (network next : Network) : Prop where
  started_iff : ∀ host, next.Started host ↔ network.Started host
  knows_iff : ∀ knower other, next.Knows knower other ↔ network.Knows knower other
  heart_iff : ∀ receiver contact,
    (receiver, .heart contact) ∈ next.mail ↔ (receiver, .heart contact) ∈ network.mail
  connecting_iff : ∀ sender receiver,
    next.Connecting sender receiver ↔ network.Connecting sender receiver
  discovering_iff : ∀ found receiver,
    next.Discovering found receiver ↔ network.Discovering found receiver

theorem sameMesh_report {host : Host} {message : Message}
    (hok : step config network (.report host message) = .ok (next, output)) :
    SameMesh network next := by
  obtain ⟨htactic, hstates, hmail⟩ := report_cases hok
  have hother : ∀ receiver sent, sent.ofTactic = false →
      ((receiver, sent) ∈ next.mail ↔ (receiver, sent) ∈ network.mail) := by
    intro receiver sent hsent
    rw [hmail, List.mem_append, List.mem_singleton, or_iff_left]
    rintro ⟨_, rfl⟩
    simp [htactic] at hsent
  constructor
  case started_iff => intro host; simp only [Network.Started, hstates]
  case knows_iff => intro knower other; simp only [Network.Knows, hstates]
  case heart_iff => exact fun receiver contact => hother _ _ rfl
  case connecting_iff =>
    exact fun sender receiver => exists_congr fun contact => and_congr_left' (hother _ _ rfl)
  case discovering_iff =>
    exact fun found receiver => exists_congr fun row => and_congr_left' (hother _ _ rfl)

/-! ## Who knows whom -/

/-- The server is told of every client first, and nodes learn of each other through
it. -/
structure Mesh (config : Config) (network : Network) : Prop where
  server_knows : network.Started config.server → network.Knows config.server config.server
  started : ∀ knower other, network.Knows knower other → network.Started other
  admitted : ∀ knower other, network.Knows knower other →
    network.Knows config.server knower ∧ network.Knows config.server other
  heart : ∀ receiver contact, (receiver, .heart contact) ∈ network.mail →
    network.Knows contact.host receiver
  connecting : ∀ sender receiver, network.Connecting sender receiver →
    network.Started sender ∧ sender ≠ config.server ∧
      (network.Knows sender receiver ∨ receiver = config.server)
  discovering : ∀ found receiver, network.Discovering found receiver →
    receiver ≠ config.server ∧ network.Knows config.server found ∧
      network.Knows config.server receiver
  joining : ∀ host, network.Started host → host ≠ config.server →
    network.Connecting host config.server ∨ network.Knows config.server host
  both_ways : ∀ knower other, network.Knows knower other →
    network.Knows other knower ∨ network.Connecting knower other ∨
      knower = config.server ∧ network.Discovering config.server other

theorem mesh_initial : Mesh config initial := by
  have hstarted : ∀ host, ¬ initial.Started host := by
    rintro host ⟨state, hstate⟩
    cases hstate
  have hknows : ∀ knower other, ¬ initial.Knows knower other := by
    rintro knower other ⟨state, hstate, _⟩
    cases hstate
  have hmail : ∀ entry, entry ∉ initial.mail := fun entry => List.not_mem_nil
  constructor
  case server_knows => exact fun hserver => absurd hserver (hstarted _)
  case started => exact fun knower other hknown => absurd hknown (hknows _ _)
  case admitted => exact fun knower other hknown => absurd hknown (hknows _ _)
  case heart => exact fun receiver contact hmem => absurd hmem (hmail _)
  case connecting => exact fun sender receiver ⟨contact, hmem, _⟩ => absurd hmem (hmail _)
  case discovering => exact fun found receiver ⟨row, hmem, _⟩ => absurd hmem (hmail _)
  case joining => exact fun host hhost => absurd hhost (hstarted _)
  case both_ways => exact fun knower other hknown => absurd hknown (hknows _ _)

namespace Mesh

variable {host : Host} {batch : Batch} {state after : State}

section Timestep

variable (hmesh : Mesh config network)
  (hsteps : Steps config network host batch state after next)
  (halive : deadNodes (config.node host) state batch = [])
include hmesh hsteps

theorem started_of_hearsOf {other : Host} (hhears : HearsOf batch other) :
    network.Started other := by
  rcases hhears with ⟨contact, hmem, rfl⟩ | hdiscovery | hconnect
  · obtain ⟨found, hfound, _⟩ := hmesh.heart _ _ (hsteps.taken _ hmem)
    exact ⟨found, hfound⟩
  · exact hmesh.started _ _ (hmesh.discovering _ _ (hsteps.of_takesDiscovery hdiscovery)).2.1
  · exact (hmesh.connecting _ _ (hsteps.of_takesConnect hconnect)).1

include halive

theorem server_knows_of_started (hstarted : next.Started config.server) :
    next.Knows config.server config.server :=
  hsteps.knows_of_knows halive (hmesh.server_knows ((hsteps.started_iff _).mp hstarted))

/-- Who hears of somebody and who is heard of are known to the server. -/
theorem admitted_of_hearsOf {other : Host} (hhears : HearsOf batch other) :
    next.Knows config.server host ∧ next.Knows config.server other := by
  have hkeep : ∀ {known}, network.Knows config.server known → next.Knows config.server known :=
    hsteps.knows_of_knows halive
  rcases hhears with ⟨contact, hmem, rfl⟩ | hdiscovery | hconnect
  · have hold := hmesh.admitted _ _ (hmesh.heart _ _ (hsteps.taken _ hmem))
    exact ⟨hkeep hold.2, hkeep hold.1⟩
  · have hold := hmesh.discovering _ _ (hsteps.of_takesDiscovery hdiscovery)
    exact ⟨hkeep hold.2.2, hkeep hold.2.1⟩
  · rcases (hmesh.connecting _ _ (hsteps.of_takesConnect hconnect)).2.2 with hold | rfl
    · have hboth := hmesh.admitted _ _ hold
      exact ⟨hkeep hboth.2, hkeep hboth.1⟩
    · have hhost : next.Started config.server :=
        (hsteps.started_iff _).mpr ⟨state, hsteps.found⟩
      exact ⟨server_knows_of_started hmesh hsteps halive hhost,
        hsteps.knows_of_takesConnect halive hconnect⟩

/-- What a node knew is answered as before, or what answers it is taken in. -/
theorem both_ways_of_knows {knower other : Host} (hold : network.Knows knower other) :
    next.Knows other knower ∨ next.Connecting knower other ∨
      knower = config.server ∧ next.Discovering config.server other := by
  rcases hmesh.both_ways _ _ hold with hback | hunderway | ⟨rfl, hunderway⟩
  · exact Or.inl (hsteps.knows_of_knows halive hback)
  · rcases hsteps.connecting_or_takes hunderway with hstill | ⟨rfl, hconnect⟩
    · exact Or.inr (Or.inl hstill)
    · exact Or.inl (hsteps.knows_of_takesConnect halive hconnect)
  · rcases hsteps.discovering_or_takes hunderway with hstill | ⟨rfl, hdiscovery⟩
    · exact Or.inr (Or.inr ⟨rfl, hstill⟩)
    · exact Or.inl (hsteps.knows_of_takesDiscovery halive hdiscovery)

/-- A node that is new to the host knows it, is connected to, or is told of the
server. -/
theorem both_ways_of_hearsOf {other : Host} (hnew : ¬ network.Knows host other)
    (hhears : HearsOf batch other) :
    next.Knows other host ∨ next.Connecting host other ∨
      host = config.server ∧ next.Discovering config.server other := by
  rcases hhears with ⟨contact, hmem, rfl⟩ | hdiscovery | hconnect
  · exact Or.inl (hsteps.knows_of_knows halive (hmesh.heart _ _ (hsteps.taken _ hmem)))
  · exact Or.inr (Or.inl (hsteps.connecting_of_takesDiscovery hdiscovery
      fun hbefore => hnew ((hsteps.knows_self other).mpr hbefore)))
  · rcases (hmesh.connecting _ _ (hsteps.of_takesConnect hconnect)).2.2 with hback | rfl
    · exact Or.inl (hsteps.knows_of_knows halive hback)
    · have hserverKnows := (hsteps.knows_self _).mp (hmesh.server_knows ⟨state, hsteps.found⟩)
      exact Or.inr (Or.inr ⟨rfl, hsteps.discovering_of_takesConnect hconnect hserverKnows⟩)

/-- A timestep in which no node is declared dead. -/
theorem timestep : Mesh config next := by
  have hknows := hsteps.knows_iff halive
  have hkeep : ∀ knower other, network.Knows knower other → next.Knows knower other :=
    fun _ _ => hsteps.knows_of_knows halive
  constructor
  case server_knows => exact server_knows_of_started hmesh hsteps halive
  case started =>
    intro knower other hknown
    rw [hsteps.started_iff]
    rcases (hknows knower other).mp hknown with hold | ⟨_, hhears⟩
    · exact hmesh.started _ _ hold
    · exact started_of_hearsOf hmesh hsteps hhears
  case admitted =>
    intro knower other hknown
    rcases (hknows knower other).mp hknown with hold | ⟨rfl, hhears⟩
    · exact (hmesh.admitted _ _ hold).imp (hkeep _ _) (hkeep _ _)
    · exact admitted_of_hearsOf hmesh hsteps halive hhears
  case heart =>
    intro receiver contact hmem
    rcases hsteps.mem_mail hmem with hold | hsent
    · exact hkeep _ _ (hmesh.heart _ _ hold)
    · obtain ⟨_, hreceiver, rfl⟩ := mem_sends_heart.mp hsent
      exact hkeep _ _ ((hsteps.knows_self receiver).mpr hreceiver)
  case connecting =>
    intro sender receiver hunderway
    rcases hsteps.connecting hunderway with hold | ⟨rfl, hdiscovery, _⟩
    · obtain ⟨hstarted, hclient, hreceiver⟩ := hmesh.connecting _ _ hold
      exact ⟨(hsteps.started_iff sender).mpr hstarted, hclient, hreceiver.imp_left (hkeep _ _)⟩
    · have hclient := (hmesh.discovering _ _ (hsteps.of_takesDiscovery hdiscovery)).1
      exact ⟨(hsteps.started_iff _).mpr ⟨state, hsteps.found⟩, hclient,
        Or.inl (hsteps.knows_of_takesDiscovery halive hdiscovery)⟩
  case discovering =>
    intro found receiver hunderway
    rcases hsteps.discovering hunderway with hold | ⟨hconnect, hfound⟩
    · obtain ⟨hclient, hboth⟩ := hmesh.discovering _ _ hold
      exact ⟨hclient, hboth.imp (hkeep _ _) (hkeep _ _)⟩
    · have hclient := (hmesh.connecting _ _ (hsteps.of_takesConnect hconnect)).2.1
      have hfound' := (hmesh.admitted _ _ ((hsteps.knows_self found).mpr hfound)).2
      have hreceiver := admitted_of_hearsOf hmesh hsteps halive (Or.inr (Or.inr hconnect))
      exact ⟨hclient, hkeep _ _ hfound', hreceiver.2⟩
  case joining =>
    intro client hstarted hclient
    rcases hmesh.joining client ((hsteps.started_iff client).mp hstarted) hclient with hold | hold
    · rcases hsteps.connecting_or_takes hold with hunderway | ⟨rfl, hconnect⟩
      · exact Or.inl hunderway
      · exact Or.inr (hsteps.knows_of_takesConnect halive hconnect)
    · exact Or.inr (hkeep _ _ hold)
  case both_ways =>
    intro knower other hknown
    by_cases hold : network.Knows knower other
    · exact both_ways_of_knows hmesh hsteps halive hold
    · obtain ⟨rfl, hhears⟩ := ((hknows knower other).mp hknown).resolve_left hold
      exact both_ways_of_hearsOf hmesh hsteps halive hold hhears

end Timestep

theorem start {now : Int} (hmesh : Mesh config network)
    (hok : step config network (.start host now) = .ok (next, output)) : Mesh config next := by
  have hknows := knows_start_iff hok
  have hkeep : ∀ knower other, network.Knows knower other → next.Knows knower other :=
    fun knower other hold => (hknows knower other).mpr (Or.inl hold)
  have hstarted := started_start_iff hok
  constructor
  case server_knows =>
    intro hserver
    rcases (hstarted _).mp hserver with hold | hsame
    · exact hkeep _ _ (hmesh.server_knows hold)
    · exact (hknows _ _).mpr (Or.inr ⟨hsame.symm, hsame, hsame⟩)
  case started =>
    intro knower other hknown
    rcases (hknows knower other).mp hknown with hold | ⟨_, _, hsame⟩
    · exact (hstarted other).mpr (Or.inl (hmesh.started _ _ hold))
    · exact (hstarted other).mpr (Or.inr hsame)
  case admitted =>
    intro knower other hknown
    rcases (hknows knower other).mp hknown with hold | ⟨hserver, rfl, rfl⟩
    · exact (hmesh.admitted _ _ hold).imp (hkeep _ _) (hkeep _ _)
    · rw [← hserver]
      exact ⟨hknown, hknown⟩
  case heart =>
    intro receiver contact hmem
    rcases (mem_mail_start_iff hok _ _).mp hmem with hold | ⟨_, _, hsent⟩
    · exact hkeep _ _ (hmesh.heart _ _ hold)
    · simp at hsent
  case connecting =>
    intro sender receiver hunderway
    rcases (connecting_start_iff hok).mp hunderway with hold | ⟨hclient, rfl, hreceiver⟩
    · obtain ⟨hsender, hclient, hreceiver⟩ := hmesh.connecting _ _ hold
      exact ⟨(hstarted sender).mpr (Or.inl hsender), hclient, hreceiver.imp_left (hkeep _ _)⟩
    · exact ⟨(hstarted sender).mpr (Or.inr rfl), hclient, Or.inr hreceiver⟩
  case discovering =>
    intro found receiver hunderway
    have hold := hmesh.discovering _ _ ((discovering_start_iff hok).mp hunderway)
    exact ⟨hold.1, hold.2.imp (hkeep _ _) (hkeep _ _)⟩
  case joining =>
    intro client hclientStarted hclient
    rcases (hstarted client).mp hclientStarted with hold | rfl
    · exact (hmesh.joining client hold hclient).imp
        (fun hunderway => (connecting_start_iff hok).mpr (Or.inl hunderway)) (hkeep _ _)
    · exact Or.inl ((connecting_start_iff hok).mpr (Or.inr ⟨hclient, rfl, rfl⟩))
  case both_ways =>
    intro knower other hknown
    rcases (hknows knower other).mp hknown with hold | ⟨_, rfl, rfl⟩
    · rcases hmesh.both_ways _ _ hold with hback | hunderway | ⟨hserver, hunderway⟩
      · exact Or.inl (hkeep _ _ hback)
      · exact Or.inr (Or.inl ((connecting_start_iff hok).mpr (Or.inl hunderway)))
      · exact Or.inr (Or.inr ⟨hserver, (discovering_start_iff hok).mpr hunderway⟩)
    · exact Or.inl hknown

theorem congr (hmesh : Mesh config network) (hsame : SameMesh network next) :
    Mesh config next := by
  obtain ⟨hstarted, hknows, hheart, hconnecting, hdiscovering⟩ := hsame
  constructor <;> simp only [hstarted, hknows, hheart, hconnecting, hdiscovering]
  case server_knows => exact hmesh.server_knows
  case started => exact hmesh.started
  case admitted => exact hmesh.admitted
  case heart => exact hmesh.heart
  case connecting => exact hmesh.connecting
  case discovering => exact hmesh.discovering
  case joining => exact hmesh.joining
  case both_ways => exact hmesh.both_ways

end Mesh

/-! ## Clients whose connects are taken in together -/

/-- The nodes that a step declares dead. -/
def declaredDead (config : Config) (step : NetworkStep) : List NodeRow :=
  match step.input with
  | .timestep host batch =>
      (step.before.states host).elim [] fun state => deadNodes (config.node host) state batch
  | .start _ _ | .report _ _ => []

def NoneDead (config : Config) (steps : List NetworkStep) : Prop :=
  ∀ step ∈ steps, declaredDead config step = []

instance (steps : List NetworkStep) : Decidable (NoneDead config steps) :=
  inferInstanceAs (Decidable (∀ step ∈ steps, declaredDead config step = []))

/-- The server takes in the first connects of two clients in one timestep. -/
def TakenInTogether (config : Config) (steps : List NetworkStep) (left right : Host) : Prop :=
  ∃ step ∈ steps, ∃ batch, step.input = .timestep config.server batch ∧
    TakesConnect batch left ∧ ¬ step.before.Knows config.server left ∧
    TakesConnect batch right ∧ ¬ step.before.Knows config.server right

/-- The client learns of the server by a heartbeat, before any `node_discovery`. -/
def Overtaken (config : Config) (steps : List NetworkStep) (client : Host) : Prop :=
  ∃ step ∈ steps, ∃ batch, step.input = .timestep client batch ∧
    TakesHeart batch config.server ∧ ¬ step.before.Knows client config.server ∧
    ¬ TakesDiscovery batch config.server

/-- The client is going to connect to the server again, or is doing so. -/
def Following (config : Config) (network : Network) (client : Host) : Prop :=
  ¬ network.Knows client config.server ∧ network.Discovering config.server client ∨
    network.Connecting client config.server

/-- One of the clients knows the other or is being told of it. -/
def Met (network : Network) (left right : Host) : Prop :=
  network.Knows left right ∨ network.Knows right left ∨ network.Discovering right left ∨
    network.Discovering left right

/-- The clients meet, or both are still to connect to the server again unless a
heartbeat has overtaken what the server told them. -/
def Paired (config : Config) (steps : List NetworkStep) (network : Network) (left right : Host) :
    Prop :=
  Met network left right ∨
    TakenInTogether config steps left right ∧
      (Overtaken config steps left ∨ Following config network left) ∧
      (Overtaken config steps right ∨ Following config network right)

variable {steps : List NetworkStep} {last : NetworkStep} {left right client : Host}

theorem Overtaken.concat (hovertaken : Overtaken config steps client) :
    Overtaken config (steps ++ [last]) client := by
  obtain ⟨step, hstep, hrest⟩ := hovertaken
  exact ⟨step, List.mem_append_left _ hstep, hrest⟩

theorem TakenInTogether.concat (htogether : TakenInTogether config steps left right) :
    TakenInTogether config (steps ++ [last]) left right := by
  obtain ⟨step, hstep, hrest⟩ := htogether
  exact ⟨step, List.mem_append_left _ hstep, hrest⟩

section Timestep

variable {host : Host} {batch : Batch} {state after : State}

theorem Met.timestep (hmet : Met network left right)
    (hsteps : Steps config network host batch state after next)
    (halive : deadNodes (config.node host) state batch = []) : Met next left right := by
  rcases hmet with hknown | hknown | hunderway | hunderway
  · exact Or.inl (hsteps.knows_of_knows halive hknown)
  · exact Or.inr (Or.inl (hsteps.knows_of_knows halive hknown))
  · rcases hsteps.discovering_or_takes hunderway with hstill | ⟨rfl, htakes⟩
    · exact Or.inr (Or.inr (Or.inl hstill))
    · exact Or.inl (hsteps.knows_of_takesDiscovery halive htakes)
  · rcases hsteps.discovering_or_takes hunderway with hstill | ⟨rfl, htakes⟩
    · exact Or.inr (Or.inr (Or.inr hstill))
    · exact Or.inr (Or.inl (hsteps.knows_of_takesDiscovery halive htakes))

/-- A client keeps following until it is overtaken or the server tells it of the
other client. -/
theorem Following.timestep (hfollowing : Following config network client)
    (hmesh : Mesh config network) (hsteps : Steps config network host batch state after next)
    (halive : deadNodes (config.node host) state batch = []) (hbefore : last.before = network)
    (hinput : last.input = .timestep host batch) {other : Host}
    (hknown : network.Knows config.server other) :
    next.Discovering other client ∨
      (Overtaken config (steps ++ [last]) client ∨ Following config next client) := by
  rcases hfollowing with ⟨hunknown, hunderway⟩ | hunderway
  · have hfollows : client = host → TakesDiscovery batch config.server →
        Following config next client := by
      rintro rfl htakes
      exact Or.inr (hsteps.connecting_of_takesDiscovery htakes
        fun hstate => hunknown ((hsteps.knows_self _).mpr hstate))
    right
    rcases hsteps.discovering_or_takes hunderway with hstill | ⟨hhost, htakes⟩
    · by_cases hlearns : next.Knows client config.server
      · obtain ⟨hhost, hhears⟩ :=
          ((hsteps.knows_iff halive _ _).mp hlearns).resolve_left hunknown
        by_cases htakes : TakesDiscovery batch config.server
        · exact Or.inr (hfollows hhost htakes)
        · rcases hhears with hheart | hdiscovery | hconnect
          · subst hhost
            refine Or.inl ⟨last, by simp, batch, hinput, hheart, ?_, htakes⟩
            rwa [hbefore]
          · exact absurd hdiscovery htakes
          · have hclient := (hmesh.connecting _ _ (hsteps.of_takesConnect hconnect)).2.1
            exact absurd rfl hclient
      · exact Or.inr (Or.inl ⟨hlearns, hstill⟩)
    · exact Or.inr (hfollows hhost htakes)
  · rcases hsteps.connecting_or_takes hunderway with hstill | ⟨hserver, hconnect⟩
    · exact Or.inr (Or.inr (Or.inr hstill))
    · subst hserver
      exact Or.inl (hsteps.discovering_of_takesConnect hconnect ((hsteps.knows_self _).mp hknown))

/-- A client that the server gets to know connects to it in the timestep. -/
theorem takesConnect_of_knows (hmesh : Mesh config network)
    (hsteps : Steps config network host batch state after next)
    (halive : deadNodes (config.node host) state batch = [])
    (hunknown : ¬ network.Knows config.server client)
    (hknown : next.Knows config.server client) :
    config.server = host ∧ TakesConnect batch client := by
  obtain ⟨hserver, hhears⟩ := ((hsteps.knows_iff halive _ _).mp hknown).resolve_left hunknown
  refine ⟨hserver, ?_⟩
  subst hserver
  rcases hhears with ⟨contact, hmem, rfl⟩ | hdiscovery | hconnect
  · have hknows := hmesh.heart _ _ (hsteps.taken _ hmem)
    exact absurd (hmesh.admitted _ _ hknows).1 hunknown
  · exact absurd rfl (hmesh.discovering _ _ (hsteps.of_takesDiscovery hdiscovery)).1
  · exact hconnect

/-- A client whose first connect is taken in is told of the server before anything
else. -/
theorem following_of_takesConnect (hmesh : Mesh config network)
    (hsteps : Steps config network config.server batch state after next)
    (halive : deadNodes (config.node config.server) state batch = [])
    (hclient : client ≠ config.server) (hunknown : ¬ network.Knows config.server client)
    (hconnect : TakesConnect batch client) : Following config next client := by
  left
  constructor
  · intro hknown
    rcases (hsteps.knows_iff halive _ _).mp hknown with hold | ⟨hsame, _⟩
    · exact hunknown (hmesh.admitted _ _ hold).1
    · exact hclient hsame
  · have hserver := hmesh.server_knows ⟨state, hsteps.found⟩
    exact hsteps.discovering_of_takesConnect hconnect ((hsteps.knows_self _).mp hserver)

end Timestep

/-- Any two clients that the server knows meet, or have been taken in together. -/
def AllPaired (config : Config) (steps : List NetworkStep) (network : Network) : Prop :=
  ∀ left right, left ≠ right → left ≠ config.server → right ≠ config.server →
    network.Knows config.server left → network.Knows config.server right →
      Paired config steps network left right

namespace AllPaired

theorem timestep {host : Host} {batch : Batch} {state after : State}
    (hpaired : AllPaired config steps network) (hmesh : Mesh config network)
    (hsteps : Steps config network host batch state after next)
    (halive : deadNodes (config.node host) state batch = []) (hbefore : last.before = network)
    (hinput : last.input = .timestep host batch) :
    AllPaired config (steps ++ [last]) next := by
  intro left right hne hleft hright hknowsLeft hknowsRight
  -- a client that is new is told of those that are not
  have htold : ∀ client other, ¬ network.Knows config.server client →
      next.Knows config.server client → network.Knows config.server other →
        next.Discovering other client := by
    intro client other hunknown hknown hother
    obtain ⟨rfl, hconnect⟩ := takesConnect_of_knows hmesh hsteps halive hunknown hknown
    exact hsteps.discovering_of_takesConnect hconnect ((hsteps.knows_self _).mp hother)
  by_cases holdLeft : network.Knows config.server left
  · by_cases holdRight : network.Knows config.server right
    · rcases hpaired left right hne hleft hright holdLeft holdRight with
        hmet | ⟨htogether, hleftFollows, hrightFollows⟩
      · exact Or.inl (hmet.timestep hsteps halive)
      · have hleftNext : next.Discovering right left ∨
            (Overtaken config (steps ++ [last]) left ∨ Following config next left) :=
          hleftFollows.elim (fun hover => Or.inr (Or.inl hover.concat)) fun hfollows =>
            hfollows.timestep hmesh hsteps halive hbefore hinput holdRight
        have hrightNext : next.Discovering left right ∨
            (Overtaken config (steps ++ [last]) right ∨ Following config next right) :=
          hrightFollows.elim (fun hover => Or.inr (Or.inl hover.concat)) fun hfollows =>
            hfollows.timestep hmesh hsteps halive hbefore hinput holdLeft
        rcases hleftNext with htoldLeft | hleftNext
        · exact Or.inl (Or.inr (Or.inr (Or.inl htoldLeft)))
        · rcases hrightNext with htoldRight | hrightNext
          · exact Or.inl (Or.inr (Or.inr (Or.inr htoldRight)))
          · exact Or.inr ⟨htogether.concat, hleftNext, hrightNext⟩
    · exact Or.inl (Or.inr (Or.inr (Or.inr (htold right left holdRight hknowsRight holdLeft))))
  · by_cases holdRight : network.Knows config.server right
    · exact Or.inl (Or.inr (Or.inr (Or.inl (htold left right holdLeft hknowsLeft holdRight))))
    · obtain ⟨rfl, hconnectLeft⟩ :=
        takesConnect_of_knows hmesh hsteps halive holdLeft hknowsLeft
      obtain ⟨_, hconnectRight⟩ :=
        takesConnect_of_knows hmesh hsteps halive holdRight hknowsRight
      refine Or.inr ⟨⟨last, by simp, batch, hinput, hconnectLeft, ?_, hconnectRight, ?_⟩, ?_, ?_⟩
      · rwa [hbefore]
      · rwa [hbefore]
      · exact Or.inr (following_of_takesConnect hmesh hsteps halive hleft holdLeft hconnectLeft)
      · exact Or.inr
          (following_of_takesConnect hmesh hsteps halive hright holdRight hconnectRight)

/-- Events other than timesteps leave clients and what they are told as they are. -/
theorem congr (hpaired : AllPaired config steps network)
    (hknows : ∀ knower other, knower ≠ other →
      (next.Knows knower other ↔ network.Knows knower other))
    (hconnecting : ∀ sender receiver, network.Connecting sender receiver →
      next.Connecting sender receiver)
    (hdiscovering : ∀ found receiver,
      next.Discovering found receiver ↔ network.Discovering found receiver) :
    AllPaired config (steps ++ [last]) next := by
  intro left right hne hleft hright hknowsLeft hknowsRight
  rw [hknows _ _ hleft.symm] at hknowsLeft
  rw [hknows _ _ hright.symm] at hknowsRight
  have hfollows : ∀ client, client ≠ config.server → Following config network client →
      Following config next client := by
    intro client hclient hfollowing
    refine hfollowing.imp ?_ (hconnecting _ _)
    rw [hknows _ _ hclient, hdiscovering]
    exact id
  rcases hpaired left right hne hleft hright hknowsLeft hknowsRight with
    hmet | ⟨htogether, hleftFollows, hrightFollows⟩
  · left
    simpa only [Met, hknows _ _ hne, hknows _ _ hne.symm, hdiscovering] using hmet
  · exact Or.inr ⟨htogether.concat, hleftFollows.imp Overtaken.concat (hfollows left hleft),
      hrightFollows.imp Overtaken.concat (hfollows right hright)⟩

end AllPaired

theorem NetworkRun.mesh (hrun : NetworkRun config steps network)
    (halive : NoneDead config steps) :
    Mesh config network ∧ AllPaired config steps network := by
  induction hrun with
  | start =>
      refine ⟨mesh_initial, fun left right _ _ _ hknown => ?_⟩
      obtain ⟨state, hstate, _⟩ := hknown
      cases hstate
  | @extend steps network next event output prior hstep ih =>
      obtain ⟨hmesh, hpaired⟩ := ih fun step hprior =>
        halive step (List.mem_append_left _ hprior)
      cases event with
      | start host now =>
          refine ⟨hmesh.start hstep, hpaired.congr ?_ ?_ ?_⟩
          · intro knower other hne
            rw [knows_start_iff hstep, or_iff_left]
            rintro ⟨_, rfl, rfl⟩
            exact hne rfl
          · exact fun sender receiver hold => (connecting_start_iff hstep).mpr (Or.inl hold)
          · exact fun found receiver => discovering_start_iff hstep
      | timestep host batch =>
          obtain ⟨state, after, hsteps⟩ := timestep_cases hstep
          have hnone : deadNodes (config.node host) state batch = [] := by
            have hdeclared := halive _ (List.mem_append_right _ List.mem_cons_self)
            simpa [declaredDead, hsteps.found] using hdeclared
          exact ⟨hmesh.timestep hsteps hnone, hpaired.timestep hmesh hsteps hnone rfl rfl⟩
      | report host message =>
          have hsame := sameMesh_report hstep
          refine ⟨hmesh.congr hsame, hpaired.congr ?_ ?_ hsame.discovering_iff⟩
          · exact fun knower other _ => hsame.knows_iff knower other
          · exact fun sender receiver => (hsame.connecting_iff sender receiver).mpr

/-- When nothing is under way, all nodes know each other, unless heartbeats of the
server have overtaken what it told two clients that it took in together. -/
theorem fullMesh_of_settled (hrun : NetworkRun config steps network)
    (halive : NoneDead config steps)
    (htogether : ∀ left right, left ≠ right → TakenInTogether config steps left right →
      ¬ (Overtaken config steps left ∧ Overtaken config steps right))
    (hsettled : network.Settled) : network.FullMesh := by
  obtain ⟨hmesh, hpaired⟩ := NetworkRun.mesh hrun halive
  have hback : ∀ knower other, network.Knows knower other → network.Knows other knower := by
    intro knower other hknown
    rcases hmesh.both_ways _ _ hknown with hback | hunderway | ⟨_, hunderway⟩
    · exact hback
    · exact absurd hunderway hsettled.not_connecting
    · exact absurd hunderway hsettled.not_discovering
  have hserver : ∀ host, network.Started host → host ≠ config.server →
      network.Knows config.server host := fun host hstarted hclient =>
    (hmesh.joining host hstarted hclient).resolve_left hsettled.not_connecting
  have hnotFollowing : ∀ client, ¬ Following config network client := by
    rintro client (⟨_, hunderway⟩ | hunderway)
    · exact hsettled.not_discovering hunderway
    · exact hsettled.not_connecting hunderway
  intro left right hne hleft hright
  by_cases hleftServer : left = config.server
  · subst hleftServer
    exact hserver right hright hne.symm
  · by_cases hrightServer : right = config.server
    · subst hrightServer
      exact hback _ _ (hserver left hleft hne)
    · rcases hpaired left right hne hleftServer hrightServer (hserver left hleft hleftServer)
        (hserver right hright hrightServer) with
        (hknown | hknown | hunderway | hunderway) | ⟨htaken, hleftOver, hrightOver⟩
      · exact hknown
      · exact hback _ _ hknown
      · exact absurd hunderway hsettled.not_discovering
      · exact absurd hunderway hsettled.not_discovering
      · exact absurd ⟨hleftOver.resolve_right (hnotFollowing left),
          hrightOver.resolve_right (hnotFollowing right)⟩ (htogether left right hne htaken)

/-! ## Two clients that join together -/

/-- The server takes in both connects, and its heartbeat overtakes what it tells the
clients. -/
def joiningEvents : List Event :=
  [.start "server" 0, .start "alice" 0, .start "bob" 0,
    .timestep "server"
      { messages := [.connect ⟨"alice", "alice"⟩, .connect ⟨"bob", "bob"⟩], now := 0 },
    .timestep "server" { heartbeatTimer := true, now := 1 },
    .timestep "bob" { messages := [.heart ⟨"server", "server"⟩], now := 1 },
    .timestep "bob" { messages := [.nodeDiscovery ⟨"server", "server", 0⟩], now := 1 }]

def overtakenEvents : List Event :=
  joiningEvents ++
    [.timestep "alice" { messages := [.heart ⟨"server", "server"⟩], now := 1 },
      .timestep "alice" { messages := [.nodeDiscovery ⟨"server", "server", 0⟩], now := 1 }]

/-- One of the clients is told of the server in time and connects to it again. -/
def followingEvents : List Event :=
  joiningEvents ++
    [.timestep "alice" { messages := [.nodeDiscovery ⟨"server", "server", 0⟩], now := 1 },
      .timestep "server" { messages := [.connect ⟨"alice", "alice"⟩], now := 1 },
      .timestep "alice"
        { messages := [.nodeDiscovery ⟨"server", "server", 0⟩, .nodeDiscovery ⟨"alice", "alice", 0⟩,
            .nodeDiscovery ⟨"bob", "bob", 0⟩], now := 1 },
      .timestep "alice" { messages := [.connect ⟨"alice", "alice"⟩], now := 1 },
      .timestep "bob" { messages := [.connect ⟨"alice", "alice"⟩], now := 1 },
      .timestep "alice"
        { messages := [.nodeDiscovery ⟨"server", "server", 1⟩, .nodeDiscovery ⟨"alice", "alice", 1⟩,
            .nodeDiscovery ⟨"bob", "bob", 1⟩, .nodeDiscovery ⟨"server", "server", 1⟩], now := 1 }]

theorem fullMesh_of_settled_following :
    (final (step (namedByHost "server")) initial followingEvents).FullMesh := by
  -- only one of the clients is overtaken
  have hhearts : followingEvents.all (fun event =>
      match event with
      | .timestep host batch => batch.heart = [] ∨ host = "bob"
      | .start _ _ | .report _ _ => true) = true := by
    decide +kernel
  have hbob : ∀ client, Overtaken (namedByHost "server")
      (record (step (namedByHost "server")) initial followingEvents) client → client = "bob" := by
    rintro client ⟨step, hstep, batch, hinput, ⟨contact, hheart, _⟩, _⟩
    have hevent := List.all_eq_true.mp hhearts _ (input_mem_of_record hstep)
    rw [hinput] at hevent
    exact (of_decide_eq_true hevent).resolve_left
      (List.ne_nil_of_mem (Batch.mem_heart.mpr hheart))
  apply fullMesh_of_settled (run_record (step (namedByHost "server")) initial followingEvents)
  · decide +kernel
  · intro left right hne _ hboth
    exact hne ((hbob left hboth.1).trans (hbob right hboth.2).symm)
  · decide +kernel

theorem not_fullMesh_of_overtaken :
    ¬ ∀ (steps : List NetworkStep) (network : Network),
      NetworkRun (namedByHost "server") steps network → NoneDead (namedByHost "server") steps →
        network.Settled → network.FullMesh := by
  intro hclaim
  have hmesh := hclaim _ _ (run_record (step (namedByHost "server")) initial overtakenEvents)
    (by decide +kernel) (by decide +kernel) "alice" "bob" (by decide) (by decide +kernel)
    (by decide +kernel)
  have hstrangers : ¬ (final (step (namedByHost "server")) initial overtakenEvents).Knows "alice"
      "bob" := by
    decide +kernel
  exact hstrangers hmesh

end Signpost.Routing

import Signpost.Comms.RemoteResolution

/-! # Exactly-once FIFO broadcast

Pairwise distinct messages are flooded through a network that forgets nothing
during the run. Each signpost handles each message once, the messages of one
origin in the order in which they were sent, and all of them when nothing is in
flight any more.
-/

namespace Signpost.Network

open Flood Flood.Channels Machine

variable {α δ : Type}

/-! ## Histories -/

section Histories

variable {steps : List (NetStep α δ)} {last : NetStep α δ} {node origin : String} {data : Data α}
  {received : Received α}

theorem ofNode_append (event : NetOutput α → Option (String × Data α)) :
    ofNode node event (steps ++ [last]) =
      ofNode node event steps ++ ((event last.output).bind fun entry =>
        if entry.1 = node then some entry.2 else none).toList := by
  rw [ofNode, List.filterMap_append, ofNode]
  congr 1

theorem injected_append :
    injected (steps ++ [last]) =
      injected steps ++ (last.output.injection.map fun entry => entry.2).toList := by
  rw [injected, List.filterMap_append, injected]
  congr 1

theorem injected_of_injectedBy (hmem : data ∈ injectedBy node steps) : data ∈ injected steps := by
  obtain ⟨step, hstep, hdata⟩ := List.mem_filterMap.mp hmem
  obtain ⟨entry, hentry, hnode⟩ := Option.bind_eq_some_iff.mp hdata
  refine List.mem_filterMap.mpr ⟨step, hstep, ?_⟩
  rw [hentry]
  by_cases h : entry.1 = node
  · rw [if_pos h] at hnode
    exact hnode
  · rw [if_neg h] at hnode
    cases hnode

theorem injected_arrived (hlast : last.output = .arrived origin data received) :
    injected (steps ++ [last]) = injected steps := by
  rw [injected_append, hlast]
  exact List.append_nil _

theorem injectedBy_arrived (hlast : last.output = .arrived origin data received) :
    injectedBy node (steps ++ [last]) = injectedBy node steps := by
  rw [injectedBy, ofNode_append, hlast]
  exact List.append_nil _

theorem handledBy_arrived (hlast : last.output = .arrived origin data received) :
    handledBy node (steps ++ [last]) =
      handledBy node steps ++ if origin = node ∧ received.handled = true then [data] else [] := by
  rw [handledBy, ofNode_append, hlast]
  by_cases horigin : origin = node <;> cases hhandled : received.handled <;>
    simp [NetOutput.handling, handledBy, horigin, hhandled]

theorem relayedBy_arrived (hlast : last.output = .arrived origin data received) :
    relayedBy node (steps ++ [last]) =
      relayedBy node steps ++
        if origin = node ∧ received.relayed.isSome = true then [data] else [] := by
  rw [relayedBy, ofNode_append, hlast]
  by_cases horigin : origin = node <;> cases hrelayed : received.relayed <;>
    simp [NetOutput.relaying, relayedBy, horigin, hrelayed]

end Histories

/-! ## The history of a run and its state -/

variable [DecidableEq α] {graph : Graph} {digest : Data α → δ} {state next : NetState α δ}

/-- What the history of a run says about the state it ends in. -/
structure Recorded (graph : Graph) (digest : Data α → δ) (steps : List (NetStep α δ))
    (state : NetState α δ) : Prop where
  spreads : ∀ data ∈ injected steps, data.Spreads
  injected_of_wire : ∀ sender receiver, ∀ data ∈ state.wires sender receiver, data ∈ injected steps
  injected_of_cached : ∀ node key, state.caches node key ≠ none →
    ∃ data ∈ injected steps, digest data = key
  injected_of_handled : ∀ node, ∀ data ∈ handledBy node steps, data ∈ injected steps
  remembers_of_handled : ∀ node, ∀ data ∈ handledBy node steps, state.Remembers digest node data
  handled_nodup : ∀ node, (handledBy node steps).Nodup
  relayed_eq : ∀ node, relayedBy node steps = handledBy node steps
  floods : ∀ origin, Floods graph digest state origin (injectedBy origin steps)
    fun node => (handledBy node steps).filter fun data => data ∈ injectedBy origin steps

theorem recorded_initial (graph : Graph) (digest : Data α → δ) :
    Recorded graph digest ([] : List (NetStep α δ)) initial where
  spreads := fun _ hmem => absurd hmem List.not_mem_nil
  injected_of_wire := fun _ _ _ hmem => absurd hmem List.not_mem_nil
  injected_of_cached := fun _ _ hcached => absurd rfl hcached
  injected_of_handled := fun _ _ hmem => absurd hmem List.not_mem_nil
  remembers_of_handled := fun _ _ hmem => absurd hmem List.not_mem_nil
  handled_nodup := fun _ => List.nodup_nil
  relayed_eq := fun _ => rfl
  floods := fun origin => Flooding.initial graph.Linked origin _ _

namespace Recorded

variable {steps later : List (NetStep α δ)} {event : NetEvent α}

/-- A step that injects only messages that spread, puts only injected messages
on the wires and into the caches, forgets nothing, and handles what a signpost
did not remember, continues the record. -/
theorem extend (hrecorded : Recorded graph digest steps state)
    (hinjected : injected steps ⊆ injected later)
    (hspreads : ∀ data ∈ injected later, data ∈ injected steps ∨ data.Spreads)
    (hwires : ∀ sender receiver, ∀ data ∈ next.wires sender receiver,
      data ∈ state.wires sender receiver ∨ data ∈ injected later)
    (hcaches : ∀ node key, next.caches node key ≠ none →
      state.caches node key ≠ none ∨ ∃ data ∈ injected later, digest data = key)
    (hkept : ∀ node key, state.caches node key ≠ none → next.caches node key ≠ none)
    (hhandled : ∀ node, handledBy node later = handledBy node steps ∨
      ∃ data ∈ injected later, handledBy node later = handledBy node steps ++ [data] ∧
        ¬ state.Remembers digest node data ∧ next.Remembers digest node data)
    (hrelayed : ∀ node, relayedBy node later = handledBy node later)
    (hfloods : ∀ origin, Floods graph digest next origin (injectedBy origin later)
      fun node => (handledBy node later).filter fun data => data ∈ injectedBy origin later) :
    Recorded graph digest later next := by
  constructor
  case spreads =>
    intro data hdata
    exact (hspreads data hdata).elim (hrecorded.spreads data) id
  case injected_of_wire =>
    intro sender receiver data hdata
    rcases hwires sender receiver data hdata with hold | hnew
    · exact hinjected (hrecorded.injected_of_wire sender receiver data hold)
    · exact hnew
  case injected_of_cached =>
    intro node key hcached
    rcases hcaches node key hcached with hold | hnew
    · obtain ⟨known, hknown, hkey⟩ := hrecorded.injected_of_cached node key hold
      exact ⟨known, hinjected hknown, hkey⟩
    · exact hnew
  case injected_of_handled =>
    intro node known hmem
    rcases hhandled node with hsame | ⟨data, hdata, happend, _⟩
    · rw [hsame] at hmem
      exact hinjected (hrecorded.injected_of_handled node known hmem)
    · rw [happend, List.mem_append, List.mem_singleton] at hmem
      rcases hmem with hmem | rfl
      · exact hinjected (hrecorded.injected_of_handled node known hmem)
      · exact hdata
  case remembers_of_handled =>
    intro node known hmem
    rcases hhandled node with hsame | ⟨data, _, happend, _, hremembers⟩
    · rw [hsame] at hmem
      exact hkept node _ (hrecorded.remembers_of_handled node known hmem)
    · rw [happend, List.mem_append, List.mem_singleton] at hmem
      rcases hmem with hmem | rfl
      · exact hkept node _ (hrecorded.remembers_of_handled node known hmem)
      · exact hremembers
  case handled_nodup =>
    intro node
    rcases hhandled node with hsame | ⟨data, _, happend, hforgotten, _⟩
    · rw [hsame]
      exact hrecorded.handled_nodup node
    · -- a signpost remembers whatever it has handled, and it did not remember this
      have hunhandled : data ∉ handledBy node steps :=
        fun hmem => hforgotten (hrecorded.remembers_of_handled node data hmem)
      rw [happend]
      apply List.Nodup.append (hrecorded.handled_nodup node) (List.nodup_singleton data)
      exact List.disjoint_singleton.mpr hunhandled
  case relayed_eq => exact hrelayed
  case floods => exact hfloods

/-- A message nobody has sent is remembered by nobody. -/
theorem forgotten (hrecorded : Recorded graph digest steps state) {data : Data α}
    (hnew : data ∉ injected steps) (hseparates : Separates digest (injected steps) data)
    (node : String) : ¬ state.Remembers digest node data := by
  intro hremembers
  obtain ⟨known, hknown, hkey⟩ := hrecorded.injected_of_cached node _ hremembers
  exact hnew (hseparates known hknown hkey ▸ hknown)

/-- A new message is sent. -/
theorem inject (hrecorded : Recorded graph digest steps state) {node : String} {data : Data α}
    (hinjects : Injects graph digest state next node data) (hnew : data ∉ injected steps)
    (hseparates : Separates digest (injected steps) data) :
    Recorded graph digest (steps ++ [⟨state, event, .injected node data, next⟩]) next := by
  have hinjected : injected (steps ++ [⟨state, event, .injected node data, next⟩]) =
      injected steps ++ [data] := injected_append
  have hmem : data ∈ injected (steps ++ [⟨state, event, .injected node data, next⟩]) :=
    hinjected ▸ List.mem_append_right _ List.mem_cons_self
  have hhandled : ∀ other, handledBy other (steps ++ [⟨state, event, .injected node data, next⟩]) =
      handledBy other steps := fun other => (ofNode_append _).trans (List.append_nil _)
  have hrelayed : ∀ other, relayedBy other (steps ++ [⟨state, event, .injected node data, next⟩]) =
      relayedBy other steps := fun other => (ofNode_append _).trans (List.append_nil _)
  have hold : ∀ origin, data ∉ injectedBy origin steps :=
    fun origin hmem => hnew (injected_of_injectedBy hmem)
  have hunhandled : ∀ other, data ∉ handledBy other steps :=
    fun other hmem => hnew (hrecorded.injected_of_handled other data hmem)
  have hseparatesOrder : ∀ origin, Separates digest (injectedBy origin steps) data :=
    fun origin known hknown => hseparates known (injected_of_injectedBy hknown)
  apply hrecorded.extend
  case hinjected => exact hinjected ▸ List.subset_append_left _ _
  case hspreads =>
    intro other hother
    rw [hinjected, List.mem_append, List.mem_singleton] at hother
    rcases hother with hother | rfl
    · exact Or.inl hother
    · exact Or.inr hinjects.spreads
  case hwires =>
    intro sender receiver other hother
    rcases hinjects.mem_wires sender receiver other hother with hother | rfl
    · exact Or.inl hother
    · exact Or.inr hmem
  case hcaches =>
    intro other key hcached
    exact (hinjects.remembers other key hcached).imp_right fun heq => ⟨data, hmem, heq.2.symm⟩
  case hkept => exact hinjects.remembered
  case hhandled => exact fun other => Or.inl (hhandled other)
  case hrelayed =>
    intro other
    rw [hrelayed, hhandled]
    exact hrecorded.relayed_eq other
  case hfloods =>
    intro origin
    by_cases horigin : node = origin
    · subst horigin
      have horder : injectedBy node (steps ++ [⟨state, event, .injected node data, next⟩]) =
          injectedBy node steps ++ [data] := by
        apply (ofNode_append _).trans
        simp [NetOutput.injection, injectedBy]
      have hidle : ¬ state.wires.InFlight data :=
        fun ⟨sender, receiver, hmem⟩ => hnew (hrecorded.injected_of_wire sender receiver data hmem)
      have hfloods := hinjects.own _ _ (hrecorded.floods node) (hseparatesOrder node) hidle
        fun other _ => hrecorded.forgotten hnew hseparates other
      rw [List.erase_of_not_mem (hold node)] at hfloods
      rw [horder]
      apply hfloods.withDone
      intro other _
      rw [List.erase_of_not_mem fun hmem => hunhandled other (List.mem_filter.mp hmem).1, hhandled]
      apply List.filter_congr
      intro known hknown
      have hne : known ≠ data := fun heq => hunhandled other (heq ▸ hknown)
      simp [hne]
    · have horder : injectedBy origin (steps ++ [⟨state, event, .injected node data, next⟩]) =
          injectedBy origin steps := by
        apply (ofNode_append _).trans
        simp [NetOutput.injection, injectedBy, horigin]
      simp only [horder, hhandled]
      exact hinjects.others origin _ _ (hrecorded.floods origin) (hseparatesOrder origin)
        (hold origin)

/-- A cache is pruned, but of nothing. -/
theorem keep (hrecorded : Recorded graph digest steps state) {node : String} {now : Int}
    (hnext : next = pruneBroadcastCache graph state node now)
    (hkept : ∀ other key, state.caches other key ≠ none → next.caches other key ≠ none) :
    Recorded graph digest (steps ++ [⟨state, event, .silent, next⟩]) next := by
  have hinjected : injected (steps ++ [⟨state, event, .silent, next⟩]) = injected steps :=
    injected_append.trans (List.append_nil _)
  have hhistory : ∀ other (entry : NetOutput α → Option (String × Data α)), entry .silent = none →
      ofNode other entry (steps ++ [⟨state, event, .silent, next⟩]) = ofNode other entry steps := by
    intro other entry hentry
    rw [ofNode_append, hentry]
    exact List.append_nil _
  have hhandled : ∀ other, handledBy other (steps ++ [⟨state, event, .silent, next⟩]) =
      handledBy other steps := fun other => hhistory other _ rfl
  subst hnext
  apply hrecorded.extend
  case hinjected => exact hinjected ▸ List.Subset.refl _
  case hspreads => exact fun _ hdata => Or.inl (hinjected ▸ hdata)
  case hwires => exact fun _ _ _ hdata => Or.inl hdata
  case hcaches => exact fun _ _ hcached => Or.inl (caches_prune hcached)
  case hkept => exact hkept
  case hhandled => exact fun other => Or.inl (hhandled other)
  case hrelayed =>
    intro other
    rw [hhandled]
    exact (hhistory other _ rfl).trans (hrecorded.relayed_eq other)
  case hfloods =>
    intro origin
    have horder : injectedBy origin (steps ++
        [⟨state, event, .silent, pruneBroadcastCache graph state node now⟩]) =
        injectedBy origin steps := hhistory origin _ rfl
    simp only [horder, hhandled]
    exact floods_prune (hrecorded.floods origin) fun _ known _ _ => hkept node (digest known)

variable [DecidableEq δ]

section Arrival

variable {last : NetStep α δ} {sender receiver : String} {exportable : List (Provision α)}
  {now : Int} {data : Data α} {rest : List (Data α)} {received : Received α}

/-- A duplicate arrives: it leaves the wire, and nothing else happens. -/
theorem drop (hrecorded : Recorded graph digest steps state)
    (hhead : state.wires sender receiver = data :: rest)
    (hseparates : Separates digest (injected steps) data)
    (hdeliver : Network.deliver graph digest state sender receiver exportable now data =
      (next, received))
    (hlast : last.output = .arrived receiver data received)
    (hknown : state.Remembers digest receiver data) :
    Recorded graph digest (steps ++ [last]) next := by
  have hspreads := hrecorded.spreads data
    (hrecorded.injected_of_wire sender receiver data (hhead ▸ List.mem_cons_self))
  have hfloods := fun origin => floods_deliver (hrecorded.floods origin) exportable now hhead
    hspreads fun known hmem => hseparates known (injected_of_injectedBy hmem)
  rw [hdeliver] at hfloods
  rw [Network.deliver_known _ _ _ _ hknown] at hdeliver
  obtain ⟨rfl, rfl⟩ := Prod.mk.inj hdeliver
  have hinjected : injected (steps ++ [last]) = injected steps := injected_arrived hlast
  have hhandled : ∀ other, handledBy other (steps ++ [last]) = handledBy other steps := by
    intro other
    simpa using handledBy_arrived hlast
  have hrelayed : ∀ other, relayedBy other (steps ++ [last]) = relayedBy other steps := by
    intro other
    simpa using relayedBy_arrived hlast
  apply hrecorded.extend
  case hinjected => exact hinjected ▸ List.Subset.refl _
  case hspreads => exact fun _ hother => Or.inl (hinjected ▸ hother)
  case hwires => exact fun _ _ _ hother => Or.inl (mem_of_mem_take hother)
  case hcaches => exact fun _ _ hcached => Or.inl hcached
  case hkept => exact fun _ _ hcached => hcached
  case hhandled => exact fun other => Or.inl (hhandled other)
  case hrelayed =>
    intro other
    rw [hrelayed, hhandled]
    exact hrecorded.relayed_eq other
  case hfloods =>
    intro origin
    have hflood := hfloods origin
    rw [takenAfter, if_neg fun h => hknown h.1] at hflood
    simpa only [injectedBy_arrived hlast, hhandled] using hflood

/-- A message arrives that the signpost does not remember: it is handled and
relayed. -/
theorem handle (hrecorded : Recorded graph digest steps state)
    (hhead : state.wires sender receiver = data :: rest)
    (hseparates : Separates digest (injected steps) data)
    (hdeliver : Network.deliver graph digest state sender receiver exportable now data =
      (next, received))
    (hlast : last.output = .arrived receiver data received)
    (hunknown : ¬ state.Remembers digest receiver data) :
    Recorded graph digest (steps ++ [last]) next := by
  have hmem : data ∈ injected steps :=
    hrecorded.injected_of_wire sender receiver data (hhead ▸ List.mem_cons_self)
  have hspreads := hrecorded.spreads data hmem
  have hfloods := fun origin => floods_deliver (hrecorded.floods origin) exportable now hhead
    hspreads fun known hmem => hseparates known (injected_of_injectedBy hmem)
  obtain ⟨hnext, hreceived, hbroadcast, _⟩ :=
    Network.deliver_new graph sender exportable now hunknown hspreads
  rw [hdeliver] at hfloods hnext hreceived hbroadcast
  dsimp only at hnext hreceived hbroadcast
  have hinjected : injected (steps ++ [last]) = injected steps := injected_arrived hlast
  have hhandled : ∀ other, handledBy other (steps ++ [last]) =
      handledBy other steps ++ if receiver = other then [data] else [] := by
    intro other
    simpa only [hreceived, and_true] using handledBy_arrived hlast
  have hrelayed : ∀ other, relayedBy other (steps ++ [last]) =
      relayedBy other steps ++ if receiver = other then [data] else [] := by
    intro other
    simpa only [hbroadcast, and_true] using relayedBy_arrived hlast
  have hcaches : ∀ other key, next.caches other key ≠ none ↔
      state.caches other key ≠ none ∨ other = receiver ∧ key = digest data := by
    intro other key
    rw [hnext]
    exact caches_broadcast receiver now sender
  apply hrecorded.extend
  case hinjected => exact hinjected ▸ List.Subset.refl _
  case hspreads => exact fun _ hother => Or.inl (hinjected ▸ hother)
  case hwires =>
    intro first second other hother
    rw [hnext] at hother
    rcases mem_send.mp hother with hother | ⟨_, _, rfl⟩
    · exact Or.inl (mem_of_mem_take hother)
    · exact Or.inr (hinjected ▸ hmem)
  case hcaches =>
    intro other key hcached
    exact ((hcaches other key).mp hcached).imp_right
      fun heq => ⟨data, hinjected ▸ hmem, heq.2.symm⟩
  case hkept => exact fun other key hcached => (hcaches other key).mpr (Or.inl hcached)
  case hhandled =>
    intro other
    rw [hhandled]
    by_cases heq : receiver = other
    · subst heq
      rw [if_pos rfl]
      exact Or.inr ⟨data, hinjected ▸ hmem, rfl, hunknown,
        (hcaches receiver _).mpr (Or.inr ⟨rfl, rfl⟩)⟩
    · rw [if_neg heq, List.append_nil]
      exact Or.inl rfl
  case hrelayed =>
    intro other
    rw [hrelayed, hhandled, hrecorded.relayed_eq]
  case hfloods =>
    intro origin
    rw [injectedBy_arrived hlast]
    apply (hfloods origin).withDone
    intro other hother
    rw [hhandled, List.filter_append, takenAfter]
    by_cases heq : receiver = other
    · subst heq
      -- only a message of this origin is one of those the signpost has taken in its order
      by_cases hmem : data ∈ injectedBy origin steps
      · rw [if_pos rfl, if_pos ⟨not_not.mp hunknown, hother, hmem⟩, Function.update_self]
        simp [hmem]
      · rw [if_pos rfl, if_neg fun h => hmem h.2.2]
        simp [hmem]
    · rw [if_neg heq, List.filter_nil, List.append_nil]
      split
      next => rw [Function.update_of_ne (Ne.symm heq)]
      next => rfl

/-- A message arrives. -/
theorem deliver (hrecorded : Recorded graph digest steps state)
    (hhead : state.wires sender receiver = data :: rest)
    (hseparates : Separates digest (injected steps) data)
    (hdeliver : Network.deliver graph digest state sender receiver exportable now data =
      (next, received))
    (hlast : last.output = .arrived receiver data received) :
    Recorded graph digest (steps ++ [last]) next := by
  by_cases hknown : state.Remembers digest receiver data
  · exact hrecorded.drop hhead hseparates hdeliver hlast hknown
  · exact hrecorded.handle hhead hseparates hdeliver hlast hknown

end Arrival

end Recorded

/-! ## Every run -/

variable [DecidableEq δ] {steps : List (NetStep α δ)}

/-- What an event of the network does. -/
theorem step_cases {event : NetEvent α} {output : NetOutput α}
    (hok : step graph digest state event = .ok (next, output)) :
    (∃ node ∈ graph.nodes, ∃ data, output = .injected node data ∧
      Injects graph digest state next node data) ∨
    (∃ sender receiver exportable now data rest,
      state.wires sender receiver = data :: rest ∧
      next = (deliver graph digest state sender receiver exportable now data).1 ∧
      output = .arrived receiver data
        (deliver graph digest state sender receiver exportable now data).2) ∨
    (∃ node now, event = .pruneBroadcastCache node now ∧
      next = pruneBroadcastCache graph state node now ∧ output = .silent) := by
  cases event with
  | distributeTruths node truths =>
      obtain ⟨hnode, rfl, rfl⟩ := step_distributeTruths hok
      exact Or.inl ⟨node, hnode, _, rfl, injects_distributeTruths node truths⟩
  | remoteResolve node query now =>
      obtain ⟨hnode, rfl, rfl⟩ := step_remoteResolve hok
      exact Or.inl ⟨node, hnode, _, rfl, injects_remoteResolve node query now⟩
  | deliver sender receiver exportable now =>
      obtain ⟨data, rest, hhead, hnext, houtput⟩ := step_deliver hok
      exact Or.inr (Or.inl ⟨sender, receiver, exportable, now, data, rest, hhead, hnext, houtput⟩)
  | pruneBroadcastCache node now =>
      obtain ⟨rfl, rfl⟩ := Prod.mk.inj (Except.ok.inj hok)
      exact Or.inr (Or.inr ⟨node, now, rfl, rfl, rfl⟩)

/-- The messages of the run have different digests. -/
def Separating (digest : Data α → δ) (steps : List (NetStep α δ)) : Prop :=
  ∀ left ∈ injected steps, ∀ right ∈ injected steps, digest left = digest right → left = right

/-- No entry of a cache is pruned during the run. -/
def NothingPruned (steps : List (NetStep α δ)) : Prop :=
  ∀ step ∈ steps, ∀ node now, step.input = .pruneBroadcastCache node now →
    ∀ other key, step.before.caches other key ≠ none → step.after.caches other key ≠ none

theorem recorded_of_run (hrun : NetRun graph digest steps state)
    (hdistinct : (injected steps).Nodup) (hseparating : Separating digest steps)
    (hkept : NothingPruned steps) : Recorded graph digest steps state := by
  induction hrun with
  | start => exact recorded_initial graph digest
  | @extend steps state next event output prior hok ih =>
      have hold : injected steps ⊆ injected (steps ++ [⟨state, event, output, next⟩]) := by
        rw [injected_append]
        exact List.subset_append_left _ _
      have hrecorded := ih
        (hdistinct.sublist (injected_append ▸ List.sublist_append_left _ _))
        (fun left hleft right hright => hseparating left (hold hleft) right (hold hright))
        (fun step hstep => hkept step (List.mem_append_left _ hstep))
      have hinput : (⟨state, event, output, next⟩ : NetStep α δ) ∈
          steps ++ [⟨state, event, output, next⟩] := List.mem_append_right _ List.mem_cons_self
      rcases step_cases hok with ⟨node, _, data, rfl, hinjects⟩ |
        ⟨sender, receiver, exportable, now, data, rest, hhead, rfl, rfl⟩ |
        ⟨node, now, rfl, hnext, rfl⟩
      · have hinjected : injected (steps ++ [⟨state, event, .injected node data, next⟩]) =
            injected steps ++ [data] := injected_append
        have hnew : data ∉ injected steps := by
          rw [hinjected, List.nodup_append] at hdistinct
          exact fun hmem => hdistinct.2.2 data hmem data List.mem_cons_self rfl
        apply hrecorded.inject hinjects hnew
        intro known hknown
        apply hseparating known (hold hknown) data
        rw [hinjected]
        exact List.mem_append_right _ List.mem_cons_self
      · have hmem := hrecorded.injected_of_wire sender receiver data (hhead ▸ List.mem_cons_self)
        apply hrecorded.deliver hhead _ rfl rfl
        exact fun known hknown => hseparating known (hold hknown) data (hold hmem)
      · exact hrecorded.keep hnext (hkept _ hinput node now rfl)

/-- What it means for a run to be an exactly-once FIFO broadcast. -/
structure ExactlyOnceFifo (graph : Graph) (steps : List (NetStep α δ)) (state : NetState α δ) :
    Prop where
  handled_once : ∀ node data, (handledBy node steps).count data ≤ 1
  relayed_once : ∀ node data, (relayedBy node steps).count data ≤ 1
  /-- What a signpost has handled of an origin's messages is an initial part of
  what the origin has sent, in the same order. -/
  in_order : ∀ origin node, node ≠ origin →
    ((handledBy node steps).filter fun data => data ∈ injectedBy origin steps) <+:
      injectedBy origin steps
  complete : state.wires.Quiet → ∀ origin ∈ graph.nodes, ∀ node ∈ graph.nodes, node ≠ origin →
    ∀ data ∈ injectedBy origin steps, (handledBy node steps).count data = 1

/-- Flooding is an exactly-once FIFO broadcast. -/
theorem exactlyOnceFifo_of_run (hconnected : graph.Connected)
    (hrun : NetRun graph digest steps state) (hdistinct : (injected steps).Nodup)
    (hseparating : Separating digest steps)
    (hkept : NothingPruned steps) : ExactlyOnceFifo graph steps state := by
  have hrecorded := recorded_of_run hrun hdistinct hseparating hkept
  constructor
  case handled_once =>
    exact fun node data => List.nodup_iff_count_le_one.mp (hrecorded.handled_nodup node) data
  case relayed_once =>
    intro node data
    rw [hrecorded.relayed_eq]
    exact List.nodup_iff_count_le_one.mp (hrecorded.handled_nodup node) data
  case in_order => exact fun origin node hnode => (hrecorded.floods origin).done_isPrefix node hnode
  case complete =>
    intro hquiet origin horigin node hmem hnode data hdata
    have hcomplete := (hrecorded.floods origin).complete hquiet hnode
      (hconnected origin horigin node hmem)
    rw [← hcomplete] at hdata
    exact List.count_eq_one_of_mem (hrecorded.handled_nodup node) (List.mem_filter.mp hdata).1

/-! ## Two origins in a triangle -/

def triangleEvents : List (NetEvent String) :=
  [.distributeTruths "alpha" [⟨"port@alpha", "sip", "GLOBAL", "alpha", "5060", some 300⟩],
    .remoteResolve "beta" ⟨"port@gamma", "carol", "gamma"⟩ 10,
    .deliver "beta" "gamma" [] 11,
    .deliver "gamma" "alpha" [] 12,
    .deliver "alpha" "beta" [] 13,
    .deliver "alpha" "beta" [] 14,
    .deliver "beta" "gamma" [] 15,
    .deliver "alpha" "gamma" [] 16,
    .deliver "beta" "alpha" [] 17,
    .deliver "gamma" "alpha" [] 18,
    .deliver "alpha" "beta" [] 19]

def triangleSteps : List (NetStep String (Data String)) :=
  record (step Graph.triangle id) initial triangleEvents

def triangleState : NetState String (Data String) :=
  final (step Graph.triangle id) initial triangleEvents

theorem quiet_triangle : triangleState.wires.Quiet := by
  have hwires := spreads_of_run (run_record (step Graph.triangle id) initial triangleEvents)
  have hnodes : ∀ sender ∈ Graph.triangle.nodes, ∀ receiver ∈ Graph.triangle.nodes,
      triangleState.wires sender receiver = [] := by
    decide
  intro sender receiver
  cases hwire : triangleState.wires sender receiver with
  | nil => rfl
  | cons data rest =>
      -- what is on a wire is on one between two of the signposts
      have hlinked := (hwires sender receiver data (hwire ▸ List.mem_cons_self)).2
      obtain ⟨hsender, hreceiver, -⟩ := Graph.mem_completeChannels.mp hlinked
      rw [hnodes sender hsender receiver hreceiver] at hwire
      cases hwire

theorem exactlyOnceFifo_triangle : triangleSteps.length = 11 ∧ triangleState.wires.Quiet ∧
    ExactlyOnceFifo Graph.triangle triangleSteps triangleState := by
  refine ⟨by decide, quiet_triangle, exactlyOnceFifo_of_run (Graph.connected_complete _ _)
    (run_record _ _ _) (by decide)
    (fun _ _ _ _ heq => heq) ?_⟩
  intro step hstep node now hinput
  have hmem := input_mem_of_record hstep
  simp [hinput, triangleEvents] at hmem

end Signpost.Network

import Signpost.Comms.Network
import Signpost.Flood.Flooding

/-! # Relaying keeps the order of each origin

Every operation of the network keeps the flooding invariant for the messages of
one origin, under the conditions that make it do so.
-/

namespace Signpost

open Flood Flood.Channels

variable {α δ : Type}

/-- The signpost finds the digest of the message in its broadcast cache. -/
def NetState.Remembers (digest : Data α → δ) (state : NetState α δ) (node : String)
    (data : Data α) : Prop :=
  state.caches node (digest data) ≠ none

/-- The flooding invariant for the messages of an origin. -/
abbrev Floods [DecidableEq α] (graph : Graph) (digest : Data α → δ) (state : NetState α δ)
    (origin : String) (order : List (Data α)) (done : String → List (Data α)) : Prop :=
  Flooding graph.Linked origin order done (state.Remembers digest) state.wires

/-- The digest of a message tells it from the messages of the origin. -/
def Separates (digest : Data α → δ) (order : List (Data α)) (data : Data α) : Prop :=
  ∀ known ∈ order, digest known = digest data → known = data

namespace Network

variable {graph : Graph} {digest : Data α → δ} {state next : NetState α δ} {origin node : String}
  {order : List (Data α)} {done : String → List (Data α)} {data : Data α}

/-! ## What an operation does -/

/-- The signpost that asks a question sends it to all its neighbours. -/
theorem filter_neighbours (graph : Graph) (node : String) :
    ((graph.channels node).map fun channel => channel.name).filter (fun name => name ≠ node) =
      graph.neighbours node := by
  apply List.filter_eq_self.mpr
  intro name hname
  have hother : name ≠ node := fun heq => graph.irreflexive node (heq ▸ hname)
  simpa using hother

/-- Pruning only forgets. -/
theorem caches_prune {now : Int} {other : String} {key : δ}
    (hcached : (pruneBroadcastCache graph state node now).caches other key ≠ none) :
    state.caches other key ≠ none := by
  by_cases hnode : other = node
  · subst hnode
    intro hnone
    exact hcached (by
      simp [pruneBroadcastCache, NetState.setCentre, NetState.centre,
        CommunicationCentre.pruneBroadcastCache, hnone])
  · simpa [pruneBroadcastCache, NetState.setCentre, NetState.centre,
      CommunicationCentre.pruneBroadcastCache, hnode] using hcached

section Broadcast

variable [DecidableEq δ]

/-- Broadcasting a message records its digest in one cache. -/
theorem caches_broadcast (node : String) (now : Int) (sender : String) {other : String} {key : δ} :
    (state.setCentre ((state.centre graph node).broadcast digest now data sender).1).caches other
        key ≠ none ↔
      state.caches other key ≠ none ∨ other = node ∧ key = digest data := by
  by_cases hnode : other = node
  · subst hnode
    by_cases hkey : key = digest data
    · simp [NetState.setCentre, NetState.centre, CommunicationCentre.broadcast,
        CommunicationCentre.aboutToBroadcast, hkey]
    · simp [NetState.setCentre, NetState.centre, CommunicationCentre.broadcast,
        CommunicationCentre.aboutToBroadcast, hkey]
  · simp [NetState.setCentre, NetState.centre, CommunicationCentre.broadcast,
      CommunicationCentre.aboutToBroadcast, hnode]

/-- A message that its receiver remembers is only taken from the wire. -/
theorem deliver_known (graph : Graph) (sender : String) {receiver : String}
    (exportable : List (Provision α)) (now : Int) (hknown : state.Remembers digest receiver data) :
    deliver graph digest state sender receiver exportable now data =
      ({ state with wires := state.wires.take sender receiver }, {}) := by
  -- the wires change by the taken message only, since a dropped one has no replies
  have hsome : (state.centre graph receiver).broadcastCache (digest data) ≠ none := hknown
  rw [deliver, CommunicationCentre.receive_known hsome]
  simp [NetState.reply, NetState.setCentre, NetState.centre, send_nil]

/-- A message that its receiver does not remember is relayed to its other
neighbours. -/
theorem deliver_new (graph : Graph) (sender : String) {receiver : String}
    (exportable : List (Provision α)) (now : Int)
    (hnew : ¬ state.Remembers digest receiver data) (hspreads : data.Spreads) :
    (deliver graph digest state sender receiver exportable now data).1 =
        { state.setCentre
            ((state.centre graph receiver).broadcast digest now data sender).1 with
          wires := (state.wires.take sender receiver).send receiver
            ((graph.neighbours receiver).filter fun name => name ≠ sender) data } ∧
      (deliver graph digest state sender receiver exportable now data).2.handled = true ∧
      (deliver graph digest state sender receiver exportable now data).2.relayed.isSome = true ∧
      (deliver graph digest state sender receiver exportable now data).2.external =
        data.truths.getD [] := by
  have hnone : (state.centre graph receiver).broadcastCache (digest data) = none :=
    not_not.mp hnew
  rw [deliver, CommunicationCentre.receive_new hnone hspreads]
  exact ⟨rfl, rfl, rfl, rfl⟩

end Broadcast

/-! ## Distributing and pruning -/

variable [DecidableEq α]

section Invariant

variable (hfloods : Floods graph digest state origin order done)

include hfloods

/-- A message is distributed that is not one of the origin's, or that all who
have it remember. -/
theorem floods_distributeTruths {truths : List (Provision α)}
    (hsource : { truths := some truths : Data α } ∈ order → node = origin)
    (hseen : ∀ other, other ≠ origin → { truths := some truths : Data α } ∈ done other →
      state.Remembers digest other { truths := some truths }) :
    Floods graph digest (distributeTruths graph state node truths).1 origin order done :=
  Flooding.send hfloods (fun _ htarget => htarget) (fun hmem => Or.inl (hsource hmem)) hseen

/-- The origin distributes a message that nobody else remembers. -/
theorem floods_distributeTruths_fresh {truths : List (Provision α)}
    (hidle : ¬ state.wires.InFlight { truths := some truths })
    (hforgotten : ∀ other, other ≠ origin →
      ¬ state.Remembers digest other { truths := some truths }) :
    Floods graph digest (distributeTruths graph state origin truths).1 origin
      (order.erase { truths := some truths } ++ [{ truths := some truths }])
      (fun other => (done other).erase { truths := some truths }) :=
  Flooding.inject hfloods hidle hforgotten (fun _ htarget => htarget) (fun _ hnext _ => hnext)

/-- A cache is pruned of entries of which no copy is in flight. -/
theorem floods_prune {now : Int}
    (hidle : node ≠ origin → ∀ known ∈ order, state.wires.InFlight known →
      state.Remembers digest node known →
        (pruneBroadcastCache graph state node now).Remembers digest node known) :
    Floods graph digest (pruneBroadcastCache graph state node now) origin order done := by
  apply Flooding.forget hfloods (fun _ _ => caches_prune)
  intro other hother known hknown hremembers hflight
  by_cases hnode : other = node
  · subst hnode
    exact hidle hother known hknown hflight hremembers
  · simpa [NetState.Remembers, pruneBroadcastCache, NetState.setCentre, NetState.centre,
      CommunicationCentre.pruneBroadcastCache, hnode] using hremembers

end Invariant

/-- A step in which a signpost sends a message of its own to all neighbours. -/
structure Injects (graph : Graph) (digest : Data α → δ) (state next : NetState α δ) (node : String)
    (data : Data α) : Prop where
  spreads : data.Spreads
  mem_wires : ∀ sender receiver other, other ∈ next.wires sender receiver →
    other ∈ state.wires sender receiver ∨ other = data
  remembers : ∀ other key, next.caches other key ≠ none →
    state.caches other key ≠ none ∨ other = node ∧ key = digest data
  remembered : ∀ other key, state.caches other key ≠ none → next.caches other key ≠ none
  own : ∀ order done, Floods graph digest state node order done → Separates digest order data →
    ¬ state.wires.InFlight data →
    (∀ other, other ≠ node → ¬ state.Remembers digest other data) →
    Floods graph digest next node (order.erase data ++ [data]) fun other => (done other).erase data
  others : ∀ origin order done, Floods graph digest state origin order done →
    Separates digest order data → data ∉ order → Floods graph digest next origin order done

theorem injects_distributeTruths (node : String) (truths : List (Provision α)) :
    Injects graph digest state (distributeTruths graph state node truths).1 node
      { truths := some truths } where
  spreads := ⟨Or.inl rfl, rfl⟩
  mem_wires := fun _ _ _ hmem => (mem_send.mp hmem).imp_right fun h => h.2.2
  remembers := fun _ _ hremembers => Or.inl hremembers
  remembered := fun _ _ hremembers => hremembers
  own := fun _ _ hfloods _ hidle hforgotten =>
    floods_distributeTruths_fresh hfloods hidle hforgotten
  others := by
    intro origin order done hfloods _ hother
    apply floods_distributeTruths hfloods (fun hmem => absurd hmem hother)
    exact fun next hnext hmem => absurd ((hfloods.done_isPrefix next hnext).subset hmem) hother

/-! ## Broadcasting -/

variable [DecidableEq δ]

section Invariant

variable (hfloods : Floods graph digest state origin order done)

include hfloods

/-- What a broadcast adds to a memory does not concern other messages. -/
theorem floods_remember (node : String) (now : Int) (sender : String)
    (hseparates : Separates digest order data)
    (hdone : data ∈ order → node ≠ origin → data ∈ done node) :
    Floods graph digest
      (state.setCentre ((state.centre graph node).broadcast digest now data sender).1)
      origin order done := by
  refine Flooding.withSeen hfloods _ ?_ ?_
  · intro other hother known hknown hremembers
    rcases (caches_broadcast _ _ _).mp hremembers with hold | ⟨rfl, hkey⟩
    · exact hfloods.done_of_seen other hother known hknown hold
    · obtain rfl := hseparates known hknown hkey
      exact hdone hknown hother
  · intro other hother known hknown hflight
    exact (caches_broadcast _ _ _).mpr
      (Or.inl (hfloods.seen_of_inFlight other hother known hknown hflight))

/-- A resolution is sent out that is not one of the origin's messages. -/
theorem floods_remoteResolve {query : ResolveQuery} {now : Int}
    (hseparates : Separates digest order { resolve := some query })
    (hother : { resolve := some query } ∉ order) :
    Floods graph digest (remoteResolve graph digest state node query now).1 origin order done := by
  have hremembered := floods_remember hfloods node now node hseparates
    fun hmem => absurd hmem hother
  refine Flooding.send hremembered ?_ (fun hmem => absurd hmem hother) ?_
  · exact fun target htarget => (List.mem_filter.mp htarget).1
  · exact fun next hnext hmem => absurd ((hfloods.done_isPrefix next hnext).subset hmem) hother

/-- The origin sends out a resolution that nobody else remembers. -/
theorem floods_remoteResolve_fresh {query : ResolveQuery} {now : Int}
    (hseparates : Separates digest order { resolve := some query })
    (hidle : ¬ state.wires.InFlight { resolve := some query })
    (hforgotten : ∀ other, other ≠ origin →
      ¬ state.Remembers digest other { resolve := some query }) :
    Floods graph digest (remoteResolve graph digest state origin query now).1 origin
      (order.erase { resolve := some query } ++ [{ resolve := some query }])
      (fun other => (done other).erase { resolve := some query }) := by
  have hremembered := floods_remember hfloods origin now origin hseparates
    fun _ hne => absurd rfl hne
  refine Flooding.inject hremembered hidle ?_ ?_ ?_
  · intro other hother hremembers
    rcases (caches_broadcast _ _ _).mp hremembers with hold | ⟨rfl, _⟩
    · exact hforgotten other hother hold
    · exact hother rfl
  · exact fun target htarget => (List.mem_filter.mp htarget).1
  · intro next hnext hne
    exact List.mem_filter.mpr ⟨hnext, decide_eq_true hne⟩

/-- The messages that a signpost has taken, after one more arrived. -/
def takenAfter (digest : Data α → δ) (state : NetState α δ) (origin : String)
    (order : List (Data α)) (done : String → List (Data α)) (receiver : String) (data : Data α) :
    String → List (Data α) :=
  if state.caches receiver (digest data) = none ∧ receiver ≠ origin ∧ data ∈ order then
    Function.update done receiver (done receiver ++ [data])
  else done

theorem floods_deliver {sender receiver : String} {rest : List (Data α)}
    (exportable : List (Provision α)) (now : Int)
    (hhead : state.wires sender receiver = data :: rest) (hspreads : data.Spreads)
    (hseparates : Separates digest order data) :
    Floods graph digest (deliver graph digest state sender receiver exportable now data).1 origin
      order (takenAfter digest state origin order done receiver data) := by
  by_cases hnew : state.caches receiver (digest data) = none
  · rw [(deliver_new graph sender exportable now (not_not.mpr hnew) hspreads).1]
    have htargets : ∀ target ∈ (graph.neighbours receiver).filter (fun name => name ≠ sender),
        graph.Linked receiver target := fun target htarget => (List.mem_filter.mp htarget).1
    by_cases htakes : receiver ≠ origin ∧ data ∈ order
    · rw [takenAfter, if_pos ⟨hnew, htakes⟩]
      refine (Flooding.forward hfloods htakes.1 htakes.2 hhead (not_not.mpr hnew) htargets
        fun next hnext hne => List.mem_filter.mpr ⟨hnext, by simpa using hne⟩).congrSeen ?_
      intro other known hknown
      exact (caches_broadcast _ _ _).trans (or_congr_right (and_congr_right
        fun _ => ⟨hseparates known hknown, fun heq => congrArg digest heq⟩))
    · rw [takenAfter, if_neg fun h => htakes h.2]
      have hremembered := floods_remember hfloods receiver now sender hseparates
        fun hmem hne => absurd ⟨hne, hmem⟩ htakes
      exact hremembered.bypass hhead htargets
        fun hmem => Or.inl (not_not.mp fun hne => htakes ⟨hne, hmem⟩)
  · rw [deliver_known _ _ _ _ hnew, takenAfter, if_neg fun h => hnew h.1]
    apply Flooding.take hfloods hhead
    exact fun hreceiver hmem => hfloods.done_of_seen receiver hreceiver data hmem hnew

end Invariant

theorem injects_remoteResolve (node : String) (query : ResolveQuery) (now : Int) :
    Injects graph digest state (remoteResolve graph digest state node query now).1 node
      { resolve := some query } where
  spreads := ⟨Or.inr rfl, rfl⟩
  mem_wires := fun _ _ _ hmem => (mem_send.mp hmem).imp_right fun h => h.2.2
  remembers := fun _ _ hremembers => (caches_broadcast node now node).mp hremembers
  remembered := fun _ _ hremembers => (caches_broadcast node now node).mpr (Or.inl hremembers)
  own := fun _ _ hfloods hseparates hidle hforgotten =>
    floods_remoteResolve_fresh hfloods hseparates hidle hforgotten
  others := fun _ _ _ hfloods hseparates hother => floods_remoteResolve hfloods hseparates hother

end Network

end Signpost

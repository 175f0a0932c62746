import Mathlib.Data.Finset.Union
import Signpost.Comms.Relay
import Signpost.Comms.RemoteResolution
import Signpost.Flood.Resting
import Signpost.Machine.Resting

/-! # The network comes to rest

A message that arrives is either dropped, or its receiver finds it in its broadcast
cache from then on. While nothing is sent anew and nothing is pruned, only so many
messages can be received, and once all of them are, nothing is in flight.
-/

namespace Signpost

open Flood Flood.Channels Machine

variable {α δ : Type}

namespace Graph

/-- The channels of a signpost lead to signposts. -/
def Closed (graph : Graph) : Prop := ∀ node next, graph.Linked node next → next ∈ graph.nodes

theorem Closed.linked {graph : Graph} (hclosed : graph.Closed) {node next : String}
    (hlinked : graph.Linked node next) : node ∈ graph.nodes ∧ next ∈ graph.nodes :=
  ⟨hclosed next node (graph.symmetric node next hlinked), hclosed node next hlinked⟩

theorem closed_complete (names : List String) (hnodup : names.Nodup) :
    (complete names hnodup).Closed :=
  fun _ _ hlinked => (mem_completeChannels.mp hlinked).2.1

end Graph

namespace Network

/-- A message is received. -/
def Delivery : NetEvent α → Prop
  | .deliver _ _ _ _ => True
  | _ => False

variable [DecidableEq δ] (graph : Graph) (digest : Data α → δ)

/-- The digests of what is in flight. -/
def inFlightDigests (state : NetState α δ) : Finset δ :=
  (graph.nodes.toFinset ×ˢ graph.nodes.toFinset).biUnion fun pair =>
    ((state.wires pair.1 pair.2).map digest).toFinset

/-- How many messages can still be received, if the digests are those in flight. -/
def remaining (keys : Finset δ) (state : NetState α δ) : ℕ :=
  potential graph.nodes.toFinset keys (fun node key => (state.caches node key).isSome) state.wires

/-- Everything in flight is flooded over a link, and has one of the digests. -/
structure Carried (keys : Finset δ) (state : NetState α δ) : Prop where
  spreads : ∀ sender receiver, ∀ data ∈ state.wires sender receiver, data.Spreads
  linked : ∀ sender receiver, ∀ data ∈ state.wires sender receiver, graph.Linked sender receiver
  digests : ∀ sender receiver, ∀ data ∈ state.wires sender receiver, digest data ∈ keys

variable {graph digest} {state next : NetState α δ} {keys : Finset δ}

theorem carried_of_run {steps : List (NetStep α δ)} (hclosed : graph.Closed)
    (hrun : NetRun graph digest steps state) :
    Carried graph digest (inFlightDigests graph digest state) state := by
  have hwires := spreads_of_run hrun
  refine ⟨fun _ _ _ hdata => (hwires _ _ _ hdata).1, fun _ _ _ hdata => (hwires _ _ _ hdata).2, ?_⟩
  intro sender receiver data hdata
  obtain ⟨hsender, hreceiver⟩ := hclosed.linked (hwires sender receiver data hdata).2
  exact Finset.mem_biUnion.mpr ⟨(sender, receiver),
    Finset.mem_product.mpr ⟨List.mem_toFinset.mpr hsender, List.mem_toFinset.mpr hreceiver⟩,
    List.mem_toFinset.mpr (List.mem_map_of_mem hdata)⟩

section Deliver

variable {sender receiver : String} {data : Data α} {rest : List (Data α)}
  (exportable : List (Provision α)) (now : Int) (hcarried : Carried graph digest keys state)
  (hhead : state.wires sender receiver = data :: rest)

include hcarried hhead

theorem carried_deliver :
    Carried graph digest keys
      (deliver graph digest state sender receiver exportable now data).1 := by
  have hmem : data ∈ state.wires sender receiver := hhead ▸ List.mem_cons_self
  have hspreads := hcarried.spreads sender receiver data hmem
  by_cases hknown : state.Remembers digest receiver data
  · rw [deliver_known graph sender exportable now hknown]
    exact ⟨fun _ _ _ h => hcarried.spreads _ _ _ (mem_of_mem_take h),
      fun _ _ _ h => hcarried.linked _ _ _ (mem_of_mem_take h),
      fun _ _ _ h => hcarried.digests _ _ _ (mem_of_mem_take h)⟩
  · rw [(deliver_new graph sender exportable now hknown hspreads).1]
    -- a copy that is sent on is of the message that is taken, and goes to a neighbour
    refine ⟨fun origin target copy hcopy => ?_, fun origin target copy hcopy => ?_,
      fun origin target copy hcopy => ?_⟩ <;>
      rcases mem_send.mp hcopy with hold | ⟨rfl, htarget, rfl⟩
    · exact hcarried.spreads _ _ _ (mem_of_mem_take hold)
    · exact hspreads
    · exact hcarried.linked _ _ _ (mem_of_mem_take hold)
    · exact (List.mem_filter.mp htarget).1
    · exact hcarried.digests _ _ _ (mem_of_mem_take hold)
    · exact hcarried.digests _ _ _ hmem

theorem remaining_deliver (hclosed : graph.Closed) :
    remaining graph keys (deliver graph digest state sender receiver exportable now data).1 <
      remaining graph keys state := by
  have hmem : data ∈ state.wires sender receiver := hhead ▸ List.mem_cons_self
  obtain ⟨hsender, hreceiver⟩ := hclosed.linked (hcarried.linked sender receiver data hmem)
  have hsender := List.mem_toFinset.mpr hsender
  have hreceiver := List.mem_toFinset.mpr hreceiver
  by_cases hknown : state.Remembers digest receiver data
  -- a duplicate is dropped, and one message fewer is in flight
  · rw [deliver_known graph sender exportable now hknown]
    exact potential_take hsender hreceiver hhead
  · rw [(deliver_new graph sender exportable now hknown
      (hcarried.spreads sender receiver data hmem)).1]
    refine potential_relay hsender hreceiver hhead (hcarried.digests sender receiver data hmem)
      ?_ ?_ ?_ ?_ ((graph.neighbours_nodup receiver).filter _)
    · exact Option.isSome_eq_false_iff.mpr (Option.isNone_iff_eq_none.mpr (not_not.mp hknown))
    · exact Option.isSome_iff_ne_none.mpr
        ((caches_broadcast receiver now sender).mpr (Or.inr ⟨rfl, rfl⟩))
    · intro node key hseen
      exact Option.isSome_iff_ne_none.mpr
        ((caches_broadcast receiver now sender).mpr (Or.inl (Option.isSome_iff_ne_none.mp hseen)))
    · intro name hname
      exact List.mem_toFinset.mpr
        (hclosed receiver name (List.mem_filter.mp (List.mem_toFinset.mp hname)).1)

end Deliver

variable (digest) in
theorem descends_delivery (hclosed : graph.Closed) (keys : Finset δ) :
    Descends (step graph digest) (Carried graph digest keys) (Delivery (α := α))
      (remaining graph keys) := by
  constructor
  · intro state next event output hcarried hdelivery hok
    cases event with
    | deliver sender receiver exportable now =>
        obtain ⟨data, rest, hhead, rfl, -⟩ := step_deliver hok
        exact carried_deliver exportable now hcarried hhead
    | _ => cases hdelivery
  · intro state next event output hcarried hdelivery hok
    cases event with
    | deliver sender receiver exportable now =>
        obtain ⟨data, rest, hhead, rfl, -⟩ := step_deliver hok
        exact remaining_deliver exportable now hcarried hhead hclosed
    | _ => cases hdelivery

/-- The oldest message of any channel can be received. -/
theorem exists_delivery (hbusy : ¬ state.wires.Quiet) :
    ∃ event next output, Delivery event ∧ step graph digest state event = .ok (next, output) := by
  simp only [Quiet, not_forall] at hbusy
  obtain ⟨sender, receiver, hwire⟩ := hbusy
  obtain ⟨data, rest, hhead⟩ := List.exists_cons_of_ne_nil hwire
  refine ⟨.deliver sender receiver [] 0, (deliver graph digest state sender receiver [] 0 data).1,
    .arrived receiver data (deliver graph digest state sender receiver [] 0 data).2, trivial, ?_⟩
  simp only [step, hhead]

/-- Between injections, the signposts receive at most as many messages as are in flight, and
one for each pair of signposts of which the first does not remember a digest in flight. In
whatever order they receive them, they can go on until nothing is in flight. -/
theorem rests_of_run (hclosed : graph.Closed) {steps later : List (NetStep α δ)}
    {final : NetState α δ} (hrun : NetRun graph digest steps state)
    (hlater : Run (step graph digest) state later final)
    (hdeliveries : ∀ step ∈ later, Delivery step.input) :
    later.length ≤ remaining graph (inFlightDigests graph digest state) state ∧
      ∃ further rest, Run (step graph digest) final further rest ∧
        (∀ step ∈ further, Delivery step.input) ∧ rest.wires.Quiet := by
  have hdescends := descends_delivery digest hclosed
    (inFlightDigests graph digest state)
  obtain ⟨hcarried, hlength⟩ :=
    hlater.length_add_le hdescends (carried_of_run hclosed hrun) hdeliveries
  exact ⟨by omega,
    exists_run_to_rest hdescends (fun _ _ hbusy => exists_delivery hbusy) hcarried⟩

/-- Alpha has asked, and nobody has received the question. -/
def askedState : NetState String (Data String) :=
  final (step Graph.triangle id) initial (onceEvents.take 1)

def onceDeliveries : List (NetStep String (Data String)) :=
  record (step Graph.triangle id) askedState (onceEvents.drop 1)

theorem rests_of_run_once :
    remaining Graph.triangle (inFlightDigests Graph.triangle id askedState) askedState = 8 ∧
      onceDeliveries.length ≤
        remaining Graph.triangle (inFlightDigests Graph.triangle id askedState) askedState ∧
      ∃ further rest, Run (step Graph.triangle id)
        (final (step Graph.triangle id) askedState (onceEvents.drop 1)) further rest ∧
          (∀ step ∈ further, Delivery step.input) ∧ rest.wires.Quiet := by
  refine ⟨by decide, rests_of_run (Graph.closed_complete _ _) (run_record _ _ _)
    (run_record _ askedState (onceEvents.drop 1)) ?_⟩
  intro step hstep
  have hinput := input_mem_of_record hstep
  simp only [onceEvents, List.drop_one, List.tail_cons, List.mem_cons, List.not_mem_nil,
    or_false] at hinput
  rcases hinput with hinput | hinput | hinput | hinput <;> rw [hinput] <;> trivial

end Network

end Signpost

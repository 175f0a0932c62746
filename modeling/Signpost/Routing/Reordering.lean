import Signpost.Bloom.Reordering
import Signpost.Routing.NodeRuns

/-! # Messages of one timestep come in any order at a routing node

What a node records, sends and has evaluated does not depend on the order in which the
messages of a timestep have arrived.
-/

namespace Signpost.Routing

open Bloom Machine

/-- The same messages have arrived. -/
structure Batch.Same (batch other : Batch) : Prop where
  messages : SameRows batch.messages other.messages
  newDevice : SameRows batch.newDevice other.newDevice
  heartbeatTimer : batch.heartbeatTimer = other.heartbeatTimer
  ttlChecker : batch.ttlChecker = other.ttlChecker
  now : batch.now = other.now

structure State.Same (state other : State) : Prop where
  nodes : SameRows state.nodes.rows other.nodes.rows
  devices : SameRows state.devices.rows other.devices.rows
  tactics : SameRows state.tactics.rows other.tactics.rows
  links : SameRows state.links.rows other.links.rows
  linkTtls : SameRows state.linkTtls.rows other.linkTtls.rows

structure Output.Same (output other : Output) : Prop where
  sent : SameRows output.sent other.sent
  evalTacticRequest : SameRows output.evalTacticRequest other.evalTacticRequest

theorem same_payloads {batch other : Batch} (hbatch : batch.Same other) {τ : Type}
    (payload : Message → Option τ) :
    SameRows (batch.messages.filterMap payload) (other.messages.filterMap payload) :=
  hbatch.messages.filterMap payload

theorem same_ite {ρ : Type} {left right : Bool} (htimer : left = right) {rows others : List ρ}
    (hrows : SameRows rows others) :
    SameRows (if left then rows else []) (if right then others else []) := by
  subst htimer
  split
  next => exact hrows
  next => exact SameRows.refl _

section

variable {batch other : Batch} {state state' : State} (node : Node)

theorem State.Same.knows (hstate : state.Same state') (host : Host) :
    state.Knows host ↔ state'.Knows host := by
  simp only [State.Knows, hstate.nodes _]

theorem same_deadNodes (hstate : state.Same state') (hbatch : batch.Same other) :
    SameRows (deadNodes node state batch) (deadNodes node state' other) :=
  same_ite hbatch.heartbeatTimer (hstate.nodes.filter fun row => by rw [hbatch.now])

theorem same_nodesToConnectTo (hstate : state.Same state') (hbatch : batch.Same other) :
    SameRows (nodesToConnectTo state batch) (nodesToConnectTo state' other) :=
  (same_payloads hbatch _).filter fun row => by simp only [hstate.knows]

theorem same_nodeUpdates (hstate : state.Same state') (hbatch : batch.Same other) :
    SameRows (nodeUpdates state batch) (nodeUpdates state' other) := by
  unfold nodeUpdates
  rw [hbatch.now]
  refine ((same_payloads hbatch _).map _).append
    (((same_nodesToConnectTo hstate hbatch).map _).append (SameRows.map ?_ _))
  exact (same_payloads hbatch _).filter fun row => by simp only [hstate.knows]

theorem same_newDeviceInfo (hstate : state.Same state') (hbatch : batch.Same other) :
    SameRows (newDeviceInfo state batch) (newDeviceInfo state' other) := by
  refine (same_payloads hbatch _).filter fun device => ?_
  have hdevices : device ∈ state.devices ↔ device ∈ state'.devices := hstate.devices device
  simp only [hdevices]

theorem same_deadLinks (hstate : state.Same state') (hbatch : batch.Same other) :
    SameRows (deadLinks node state batch) (deadLinks node state' other) := by
  refine hstate.links.filter fun link => ?_
  have hdead := same_deadNodes node hstate hbatch
  rw [Bool.eq_iff_iff, List.any_eq_true, List.any_eq_true]
  simp only [hdead _]

theorem same_ttledLinks (hstate : state.Same state') (hbatch : batch.Same other) :
    SameRows (ttledLinks state batch) (ttledLinks state' other) :=
  same_ite hbatch.ttlChecker (hstate.linkTtls.filter fun row => by rw [hbatch.now])

theorem same_expiredLinks (hstate : state.Same state') (hbatch : batch.Same other) :
    SameRows (expiredLinks state batch) (expiredLinks state' other) :=
  (same_ttledLinks hstate hbatch).flatMap fun _ => hstate.links.filter fun _ => rfl

theorem same_linkTtlUpdates (hbatch : batch.Same other) :
    SameRows (linkTtlUpdates node batch) (linkTtlUpdates node other) := by
  unfold linkTtlUpdates
  rw [hbatch.now]
  exact ((same_payloads hbatch _).map _).append ((same_payloads hbatch _).map _)

theorem same_evalTacticRequest (hstate : state.Same state') (hbatch : batch.Same other) :
    SameRows (evalTacticRequest node state batch) (evalTacticRequest node state' other) := by
  refine SameRows.append ?_ (SameRows.append ?_ ?_)
  · exact hstate.tactics.flatMap fun tactic => (same_newDeviceInfo hstate hbatch).map _
  · exact (same_payloads hbatch _).flatMap fun tactic => hstate.devices.map _
  · exact hstate.tactics.flatMap fun tactic =>
      (same_ttledLinks hstate hbatch).flatMap fun lttl =>
        (hstate.devices.filter fun _ => rfl).map _

theorem same_sends (hstate : state.Same state') (hbatch : batch.Same other) :
    SameRows (sends node state batch) (sends node state' other) := by
  refine SameRows.append ?_ (SameRows.append ?_ (SameRows.append ?_ (SameRows.append ?_
    (SameRows.append ?_ (SameRows.append ?_ ?_)))))
  · exact same_ite hbatch.heartbeatTimer (hstate.nodes.map _)
  · exact (same_nodesToConnectTo hstate hbatch).map _
  · exact (same_payloads hbatch _).flatMap fun newNode => hstate.nodes.map _
  · exact (same_payloads hbatch _).flatMap fun request => hstate.devices.map _
  · exact hstate.nodes.flatMap fun row => hbatch.newDevice.map _
  · exact (same_payloads hbatch _).flatMap fun request => hstate.links.map _
  · exact hstate.nodes.flatMap fun row => (same_payloads hbatch _).map _

theorem derive_agree {ρ κ : Type} [DecidableEq ρ] [DecidableEq κ] (collection : KeyedCollection)
    (key : ρ → κ) {rows others : List ρ} (hrows : SameRows rows others) :
    Agree (fun left right => SameRows left.rows right.rows) (derive collection key rows)
      (derive collection key others) :=
  Collection.derive_agree key _ hrows

/-- A timestep does the same, or fails in the same way. -/
theorem timestep_agree (hstate : state.Same state') (hbatch : batch.Same other) :
    Agree (fun left right => left.1.Same right.1 ∧ left.2.Same right.2)
      (timestep node state batch) (timestep node state' other) := by
  refine (derive_agree _ _ (same_nodeUpdates hstate hbatch)).bind fun nodes nodes' hnodes => ?_
  refine (derive_agree _ _ (same_newDeviceInfo hstate hbatch)).bind
    fun devices devices' hdevices => ?_
  refine (derive_agree _ _ hbatch.newDevice).bind fun _ _ _ => ?_
  refine (derive_agree _ _ (same_payloads hbatch _)).bind fun tactics tactics' htactics => ?_
  refine (derive_agree _ _ (same_payloads hbatch _)).bind fun links links' hlinks => ?_
  refine (derive_agree _ _ (same_linkTtlUpdates node hbatch)).bind
    fun linkTtls linkTtls' hlinkTtls => ?_
  refine .ok ⟨⟨?_, ?_, ?_, ?_, ?_⟩, ⟨?_, ?_⟩⟩
  · exact Collection.settle_same hstate.nodes (same_deadNodes node hstate hbatch) hnodes
  · exact Collection.settle_same hstate.devices (SameRows.refl _) hdevices
  · exact Collection.settle_same hstate.tactics (SameRows.refl _) htactics
  · exact Collection.settle_same hstate.links
      ((same_deadLinks node hstate hbatch).append (same_expiredLinks hstate hbatch)) hlinks
  · exact Collection.settle_same hstate.linkTtls (same_ttledLinks hstate hbatch) hlinkTtls
  · exact same_sends node hstate hbatch
  · exact same_evalTacticRequest node hstate hbatch

/-- Two nodes that get the same messages in the same timesteps record, send and have
evaluated the same in each of them, and the one fails in the timestep in which the other
does. -/
theorem nodeRun_reordered (isServer : Bool) (started : Int) {batches others : List Batch}
    (hbatches : List.Forall₂ Batch.Same batches others) :
    List.Forall₂ (Alike State.Same Batch.Same Output.Same)
        (record (timestep node) (bootstrapState node isServer started) batches)
        (record (timestep node) (bootstrapState node isServer started) others) ∧
      (final (timestep node) (bootstrapState node isServer started) batches).Same
        (final (timestep node) (bootstrapState node isServer started) others) := by
  refine record_alike (fun state state' hstate batch other hbatch => ?_) hbatches
    ⟨.refl _, .refl _, .refl _, .refl _, .refl _⟩
  exact timestep_agree node hstate hbatch

end

/-- A node connects while a device is announced. -/
def laptopConnects : Message := .connect ⟨"laptop", "laptop"⟩

def phoneServed : Message := .serveDeviceInfo ⟨"phone", "eth", "eth0", "10.0.0.5"⟩

def laptopFirst : List Batch :=
  [{ messages := [laptopConnects, phoneServed], now := 10 }, { heartbeatTimer := true, now := 11 }]

def phoneFirst : List Batch :=
  [{ messages := [phoneServed, laptopConnects, phoneServed], now := 10 },
    { heartbeatTimer := true, now := 11 }]

theorem nodeRun_reordered_phoneFirst :
    let node : Node := ⟨"server", "server", 1⟩
    List.Forall₂ (Alike State.Same Batch.Same Output.Same)
        (record (timestep node) (bootstrapState node true 0) laptopFirst)
        (record (timestep node) (bootstrapState node true 0) phoneFirst) ∧
      (final (timestep node) (bootstrapState node true 0) laptopFirst).Same
        (final (timestep node) (bootstrapState node true 0) phoneFirst) := by
  intro node
  have hmessages :
      SameRows [laptopConnects, phoneServed] [phoneServed, laptopConnects, phoneServed] := by
    intro message
    simp only [List.mem_cons, List.not_mem_nil, or_false]
    tauto
  exact nodeRun_reordered node true 0
    (.cons ⟨hmessages, .refl _, rfl, rfl, rfl⟩ (.cons ⟨.refl _, .refl _, rfl, rfl, rfl⟩ .nil))

end Signpost.Routing

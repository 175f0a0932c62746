import Mathlib.Logic.Relation
import Signpost.Comms.CommunicationCentre
import Signpost.Flood.Channels
import Signpost.Machine.Run

/-! # A network of signposts

The graph of signposts is fixed and known to all of them, with one reliable FIFO
channel for each direction of a link. Signposts are named by their names.
-/

namespace Signpost

open Flood Machine

/-- A graph of signposts: the channels that each of them holds. -/
structure Graph where
  nodes : List String
  channels : String → List CommsChannel
  /-- The names to which a signpost has a channel are known once each. -/
  neighbours_nodup : ∀ node, ((channels node).map fun channel => channel.name).Nodup
  symmetric : ∀ node next, next ∈ ((channels node).map fun channel => channel.name) →
    node ∈ ((channels next).map fun channel => channel.name)
  irreflexive : ∀ node, node ∉ ((channels node).map fun channel => channel.name)

namespace Graph

def neighbours (graph : Graph) (node : String) : List String :=
  (graph.channels node).map fun channel => channel.name

def Linked (graph : Graph) (node next : String) : Prop := next ∈ graph.neighbours node

def Connected (graph : Graph) : Prop :=
  ∀ node ∈ graph.nodes, ∀ other ∈ graph.nodes, Relation.ReflTransGen graph.Linked node other

def completeChannels (names : List String) (node : String) : List CommsChannel :=
  if node ∈ names then (names.filter fun name => name ≠ node).map fun name => ⟨name, name, 8987⟩
  else []

theorem name_completeChannels (names : List String) (node : String) :
    ((completeChannels names node).map fun channel => channel.name) =
      if node ∈ names then names.filter fun name => name ≠ node else [] := by
  unfold completeChannels
  split
  next =>
    rw [List.map_map]
    exact List.map_id _
  next => rfl

theorem mem_completeChannels {names : List String} {node next : String} :
    next ∈ ((completeChannels names node).map fun channel => channel.name) ↔
      node ∈ names ∧ next ∈ names ∧ next ≠ node := by
  rw [name_completeChannels]
  split
  next hnode => simp [hnode]
  next hnode => simp [hnode]

/-- The graph in which all signposts are linked. -/
def complete (names : List String) (hnodup : names.Nodup) : Graph where
  nodes := names
  channels := completeChannels names
  neighbours_nodup := by
    intro node
    rw [name_completeChannels]
    split
    next => exact hnodup.filter _
    next => exact List.nodup_nil
  symmetric := by
    intro node next hnext
    obtain ⟨hnode, hnext, hne⟩ := mem_completeChannels.mp hnext
    exact mem_completeChannels.mpr ⟨hnext, hnode, hne.symm⟩
  irreflexive := fun _ hmem => (mem_completeChannels.mp hmem).2.2 rfl

theorem connected_complete (names : List String) (hnodup : names.Nodup) :
    (complete names hnodup).Connected := by
  intro node hnode other hother
  by_cases heq : node = other
  · exact heq ▸ .refl
  · exact .single (mem_completeChannels.mpr ⟨hnode, hother, Ne.symm heq⟩)

def triangle : Graph := complete ["alpha", "beta", "gamma"] (by decide)

end Graph

variable {α δ : Type}

/-- The broadcast caches of all signposts, and what is in flight between them. -/
structure NetState (α δ : Type) where
  caches : String → δ → Option Int
  wires : Channels String (Data α)

def NetState.centre (graph : Graph) (state : NetState α δ) (node : String) :
    CommunicationCentre δ :=
  ⟨node, graph.channels node, state.caches node⟩

@[simp] theorem NetState.name_centre (graph : Graph) (state : NetState α δ) (node : String) :
    (state.centre graph node).name = node := rfl

def NetState.setCentre (state : NetState α δ) (centre : CommunicationCentre δ) : NetState α δ :=
  { state with caches := Function.update state.caches centre.name centre.broadcastCache }

/-- A signpost sends messages on the channel to another one. -/
def NetState.reply (state : NetState α δ) (node receiver : String) (replies : List (Data α)) :
    NetState α δ :=
  { state with wires := state.wires.sendAll node [receiver] replies }

inductive NetError
  | disabled
deriving DecidableEq, Repr

inductive NetEvent (α : Type)
  | distributeTruths (node : String) (truths : List (Provision α))
  | remoteResolve (node : String) (query : ResolveQuery) (now : Int)
  | deliver (sender receiver : String) (exportable : List (Provision α)) (now : Int)
  | pruneBroadcastCache (node : String) (now : Int)

/-- What an event does: a signpost sends a new message, one arrives at a
signpost, or nothing is sent or received. -/
inductive NetOutput (α : Type)
  | injected (node : String) (data : Data α)
  | arrived (node : String) (data : Data α) (received : Received α)
  | silent

namespace Network

variable [DecidableEq δ] (graph : Graph) (digest : Data α → δ)

def distributeTruths (state : NetState α δ) (node : String) (truths : List (Provision α)) :
    NetState α δ × Data α :=
  let (data, targets) := (state.centre graph node).distributeTruths truths
  ({ state with wires := state.wires.send node targets data }, data)

def remoteResolve (state : NetState α δ) (node : String) (query : ResolveQuery) (now : Int) :
    NetState α δ × Data α :=
  let (centre, data, targets) := (state.centre graph node).remoteResolve digest now query
  ({ state.setCentre centre with wires := state.wires.send node targets data }, data)

/-- The oldest message of a channel is received and relayed. -/
def deliver (state : NetState α δ) (sender receiver : String) (exportable : List (Provision α))
    (now : Int) (data : Data α) : NetState α δ × Received α :=
  let (centre, received) :=
    (state.centre graph receiver).receive digest now exportable sender data
  let relayed := { state.setCentre centre with
    wires := (state.wires.take sender receiver).send receiver (received.relayed.getD []) data }
  (relayed.reply receiver sender received.replies, received)

def pruneBroadcastCache (state : NetState α δ) (node : String) (now : Int) : NetState α δ :=
  state.setCentre ((state.centre graph node).pruneBroadcastCache now)

def step (state : NetState α δ) :
    NetEvent α → Except NetError (NetState α δ × NetOutput α)
  | .distributeTruths node truths =>
      if node ∉ graph.nodes then .error .disabled
      else
        let (next, data) := distributeTruths graph state node truths
        .ok (next, .injected node data)
  | .remoteResolve node query now =>
      if node ∉ graph.nodes then .error .disabled
      else
        let (next, data) := remoteResolve graph digest state node query now
        .ok (next, .injected node data)
  | .deliver sender receiver exportable now =>
      match state.wires sender receiver with
      | [] => .error .disabled
      | data :: _ =>
          let (next, received) := deliver graph digest state sender receiver exportable now data
          .ok (next, .arrived receiver data received)
  | .pruneBroadcastCache node now => .ok (pruneBroadcastCache graph state node now, .silent)

def initial : NetState α δ := ⟨fun _ _ => none, Channels.empty⟩

abbrev NetStep (α δ : Type) := Transition (NetState α δ) (NetEvent α) (NetOutput α)

abbrev NetRun : List (NetStep α δ) → NetState α δ → Prop :=
  Run (step graph digest) initial

section Steps

variable {graph digest} {state next : NetState α δ} {output : NetOutput α} {node : String}

theorem step_distributeTruths {truths : List (Provision α)}
    (hok : step graph digest state (.distributeTruths node truths) = .ok (next, output)) :
    node ∈ graph.nodes ∧ next = (distributeTruths graph state node truths).1 ∧
      output = .injected node { truths := some truths } := by
  simp only [step] at hok
  split at hok
  next => cases hok
  next hnode =>
    obtain ⟨rfl, rfl⟩ := Prod.mk.inj (Except.ok.inj hok)
    exact ⟨not_not.mp hnode, rfl, rfl⟩

theorem step_remoteResolve {query : ResolveQuery} {now : Int}
    (hok : step graph digest state (.remoteResolve node query now) = .ok (next, output)) :
    node ∈ graph.nodes ∧ next = (remoteResolve graph digest state node query now).1 ∧
      output = .injected node { resolve := some query } := by
  simp only [step] at hok
  split at hok
  next => cases hok
  next hnode =>
    obtain ⟨rfl, rfl⟩ := Prod.mk.inj (Except.ok.inj hok)
    exact ⟨not_not.mp hnode, rfl, rfl⟩

theorem step_deliver {sender receiver : String} {exportable : List (Provision α)} {now : Int}
    (hok : step graph digest state (.deliver sender receiver exportable now) = .ok (next, output)) :
    ∃ data rest, state.wires sender receiver = data :: rest ∧
      next = (deliver graph digest state sender receiver exportable now data).1 ∧
      output = .arrived receiver data
        (deliver graph digest state sender receiver exportable now data).2 := by
  simp only [step] at hok
  split at hok
  next => cases hok
  next data rest hhead =>
    obtain ⟨rfl, rfl⟩ := Prod.mk.inj (Except.ok.inj hok)
    exact ⟨data, rest, hhead, rfl, rfl⟩

end Steps

end Network

/-! ## The history of a run -/

namespace NetOutput

/-- A message sent by the signpost that generated it. -/
def injection : NetOutput α → Option (String × Data α)
  | .injected node data => some (node, data)
  | _ => none

/-- A message that got past the duplicate check of a signpost. -/
def handling : NetOutput α → Option (String × Data α)
  | .arrived node data received => if received.handled then some (node, data) else none
  | _ => none

def relaying : NetOutput α → Option (String × Data α)
  | .arrived node data received => if received.relayed.isSome then some (node, data) else none
  | _ => none

end NetOutput

namespace Network

/-- The messages of a signpost in a record of events. -/
def ofNode (node : String) (event : NetOutput α → Option (String × Data α))
    (steps : List (NetStep α δ)) : List (Data α) :=
  steps.filterMap fun step =>
    (event step.output).bind fun entry => if entry.1 = node then some entry.2 else none

/-- All messages that are injected, in order. -/
def injected (steps : List (NetStep α δ)) : List (Data α) :=
  steps.filterMap fun step => step.output.injection.map fun entry => entry.2

def injectedBy (node : String) (steps : List (NetStep α δ)) : List (Data α) :=
  ofNode node NetOutput.injection steps

def handledBy (node : String) (steps : List (NetStep α δ)) : List (Data α) :=
  ofNode node NetOutput.handling steps

def relayedBy (node : String) (steps : List (NetStep α δ)) : List (Data α) :=
  ofNode node NetOutput.relaying steps

end Network

end Signpost

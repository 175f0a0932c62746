import Mathlib.Data.List.Induction
import Mathlib.Logic.Function.Basic
import Signpost.Bloom.History

/-! # The learning switch

A controller of OpenFlow switches learns behind which port an Ethernet address
is, from the packets that the switches do not know what to do with.
-/

namespace Signpost.SpController

open Bloom

/-- What the OpenFlow library says of packets. -/
structure Openflow (Eaddr Port Data Match : Type) where
  parseFromRawPacket : Port → Data → Match
  dlSrc : Match → Eaddr
  dlDst : Match → Eaddr
  eaddrIsBroadcast : Eaddr → Bool
  /-- `Port.All`. -/
  portAll : Port

/-- A `Packet_in` event, with the datapath that it comes from. -/
structure PacketIn (Dpid Port Data : Type) where
  dpid : Dpid
  inPort : Port
  bufferId : Int32
  data : Data
deriving DecidableEq

inductive Action (Port : Type)
  | output (port : Port) (maxLen : ℕ)
deriving DecidableEq

inductive Command
  | add
deriving DecidableEq

inductive Message (Port Data Match : Type)
  | packetOut (bufferId : Int32) (actions : List (Action Port)) (data : Data) (inPort : Port)
  | flowMod (flowMatch : Match) (cookie : ℕ) (command : Command) (bufferId : Int)
      (actions : List (Action Port))
deriving DecidableEq

/-- The fields of the state that are used. The datapaths share one cache. -/
structure SwitchState (Eaddr Port : Type) where
  macCache : Eaddr → Option Port
  reqCount : ℕ

variable {Eaddr Port Data Match Dpid : Type}

def SwitchState.initial : SwitchState Eaddr Port := ⟨fun _ => none, 0⟩

section

variable (openflow : Openflow Eaddr Port Data Match)

def matchOf (event : PacketIn Dpid Port Data) : Match :=
  openflow.parseFromRawPacket event.inPort event.data

def flood (event : PacketIn Dpid Port Data) : Message Port Data Match :=
  .packetOut event.bufferId [.output openflow.portAll 2000] event.data event.inPort

def forward (event : PacketIn Dpid Port Data) (outPort : Port) : Message Port Data Match :=
  .flowMod (matchOf openflow event) 0 .add event.bufferId.toInt [.output outPort 2000]

theorem flood_ne_forward (event : PacketIn Dpid Port Data) (outPort : Port) :
    flood openflow event ≠ forward openflow event outPort := by
  intro heq
  cases heq

theorem forward_inj {event : PacketIn Dpid Port Data} {outPort other : Port} :
    forward openflow event outPort = forward openflow event other ↔ outPort = other := by
  simp [forward]

variable [DecidableEq Eaddr]

/-- Both branches leave the port under the address. -/
def addEntryInHashtbl (macCache : Eaddr → Option Port) (ix : Eaddr) (inPort : Port) :
    Eaddr → Option Port :=
  Function.update macCache ix (some inPort)

/-- The next state, and the message that is sent to the datapath. -/
def packetInCb (state : SwitchState Eaddr Port) (event : PacketIn Dpid Port Data) :
    SwitchState Eaddr Port × Dpid × Message Port Data Match :=
  let m := matchOf openflow event
  let macCache := addEntryInHashtbl state.macCache (openflow.dlSrc m) event.inPort
  let ix := openflow.dlDst m
  let message :=
    if openflow.eaddrIsBroadcast ix then flood openflow event
    else
      match macCache ix with
      | none => flood openflow event
      | some outPort => forward openflow event outPort
  (⟨macCache, state.reqCount + 1⟩, event.dpid, message)

def stateAfter (events : List (PacketIn Dpid Port Data)) : SwitchState Eaddr Port :=
  events.foldl (fun state event => (packetInCb openflow state event).1) .initial

/-! ## Sources and destinations -/

def source (event : PacketIn Dpid Port Data) : Eaddr := openflow.dlSrc (matchOf openflow event)

def destination (event : PacketIn Dpid Port Data) : Eaddr :=
  openflow.dlDst (matchOf openflow event)

/-- A datapath and a source that has been seen on it. -/
def sighting (event : PacketIn Dpid Port Data) : Dpid × Eaddr :=
  (event.dpid, source openflow event)

/-! ## What the cache holds -/

theorem macCache_packetInCb (state : SwitchState Eaddr Port) (event : PacketIn Dpid Port Data)
    (address : Eaddr) :
    (packetInCb openflow state event).1.macCache address =
      if source openflow event = address then some event.inPort else state.macCache address := by
  simp only [packetInCb, addEntryInHashtbl, Function.update_apply, eq_comm (a := address)]
  rfl

/-- The cache knows where an address was last seen on any datapath. -/
theorem macCache_stateAfter (events : List (PacketIn Dpid Port Data)) (address : Eaddr) :
    (stateAfter openflow events).macCache address =
      (latest (source openflow) events address).map PacketIn.inPort := by
  induction events using List.reverseRecOn with
  | nil => rfl
  | append_singleton before event ih =>
      rw [stateAfter, List.foldl_concat, ← stateAfter, macCache_packetInCb, ih, latest_concat]
      split
      next => rfl
      next => rfl

theorem packetInCb_stateAfter (before : List (PacketIn Dpid Port Data))
    (event : PacketIn Dpid Port Data) :
    (packetInCb openflow (stateAfter openflow before) event).2 =
      (event.dpid,
        if openflow.eaddrIsBroadcast (destination openflow event) then flood openflow event
        else
          match (latest (source openflow) (before ++ [event]) (destination openflow event)).map
              PacketIn.inPort with
          | none => flood openflow event
          | some outPort => forward openflow event outPort) := by
  have hcache :=
    macCache_stateAfter openflow (before ++ [event]) (destination openflow event)
  rw [stateAfter, List.foldl_concat, ← stateAfter] at hcache
  rw [← hcache]
  rfl

/-! ## Datapaths of their own -/

variable [DecidableEq Dpid]

/-- The message for an event, by what was seen on its datapath until then. -/
def intended (seen : List (PacketIn Dpid Port Data)) (event : PacketIn Dpid Port Data) :
    Message Port Data Match :=
  if openflow.eaddrIsBroadcast (destination openflow event) then flood openflow event
  else
    match latest (sighting openflow) seen (event.dpid, destination openflow event) with
    | none => flood openflow event
    | some last => forward openflow event last.inPort

/-- Every event sends its datapath the message that its own history asks for. -/
def UsesOwnPorts (events : List (PacketIn Dpid Port Data)) : Prop :=
  ∀ before event after, events = before ++ event :: after →
    (packetInCb openflow (stateAfter openflow before) event).2 =
      (event.dpid, intended openflow (before ++ [event]) event)

/-- The destination is broadcast, or was last seen, if at all, at a port that it
was also last seen at on the datapath of the event. -/
def LastSeenHere (seen : List (PacketIn Dpid Port Data)) (event : PacketIn Dpid Port Data) :
    Prop :=
  openflow.eaddrIsBroadcast (destination openflow event) ∨
    ∀ last, latest (source openflow) seen (destination openflow event) = some last →
      ∃ here, latest (sighting openflow) seen (event.dpid, destination openflow event) =
          some here ∧
        here.inPort = last.inPort

/-- A packet that was seen on a datapath was seen. -/
theorem exists_latest_source {seen : List (PacketIn Dpid Port Data)} {dpid : Dpid} {address : Eaddr}
    {here : PacketIn Dpid Port Data}
    (hhere : latest (sighting openflow) seen (dpid, address) = some here) :
    ∃ last, latest (source openflow) seen address = some last := by
  obtain ⟨hmem, hsighting⟩ := mem_of_latest hhere
  obtain ⟨-, rfl⟩ := Prod.mk.inj hsighting
  exact exists_latest (source openflow) hmem

theorem packetInCb_eq_intended_iff (before : List (PacketIn Dpid Port Data))
    (event : PacketIn Dpid Port Data) :
    (packetInCb openflow (stateAfter openflow before) event).2 =
        (event.dpid, intended openflow (before ++ [event]) event) ↔
      LastSeenHere openflow (before ++ [event]) event := by
  rw [packetInCb_stateAfter, intended, LastSeenHere, Prod.mk.injEq, eq_self, true_and]
  by_cases hbroadcast : openflow.eaddrIsBroadcast (destination openflow event)
  · simp [hbroadcast]
  · simp only [hbroadcast, if_false, Bool.false_eq_true, false_or]
    cases hhere : latest (sighting openflow) (before ++ [event])
        (event.dpid, destination openflow event) with
    | none =>
        cases latest (source openflow) (before ++ [event]) (destination openflow event) with
        | none => simp
        | some last => simp [(flood_ne_forward openflow event last.inPort).symm]
    | some here =>
        obtain ⟨last, hlast⟩ := exists_latest_source openflow hhere
        simp [hlast, forward_inj, eq_comm]

/-- The switch uses the ports of the right datapath exactly when every
destination that is looked up was last seen at its port on the same datapath. -/
theorem usesOwnPorts_iff (events : List (PacketIn Dpid Port Data)) :
    UsesOwnPorts openflow events ↔
      ∀ before event after, events = before ++ event :: after →
        LastSeenHere openflow (before ++ [event]) event := by
  unfold UsesOwnPorts
  simp only [packetInCb_eq_intended_iff]

end

/-! ## Two datapaths -/

/-- The data of a packet are its source and its destination. -/
def plainOpenflow : Openflow ℕ ℕ (ℕ × ℕ) (ℕ × ℕ) where
  parseFromRawPacket _ data := data
  dlSrc := Prod.fst
  dlDst := Prod.snd
  eaddrIsBroadcast address := address = 0xFFFFFFFFFFFF
  portAll := 0xFFFC

/-- Host 10 says something to host 20 on the first datapath, and host 20 answers
on the second one. -/
def onTwoDatapaths : List (PacketIn ℕ ℕ (ℕ × ℕ)) :=
  [⟨1, 5, 0, (10, 20)⟩, ⟨2, 7, 1, (20, 10)⟩]

/-- The answer leaves the second datapath through the port of the first. -/
theorem not_usesOwnPorts_onTwoDatapaths :
    ¬ ∀ events : List (PacketIn ℕ ℕ (ℕ × ℕ)), UsesOwnPorts plainOpenflow events := by
  intro hclaim
  have hanswer := hclaim onTwoDatapaths [⟨1, 5, 0, (10, 20)⟩] ⟨2, 7, 1, (20, 10)⟩ [] rfl
  exact absurd hanswer (by decide)

end Signpost.SpController

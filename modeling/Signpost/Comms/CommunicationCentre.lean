import Mathlib.Logic.Function.Basic
import Signpost.Solver.Protocol

/-! # The communication centre of a signpost

Truths and remote resolutions are flooded between signposts. A signpost takes a
message whose digest it has not broadcast recently, relays it to its other
neighbours and acts on it.

The digest is the SHA1 of the printed message. It is a parameter.
-/

namespace Signpost

/-! ## Messages between signposts -/

structure ResolveQuery where
  what : String
  userInfo : String
  signpost : String
deriving DecidableEq, Repr

/-- An entry of the list of signposts. -/
structure SignpostEntry where
  name : String
  ip : String
  port : ℕ
deriving DecidableEq, Repr

/-- A message that is passed to `receive`. -/
structure Data (α : Type) where
  truths : Option (List (Provision α)) := none
  resolve : Option ResolveQuery := none
  action : Option String := none
  signposts : Option (List SignpostEntry) := none
deriving DecidableEq

/-- A connection to a signpost that has said its name. -/
structure CommsChannel where
  name : String
  ip : String
  port : ℕ
deriving DecidableEq, Repr

/-- The cache maps the digest of a message to the time at which it was
broadcast. -/
structure CommunicationCentre (δ : Type) where
  name : String
  channels : List CommsChannel
  broadcastCache : δ → Option Int

/-- Everything that `receive` does besides updating the cache. -/
structure Received (α : Type) where
  /-- The message got past the duplicate check. -/
  handled : Bool := false
  /-- The signposts that it is relayed to, when it is broadcast. -/
  relayed : Option (List String) := none
  /-- The answers on the channel that it came from. -/
  replies : List (Data α) := []
  /-- The arguments of `connect_to_signpost`. -/
  dialled : List (String × ℕ) := []
  /-- The arguments of `add_external_truth`. -/
  external : List (Provision α) := []
  /-- What the questions ask the solver, and for which user. -/
  questions : List (String × String) := []
deriving DecidableEq

/-- A message of truths or of a resolution that asks for no action. -/
structure Data.Spreads {α : Type} (data : Data α) : Prop where
  broadcasts : data.truths.isSome ∨ data.resolve.isSome
  action : data.action = none

namespace CommunicationCentre

variable {α δ : Type} [DecidableEq δ] (digest : Data α → δ)

def shouldBroadcast (centre : CommunicationCentre δ) (data : Data α) : Bool :=
  (centre.broadcastCache (digest data)).isNone

def aboutToBroadcast (centre : CommunicationCentre δ) (now : Int) (data : Data α) :
    CommunicationCentre δ :=
  { centre with
    broadcastCache := Function.update centre.broadcastCache (digest data) (some now) }

/-- Entries older than 30 seconds are deleted. -/
def pruneBroadcastCache (centre : CommunicationCentre δ) (now : Int) : CommunicationCentre δ :=
  { centre with
    broadcastCache := fun key => (centre.broadcastCache key).filter fun timestamp =>
      ¬ timestamp < now - 30 }

/-- The signposts that a message is sent to, which are all but its sender. -/
def broadcast (centre : CommunicationCentre δ) (now : Int) (data : Data α)
    (originalSender : String) : CommunicationCentre δ × List String :=
  (centre.aboutToBroadcast digest now data,
    (centre.channels.map fun channel => channel.name).filter fun name => name ≠ originalSender)

/-- The message and the signposts that it is sent to. The cache is left alone. -/
def distributeTruths (centre : CommunicationCentre δ) (truths : List (Provision α)) :
    Data α × List String :=
  ({ truths := some truths }, centre.channels.map fun channel => channel.name)

def remoteResolve (centre : CommunicationCentre δ) (now : Int) (query : ResolveQuery) :
    CommunicationCentre δ × Data α × List String :=
  let data : Data α := { resolve := some query }
  let (next, targets) := centre.broadcast digest now data centre.name
  (next, data, targets)

def performActionForRemoteSignpost (centre : CommunicationCentre δ)
    (exportable : List (Provision α)) (action : String) : List (Data α) :=
  if action = "list_of_signposts" then
    [{ signposts := some (centre.channels.map fun channel =>
        ⟨channel.name, channel.ip, channel.port⟩) }]
  else if action = "gimme_truths" then
    if exportable.isEmpty then [] else [{ truths := some exportable }]
  else []

/-- The signposts that are dialled: those that are not known yet. -/
def connectToSignposts (centre : CommunicationCentre δ) (signposts : List SignpostEntry) :
    List (String × ℕ) :=
  (signposts.filter fun signpost => signpost.name ≠ centre.name ∧
    signpost.name ∉ (centre.channels.map fun channel => channel.name) ∧
    signpost.ip ≠ centre.name).map fun signpost => (signpost.ip, signpost.port)

def receive (centre : CommunicationCentre δ) (now : Int)
    (exportable : List (Provision α)) (channel : String) (data : Data α) :
    CommunicationCentre δ × Received α :=
  if centre.shouldBroadcast digest data then
    let spreads := data.truths.isSome ∨ data.resolve.isSome
    let (next, targets) := centre.broadcast digest now data channel
    -- only what is broadcast is remembered: a list of signposts or an action is not
    (if spreads then next else centre,
      { handled := true
        relayed := if spreads then some targets else none
        replies := data.action.elim [] (centre.performActionForRemoteSignpost exportable)
        dialled := data.signposts.elim [] centre.connectToSignposts
        external := data.truths.getD []
        questions := data.resolve.elim [] fun query =>
          if query.signpost = centre.name then [(query.what, query.userInfo)] else [] })
  else (centre, {})

variable {digest} {centre : CommunicationCentre δ} {now : Int} {exportable : List (Provision α)}
  {channel : String} {data : Data α}

/-- A message that the cache holds is dropped. -/
theorem receive_known (hknown : centre.broadcastCache (digest data) ≠ none) :
    centre.receive digest now exportable channel data = (centre, {}) := by
  have hseen : ¬ centre.shouldBroadcast digest data = true := by
    simpa [shouldBroadcast] using hknown
  rw [receive, if_neg hseen]

/-- A message of truths or of a resolution that the cache does not hold is
broadcast to all others. -/
theorem receive_new (hnew : centre.broadcastCache (digest data) = none) (hspreads : data.Spreads) :
    centre.receive digest now exportable channel data =
      ((centre.broadcast digest now data channel).1,
        { handled := true
          relayed := some (centre.broadcast digest now data channel).2
          dialled := data.signposts.elim [] centre.connectToSignposts
          external := data.truths.getD []
          questions := data.resolve.elim [] fun query =>
            if query.signpost = centre.name then [(query.what, query.userInfo)] else [] }) := by
  have hunseen : centre.shouldBroadcast digest data = true := by
    simpa [shouldBroadcast] using hnew
  have hbroadcasts : data.truths.isSome = true ∨ data.resolve.isSome = true := hspreads.broadcasts
  simp [receive, hunseen, hbroadcasts, hspreads.action]

end CommunicationCentre

end Signpost

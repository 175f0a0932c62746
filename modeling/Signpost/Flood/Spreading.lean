import Mathlib.Logic.Relation
import Signpost.Flood.Channels

/-! # Spreading of one message

An origin sends a message to its neighbours, and every node that takes it sends
it on to its neighbours, apart from the one it came from. Nodes may take it any
number of times. The invariant makes sure that all nodes are reached.
-/

namespace Flood

open Channels

variable {ν μ : Type*}

/-- Who has taken a message since its origin has first sent it. -/
structure Spreading (linked : ν → ν → Prop) (origin : ν) (message : μ) (taken : ν → Prop)
    (channels : Channels ν μ) : Prop where
  /-- The message is only sent by its origin and by nodes that have taken it. -/
  sent_by : ∀ sender receiver, message ∈ channels sender receiver → sender = origin ∨ taken sender
  /-- A node that has the message has neighbours that have it or are about to
  receive it from that node. -/
  covered : ∀ node next, linked node next → next ≠ origin → (node = origin ∨ taken node) →
    taken next ∨ message ∈ channels node next

namespace Spreading

variable {linked : ν → ν → Prop} {origin : ν} {message : μ} {taken : ν → Prop}
  {channels : Channels ν μ}

/-- Whether the origin has taken its own message does not matter. -/
theorem congr (hspreading : Spreading linked origin message taken channels) {other : ν → Prop}
    (hsame : ∀ node, node ≠ origin → (other node ↔ taken node)) :
    Spreading linked origin message other channels := by
  have hhas : ∀ node, node = origin ∨ other node ↔ node = origin ∨ taken node := by
    intro node
    by_cases hnode : node = origin
    · simp [hnode]
    · rw [hsame node hnode]
  constructor
  case sent_by =>
    intro sender receiver hqueued
    exact (hhas sender).mpr (hspreading.sent_by sender receiver hqueued)
  case covered =>
    intro node next hlink hnext hnode
    rw [hsame next hnext]
    exact hspreading.covered node next hlink hnext ((hhas node).mp hnode)

/-- When nothing is in flight, every node that the origin is connected to has
taken the message. -/
theorem complete (hspreading : Spreading linked origin message taken channels)
    (hquiet : channels.Quiet) {node : ν} (hconnected : Relation.ReflTransGen linked origin node) :
    node = origin ∨ taken node := by
  induction hconnected with
  | refl => exact Or.inl rfl
  | @tail middle next _ hlink ih =>
      -- nothing is queued between the two, so the next node has taken the message
      by_cases hnext : next = origin
      · exact Or.inl hnext
      · have hcovered := hspreading.covered middle next hlink hnext ih
        rw [hquiet middle next] at hcovered
        exact Or.inr (hcovered.resolve_right List.not_mem_nil)

variable [DecidableEq ν] {node sender : ν} {targets : List ν} {sent : μ}

/-- A node sends the message once more, or sends another one. -/
theorem send (hspreading : Spreading linked origin message taken channels)
    (hhas : message = sent → node = origin ∨ taken node) :
    Spreading linked origin message taken (channels.send node targets sent) := by
  constructor
  case sent_by =>
    intro sender receiver hqueued
    rcases mem_send.mp hqueued with hold | ⟨rfl, _, hsent⟩
    · exact hspreading.sent_by sender receiver hold
    · exact hhas hsent
  case covered =>
    intro first next hlink hnext hfirst
    exact (hspreading.covered first next hlink hnext hfirst).imp_right
      fun hqueued => mem_send.mpr (Or.inl hqueued)

/-- The oldest message of a channel is taken from it by a node that has it
already, or it is another one. -/
theorem take (hspreading : Spreading linked origin message taken channels) {rest : List μ}
    (hhead : channels sender node = sent :: rest)
    (hhas : node ≠ origin → message = sent → taken node) :
    Spreading linked origin message taken (channels.take sender node) := by
  constructor
  case sent_by =>
    exact fun first receiver hqueued => hspreading.sent_by first receiver (mem_of_mem_take hqueued)
  case covered =>
    intro first next hlink hnext hfirst
    -- only the receiver of the message that leaves its channel loses cover
    rcases hspreading.covered first next hlink hnext hfirst with htaken | hqueued
    · exact Or.inl htaken
    · rcases mem_take hhead hqueued with hstays | ⟨_, rfl, hsent⟩
      · exact Or.inr hstays
      · exact Or.inl (hhas hnext hsent)

/-- A node takes the message and sends it to all neighbours but those that have
it. -/
theorem relay (hspreading : Spreading linked origin message taken channels)
    (hothers : ∀ next, linked node next → next ≠ origin → next ∈ targets ∨ taken next) :
    Spreading linked origin message (fun other => taken other ∨ other = node)
      (channels.send node targets message) := by
  constructor
  case sent_by =>
    intro sender receiver hqueued
    rcases mem_send.mp hqueued with hold | ⟨rfl, _, _⟩
    · exact (hspreading.sent_by sender receiver hold).imp_right Or.inl
    · exact Or.inr (Or.inr rfl)
  case covered =>
    intro first next hlink hnext hfirst
    rw [mem_send]
    by_cases hnode : first = node
    · subst hnode
      rcases hothers next hlink hnext with htarget | htaken
      · exact Or.inr (Or.inr ⟨rfl, htarget, rfl⟩)
      · exact Or.inl (Or.inl htaken)
    · have hbefore : first = origin ∨ taken first :=
        hfirst.imp_right fun htaken => htaken.resolve_right hnode
      exact (hspreading.covered first next hlink hnext hbefore).imp Or.inl Or.inl

/-- The origin sends a message of which no copy is in flight. -/
theorem start (hidle : ¬ channels.InFlight message)
    (hall : ∀ next, linked origin next → next ≠ origin → next ∈ targets) :
    Spreading linked origin message (fun _ => False) (channels.send origin targets message) := by
  constructor
  case sent_by =>
    intro sender receiver hqueued
    rcases mem_send.mp hqueued with hold | ⟨hsender, _, _⟩
    · exact absurd ⟨sender, receiver, hold⟩ hidle
    · exact Or.inl hsender
  case covered =>
    intro node next hlink hnext hnode
    obtain rfl := hnode.resolve_right id
    exact Or.inr (mem_send.mpr (Or.inr ⟨rfl, hall next hlink hnext, rfl⟩))

/-- The node that takes the message from a channel sends it to all neighbours but
the one that it came from. -/
theorem forward (hspreading : Spreading linked origin message taken channels) {rest : List μ}
    (hhead : channels sender node = message :: rest)
    (hothers : ∀ next, linked node next → next ≠ sender → next ∈ targets) :
    Spreading linked origin message (fun other => taken other ∨ other = node)
      ((channels.take sender node).send node targets message) := by
  obtain ⟨later, hlater⟩ := send_head node targets message hhead
  rw [send_take hhead]
  refine (hspreading.relay fun next hlink hnext => ?_).take hlater fun _ _ => Or.inr rfl
  by_cases hsender : next = sender
  · -- its sender has the message
    have hsent := hspreading.sent_by sender node (hhead ▸ List.mem_cons_self)
    exact Or.inr (hsender ▸ hsent.resolve_left (hsender ▸ hnext))
  · exact Or.inl (hothers next hlink hsender)

/-- A node takes another message from a channel and sends that on. -/
theorem bypass (hspreading : Spreading linked origin message taken channels) {rest : List μ}
    (hhead : channels sender node = sent :: rest) (hother : message ≠ sent) :
    Spreading linked origin message taken ((channels.take sender node).send node targets sent) :=
  (hspreading.take hhead fun _ heq => absurd heq hother).send fun heq => absurd heq hother

/-- A node sends messages, among them the spreading one only if it has it. -/
theorem sendAll (hspreading : Spreading linked origin message taken channels) {messages : List μ}
    (hhas : message ∈ messages → node = origin ∨ taken node) :
    Spreading linked origin message taken (channels.sendAll node targets messages) := by
  induction messages generalizing channels with
  | nil => exact hspreading
  | cons first rest ih =>
      refine ih (hspreading.send fun heq => hhas (heq ▸ List.mem_cons_self)) fun hmem => ?_
      exact hhas (List.mem_cons_of_mem _ hmem)

/-- The origin sends messages, among them one of which no copy is in flight. -/
theorem startAll {messages : List μ} (hmem : message ∈ messages)
    (hidle : ¬ channels.InFlight message)
    (hall : ∀ next, linked origin next → next ≠ origin → next ∈ targets) :
    Spreading linked origin message (fun _ => False)
      (channels.sendAll origin targets messages) := by
  classical
  induction messages generalizing channels with
  | nil => cases hmem
  | cons first rest ih =>
      by_cases hfirst : message = first
      · subst hfirst
        exact (start hidle hall).sendAll fun _ => Or.inl rfl
      · apply ih ((List.mem_cons.mp hmem).resolve_left hfirst)
        intro hflight
        exact (inFlight_send hflight).elim hidle hfirst

end Spreading

end Flood

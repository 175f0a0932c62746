import Mathlib.Data.List.Basic
import Mathlib.Data.List.Infix
import Mathlib.Data.List.Nodup
import Mathlib.Data.List.TakeWhile
import Mathlib.Data.Nat.Init

/-! # FIFO channels between nodes

A channel for every ordered pair of nodes holds the messages in flight between
them, the oldest first.
-/

namespace Flood

variable {ν μ : Type*}

/-- A prefix that holds everything is the whole. -/
theorem eq_of_isPrefix {done order : List μ} (hnodup : order.Nodup) (hinitial : done <+: order)
    (hall : ∀ message ∈ order, message ∈ done) : done = order := by
  obtain ⟨later, rfl⟩ := hinitial
  cases later with
  | nil => exact (List.append_nil done).symm
  | cons first rest =>
      have hdone : first ∈ done := hall first (List.mem_append_right _ List.mem_cons_self)
      exact absurd rfl ((List.nodup_append.mp hnodup).2.2 first hdone first List.mem_cons_self)

/-! ## What is ahead of a message -/

section Ahead

variable [DecidableEq μ]

/-- The elements ahead of the first occurrence of a message. -/
def ahead (message : μ) (queue : List μ) : List μ := queue.takeWhile (fun other => other ≠ message)

variable {message other : μ} {queue : List μ}

theorem mem_of_mem_ahead (hahead : other ∈ ahead message queue) : other ∈ queue :=
  (List.takeWhile_sublist _).mem hahead

theorem ahead_cons_self : ahead message (message :: queue) = [] := by
  simp [ahead]

theorem ahead_cons_of_ne (hne : other ≠ message) :
    ahead message (other :: queue) = other :: ahead message queue := by
  simp [ahead, hne]

/-- What is queued later is not ahead of a message that is queued already. -/
theorem ahead_append_of_mem (hmem : message ∈ queue) (later : List μ) :
    ahead message (queue ++ later) = ahead message queue := by
  induction queue with
  | nil => cases hmem
  | cons first rest ih =>
      by_cases hfirst : first = message
      · rw [hfirst, List.cons_append, ahead_cons_self, ahead_cons_self]
      · rw [List.cons_append, ahead_cons_of_ne hfirst, ahead_cons_of_ne hfirst,
          ih ((List.mem_cons.mp hmem).resolve_left (Ne.symm hfirst))]

/-- Everything is ahead of a message that is not queued yet. -/
theorem ahead_append_of_not_mem (hmem : message ∉ queue) (later : List μ) :
    ahead message (queue ++ later) = queue ++ ahead message later := by
  induction queue with
  | nil => rfl
  | cons first rest ih =>
      obtain ⟨hfirst, hrest⟩ := List.ne_and_not_mem_of_not_mem_cons hmem
      rw [List.cons_append, ahead_cons_of_ne (Ne.symm hfirst), ih hrest, List.cons_append]

/-- A prefix holds whatever is ahead of one of its elements. -/
theorem mem_of_ahead_isPrefix {done order : List μ} (hinitial : done <+: order)
    (hmem : message ∈ done) (hahead : other ∈ ahead message order) : other ∈ done := by
  obtain ⟨later, rfl⟩ := hinitial
  rw [ahead_append_of_mem hmem] at hahead
  exact mem_of_mem_ahead hahead

/-- A prefix that holds all that is ahead of a message is extended by it. -/
theorem append_isPrefix {done order : List μ} (hnodup : order.Nodup) (hinitial : done <+: order)
    (hmem : message ∈ order) (hnew : message ∉ done)
    (hahead : ∀ earlier ∈ ahead message order, earlier ∈ done) : done ++ [message] <+: order := by
  obtain ⟨later, rfl⟩ := hinitial
  rw [ahead_append_of_not_mem hnew] at hahead
  cases later with
  | nil => exact absurd (by simpa using hmem) hnew
  | cons first rest =>
      have hfirst : first = message := by
        by_contra hne
        have hdone : first ∈ done := hahead first
          (List.mem_append_right _ (ahead_cons_of_ne hne ▸ List.mem_cons_self))
        exact (List.nodup_append.mp hnodup).2.2 first hdone first List.mem_cons_self rfl
      rw [hfirst]
      exact ⟨rest, by simp⟩

theorem erase_isPrefix {done order : List μ} (hinitial : done <+: order) (message : μ) :
    done.erase message <+: order.erase message := by
  obtain ⟨later, rfl⟩ := hinitial
  by_cases hmem : message ∈ done
  · rw [List.erase_append_left _ hmem]
    exact List.prefix_append _ _
  · rw [List.erase_append_right _ hmem, List.erase_of_not_mem hmem]
    exact List.prefix_append _ _

/-- Moving a message to the end puts nothing new ahead of the others. -/
theorem mem_ahead_of_erase {moved : μ} (hahead : other ∈ ahead message (queue.erase moved))
    (hne : message ≠ moved) : other ∈ ahead message queue := by
  induction queue with
  | nil => simpa using hahead
  | cons first rest ih =>
      by_cases hfirst : first = moved
      · rw [hfirst, List.erase_cons_head] at hahead
        rw [hfirst, ahead_cons_of_ne (Ne.symm hne)]
        exact List.mem_cons_of_mem _ hahead
      · rw [List.erase_cons_tail (by simpa using hfirst)] at hahead
        by_cases hsame : first = message
        · rw [hsame, ahead_cons_self] at hahead
          cases hahead
        · rw [ahead_cons_of_ne hsame, List.mem_cons] at hahead
          rw [ahead_cons_of_ne hsame, List.mem_cons]
          exact hahead.imp_right ih

end Ahead

/-! ## Channels -/

/-- The messages in flight from a node to another. -/
abbrev Channels (ν μ : Type*) := ν → ν → List μ

namespace Channels

def empty : Channels ν μ := fun _ _ => []

def InFlight (channels : Channels ν μ) (message : μ) : Prop :=
  ∃ sender receiver, message ∈ channels sender receiver

def Quiet (channels : Channels ν μ) : Prop := ∀ sender receiver, channels sender receiver = []

variable [DecidableEq ν]

/-- A node sends a message to each of its targets. -/
def send (channels : Channels ν μ) (node : ν) (targets : List ν) (message : μ) : Channels ν μ :=
  fun sender receiver =>
    if sender = node ∧ receiver ∈ targets then channels sender receiver ++ [message]
    else channels sender receiver

/-- A node takes the oldest message from a sender. -/
def take (channels : Channels ν μ) (origin node : ν) : Channels ν μ :=
  fun sender receiver =>
    if sender = origin ∧ receiver = node then (channels sender receiver).tail
    else channels sender receiver

/-- A node sends messages to each of its targets, one after the other. -/
def sendAll (channels : Channels ν μ) (node : ν) (targets : List ν) (messages : List μ) :
    Channels ν μ :=
  messages.foldl (fun channels message => channels.send node targets message) channels

variable {channels : Channels ν μ} {node origin sender receiver : ν} {targets : List ν}
  {message sent : μ} {rest : List μ}

theorem send_of_mem (hsender : sender = node) (hreceiver : receiver ∈ targets) :
    channels.send node targets sent sender receiver = channels sender receiver ++ [sent] :=
  if_pos ⟨hsender, hreceiver⟩

theorem send_of_not (hnot : ¬ (sender = node ∧ receiver ∈ targets)) :
    channels.send node targets sent sender receiver = channels sender receiver :=
  if_neg hnot

theorem send_nil : channels.send node [] sent = channels := by
  funext sender receiver
  exact send_of_not fun h => List.not_mem_nil h.2

theorem mem_send : message ∈ channels.send node targets sent sender receiver ↔
    message ∈ channels sender receiver ∨ sender = node ∧ receiver ∈ targets ∧ message = sent := by
  by_cases h : sender = node ∧ receiver ∈ targets
  · rw [send_of_mem h.1 h.2, List.mem_append, List.mem_singleton]
    simp [h]
  · rw [send_of_not h]
    exact ⟨Or.inl, fun hmem => hmem.resolve_right fun hsent => h ⟨hsent.1, hsent.2.1⟩⟩

theorem inFlight_send (hflight : (channels.send node targets sent).InFlight message) :
    channels.InFlight message ∨ message = sent := by
  obtain ⟨sender, receiver, hmem⟩ := hflight
  exact (mem_send.mp hmem).imp (fun hold => ⟨sender, receiver, hold⟩) fun hnew => hnew.2.2

theorem take_head (hhead : channels origin node = sent :: rest) :
    channels.take origin node origin node = rest := by
  rw [take, if_pos ⟨rfl, rfl⟩, hhead, List.tail_cons]

theorem take_of_not (hnot : ¬ (sender = origin ∧ receiver = node)) :
    channels.take origin node sender receiver = channels sender receiver :=
  if_neg hnot

theorem mem_of_mem_take (hmem : message ∈ channels.take origin node sender receiver) :
    message ∈ channels sender receiver := by
  unfold take at hmem
  split at hmem
  · exact List.mem_of_mem_tail hmem
  · exact hmem

/-- Only the oldest message leaves its channel. -/
theorem mem_take (hhead : channels origin node = sent :: rest)
    (hmem : message ∈ channels sender receiver) :
    message ∈ channels.take origin node sender receiver ∨
      sender = origin ∧ receiver = node ∧ message = sent := by
  by_cases h : sender = origin ∧ receiver = node
  · obtain ⟨rfl, rfl⟩ := h
    rw [hhead] at hmem
    rw [take_head hhead]
    exact (List.mem_cons.mp hmem).symm.imp_right fun heq => ⟨rfl, rfl, heq⟩
  · exact Or.inl (by rwa [take_of_not h])

/-- The oldest message stays the oldest when others are sent. -/
theorem send_head (node : ν) (targets : List ν) (message : μ)
    (hhead : channels sender receiver = sent :: rest) :
    ∃ later, channels.send node targets message sender receiver = sent :: later := by
  unfold send
  split
  · exact ⟨rest ++ [message], by rw [hhead, List.cons_append]⟩
  · exact ⟨rest, hhead⟩

/-- Taking the oldest message from a channel commutes with sending another. -/
theorem send_take (hhead : channels origin receiver = sent :: rest) :
    (channels.take origin receiver).send node targets message =
      (channels.send node targets message).take origin receiver := by
  funext first last
  by_cases htaken : first = origin ∧ last = receiver
  · obtain ⟨rfl, rfl⟩ := htaken
    by_cases hsent : first = node ∧ last ∈ targets
    · rw [send_of_mem hsent.1 hsent.2, take_head hhead, take, if_pos ⟨rfl, rfl⟩,
        send_of_mem hsent.1 hsent.2, hhead]
      rfl
    · rw [send_of_not hsent, take, take, if_pos ⟨rfl, rfl⟩, if_pos ⟨rfl, rfl⟩, send_of_not hsent]
  · rw [take_of_not htaken]
    unfold send
    rw [take_of_not htaken]

section Map

variable {μ' : Type*}

/-- The messages in flight, each with a part of what they carry. -/
def map (f : μ → μ') (channels : Channels ν μ) : Channels ν μ' :=
  fun sender receiver => (channels sender receiver).map f

theorem map_send (f : μ → μ') (channels : Channels ν μ) (node : ν) (targets : List ν) (sent : μ) :
    (channels.send node targets sent).map f = (channels.map f).send node targets (f sent) := by
  funext sender receiver
  by_cases hsent : sender = node ∧ receiver ∈ targets
  · rw [send_of_mem hsent.1 hsent.2, map, send_of_mem hsent.1 hsent.2, map, List.map_append,
      List.map_singleton]
  · rw [send_of_not hsent, map, send_of_not hsent, map]

theorem map_take (f : μ → μ') (channels : Channels ν μ) (origin node : ν) :
    (channels.take origin node).map f = (channels.map f).take origin node := by
  funext sender receiver
  unfold map take
  split
  · exact List.map_tail
  · rfl

end Map

@[simp] theorem sendAll_nil : channels.sendAll node targets [] = channels := rfl

theorem mem_sendAll {messages : List μ}
    (hmem : message ∈ channels.sendAll node targets messages sender receiver) :
    message ∈ channels sender receiver ∨
      sender = node ∧ receiver ∈ targets ∧ message ∈ messages := by
  induction messages generalizing channels with
  | nil => exact Or.inl hmem
  | cons first rest ih =>
      rcases ih hmem with hsent | ⟨hsender, hreceiver, hrest⟩
      · rcases mem_send.mp hsent with hold | ⟨hsender, hreceiver, rfl⟩
        · exact Or.inl hold
        · exact Or.inr ⟨hsender, hreceiver, List.mem_cons_self⟩
      · exact Or.inr ⟨hsender, hreceiver, List.mem_cons_of_mem _ hrest⟩

/-- A message that is sent is queued behind everything sent before on its
channel. -/
theorem ahead_send [DecidableEq μ] {done : Prop} {earlier : μ}
    (hqueued : message ∈ channels.send node targets sent sender receiver)
    (hold : message ∈ channels sender receiver →
      done ∨ earlier ∈ ahead message (channels sender receiver))
    (hnew : sender = node → receiver ∈ targets → message = sent →
      done ∨ earlier ∈ channels sender receiver) :
    done ∨ earlier ∈ ahead message (channels.send node targets sent sender receiver) := by
  by_cases hsent : sender = node ∧ receiver ∈ targets
  · rw [send_of_mem hsent.1 hsent.2] at hqueued ⊢
    by_cases hbefore : message ∈ channels sender receiver
    · rw [ahead_append_of_mem hbefore]
      exact hold hbefore
    · obtain rfl : message = sent := by simpa [hbefore] using hqueued
      rw [ahead_append_of_not_mem hbefore, ahead_cons_self, List.append_nil]
      exact hnew hsent.1 hsent.2 rfl
  · rw [send_of_not hsent] at hqueued ⊢
    exact hold hqueued

theorem inFlight_take (hflight : (channels.take origin node).InFlight message) :
    channels.InFlight message := by
  obtain ⟨sender, receiver, hmem⟩ := hflight
  exact ⟨sender, receiver, mem_of_mem_take hmem⟩

end Channels

end Flood

import Signpost.Flood.Spreading

/-! # Flooding with duplicate suppression

Every node takes a message only when it has not seen it before. The invariant
relates what a node has taken to what is queued towards its neighbours, for the
messages of one origin in the order in which they were sent.

Channels may carry other messages as well, and nodes may forget what they have
seen.
-/

namespace Flood

open Channels

variable {ν μ : Type*} [DecidableEq μ]

/-- The messages of `origin`, in the order in which they were last sent, and for
every other node the part of them that it has taken. -/
structure Flooding (linked : ν → ν → Prop) (origin : ν) (order : List μ) (done : ν → List μ)
    (seen : ν → μ → Prop) (channels : Channels ν μ) : Prop where
  order_nodup : order.Nodup
  /-- Messages are taken in order. -/
  done_isPrefix : ∀ node, node ≠ origin → done node <+: order
  done_of_seen : ∀ node, node ≠ origin → ∀ message ∈ order, seen node message →
    message ∈ done node
  /-- A node does not take a copy that is still in flight a second time. -/
  seen_of_inFlight : ∀ node, node ≠ origin → ∀ message ∈ done node,
    channels.InFlight message → seen node message
  spreading : ∀ message ∈ order, Spreading linked origin message (fun node => message ∈ done node)
    channels
  /-- No message overtakes an earlier one. -/
  fifo : ∀ sender receiver, receiver ≠ origin → ∀ message ∈ order,
    message ∈ channels sender receiver → ∀ earlier ∈ ahead message order,
      earlier ∈ done receiver ∨ earlier ∈ ahead message (channels sender receiver)

namespace Flooding

variable {linked : ν → ν → Prop} {origin : ν} {order : List μ} {done : ν → List μ}
  {seen : ν → μ → Prop} {channels : Channels ν μ}

theorem initial (linked : ν → ν → Prop) (origin : ν) (seen : ν → μ → Prop)
    (channels : Channels ν μ) : Flooding linked origin [] (fun _ => []) seen channels where
  order_nodup := List.nodup_nil
  done_isPrefix := fun _ _ => List.prefix_rfl
  done_of_seen := fun _ _ _ hmem => absurd hmem List.not_mem_nil
  seen_of_inFlight := fun _ _ _ hmem => absurd hmem List.not_mem_nil
  spreading := fun _ hmem => absurd hmem List.not_mem_nil
  fifo := fun _ _ _ _ hmem => absurd hmem List.not_mem_nil

/-- The memory of nodes may change as long as it stays truthful and keeps what
is in flight. -/
theorem withSeen (hflood : Flooding linked origin order done seen channels)
    (remembered : ν → μ → Prop)
    (htruthful : ∀ node, node ≠ origin → ∀ message ∈ order, remembered node message →
      message ∈ done node)
    (hkept : ∀ node, node ≠ origin → ∀ message ∈ done node, channels.InFlight message →
      remembered node message) :
    Flooding linked origin order done remembered channels :=
  { hflood with done_of_seen := htruthful, seen_of_inFlight := hkept }

/-- Only the memory of other nodes for messages of the origin matters. -/
theorem congrSeen (hflood : Flooding linked origin order done seen channels)
    {remembered : ν → μ → Prop}
    (hsame : ∀ node, ∀ message ∈ order, remembered node message ↔ seen node message) :
    Flooding linked origin order done remembered channels := by
  apply hflood.withSeen remembered
  · intro node hnode message hmem hremembered
    exact hflood.done_of_seen node hnode message hmem ((hsame node message hmem).mp hremembered)
  · intro node hnode message hdone hflight
    apply (hsame node message ((hflood.done_isPrefix node hnode).subset hdone)).mpr
    exact hflood.seen_of_inFlight node hnode message hdone hflight

/-- What the origin has taken does not matter. -/
theorem withDone (hflood : Flooding linked origin order done seen channels) {taken : ν → List μ}
    (hsame : ∀ node, node ≠ origin → taken node = done node) :
    Flooding linked origin order taken seen channels := by
  constructor
  case order_nodup => exact hflood.order_nodup
  case done_isPrefix => exact fun node hnode => hsame node hnode ▸ hflood.done_isPrefix node hnode
  case done_of_seen => exact fun node hnode => hsame node hnode ▸ hflood.done_of_seen node hnode
  case seen_of_inFlight =>
    exact fun node hnode => hsame node hnode ▸ hflood.seen_of_inFlight node hnode
  case spreading =>
    intro message hmessage
    exact (hflood.spreading message hmessage).congr fun node hnode => by rw [hsame node hnode]
  case fifo =>
    intro sender receiver hreceiver
    rw [hsame receiver hreceiver]
    exact hflood.fifo sender receiver hreceiver

/-- A node forgets a message of which no copy is in flight. -/
theorem forget (hflood : Flooding linked origin order done seen channels)
    {remembered : ν → μ → Prop} (hmemory : ∀ node message, remembered node message →
      seen node message)
    (hidle : ∀ node, node ≠ origin → ∀ message ∈ order, seen node message →
      channels.InFlight message → remembered node message) :
    Flooding linked origin order done remembered channels := by
  refine hflood.withSeen remembered ?_ ?_
  · intro node hnode message hmem hremembered
    exact hflood.done_of_seen node hnode message hmem (hmemory node message hremembered)
  · intro node hnode message hdone hflight
    exact hidle node hnode message ((hflood.done_isPrefix node hnode).subset hdone)
      (hflood.seen_of_inFlight node hnode message hdone hflight) hflight

/-- A message that is unseen and in flight has not been taken. -/
theorem not_done_of_unseen (hflood : Flooding linked origin order done seen channels) {node : ν}
    (hnode : node ≠ origin) {message : μ} (hflight : channels.InFlight message)
    (hunseen : ¬ seen node message) : message ∉ done node :=
  fun hdone => hunseen (hflood.seen_of_inFlight node hnode message hdone hflight)

/-- What arrives first on a channel has all earlier messages taken. -/
theorem done_of_ahead_head (hflood : Flooding linked origin order done seen channels)
    {sender node : ν} {message : μ} {rest : List μ} (hnode : node ≠ origin)
    (hmem : message ∈ order) (hhead : channels sender node = message :: rest) :
    ∀ earlier ∈ ahead message order, earlier ∈ done node := by
  intro earlier hearlier
  have hqueued : message ∈ channels sender node := hhead ▸ List.mem_cons_self
  have hahead := hflood.fifo sender node hnode message hmem hqueued earlier hearlier
  rw [hhead, ahead_cons_self] at hahead
  exact hahead.resolve_right List.not_mem_nil

/-- When nothing is in flight, every node that the origin is connected to has
taken all of its messages, in order. -/
theorem complete (hflood : Flooding linked origin order done seen channels)
    (hquiet : channels.Quiet) {node : ν} (hnode : node ≠ origin)
    (hconnected : Relation.ReflTransGen linked origin node) : done node = order := by
  apply eq_of_isPrefix hflood.order_nodup (hflood.done_isPrefix node hnode)
  intro message hmem
  exact ((hflood.spreading message hmem).complete hquiet hconnected).resolve_left hnode

variable [DecidableEq ν]

/-- A node sends a message that it has taken once more, or one that is not of
the origin. -/
theorem send (hflood : Flooding linked origin order done seen channels) {node : ν}
    {targets : List ν} {message : μ} (hlinked : ∀ target ∈ targets, linked node target)
    (hdone : message ∈ order → node = origin ∨ message ∈ done node)
    (hseen : ∀ other, other ≠ origin → message ∈ done other → seen other message) :
    Flooding linked origin order done seen (channels.send node targets message) := by
  constructor
  case order_nodup => exact hflood.order_nodup
  case done_isPrefix => exact hflood.done_isPrefix
  case done_of_seen => exact hflood.done_of_seen
  case seen_of_inFlight =>
    intro other hother taken htaken hflight
    rcases inFlight_send hflight with hold | rfl
    · exact hflood.seen_of_inFlight other hother taken htaken hold
    · exact hseen other hother htaken
  case spreading =>
    exact fun known hmem => (hflood.spreading known hmem).send fun heq => heq ▸ hdone (heq ▸ hmem)
  case fifo =>
    intro sender receiver hreceiver queued hmem hqueued earlier hearlier
    refine ahead_send hqueued
      (fun hold => hflood.fifo sender receiver hreceiver queued hmem hold earlier hearlier) ?_
    -- a new copy: its sender has all earlier messages, and so has told its neighbours
    rintro rfl htarget rfl
    refine (hflood.spreading earlier (mem_of_mem_ahead hearlier)).covered sender receiver
      (hlinked receiver htarget) hreceiver ?_
    by_cases horigin : sender = origin
    · exact Or.inl horigin
    · exact Or.inr (mem_of_ahead_isPrefix (hflood.done_isPrefix sender horigin)
        ((hdone hmem).resolve_left horigin) hearlier)

/-- A node takes the oldest message from a channel, when it has it already or
the message is not of the origin. -/
theorem take (hflood : Flooding linked origin order done seen channels) {sender node : ν}
    {message : μ} {rest : List μ} (hhead : channels sender node = message :: rest)
    (hdone : node ≠ origin → message ∈ order → message ∈ done node) :
    Flooding linked origin order done seen (channels.take sender node) := by
  constructor
  case order_nodup => exact hflood.order_nodup
  case done_isPrefix => exact hflood.done_isPrefix
  case done_of_seen => exact hflood.done_of_seen
  case seen_of_inFlight =>
    intro other hother taken htaken hflight
    exact hflood.seen_of_inFlight other hother taken htaken (inFlight_take hflight)
  case spreading =>
    exact fun known hmem => (hflood.spreading known hmem).take hhead
      fun hnode heq => heq ▸ hdone hnode (heq ▸ hmem)
  case fifo =>
    intro first receiver hreceiver queued hmem hqueued earlier hearlier
    have hbefore := hflood.fifo first receiver hreceiver queued hmem (mem_of_mem_take hqueued)
      earlier hearlier
    -- only this channel loses its head, which may be the earlier message
    by_cases hfrom : first = sender ∧ receiver = node
    · obtain ⟨rfl, rfl⟩ := hfrom
      rw [take_head hhead]
      rw [hhead] at hbefore
      by_cases hsame : message = queued
      · rw [hsame, ahead_cons_self] at hbefore
        exact Or.inl (hbefore.resolve_right List.not_mem_nil)
      · rw [ahead_cons_of_ne hsame, List.mem_cons] at hbefore
        rcases hbefore with hhas | rfl | hahead
        · exact Or.inl hhas
        · exact Or.inl (hdone hreceiver (mem_of_mem_ahead hearlier))
        · exact Or.inr hahead
    · rwa [take_of_not hfrom]

/-- A node takes a message of the origin that it has not seen, and sends it to
all neighbours but those that have it. -/
theorem relay (hflood : Flooding linked origin order done seen channels) {node : ν}
    {targets : List ν} {message : μ} (hnode : node ≠ origin) (hmem : message ∈ order)
    (hflight : channels.InFlight message) (hunseen : ¬ seen node message)
    (hearlier : ∀ earlier ∈ ahead message order, earlier ∈ done node)
    (hlinked : ∀ target ∈ targets, linked node target)
    (hothers : ∀ next, linked node next → next ≠ origin → next ∈ targets ∨ message ∈ done next) :
    Flooding linked origin order (Function.update done node (done node ++ [message]))
      (fun other known => seen other known ∨ other = node ∧ known = message)
      (channels.send node targets message) := by
  have hnew := hflood.not_done_of_unseen hnode hflight hunseen
  have hmemDone : ∀ other known, known ∈ Function.update done node (done node ++ [message]) other ↔
      known ∈ done other ∨ other = node ∧ known = message := by
    intro other known
    by_cases hother : other = node
    · subst hother
      simp
    · simp [hother]
  constructor
  case order_nodup => exact hflood.order_nodup
  case done_isPrefix =>
    intro other hother
    by_cases heq : other = node
    · subst heq
      rw [Function.update_self]
      have hdone := hflood.done_isPrefix other hother
      exact append_isPrefix hflood.order_nodup hdone hmem hnew hearlier
    · rw [Function.update_of_ne heq]
      exact hflood.done_isPrefix other hother
  case done_of_seen =>
    intro other hother known hknown hseen
    exact (hmemDone other known).mpr
      (hseen.imp_left (hflood.done_of_seen other hother known hknown))
  case seen_of_inFlight =>
    intro other hother known hdone hflying
    have hold : channels.InFlight known := by
      rcases inFlight_send hflying with hold | rfl
      · exact hold
      · exact hflight
    exact ((hmemDone other known).mp hdone).imp_left
      fun htaken => hflood.seen_of_inFlight other hother known htaken hold
  case spreading =>
    intro known hknown
    -- the message spreads further, and to all others this is one more send
    by_cases hne : known = message
    · subst hne
      apply ((hflood.spreading known hknown).relay hothers).congr
      intro other _
      simpa using hmemDone other known
    · refine ((hflood.spreading known hknown).send fun heq => absurd heq hne).congr
        fun other _ => ?_
      simpa [hne] using hmemDone other known
  case fifo =>
    intro sender receiver hreceiver queued hqueued hsent earlier hbefore
    refine (ahead_send hsent (fun hold => hflood.fifo sender receiver hreceiver queued hqueued hold
      earlier hbefore) ?_).imp_left fun htaken => (hmemDone receiver earlier).mpr (Or.inl htaken)
    rintro rfl htarget rfl
    exact (hflood.spreading earlier (mem_of_mem_ahead hbefore)).covered sender receiver
      (hlinked receiver htarget) hreceiver (Or.inr (hearlier earlier hbefore))

/-- The node that takes a message from a channel sends it to all neighbours but
the one that it came from. -/
theorem forward (hflood : Flooding linked origin order done seen channels) {sender node : ν}
    {targets : List ν} {message : μ} {rest : List μ} (hnode : node ≠ origin)
    (hmem : message ∈ order) (hhead : channels sender node = message :: rest)
    (hunseen : ¬ seen node message) (hlinked : ∀ target ∈ targets, linked node target)
    (hothers : ∀ next, linked node next → next ≠ sender → next ∈ targets) :
    Flooding linked origin order (Function.update done node (done node ++ [message]))
      (fun other known => seen other known ∨ other = node ∧ known = message)
      ((channels.take sender node).send node targets message) := by
  have hqueued : message ∈ channels sender node := hhead ▸ List.mem_cons_self
  obtain ⟨later, hlater⟩ := send_head node targets message hhead
  rw [send_take hhead]
  refine (hflood.relay hnode hmem ⟨sender, node, hqueued⟩ hunseen
    (hflood.done_of_ahead_head hnode hmem hhead) hlinked fun next hlink hnext => ?_).take hlater
      fun _ _ => ?_
  · by_cases hsender : next = sender
    · -- the channel that it came from is skipped, but its sender has the message
      have hsent := (hflood.spreading message hmem).sent_by sender node hqueued
      exact Or.inr (hsender ▸ hsent.resolve_left (hsender ▸ hnext))
    · exact Or.inl (hothers next hlink hsender)
  · rw [Function.update_self]
    exact List.mem_append_right _ List.mem_cons_self

/-- A node takes a message from a channel and sends it on, which it has already
or which is not of the origin. -/
theorem bypass (hflood : Flooding linked origin order done seen channels) {sender node : ν}
    {targets : List ν} {message : μ} {rest : List μ}
    (hhead : channels sender node = message :: rest)
    (hlinked : ∀ target ∈ targets, linked node target)
    (hdone : message ∈ order → node = origin ∨ message ∈ done node) :
    Flooding linked origin order done seen
      ((channels.take sender node).send node targets message) := by
  obtain ⟨later, hlater⟩ := send_head node targets message hhead
  rw [send_take hhead]
  refine (hflood.send hlinked hdone fun other hother htaken => ?_).take hlater
    fun hnode hmem => (hdone hmem).resolve_left hnode
  exact hflood.seen_of_inFlight other hother message htaken
    ⟨sender, node, hhead ▸ List.mem_cons_self⟩

/-- The origin sends a message that no other node remembers and of which no
copy is in flight. It is then the last of the order. -/
theorem inject (hflood : Flooding linked origin order done seen channels) {targets : List ν}
    {message : μ} (hidle : ¬ channels.InFlight message)
    (hforgotten : ∀ node, node ≠ origin → ¬ seen node message)
    (hlinked : ∀ target ∈ targets, linked origin target)
    (hall : ∀ next, linked origin next → next ≠ origin → next ∈ targets) :
    Flooding linked origin (order.erase message ++ [message])
      (fun node => (done node).erase message) seen (channels.send origin targets message) := by
  have hdoneNodup : ∀ node, node ≠ origin → (done node).Nodup :=
    fun node hnode => (hflood.done_isPrefix node hnode).sublist.nodup hflood.order_nodup
  have hmemOrder : ∀ known, known ∈ order.erase message ++ [message] → known ≠ message →
      known ∈ order := by
    intro known hknown hne
    rw [List.mem_append, List.mem_singleton] at hknown
    exact List.mem_of_mem_erase (hknown.resolve_right hne)
  have hmemDone : ∀ node known, known ∈ done node → known ≠ message →
      known ∈ (done node).erase message :=
    fun node known hknown hne => (List.mem_erase_of_ne hne).mpr hknown
  have hnotDone : ∀ node, node ≠ origin → message ∉ (done node).erase message :=
    fun node hnode => (hdoneNodup node hnode).not_mem_erase
  constructor
  case order_nodup =>
    apply List.Nodup.append (hflood.order_nodup.erase message) (List.nodup_singleton message)
    exact List.disjoint_singleton.mpr hflood.order_nodup.not_mem_erase
  case done_isPrefix =>
    intro node hnode
    exact (erase_isPrefix (hflood.done_isPrefix node hnode) message).trans (List.prefix_append _ _)
  case done_of_seen =>
    intro node hnode known hknown hseen
    have hne : known ≠ message := fun heq => hforgotten node hnode (heq ▸ hseen)
    exact hmemDone node known
      (hflood.done_of_seen node hnode known (hmemOrder known hknown hne) hseen) hne
  case seen_of_inFlight =>
    intro node hnode known hknown hflight
    rcases inFlight_send hflight with hold | rfl
    · exact hflood.seen_of_inFlight node hnode known (List.mem_of_mem_erase hknown) hold
    · exact absurd hknown (hnotDone node hnode)
  case spreading =>
    intro known hknown
    by_cases hne : known = message
    · subst hne
      exact (Spreading.start hidle hall).congr
        fun node hnode => iff_false_intro (hnotDone node hnode)
    · refine ((hflood.spreading known (hmemOrder known hknown hne)).send
        fun heq => absurd heq hne).congr fun node _ => ?_
      exact List.mem_erase_of_ne hne
  case fifo =>
    intro sender receiver hreceiver queued hqueued hsent earlier hbefore
    -- the message now comes last, so whatever is ahead of another one was ahead before
    have hmoved : earlier ≠ message ∧ earlier ∈ order := by
      by_cases hne : queued = message
      · subst hne
        rw [ahead_append_of_not_mem hflood.order_nodup.not_mem_erase, ahead_cons_self,
          List.append_nil] at hbefore
        exact ⟨fun heq => hflood.order_nodup.not_mem_erase (heq ▸ hbefore),
          List.mem_of_mem_erase hbefore⟩
      · have hmem := hmemOrder queued hqueued hne
        rw [ahead_append_of_mem ((List.mem_erase_of_ne hne).mpr hmem)] at hbefore
        have hother := mem_of_mem_ahead hbefore
        exact ⟨fun heq => hflood.order_nodup.not_mem_erase (heq ▸ hother),
          List.mem_of_mem_erase hother⟩
    obtain ⟨hother, hmem⟩ := hmoved
    refine (ahead_send hsent (fun hold => ?_) ?_).imp_left
      fun htaken => hmemDone receiver earlier htaken hother
    · have hne : queued ≠ message := fun heq => hidle ⟨sender, receiver, heq ▸ hold⟩
      have hqueuedOrder := hmemOrder queued hqueued hne
      rw [ahead_append_of_mem ((List.mem_erase_of_ne hne).mpr hqueuedOrder)] at hbefore
      exact hflood.fifo sender receiver hreceiver queued hqueuedOrder hold earlier
        (mem_ahead_of_erase hbefore hne)
    · rintro rfl htarget rfl
      exact (hflood.spreading earlier hmem).covered sender receiver (hlinked receiver htarget)
        hreceiver (Or.inl rfl)

end Flooding

end Flood

import Signpost.Comms.CommunicationCentre
import Signpost.Machine.Run

/-! # Connections and known signposts

A channel object gets its name when the other end says hello or replies to a
hello, and is then held by the communication centre. It is held by object, but
when a channel closes all channels of its name are dropped.

Channel objects are named by their place in the list of those opened.
-/

namespace Signpost.Connections

open Machine

/-! ## The centre and its channels -/

/-- A channel object has no name before its handshake. -/
structure Channel where
  name : Option String
  isOpen : Bool
deriving DecidableEq, Repr

structure State where
  opened : List Channel
  /-- The channels of the communication centre. -/
  channels : List ℕ
deriving DecidableEq

/-- What is sent on a channel or started besides. -/
inductive Effect
  | hiIAm (channel : ℕ)
  | niceToMeetYouIAm (channel : ℕ)
  | listOfSignposts (channel : ℕ)
  | gimmeTruths (channel : ℕ)
  | terminateChannel (channel : ℕ)
  | connectToSignpost (ip : String) (port : ℕ)
  | findSignpostFromDns
deriving DecidableEq, Repr

def State.nameOf (state : State) (index : ℕ) : Option String :=
  state.opened[index]?.bind fun channel => channel.name

def State.knownSignposts (state : State) : List (Option String) :=
  state.channels.map state.nameOf

def State.setChannel (state : State) (index : ℕ) (channel : Channel) : State :=
  { state with opened := state.opened.set index channel }

/-- A signpost does not connect with itself. -/
def newChannel (me : String) (state : State) (index : ℕ) : State × List Effect :=
  if state.nameOf index ≠ some me then
    ({ state with channels := state.channels ++ [index] },
      [.listOfSignposts index, .gimmeTruths index])
  else (state, [.terminateChannel index])

/-- All channels of the name are removed. -/
def channelClosed (me : String) (state : State) (index : ℕ) : State × List Effect :=
  if state.nameOf index = some me then (state, [])
  else
    let remaining := state.channels.filter fun other => state.nameOf other ≠ state.nameOf index
    ({ state with channels := remaining }, if remaining.isEmpty then [.findSignpostFromDns] else [])

/-- The signposts that are not known yet are dialled. -/
def connectToSignposts (me : String) (state : State) (signposts : List SignpostEntry) :
    List Effect :=
  (signposts.filter fun signpost =>
      signpost.name ≠ me ∧ some signpost.name ∉ state.knownSignposts ∧ signpost.ip ≠ me).map
    fun signpost => .connectToSignpost signpost.ip signpost.port

/-! ## Runs -/

inductive Event
  | accept
  | connect
  | hiIAm (channel : ℕ) (name : String)
  | niceToMeetYouIAm (channel : ℕ) (name : String)
  | signposts (channel : ℕ) (signposts : List SignpostEntry)
  | unbind (channel : ℕ)
deriving DecidableEq, Repr

inductive ConnectionError
  | disabled
deriving DecidableEq, Repr

/-- An event of a channel that is open. -/
def onChannel (state : State) (index : ℕ) (next : Channel → State × List Effect) :
    Except ConnectionError (State × List Effect) :=
  match state.opened[index]? with
  | none => .error .disabled
  | some channel => if channel.isOpen then .ok (next channel) else .error .disabled

def step (me : String) (state : State) : Event → Except ConnectionError (State × List Effect)
  | .accept => .ok ({ state with opened := state.opened ++ [⟨none, true⟩] }, [])
  | .connect =>
      .ok ({ state with opened := state.opened ++ [⟨none, true⟩] }, [.hiIAm state.opened.length])
  | .hiIAm index name => onChannel state index fun channel =>
      let (next, effects) :=
        newChannel me (state.setChannel index { channel with name := name }) index
      (next, .niceToMeetYouIAm index :: effects)
  | .niceToMeetYouIAm index name => onChannel state index fun channel =>
      newChannel me (state.setChannel index { channel with name := name }) index
  | .signposts index signposts => onChannel state index fun _ =>
      (state, connectToSignposts me state signposts)
  | .unbind index => onChannel state index fun channel =>
      channelClosed me (state.setChannel index { channel with isOpen := false }) index

def initial : State := ⟨[], []⟩

abbrev ConnectionRun (me : String) :
    List (Transition State Event (List Effect)) → State → Prop :=
  Run (step me) initial

/-! ## Tracking -/

/-- The channel is open, and its last handshake was with the peer. -/
def Connected (state : State) (index : ℕ) (peer : String) : Prop :=
  state.opened[index]? = some ⟨some peer, true⟩

/-- The peers listed are those with an open channel, and no channel is held twice. -/
structure Tracks (me : String) (state : State) : Prop where
  listed_iff : ∀ peer, peer ≠ me →
    (some peer ∈ state.knownSignposts ↔ ∃ index, Connected state index peer)
  channels_nodup : state.channels.Nodup

/-- A peer says its name on a channel that is not held yet, and when its channel
closes it has no other. -/
def OneChannelEach (me : String) (step : Transition State Event (List Effect)) : Prop :=
  match step.input with
  | .hiIAm index name => name ≠ me → index ∉ step.before.channels
  | .niceToMeetYouIAm index name => name ≠ me → index ∉ step.before.channels
  | .unbind index => ∀ peer, peer ≠ me → Connected step.before index peer →
      ∀ other, Connected step.before other peer → other = index
  | .accept => True
  | .connect => True
  | .signposts _ _ => True

/-! ## What the events do -/

theorem onChannel_cases {state after : State} {effects : List Effect} {index : ℕ}
    {next : Channel → State × List Effect}
    (hok : onChannel state index next = .ok (after, effects)) :
    ∃ channel, state.opened[index]? = some channel ∧ channel.isOpen = true ∧
      after = (next channel).1 := by
  unfold onChannel at hok
  split at hok
  next => cases hok
  next channel hfound =>
  split at hok
  next hopen => exact ⟨channel, hfound, hopen, (congrArg Prod.fst (Except.ok.inj hok)).symm⟩
  next => cases hok

theorem opened_setChannel {state : State} {index : ℕ} {old : Channel}
    (hfound : state.opened[index]? = some old) (new : Channel) (other : ℕ) :
    (state.setChannel index new).opened[other]? =
      if other = index then some new else state.opened[other]? := by
  have hlength : index < state.opened.length := (List.getElem?_eq_some_iff.mp hfound).1
  by_cases hself : other = index
  · subst hself
    rw [if_pos rfl]
    exact List.getElem?_set_self hlength
  · rw [if_neg hself]
    exact List.getElem?_set_ne (Ne.symm hself)

theorem nameOf_setChannel {state : State} {index : ℕ} {old : Channel}
    (hfound : state.opened[index]? = some old) (new : Channel) (other : ℕ) :
    (state.setChannel index new).nameOf other =
      if other = index then new.name else state.nameOf other := by
  rw [State.nameOf, opened_setChannel hfound]
  split <;> rfl

theorem connected_setChannel {state : State} {index : ℕ} {old : Channel}
    (hfound : state.opened[index]? = some old) (new : Channel) (other : ℕ) (peer : String) :
    Connected (state.setChannel index new) other peer ↔
      if other = index then new = ⟨some peer, true⟩ else Connected state other peer := by
  rw [Connected, opened_setChannel hfound]
  split
  next => exact Option.some_inj
  next => rfl

/-- Another name is said on an open channel. -/
theorem connected_rename {state : State} {index : ℕ} {channel : Channel}
    (hfound : state.opened[index]? = some channel) (hopen : channel.isOpen = true) (name : String)
    (other : ℕ) (peer : String) :
    Connected (state.setChannel index { channel with name := some name }) other peer ↔
      if other = index then name = peer else Connected state other peer := by
  rw [connected_setChannel hfound, hopen]
  simp

theorem nameOf_close {state : State} {index : ℕ} {channel : Channel}
    (hfound : state.opened[index]? = some channel) (other : ℕ) :
    (state.setChannel index { channel with isOpen := false }).nameOf other =
      state.nameOf other := by
  rw [nameOf_setChannel hfound]
  split
  next heq =>
    rw [heq, State.nameOf, hfound]
    rfl
  next => rfl

theorem connected_close {state : State} {index : ℕ} {channel : Channel}
    (hfound : state.opened[index]? = some channel) (other : ℕ) (peer : String) :
    Connected (state.setChannel index { channel with isOpen := false }) other peer ↔
      other ≠ index ∧ Connected state other peer := by
  rw [connected_setChannel hfound]
  split
  next heq => simp [heq]
  next hne => simp [hne]

theorem Connected.nameOf {state : State} {index : ℕ} {peer : String}
    (hconnected : Connected state index peer) : state.nameOf index = some peer := by
  rw [State.nameOf, hconnected]
  rfl

@[simp] theorem nameOf_channels (state : State) (channels : List ℕ) (index : ℕ) :
    State.nameOf { state with channels := channels } index = state.nameOf index :=
  rfl

@[simp] theorem connected_channels (state : State) (channels : List ℕ) (index : ℕ)
    (peer : String) :
    Connected { state with channels := channels } index peer ↔ Connected state index peer :=
  Iff.rfl

/-- Each channel that is held is open or has our own name, and each open channel
with the name of a peer is held. -/
structure Held (me : String) (state : State) : Prop where
  named : ∀ index ∈ state.channels, state.nameOf index ≠ none
  connected : ∀ index ∈ state.channels, ∀ peer, peer ≠ me → state.nameOf index = some peer →
    Connected state index peer
  held : ∀ index peer, peer ≠ me → Connected state index peer → index ∈ state.channels
  channels_nodup : state.channels.Nodup

namespace Held

variable {me : String} {state : State}

theorem tracks (hstate : Held me state) : Tracks me state where
  listed_iff := by
    intro peer hpeer
    rw [State.knownSignposts, List.mem_map]
    constructor
    · rintro ⟨index, hindex, hname⟩
      exact ⟨index, hstate.connected index hindex peer hpeer hname⟩
    · rintro ⟨index, hconnected⟩
      exact ⟨index, hstate.held index peer hpeer hconnected, hconnected.nameOf⟩
  channels_nodup := hstate.channels_nodup

theorem initial (me : String) : Held me initial where
  named := by simp [Connections.initial]
  connected := by simp [Connections.initial]
  held := by simp [Connections.initial, Connected]
  channels_nodup := List.nodup_nil

theorem opened (hstate : Held me state) :
    Held me { state with opened := state.opened ++ [⟨none, true⟩] } := by
  have hname : ∀ index ∈ state.channels,
      State.nameOf { state with opened := state.opened ++ [⟨none, true⟩] } index =
        state.nameOf index := by
    intro index hindex
    have hnamed := hstate.named index hindex
    have hlength : index < state.opened.length := by
      by_contra hlarge
      apply hnamed
      rw [State.nameOf, List.getElem?_eq_none (by omega)]
      rfl
    rw [State.nameOf, List.getElem?_append_left hlength]
    rfl
  have hconnected : ∀ index peer,
      Connected { state with opened := state.opened ++ [⟨none, true⟩] } index peer ↔
        Connected state index peer := by
    intro index peer
    simp only [Connected]
    grind
  constructor
  case named =>
    intro index hindex
    rw [hname index hindex]
    exact hstate.named index hindex
  case connected =>
    intro index hindex peer hpeer hnamed
    rw [hname index hindex] at hnamed
    exact (hconnected index peer).mpr (hstate.connected index hindex peer hpeer hnamed)
  case held =>
    intro index peer hpeer hopen
    exact hstate.held index peer hpeer ((hconnected index peer).mp hopen)
  case channels_nodup => exact hstate.channels_nodup

/-- A peer says its name on a channel that is not held yet, and is listed. -/
theorem listed (hstate : Held me state) {index : ℕ} {channel : Channel} (name : String)
    (hfound : state.opened[index]? = some channel) (hopen : channel.isOpen = true)
    (hnew : index ∉ state.channels) :
    Held me { state.setChannel index { channel with name := some name } with
      channels := state.channels ++ [index] } := by
  obtain ⟨hnamed, hconnected, hheld, hnodup⟩ := hstate
  have hname := nameOf_setChannel hfound { channel with name := some name }
  have hconnects := connected_rename hfound hopen name
  have hne : ∀ other ∈ state.channels, other ≠ index := fun other hold heq => hnew (heq ▸ hold)
  constructor
  case named =>
    simp only [nameOf_channels, List.mem_append, List.mem_singleton]
    rintro other (hold | rfl)
    · rw [hname, if_neg (hne other hold)]
      exact hnamed other hold
    · simp [hname]
  case connected =>
    simp only [nameOf_channels, connected_channels, hname, hconnects, List.mem_append,
      List.mem_singleton]
    rintro other (hold | rfl) peer hme hpeerName
    · rw [if_neg (hne other hold)] at hpeerName ⊢
      exact hconnected other hold peer hme hpeerName
    · simpa using hpeerName
  case held =>
    simp only [connected_channels, hconnects, List.mem_append, List.mem_singleton]
    intro other peer hme hopened
    by_cases heq : other = index
    · exact Or.inr heq
    · rw [if_neg heq] at hopened
      exact Or.inl (hheld other peer hme hopened)
  case channels_nodup =>
    exact List.Nodup.append hnodup (List.nodup_singleton index)
      (List.disjoint_singleton.mpr hnew)

/-- We hear ourselves. The channel is told to terminate, and stays where it is. -/
theorem ourselves (hstate : Held me state) {index : ℕ} {channel : Channel}
    (hfound : state.opened[index]? = some channel) (hopen : channel.isOpen = true) :
    Held me (state.setChannel index { channel with name := some me }) := by
  obtain ⟨hnamed, hconnected, hheld, hnodup⟩ := hstate
  have hname := nameOf_setChannel hfound { channel with name := some me }
  have hconnects := connected_rename hfound hopen me
  constructor
  case named =>
    intro other hold
    rw [hname]
    split
    next => exact Option.some_ne_none me
    next => exact hnamed other hold
  case connected =>
    intro other hold peer hpeer hpeerName
    rw [hname] at hpeerName
    rw [hconnects]
    split at hpeerName
    next heq => exact absurd (Option.some.inj hpeerName) (Ne.symm hpeer)
    next hne =>
      rw [if_neg hne]
      exact hconnected other hold peer hpeer hpeerName
  case held =>
    intro other peer hpeer hopened
    rw [hconnects] at hopened
    split at hopened
    next => exact absurd hopened (Ne.symm hpeer)
    next => exact hheld other peer hpeer hopened
  case channels_nodup => exact hnodup

/-- A peer says its name on a channel that is not held, or we hear ourselves. -/
theorem newChannel (hstate : Held me state) {index : ℕ} {channel : Channel} {name : String}
    (hfound : state.opened[index]? = some channel) (hopen : channel.isOpen = true)
    (hone : name ≠ me → index ∉ state.channels) :
    Held me
      (newChannel me (state.setChannel index { channel with name := some name }) index).1 := by
  have hself : (state.setChannel index { channel with name := some name }).nameOf index =
      some name := by
    rw [nameOf_setChannel hfound, if_pos rfl]
  unfold Connections.newChannel
  rw [hself]
  split
  next hother => exact hstate.listed name hfound hopen (hone fun heq => hother (congrArg some heq))
  next hme =>
    obtain rfl := Option.some.inj (not_not.mp hme)
    exact hstate.ourselves hfound hopen

/-- A channel with our own name closes, and nothing is removed. -/
theorem closedOurs (hstate : Held me state) {index : ℕ} {channel : Channel}
    (hfound : state.opened[index]? = some channel) (hme : state.nameOf index = some me) :
    Held me (state.setChannel index { channel with isOpen := false }) := by
  obtain ⟨hnamed, hconnected, hheld, hnodup⟩ := hstate
  have hname := nameOf_close hfound
  have hconnects := connected_close hfound
  constructor
  case named =>
    intro other hold
    rw [hname]
    exact hnamed other hold
  case connected =>
    intro other hold peer hpeer hpeerName
    rw [hname] at hpeerName
    refine (hconnects other peer).mpr ⟨?_, hconnected other hold peer hpeer hpeerName⟩
    rintro rfl
    exact hpeer (Option.some.inj (hpeerName.symm.trans hme))
  case held =>
    intro other peer hpeer hopened
    exact hheld other peer hpeer ((hconnects other peer).mp hopened).2
  case channels_nodup => exact hnodup

/-- A channel closes whose peer has no other, and all channels of its name are
removed. -/
theorem removed (hstate : Held me state) {index : ℕ} {channel : Channel}
    (hfound : state.opened[index]? = some channel) (hopen : channel.isOpen = true)
    (hone : ∀ peer, peer ≠ me → Connected state index peer →
      ∀ other, Connected state other peer → other = index) :
    Held me { state.setChannel index { channel with isOpen := false } with
      channels := state.channels.filter fun other => state.nameOf other ≠ state.nameOf index } := by
  obtain ⟨hnamed, hconnected, hheld, hnodup⟩ := hstate
  have hname := nameOf_close hfound
  have hconnects := connected_close hfound
  have hcloses : ∀ peer, state.nameOf index = some peer → Connected state index peer := by
    intro peer hpeer
    rw [State.nameOf, hfound] at hpeer
    rw [Connected, hfound, ← hopen, ← hpeer]
    rfl
  constructor
  case named =>
    intro other hold
    rw [nameOf_channels, hname]
    exact hnamed other (List.mem_filter.mp hold).1
  case connected =>
    intro other hold peer hpeer hpeerName
    obtain ⟨hheldOther, hdiffers⟩ := List.mem_filter.mp hold
    rw [nameOf_channels, hname] at hpeerName
    refine (hconnects other peer).mpr ⟨?_, hconnected other hheldOther peer hpeer hpeerName⟩
    rintro rfl
    simp at hdiffers
  case held =>
    intro other peer hpeer hopened
    obtain ⟨hne, hopened⟩ := (hconnects other peer).mp hopened
    refine List.mem_filter.mpr ⟨hheld other peer hpeer hopened, ?_⟩
    -- it has another name, for its peer has no channel that closes
    rw [decide_eq_true_eq, hopened.nameOf]
    exact fun hsame => hne (hone peer hpeer (hcloses peer hsame.symm) other hopened)
  case channels_nodup => exact hnodup.filter _

/-- A channel closes whose peer has no other. -/
theorem channelClosed (hstate : Held me state) {index : ℕ} {channel : Channel}
    (hfound : state.opened[index]? = some channel) (hopen : channel.isOpen = true)
    (hone : ∀ peer, peer ≠ me → Connected state index peer →
      ∀ other, Connected state other peer → other = index) :
    Held me
      (channelClosed me (state.setChannel index { channel with isOpen := false }) index).1 := by
  unfold Connections.channelClosed
  simp only [nameOf_close hfound]
  split
  next hme => exact hstate.closedOurs hfound hme
  next => exact hstate.removed hfound hopen hone

end Held

/-- What one event does to the bookkeeping, unless a peer gets a second entry or
loses one of two channels. -/
theorem Held.step {me : String} {state next : State} {event : Event} {effects : List Effect}
    (hstate : Held me state) (hok : step me state event = .ok (next, effects))
    (hone : OneChannelEach me ⟨state, event, effects, next⟩) : Held me next := by
  cases event with
  | accept =>
      obtain ⟨rfl, rfl⟩ := Prod.mk.inj (Except.ok.inj hok)
      exact hstate.opened
  | connect =>
      obtain ⟨rfl, rfl⟩ := Prod.mk.inj (Except.ok.inj hok)
      exact hstate.opened
  | hiIAm index name =>
      obtain ⟨channel, hfound, hopen, rfl⟩ := onChannel_cases hok
      exact hstate.newChannel hfound hopen hone
  | niceToMeetYouIAm index name =>
      obtain ⟨channel, hfound, hopen, rfl⟩ := onChannel_cases hok
      exact hstate.newChannel hfound hopen hone
  | signposts index signposts =>
      obtain ⟨_, _, _, rfl⟩ := onChannel_cases hok
      exact hstate
  | unbind index =>
      obtain ⟨channel, hfound, hopen, rfl⟩ := onChannel_cases hok
      exact hstate.channelClosed hfound hopen hone

theorem held_of_run {me : String} {steps : List (Transition State Event (List Effect))}
    {state : State} (hrun : ConnectionRun me steps state)
    (hone : ∀ step ∈ steps, OneChannelEach me step) :
    Held me state ∧ ∀ step ∈ steps, Held me step.after := by
  induction hrun with
  | start => exact ⟨Held.initial me, fun step hstep => absurd hstep List.not_mem_nil⟩
  | extend prior hstep ih =>
      rw [List.forall_mem_append, List.forall_mem_singleton] at hone
      obtain ⟨hbefore, hsteps⟩ := ih hone.1
      have hafter := hbefore.step hstep hone.2
      exact ⟨hafter, List.forall_mem_append.mpr ⟨hsteps, List.forall_mem_singleton.mpr hafter⟩⟩

/-! ## What goes wrong otherwise -/

/-- A channel that is held already is held twice. -/
theorem not_tracks_newChannel {me name : String} {state : State} {index : ℕ} {channel : Channel}
    (hfound : state.opened[index]? = some channel) (hpeer : name ≠ me)
    (hheld : index ∈ state.channels) :
    ¬ Tracks me
      (newChannel me (state.setChannel index { channel with name := some name }) index).1 := by
  intro htracks
  have hself : (state.setChannel index { channel with name := some name }).nameOf index ≠
      some me := by
    rw [nameOf_setChannel hfound, if_pos rfl]
    exact fun heq => hpeer (Option.some.inj heq)
  have hnodup := htracks.channels_nodup
  rw [newChannel, if_pos hself] at hnodup
  exact (List.disjoint_of_nodup_append hnodup) hheld (List.mem_singleton_self index)

/-- A peer with a second channel is not listed any more. -/
theorem not_tracks_channelClosed {me peer : String} {state : State} {index other : ℕ}
    {channel : Channel} (hfound : state.opened[index]? = some channel) (hpeer : peer ≠ me)
    (hcloses : Connected state index peer) (hopened : Connected state other peer)
    (hne : other ≠ index) :
    ¬ Tracks me
      (channelClosed me (state.setChannel index { channel with isOpen := false }) index).1 := by
  intro htracks
  have hchannel : channel.name = some peer :=
    congrArg Channel.name (Option.some.inj (hfound.symm.trans hcloses))
  have hself : (state.setChannel index { channel with isOpen := false }).nameOf index =
      some peer := by
    rw [nameOf_setChannel hfound, if_pos rfl, hchannel]
  have hme : (state.setChannel index { channel with isOpen := false }).nameOf index ≠ some me := by
    rw [hself]
    exact fun heq => hpeer (Option.some.inj heq)
  have hlisted := (htracks.listed_iff peer hpeer).mpr ⟨other, by
    rw [channelClosed, if_neg hme, connected_channels, connected_setChannel hfound, if_neg hne]
    exact hopened⟩
  rw [channelClosed, if_neg hme, State.knownSignposts, List.mem_map] at hlisted
  obtain ⟨listed, hmem, hname⟩ := hlisted
  have hdiffers := (List.mem_filter.mp hmem).2
  rw [decide_eq_true_eq, hself] at hdiffers
  exact hdiffers hname

/-- The known signposts are those with open channels in all states of a run exactly
if every peer says its name once on each channel and never closes one of two. -/
theorem tracks_iff {me : String} {steps : List (Transition State Event (List Effect))}
    {state : State} (hrun : ConnectionRun me steps state) :
    (∀ step ∈ steps, Tracks me step.after) ↔ ∀ step ∈ steps, OneChannelEach me step := by
  constructor
  · intro htracks now hnow
    have hafter := htracks now hnow
    have hok := hrun.step_eq hnow
    unfold OneChannelEach
    split
    next index name hinput =>
      intro hpeer hheld
      rw [hinput] at hok
      obtain ⟨channel, hfound, _, hresult⟩ := onChannel_cases hok
      rw [hresult] at hafter
      exact not_tracks_newChannel hfound hpeer hheld hafter
    next index name hinput =>
      intro hpeer hheld
      rw [hinput] at hok
      obtain ⟨channel, hfound, _, hresult⟩ := onChannel_cases hok
      rw [hresult] at hafter
      exact not_tracks_newChannel hfound hpeer hheld hafter
    next index hinput =>
      intro peer hpeer hcloses other hopened
      rw [hinput] at hok
      obtain ⟨channel, hfound, _, hresult⟩ := onChannel_cases hok
      rw [hresult] at hafter
      by_contra hne
      exact not_tracks_channelClosed hfound hpeer hcloses hopened hne hafter
    next => trivial
    next => trivial
    next => trivial
  · intro hone now hnow
    exact ((held_of_run hrun hone).2 now hnow).tracks

/-! ## Two signposts that dial each other -/

/-- Beta accepts our connection and dials us as well, and one channel closes. -/
def mutualEvents : List Event :=
  [.connect, .accept, .niceToMeetYouIAm 0 "beta", .hiIAm 1 "beta", .unbind 0]

def mutualSteps : List (Transition State Event (List Effect)) :=
  record (step "alpha") initial mutualEvents

theorem tracks_iff_mutual : mutualSteps.length = 5 ∧
    ((∀ step ∈ mutualSteps, Tracks "alpha" step.after) ↔
      ∀ step ∈ mutualSteps, OneChannelEach "alpha" step) :=
  ⟨by decide, tracks_iff (run_record (step "alpha") initial mutualEvents)⟩

theorem not_tracks_mutual :
    ¬ ∀ (me : String) (steps : List (Transition State Event (List Effect))) (state : State),
      ConnectionRun me steps state → ∀ step ∈ steps, Tracks me step.after := by
  intro hclaim
  have htracks := hclaim "alpha" mutualSteps _ (run_record (step "alpha") initial mutualEvents)
    (mutualSteps.get ⟨4, by decide⟩) (List.get_mem _ _)
  have hlisted := (htracks.listed_iff "beta" (by decide)).mpr ⟨1, by unfold Connected; decide⟩
  exact absurd hlisted (by decide)

end Signpost.Connections

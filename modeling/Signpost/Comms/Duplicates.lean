import Signpost.Comms.CommunicationCentre
import Signpost.Machine.Run

/-! # The duplicate check

A message is dropped when the SHA1 of its printed form is in the broadcast
cache. Ruby 1.8 prints a hash by concatenating its keys and values without
separators, at all levels, so that different messages may be printed alike.

SHA1 is a parameter, and so is the order in which a hash is enumerated.
-/

namespace Signpost

open Machine

/-! ## Printing -/

/-- A JSON value. The entries of a hash are in the order in which it is
enumerated; a float is given by its printed form. -/
inductive Value
  | null
  | bool (value : Bool)
  | fixnum (value : Int)
  | float (printed : String)
  | string (value : String)
  | array (elements : List Value)
  | hash (entries : List (String × Value))

mutual

/-- `to_s` of a value; `nil` prints as nothing. -/
def Value.toS : Value → String
  | .null => ""
  | .bool value => if value then "true" else "false"
  | .fixnum value => toString value
  | .float printed => printed
  | .string value => value
  | .array elements => arrayToS elements
  | .hash entries => hashToS entries

def arrayToS : List Value → String
  | [] => ""
  | value :: rest => value.toS ++ arrayToS rest

def hashToS : List (String × Value) → String
  | [] => ""
  | (key, value) :: rest => key ++ value.toS ++ hashToS rest

end

/-- The order in which Ruby 1.8 enumerates the entries of a hash. -/
structure Enumeration where
  order : List (String × Value) → List (String × Value)
  perm : ∀ entries, (order entries).Perm entries

namespace Enumeration

variable (enumeration : Enumeration)

def hash (entries : List (String × Value)) : Value := .hash (enumeration.order entries)

def truth (row : Provision Value) : Value :=
  .array [.string row.what, .string row.provider, .string row.userInfo, .string row.signpost,
    row.truth, row.ttl.elim .null .fixnum]

def query (query : ResolveQuery) : Value :=
  enumeration.hash [("what", .string query.what), ("user_info", .string query.userInfo),
    ("signpost", .string query.signpost)]

def signpost (entry : SignpostEntry) : Value :=
  enumeration.hash [("name", .string entry.name), ("ip", .string entry.ip),
    ("port", .fixnum entry.port)]

/-- The hash of a message, which has an entry for each part that is there. -/
def message (data : Data Value) : Value :=
  enumeration.hash
    ((data.truths.map fun truths => ("truths", .array (truths.map truth))).toList ++
      (data.resolve.map fun query => ("resolve", enumeration.query query)).toList ++
      (data.action.map fun action => ("action", .string action)).toList ++
      (data.signposts.map fun entries =>
        ("signposts", .array (entries.map enumeration.signpost))).toList)

/-- `data.to_s`. -/
def dataToS (data : Data Value) : String := (enumeration.message data).toS

end Enumeration

/-! ## Content -/

mutual

/-- The value with the entries of all its hashes sorted by key. -/
def Value.content : Value → Value
  | .null => .null
  | .bool value => .bool value
  | .fixnum value => .fixnum value
  | .float printed => .float printed
  | .string value => .string value
  | .array elements => .array (arrayContent elements)
  | .hash entries => .hash ((hashContent entries).mergeSort fun left right => left.1 ≤ right.1)

def arrayContent : List Value → List Value
  | [] => []
  | value :: rest => value.content :: arrayContent rest

def hashContent : List (String × Value) → List (String × Value)
  | [] => []
  | (key, value) :: rest => (key, value.content) :: hashContent rest

end

/-- The messages have equal parts, hashes being compared as such. -/
def SameContent (left right : Data Value) : Prop :=
  left.truths.map (fun truths => truths.map fun row => { row with truth := row.truth.content }) =
      right.truths.map (fun truths => truths.map fun row =>
        { row with truth := row.truth.content }) ∧
    left.resolve = right.resolve ∧ left.action = right.action ∧ left.signposts = right.signposts

/-! ## Runs of a communication centre -/

namespace Duplicates

inductive Event
  | receive (now : Int) (exportable : List (Provision Value)) (channel : String)
      (data : Data Value)
  | distributeTruths (truths : List (Provision Value))
  | remoteResolve (now : Int) (query : ResolveQuery)
  | pruneBroadcastCache (now : Int)
  | newChannel (channel : CommsChannel)
  | channelClosed (channel : CommsChannel)

/-- What an event makes the centre do. -/
inductive Outcome
  | received (received : Received Value)
  | sent (data : Data Value) (signposts : List String)
  | nothing

variable {δ : Type}

/-- One event. None of them fails. -/
def step [DecidableEq δ] (digest : Data Value → δ) (centre : CommunicationCentre δ) :
    Event → Except Empty (CommunicationCentre δ × Outcome)
  | .receive now exportable channel data =>
      let (next, received) := centre.receive digest now exportable channel data
      .ok (next, .received received)
  | .distributeTruths truths =>
      let (data, signposts) := centre.distributeTruths truths
      .ok (centre, .sent data signposts)
  | .remoteResolve now query =>
      let (next, data, signposts) := centre.remoteResolve digest now query
      .ok (next, .sent data signposts)
  | .pruneBroadcastCache now => .ok (centre.pruneBroadcastCache now, .nothing)
  | .newChannel channel =>
      .ok (if channel.name ≠ centre.name then
        { centre with channels := centre.channels ++ [channel] } else centre, .nothing)
  | .channelClosed channel =>
      .ok (if channel.name = centre.name then centre else
        { centre with
          channels := centre.channels.filter fun other => other.name ≠ channel.name }, .nothing)

/-- A centre that has not broadcast anything. -/
def initial (name : String) (channels : List CommsChannel) : CommunicationCentre δ :=
  ⟨name, channels, fun _ => none⟩

abbrev Steps (δ : Type) : Type :=
  List (Transition (CommunicationCentre δ) Event Outcome)

/-! ## What the centre remembers -/

/-- The message is broadcast at the time: it was received and relayed, or is the
query of a remote resolution. -/
def Broadcasts (step : Transition (CommunicationCentre δ) Event Outcome) (data : Data Value)
    (time : Int) : Prop :=
  (∃ exportable channel received, step.input = .receive time exportable channel data ∧
    step.output = .received received ∧ received.relayed.isSome = true) ∨
  ∃ query, step.input = .remoteResolve time query ∧ data = { resolve := some query }

/-- No pruning deletes what was broadcast at the time. -/
def Unpruned (steps : Steps δ) (time : Int) : Prop :=
  ∀ step ∈ steps, ∀ now, step.input = .pruneBroadcastCache now → ¬ time < now - 30

/-- A message with the content was broadcast and is not pruned. -/
def Remembered (steps : Steps δ) (data : Data Value) : Prop :=
  Sometime (fun step later => ∃ same time, SameContent same data ∧ Broadcasts step same time ∧
    Unpruned later time) steps

/-- The message was the last one broadcast that is printed so, at the time, and is
not pruned. -/
def LastPrinted (enumeration : Enumeration) (printed : String) (data : Data Value) (time : Int)
    (steps : Steps δ) : Prop :=
  Sometime (fun step later => Broadcasts step data time ∧ enumeration.dataToS data = printed ∧
    Unpruned later time ∧ ∀ after ∈ later, ∀ other moment, Broadcasts after other moment →
      enumeration.dataToS other ≠ printed) steps

/-- A message of truths or of a resolution arrives. -/
def Arrives (step : Transition (CommunicationCentre δ) Event Outcome) (data : Data Value) : Prop :=
  (data.truths.isSome = true ∨ data.resolve.isSome = true) ∧
    ∃ now exportable channel, step.input = .receive now exportable channel data

/-- The message is dropped by the duplicate check. -/
def Discards (step : Transition (CommunicationCentre δ) Event Outcome) (data : Data Value) : Prop :=
  Arrives step data ∧ ∃ received, step.output = .received received ∧ received.handled = false

/-- Only messages whose content was broadcast are dropped. -/
def OnlyDuplicates (steps : Steps δ) : Prop :=
  ∀ earlier step later, steps = earlier ++ step :: later → ∀ data, Discards step data →
    Remembered earlier data

/-- Whenever a message arrives and the last message printed like it has another
content, the content of the arriving one was broadcast as well. -/
def CollisionsRemembered (enumeration : Enumeration) (steps : Steps δ) : Prop :=
  ∀ earlier step later, steps = earlier ++ step :: later → ∀ data, Arrives step data →
    ∀ other time, LastPrinted enumeration (enumeration.dataToS data) other time earlier →
      ¬ SameContent other data → Remembered earlier data

/-! ## The cache -/

theorem Broadcasts.eq {step : Transition (CommunicationCentre δ) Event Outcome}
    {data other : Data Value} {time moment : Int} (hdata : Broadcasts step data time)
    (hother : Broadcasts step other moment) : data = other ∧ time = moment := by
  rcases hdata with ⟨_, _, _, hinput, _⟩ | ⟨_, hinput, rfl⟩
  · rcases hother with ⟨_, _, _, hsame, _⟩ | ⟨_, hsame, _⟩
    · cases hinput.symm.trans hsame
      exact ⟨rfl, rfl⟩
    · cases hinput.symm.trans hsame
  · rcases hother with ⟨_, _, _, hsame, _⟩ | ⟨_, hsame, rfl⟩
    · cases hinput.symm.trans hsame
    · cases hinput.symm.trans hsame
      exact ⟨rfl, rfl⟩

/-- What broadcasts does not prune. -/
theorem Broadcasts.unpruned {step : Transition (CommunicationCentre δ) Event Outcome}
    {data : Data Value} {now : Int} (hdata : Broadcasts step data now) (time : Int) :
    Unpruned [step] time := by
  rintro _ hstep moment hprunes
  obtain rfl := List.mem_singleton.mp hstep
  rcases hdata with ⟨_, _, _, hinput, _⟩ | ⟨_, hinput, _⟩
  · cases hinput.symm.trans hprunes
  · cases hinput.symm.trans hprunes

theorem LastPrinted.remembered {enumeration : Enumeration} {steps : Steps δ} {printed : String}
    {data : Data Value} {time : Int}
    (hlast : LastPrinted enumeration printed data time steps) {same : Data Value}
    (hsame : SameContent data same) : Remembered steps same := by
  obtain ⟨earlier, now, later, hsteps, hnow, _, hunpruned, _⟩ := hlast
  exact ⟨earlier, now, later, hsteps, data, time, hsame, hnow, hunpruned⟩

/-- A step that broadcasts nothing printed so can only prune. -/
theorem lastPrinted_concat {enumeration : Enumeration} {printed : String} {data : Data Value}
    {time : Int} {steps : Steps δ} {last : Transition (CommunicationCentre δ) Event Outcome}
    (hother : ∀ other moment, Broadcasts last other moment →
      enumeration.dataToS other ≠ printed) :
    LastPrinted enumeration printed data time (steps ++ [last]) ↔
      LastPrinted enumeration printed data time steps ∧ Unpruned [last] time := by
  rw [LastPrinted, sometime_concat]
  constructor
  · rintro (⟨hlast, hprinted, _⟩ | ⟨earlier, now, later, hsteps, hnow, hprinted, hunpruned, hlast⟩)
    · exact absurd hprinted (hother data time hlast)
    · obtain ⟨hlater, hfinal⟩ := List.forall_mem_append.mp hunpruned
      refine ⟨⟨earlier, now, later, hsteps, hnow, hprinted, hlater, ?_⟩, hfinal⟩
      exact fun after hafter => hlast after (List.mem_append_left _ hafter)
  · rintro ⟨⟨earlier, now, later, hsteps, hnow, hprinted, hlater, hlast⟩, hfinal⟩
    refine Or.inr ⟨earlier, now, later, hsteps, hnow, hprinted, ?_, ?_⟩
    · exact List.forall_mem_append.mpr ⟨hlater, hfinal⟩
    · exact List.forall_mem_append.mpr ⟨hlast, List.forall_mem_singleton.mpr hother⟩

variable [DecidableEq δ] {enumeration : Enumeration} {sha1 : String → δ}
  {centre next : CommunicationCentre δ} {event : Event} {outcome : Outcome}

/-- A message is relayed and remembered, or neither. -/
theorem receive_cases (centre : CommunicationCentre δ) (digest : Data Value → δ) (now : Int)
    (exportable : List (Provision Value)) (channel : String) (data : Data Value) :
    ((centre.receive digest now exportable channel data).2.relayed.isSome = true ∧
      (centre.receive digest now exportable channel data).1 =
        centre.aboutToBroadcast digest now data) ∨
    ((centre.receive digest now exportable channel data).2.relayed = none ∧
      (centre.receive digest now exportable channel data).1 = centre) := by
  unfold CommunicationCentre.receive
  split
  next =>
    by_cases hspreads : data.truths.isSome = true ∨ data.resolve.isSome = true
    · exact Or.inl ⟨by simp [hspreads], by simp [hspreads, CommunicationCentre.broadcast]⟩
    · exact Or.inr ⟨by simp [hspreads], by simp [hspreads]⟩
  next => exact Or.inr ⟨rfl, rfl⟩

/-- An event writes the entry of a message, or none and at most prunes. -/
theorem broadcastCache_cases
    (hok : step (fun data => sha1 (enumeration.dataToS data)) centre event = .ok (next, outcome)) :
    (∃ data time, Broadcasts ⟨centre, event, outcome, next⟩ data time ∧
      next.broadcastCache = Function.update centre.broadcastCache
        (sha1 (enumeration.dataToS data)) (some time)) ∨
    ((∀ data time, ¬ Broadcasts ⟨centre, event, outcome, next⟩ data time) ∧
      ∀ key time, next.broadcastCache key = some time ↔
        centre.broadcastCache key = some time ∧
          Unpruned [⟨centre, event, outcome, next⟩] time) := by
  cases event with
  | receive now exportable channel data =>
      have hresult : ((centre.receive (fun data => sha1 (enumeration.dataToS data)) now exportable
          channel data).1, Outcome.received (centre.receive (fun data =>
            sha1 (enumeration.dataToS data)) now exportable channel data).2) = (next, outcome) :=
        Except.ok.inj hok
      obtain ⟨hafter, hreceived⟩ := Prod.mk.inj hresult
      rcases receive_cases centre (fun data => sha1 (enumeration.dataToS data)) now
        exportable channel data with ⟨hrelayed, hnext⟩ | ⟨hrelayed, hnext⟩
      · left
        refine ⟨data, now, Or.inl ⟨exportable, channel, _, rfl, hreceived.symm, hrelayed⟩, ?_⟩
        rw [← hafter, hnext]
        rfl
      · right
        constructor
        · rintro other time (⟨_, _, received, _, hother, hsome⟩ | ⟨_, hinput, _⟩)
          · rw [← Outcome.received.inj (hreceived.trans hother), hrelayed] at hsome
            cases hsome
          · cases hinput
        · rw [← hafter, hnext]
          simp [Unpruned]
  | distributeTruths truths =>
      obtain ⟨rfl, rfl⟩ := Prod.mk.inj (Except.ok.inj hok)
      exact Or.inr ⟨by simp [Broadcasts], by simp [Unpruned]⟩
  | remoteResolve now query =>
      obtain ⟨rfl, rfl⟩ := Prod.mk.inj (Except.ok.inj hok)
      exact Or.inl ⟨_, now, Or.inr ⟨query, rfl, rfl⟩, rfl⟩
  | pruneBroadcastCache now =>
      obtain ⟨rfl, rfl⟩ := Prod.mk.inj (Except.ok.inj hok)
      refine Or.inr ⟨by simp [Broadcasts], fun key time => ?_⟩
      rw [CommunicationCentre.pruneBroadcastCache, Option.filter_eq_some_iff]
      simp [Unpruned]
  | newChannel channel =>
      obtain ⟨rfl, rfl⟩ := Prod.mk.inj (Except.ok.inj hok)
      refine Or.inr ⟨by simp [Broadcasts], ?_⟩
      split <;> simp [Unpruned]
  | channelClosed channel =>
      obtain ⟨rfl, rfl⟩ := Prod.mk.inj (Except.ok.inj hok)
      refine Or.inr ⟨by simp [Broadcasts], ?_⟩
      split <;> simp [Unpruned]

variable {name : String} {channels : List CommsChannel} {steps : Steps δ}
  {state : CommunicationCentre δ}

/-- The entry of a printed form was written by the last message printed so, unless
that was pruned. -/
theorem broadcastCache_iff (hsha1 : Function.Injective sha1)
    (hrun : Run (step fun data => sha1 (enumeration.dataToS data)) (initial name channels) steps
      state) (printed : String) (time : Int) :
    state.broadcastCache (sha1 printed) = some time ↔
      ∃ data, LastPrinted enumeration printed data time steps := by
  induction hrun with
  | start => simp [initial, LastPrinted, Sometime]
  | @extend steps state next event outcome prior hok ih =>
      rcases broadcastCache_cases hok with ⟨data, now, hbroadcasts, hcache⟩ | ⟨hnone, hcache⟩
      · rw [hcache]
        by_cases hprinted : enumeration.dataToS data = printed
        · -- the entry is overwritten
          rw [hprinted, Function.update_self, Option.some_inj]
          simp only [LastPrinted, sometime_concat]
          constructor
          · rintro rfl
            exact ⟨data, Or.inl ⟨hbroadcasts, hprinted, by simp [Unpruned], by simp⟩⟩
          · rintro ⟨other, ⟨hother, _⟩ | ⟨_, now, later, _, _, _, _, hlast⟩⟩
            · exact (hbroadcasts.eq hother).2
            · exact absurd hprinted (hlast _ (by simp) data _ hbroadcasts)
        · rw [Function.update_of_ne (fun heq => hprinted (hsha1 heq).symm), ih]
          apply exists_congr
          intro other
          rw [lastPrinted_concat, and_iff_left (hbroadcasts.unpruned time)]
          intro same moment hsame
          rwa [← (hbroadcasts.eq hsame).1]
      · rw [hcache, ih, ← exists_and_right]
        apply exists_congr
        intro other
        rw [lastPrinted_concat]
        exact fun same moment hsame => absurd hsame (hnone same moment)

/-- A message that arrives is discarded when the cache has an entry for its printed
form. -/
theorem discards_iff {digest : Data Value → δ}
    (hok : step digest centre event = .ok (next, outcome)) {data : Data Value} :
    Discards ⟨centre, event, outcome, next⟩ data ↔
      Arrives ⟨centre, event, outcome, next⟩ data ∧
        centre.broadcastCache (digest data) ≠ none := by
  apply and_congr_right
  rintro ⟨_, now, exportable, channel, hinput⟩
  simp only at hinput
  subst hinput
  have hreceived : Outcome.received (centre.receive digest now exportable channel data).2 =
      outcome := congrArg Prod.snd (Except.ok.inj hok)
  have hhandled : (centre.receive digest now exportable channel data).2.handled = false ↔
      centre.broadcastCache (digest data) ≠ none := by
    unfold CommunicationCentre.receive
    split
    next hnew => simpa [CommunicationCentre.shouldBroadcast] using hnew
    next hknown =>
      simpa [CommunicationCentre.shouldBroadcast, Option.ne_none_iff_isSome] using hknown
  rw [← hhandled]
  constructor
  · rintro ⟨received, houtcome, hfalse⟩
    rwa [Outcome.received.inj (hreceived.trans houtcome)]
  · exact fun hfalse => ⟨_, hreceived.symm, hfalse⟩

/-- Only true duplicates are dropped exactly in the runs in which no message arrives
while a different one that is printed like it has the entry, unless its own content
was broadcast as well. -/
theorem onlyDuplicates_iff (hsha1 : Function.Injective sha1)
    (hrun : Run (step fun data => sha1 (enumeration.dataToS data)) (initial name channels) steps
      state) :
    OnlyDuplicates steps ↔ CollisionsRemembered enumeration steps := by
  have hdiscards : ∀ earlier now later, steps = earlier ++ now :: later → ∀ data,
      Discards now data ↔ Arrives now data ∧ ∃ other time,
        LastPrinted enumeration (enumeration.dataToS data) other time earlier := by
    rintro earlier now later rfl data
    have hinitial : earlier ++ [now] <+: earlier ++ now :: later := ⟨later, by simp⟩
    obtain ⟨hbefore, hok⟩ := hrun.of_isPrefix hinitial
    rw [discards_iff hok, Option.ne_none_iff_exists']
    simp only [broadcastCache_iff hsha1 hbefore]
    rw [exists_comm]
  constructor
  · intro honly earlier now later hsteps data harrives other time hlast _
    exact honly earlier now later hsteps data
      ((hdiscards earlier now later hsteps data).mpr ⟨harrives, other, time, hlast⟩)
  · intro hcollisions earlier now later hsteps data hdiscarded
    obtain ⟨harrives, other, time, hlast⟩ :=
      (hdiscards earlier now later hsteps data).mp hdiscarded
    by_cases hsame : SameContent other data
    · exact hlast.remembered hsame
    · exact hcollisions earlier now later hsteps data harrives other time hlast hsame

/-! ## Two truths that are printed alike -/

def inOrder : Enumeration := ⟨id, fun _ => List.Perm.refl _⟩

def counted (value ttl : Int) : Data Value :=
  { truths := some [⟨"num_hops@gamma", "hops", "GLOBAL", "beta", .fixnum value, some ttl⟩] }

/-- One hop for 23 seconds, and twelve hops for 3 seconds. -/
def alikeEvents : List Event :=
  [.receive 10 [] "beta" (counted 1 23), .receive 20 [] "beta" (counted 12 3)]

def alikeSteps : Steps String :=
  record (step fun data => inOrder.dataToS data) (initial "alpha" []) alikeEvents

theorem onlyDuplicates_iff_alike :
    alikeSteps.length = 2 ∧
      (OnlyDuplicates alikeSteps ↔ CollisionsRemembered inOrder alikeSteps) := by
  have hinjective : Function.Injective (id : String → String) := Function.injective_id
  exact ⟨rfl, onlyDuplicates_iff hinjective (run_record _ (initial "alpha" []) alikeEvents)⟩

theorem not_onlyDuplicates_alike :
    ¬ ∀ (steps : Steps String) (state : CommunicationCentre String),
      Run (step fun data => inOrder.dataToS data) (initial "alpha" []) steps state →
        OnlyDuplicates steps := by
  intro hclaim
  have honly := hclaim alikeSteps _ (run_record _ (initial "alpha" []) alikeEvents)
  have hdiscards : Discards (alikeSteps.get ⟨1, by decide⟩) (counted 12 3) :=
    ⟨⟨by decide, 20, [], "beta", rfl⟩, _, rfl, rfl⟩
  obtain ⟨earlier, now, later, hsteps, same, time, hsame, hnow, _⟩ :=
    honly [alikeSteps.get ⟨0, by decide⟩] (alikeSteps.get ⟨1, by decide⟩) [] rfl _ hdiscards
  have hfirst : now = alikeSteps.get ⟨0, by decide⟩ := by
    have hmem : now ∈ [alikeSteps.get ⟨0, by decide⟩] := by
      rw [hsteps]
      simp
    exact List.mem_singleton.mp hmem
  have hone : Broadcasts now (counted 1 23) 10 := by
    rw [hfirst]
    exact Or.inl ⟨[], "beta", _, rfl, rfl, rfl⟩
  rw [(hnow.eq hone).1] at hsame
  simp [SameContent, counted] at hsame

end Duplicates

end Signpost

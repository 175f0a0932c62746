import Signpost.Bloom.History
import Signpost.Routing.Network

/-! # The lifetime of links

A link is stored with the lifetime that its evaluation gave it, and the time at
which it expires is stored in a table of its own. A link that is passed on starts
its lifetime again at the receiver.
-/

namespace Signpost.Routing

open Bloom Machine

/-! ## What is recorded of a lifetime -/

/-- An entry that a timestep made in `link_ttls`. -/
inductive Recording
  | failed (result : FailedResult) (now : Int)
  | pushed (link : LinkRow) (now : Int)
deriving DecidableEq

def Node.row (node : Node) : Recording → LinkTtl
  | .failed result now => node.failed now result
  | .pushed link now => node.linkTtl now link

def Node.recordingKey (node : Node) (recording : Recording) : LinkKey := (node.row recording).key

def Batch.recordings (batch : Batch) : List Recording :=
  (batch.failedEvaluationResult.map fun result => .failed result batch.now) ++
    batch.pushLink.map fun link => .pushed link batch.now

/-- What the timesteps of a node recorded in a run. -/
def recorded (host : Host) (steps : List NetworkStep) : List Recording :=
  steps.flatMap fun step =>
    match step.input with
    | .timestep other batch => if other = host then batch.recordings else []
    | .start _ _ | .report _ _ => []

/-- How much earlier than its lifetime ends a node gives up a link of its own. -/
def Node.margin (node : Node) (link : LinkRow) : Int :=
  if link.fromNode = node.name then link.evalLength + 1 else 0

theorem Node.expires_linkTtl (node : Node) (now : Int) (link : LinkRow) :
    (node.linkTtl now link).expires = now + (link.ttl - node.margin link) := by
  simp only [Node.linkTtl, Node.lifetime, Node.margin]
  split <;> omega

@[simp] theorem Node.key_linkTtl (node : Node) (now : Int) (link : LinkRow) :
    (node.linkTtl now link).key = link.key := rfl

@[simp] theorem Node.row_pushed (node : Node) (now : Int) (link : LinkRow) :
    node.row (.pushed link now) = node.linkTtl now link := rfl

@[simp] theorem Node.recordingKey_pushed (node : Node) (now : Int) (link : LinkRow) :
    node.recordingKey (.pushed link now) = link.key := rfl

theorem map_row_recordings (node : Node) (batch : Batch) :
    batch.recordings.map node.row = linkTtlUpdates node batch := by
  simp only [Batch.recordings, linkTtlUpdates, List.map_append, List.map_map]
  rfl

variable {config : Config} {network next : Network} {steps : List NetworkStep}

theorem recorded_concat (host : Host) (last : NetworkStep) :
    recorded host (steps ++ [last]) = recorded host steps ++ recorded host [last] := by
  simp [recorded]

/-! ## The last recording of a link -/

/-- The node holds the lifetime that it last recorded for the link, and if this was
with a link, then with this one. -/
structure LastRecorded (node : Node) (history : List Recording) (state : State) (link : LinkRow)
    (recording : Recording) : Prop where
  latest_eq : latest node.recordingKey history link.key = some recording
  held : node.row recording ∈ state.linkTtls
  same_link : ∀ pushed now, recording = .pushed pushed now → pushed = link

def LinksRecorded (node : Node) (history : List Recording) (state : State) : Prop :=
  ∀ link ∈ state.links, ∃ recording, LastRecorded node history state link recording

variable {node : Node} {history : List Recording} {state after : State} {batch : Batch}
  {output : Output}

theorem row_mem_updates {recording : Recording} (hmem : recording ∈ batch.recordings) :
    node.row recording ∈ linkTtlUpdates node batch := by
  rw [← map_row_recordings]
  exact List.mem_map_of_mem hmem

/-- A link that is pushed is recorded after all failed results of the timestep. -/
theorem latest_recordings_of_mem (hfires : Fires node state batch after output) {link : LinkRow}
    (hlink : .pushLink link ∈ batch.messages) :
    latest node.recordingKey batch.recordings link.key = some (.pushed link batch.now) := by
  have hpushed : latest LinkRow.key batch.pushLink link.key = some link :=
    latest_of_functional hfires.links_functional (Batch.mem_pushLink.mpr hlink)
  have hmap := @latest_map _ _ _ node.recordingKey _
    (fun link => Recording.pushed link batch.now) batch.pushLink link.key
  rw [Batch.recordings, latest_append, hmap]
  simp [hpushed]

theorem LinksRecorded.timestep (hrecorded : LinksRecorded node history state)
    (hfires : Fires node state batch after output) :
    LinksRecorded node (history ++ batch.recordings) after := by
  intro link hlink
  rcases (hfires.mem_links link).mp hlink with hpush | ⟨hold, hdeleted, hkept⟩
  · have hlatest := latest_recordings_of_mem hfires (Batch.mem_pushLink.mp hpush)
    refine ⟨.pushed link batch.now, ?_, ?_, ?_⟩
    · rw [latest_append, hlatest, Option.some_or]
    · exact (hfires.mem_linkTtls _).mpr (Or.inl (row_mem_updates (mem_of_latest hlatest).1))
    · rintro _ _ ⟨⟩
      rfl
  · obtain ⟨recording, hlatest, hheld, hsame⟩ := hrecorded link hold
    cases hnew : latest node.recordingKey batch.recordings link.key with
    | some newer =>
        obtain ⟨hmem, hkey⟩ := mem_of_latest hnew
        refine ⟨newer, ?_, ?_, ?_⟩
        · rw [latest_append, hnew, Option.some_or]
        · exact (hfires.mem_linkTtls _).mpr (Or.inl (row_mem_updates hmem))
        · rintro pushed now rfl
          -- a push of the key would have replaced the link
          have hpush : .pushLink pushed ∈ batch.messages ∧ batch.now = now := by
            simpa [Batch.recordings] using hmem
          exact absurd hkey (hkept pushed (Batch.mem_pushLink.mpr hpush.1))
    | none =>
        have hkey : (node.row recording).key = link.key := (mem_of_latest hlatest).2
        refine ⟨recording, ?_, ?_, hsame⟩
        · rw [latest_append, hnew, Option.none_or, hlatest]
        · refine (hfires.mem_linkTtls _).mpr (Or.inr ⟨hheld, ?_, ?_⟩)
          · -- an expired lifetime would have taken the link with it
            intro hexpired
            apply hdeleted
            refine List.mem_append_right _ (List.mem_flatMap.mpr ⟨_, hexpired, ?_⟩)
            exact List.mem_filter.mpr ⟨hold, decide_eq_true hkey.symm⟩
          · intro update hupdate hsameKey
            rw [← map_row_recordings] at hupdate
            obtain ⟨newer, hmem, rfl⟩ := List.mem_map.mp hupdate
            exact latest_eq_none_iff.mp hnew newer hmem (hsameKey.trans hkey)

/-! ## Runs -/

theorem links_bootstrapState (node : Node) (isServer : Bool) (now : Int) :
    (bootstrapState node isServer now).links = Collection.empty := by
  unfold bootstrapState
  split <;> rfl

theorem NetworkRun.linksRecorded (hrun : NetworkRun config steps network) {host : Host}
    {state : State} (hstate : network.states host = some state) :
    LinksRecorded (config.node host) (recorded host steps) state := by
  induction hrun generalizing state with
  | start => cases hstate
  | @extend steps network next event output prior hstep ih =>
      rw [recorded_concat]
      cases event with
      | start other now =>
          obtain ⟨hnone, hstates, _⟩ := start_cases hstep
          rw [hstates] at hstate
          by_cases hother : host = other
          · subst hother
            rw [Function.update_self, Option.some.injEq] at hstate
            intro link hlink
            rw [← hstate, links_bootstrapState] at hlink
            exact absurd hlink (Collection.not_mem_empty link)
          · rw [Function.update_of_ne hother] at hstate
            simpa [recorded] using ih hstate
      | timestep other batch =>
          obtain ⟨before, after, hsteps⟩ := timestep_cases hstep
          obtain ⟨_, hfires⟩ := hsteps.fires
          rw [hsteps.states_eq] at hstate
          by_cases hother : host = other
          · subst hother
            obtain rfl : after = state := by simpa using hstate
            simpa [recorded] using (ih hsteps.found).timestep hfires
          · rw [Function.update_of_ne hother] at hstate
            simpa [recorded, Ne.symm hother] using ih hstate
      | report other message =>
          rw [(report_cases hstep).2.1] at hstate
          simpa [recorded] using ih hstate

/-! ## Links that are served -/

/-- A node takes in a link in the second in which another node served it. -/
structure PassesOn (serving taking : NetworkStep) (server receiver : Host) (link : LinkRow)
    (now : Int) : Prop where
  served : ∃ batch state, serving.input = .timestep server batch ∧ batch.now = now ∧
    serving.before.states server = some state ∧
    (receiver, .pushLink link) ∈ servedLinks state batch
  other : receiver ≠ server
  taken : ∃ batch, taking.input = .timestep receiver batch ∧ batch.now = now ∧
    .pushLink link ∈ batch.messages

/-- The receiver records no later expiry than the node that served the link has. -/
def NotProlonged (serving taking : NetworkStep) (server receiver : Host) (link : LinkRow) : Prop :=
  ∃ state after, serving.before.states server = some state ∧
    taking.after.states receiver = some after ∧
    ∃ held ∈ state.linkTtls, held.key = link.key ∧
      ∀ lttl ∈ after.linkTtls, lttl.key = link.key → lttl.expires ≤ held.expires

def NeverProlongs (steps : List NetworkStep) : Prop :=
  ∀ (i j : ℕ) (serving taking : NetworkStep), i < j →
    steps[i]? = some serving → steps[j]? = some taking →
    ∀ server receiver link now, PassesOn serving taking server receiver link now →
      NotProlonged serving taking server receiver link

/-- The time since the serving node recorded the link is at most what the receiver
gives it up earlier. -/
def InTime (config : Config) (earlier : List NetworkStep) (server receiver : Host)
    (link : LinkRow) (now : Int) : Prop :=
  match latest (config.node server).recordingKey (recorded server earlier) link.key with
  | some (.pushed _ recordedAt) =>
      now - recordedAt ≤ (config.node receiver).margin link - (config.node server).margin link
  | some (.failed _ recordedAt) =>
      now - recordedAt + link.ttl ≤ 10 * 60 + (config.node receiver).margin link
  | none => False

def ServedInTime (config : Config) (steps : List NetworkStep) : Prop :=
  ∀ (i j : ℕ) (serving taking : NetworkStep), i < j →
    steps[i]? = some serving → steps[j]? = some taking →
    ∀ server receiver link now, PassesOn serving taking server receiver link now →
      InTime config (steps.take i) server receiver link now

variable {i j : ℕ} {serving taking : NetworkStep} {server receiver : Host} {link : LinkRow}
  {now : Int}

/-- The receiver holds the lifetime that it gives the link, counted from now. -/
theorem exists_taken (hrun : NetworkRun config steps network) (htaking : taking ∈ steps)
    (hpasses : PassesOn serving taking server receiver link now) :
    ∃ after, taking.after.states receiver = some after ∧
      (config.node receiver).linkTtl now link ∈ after.linkTtls := by
  obtain ⟨batch, hinput, rfl, hlink⟩ := hpasses.taken
  have hok := Run.step_eq hrun htaking
  rw [hinput] at hok
  obtain ⟨state, after, hsteps⟩ := timestep_cases hok
  obtain ⟨_, hfires⟩ := hsteps.fires
  refine ⟨after, by rw [hsteps.states_eq, Function.update_self], ?_⟩
  apply (hfires.mem_linkTtls _).mpr
  refine Or.inl (List.mem_append_right _ (List.mem_map.mpr ⟨link, ?_, rfl⟩))
  exact Batch.mem_pushLink.mpr hlink

theorem notProlonged_iff (hrun : NetworkRun config steps network)
    (hserving : steps[i]? = some serving) (htaking : steps[j]? = some taking)
    (hpasses : PassesOn serving taking server receiver link now) :
    NotProlonged serving taking server receiver link ↔
      InTime config (steps.take i) server receiver link now := by
  obtain ⟨_, state, _, _, hstate, hserved⟩ := hpasses.served
  obtain ⟨served, hlink, heq, _⟩ := mem_servedLinks.mp hserved
  obtain rfl := Message.pushLink.inj heq
  have hprior : NetworkRun config (steps.take i) serving.before := by
    obtain ⟨hindex, rfl⟩ := List.getElem?_eq_some_iff.mp hserving
    exact Run.take hrun hindex
  obtain ⟨recording, hlatest, hheld, hsame⟩ := hprior.linksRecorded hstate link hlink
  obtain ⟨after, hafter, htaken⟩ := exists_taken hrun (List.mem_of_getElem? htaking) hpasses
  -- both tables hold one row for the link
  have hcompare : NotProlonged serving taking server receiver link ↔
      now + (link.ttl - (config.node receiver).margin link) ≤
        ((config.node server).row recording).expires := by
    rw [← Node.expires_linkTtl]
    constructor
    · rintro ⟨_, _, hfirst, hsecond, held, hmem, hkey, hle⟩
      obtain rfl := Option.some.inj (hstate.symm.trans hfirst)
      obtain rfl := Option.some.inj (hafter.symm.trans hsecond)
      have hrow : held = (config.node server).row recording :=
        Collection.eq_of_key hmem hheld (hkey.trans (mem_of_latest hlatest).2.symm)
      rw [← hrow]
      exact hle _ htaken rfl
    · intro hle
      refine ⟨state, after, hstate, hafter, _, hheld, (mem_of_latest hlatest).2, ?_⟩
      intro lttl hlttl hkey
      rwa [Collection.eq_of_key hlttl htaken hkey]
  rw [hcompare, InTime, hlatest]
  cases recording with
  | failed result recordedAt =>
      simp only [Node.row, Node.failed]
      omega
  | pushed pushed recordedAt =>
      obtain rfl := hsame pushed recordedAt rfl
      rw [Node.row_pushed, Node.expires_linkTtl]
      omega

/-- No link is prolonged by passing it on exactly if every link is served in time. -/
theorem neverProlongs_iff (hrun : NetworkRun config steps network) :
    NeverProlongs steps ↔ ServedInTime config steps := by
  constructor
  · intro hnever i j serving taking horder hserving htaking server receiver link now hpasses
    exact (notProlonged_iff hrun hserving htaking hpasses).mp
      (hnever i j serving taking horder hserving htaking server receiver link now hpasses)
  · intro htime i j serving taking horder hserving htaking server receiver link now hpasses
    exact (notProlonged_iff hrun hserving htaking hpasses).mpr
      (htime i j serving taking horder hserving htaking server receiver link now hpasses)

/-! ## A client that joins late -/

def phoneLink : EvaluationResult :=
  ⟨"direct_connection", "phone", "10.0.0.5", "eth0", 20, 100, 0, 60, 2⟩

/-- The server evaluates a link, and serves it to a client ten seconds later. -/
def lateClientEvents : List Event :=
  let link := ((namedByHost "server").node "server").link phoneLink
  [.start "server" 0, .report "server" (.tacticEvaluationResult phoneLink),
    .timestep "server" { messages := [.tacticEvaluationResult phoneLink], now := 0 },
    .timestep "server" { messages := [.pushLink link], now := 0 },
    .start "client" 10,
    .timestep "server" { messages := [.getLinks ⟨"client", "client"⟩], now := 10 },
    .timestep "client" { messages := [.pushLink link], now := 10 }]

def lateClientSteps : List NetworkStep :=
  record (step (namedByHost "server")) initial lateClientEvents

theorem neverProlongs_iff_lateClient :
    NeverProlongs lateClientSteps ↔ ServedInTime (namedByHost "server") lateClientSteps :=
  neverProlongs_iff (run_record (step (namedByHost "server")) initial lateClientEvents)

theorem not_neverProlongs_lateClient :
    ¬ ∀ (steps : List NetworkStep) (network : Network),
      NetworkRun (namedByHost "server") steps network → NeverProlongs steps := by
  intro hclaim
  have hrun : NetworkRun (namedByHost "server") lateClientSteps _ :=
    run_record (step (namedByHost "server")) initial lateClientEvents
  obtain ⟨serving, hserving, hserved⟩ := (Option.any_eq_true _ _).mp
    (by decide +kernel : lateClientSteps[5]?.any (fun serving =>
      serving.input = .timestep "server"
        { messages := [.getLinks ⟨"client", "client"⟩], now := 10 } ∧
      (serving.before.states "server").any fun state =>
        ("client", .pushLink (((namedByHost "server").node "server").link phoneLink)) ∈
          servedLinks state { messages := [.getLinks ⟨"client", "client"⟩], now := 10 }) = true)
  obtain ⟨taking, htaking, htaken⟩ := (Option.any_eq_true _ _).mp
    (by decide +kernel : lateClientSteps[6]?.any (fun taking =>
      taking.input = .timestep "client"
        { messages := [.pushLink (((namedByHost "server").node "server").link phoneLink)],
          now := 10 }) = true)
  obtain ⟨hinput, hany⟩ := of_decide_eq_true hserved
  obtain ⟨state, hstate, hlink⟩ := (Option.any_eq_true _ _).mp hany
  have hpasses : PassesOn serving taking "server" "client"
      (((namedByHost "server").node "server").link phoneLink) 10 :=
    ⟨⟨_, state, hinput, rfl, hstate, of_decide_eq_true hlink⟩, by decide,
      ⟨_, of_decide_eq_true htaken, rfl, List.mem_cons_self⟩⟩
  have htime := (notProlonged_iff hrun hserving htaking hpasses).mp
    (hclaim _ _ hrun 5 6 _ _ (by decide) hserving htaking _ _ _ _ hpasses)
  -- the server has recorded the link at the start
  have hlatest : latest ((namedByHost "server").node "server").recordingKey
      (recorded "server" (lateClientSteps.take 5))
      (((namedByHost "server").node "server").link phoneLink).key =
        some (.pushed (((namedByHost "server").node "server").link phoneLink) 0) := by
    decide +kernel
  rw [InTime, hlatest] at htime
  exact absurd htime (by decide)

end Signpost.Routing

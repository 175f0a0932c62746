import Signpost.Routing.Lifetime

/-! # Runs of one routing node

A node takes in whatever arrives, in any order and together with any other
messages. Its tables of links and of lifetimes are updated by different rules.
-/

namespace Signpost.Routing

open Bloom Machine

abbrev NodeStep := Transition State Batch Output

/-- The timesteps of a node since it was started. -/
abbrev NodeRun (node : Node) (isServer : Bool) (started : Int) : List NodeStep → State → Prop :=
  Run (timestep node) (bootstrapState node isServer started)

/-- What the timesteps have recorded. -/
def recordings (steps : List NodeStep) : List Recording :=
  steps.flatMap fun step => step.input.recordings

variable {node : Node} {isServer : Bool} {started : Int} {steps : List NodeStep} {state : State}

theorem recordings_append (earlier later : List NodeStep) :
    recordings (earlier ++ later) = recordings earlier ++ recordings later :=
  List.flatMap_append

theorem recordings_cons (first : NodeStep) (rest : List NodeStep) :
    recordings (first :: rest) = first.input.recordings ++ recordings rest :=
  List.flatMap_cons

theorem NodeRun.linksRecorded (hrun : NodeRun node isServer started steps state) :
    LinksRecorded node (recordings steps) state := by
  induction hrun with
  | start =>
      intro link hlink
      rw [links_bootstrapState] at hlink
      exact absurd hlink (Collection.not_mem_empty link)
  | extend prior hstep ih =>
      rw [recordings_append, recordings_cons]
      simpa [recordings] using ih.timestep (fires_of_timestep hstep)

/-! ## No link without a lifetime -/

/-- A link that a node holds can expire, as its lifetime is held as well. -/
theorem linkTtls_of_run (hrun : NodeRun node isServer started steps state) :
    ∀ link ∈ state.links, ∃ lttl ∈ state.linkTtls, lttl.key = link.key := by
  intro link hlink
  obtain ⟨recording, hlatest, hheld, -⟩ := hrun.linksRecorded link hlink
  exact ⟨node.row recording, hheld, (mem_of_latest hlatest).2⟩

/-- A link of a node called `home` to a phone. -/
def homeLink : LinkRow := ⟨"home", "phone", "direct_connection", "eth0", 20, 100, 0, 60, 2⟩

def homeNode : Node := ⟨"10.0.0.1:9000", "home", 10⟩

/-- The link is pushed again when it expires. -/
def renewals : List Batch :=
  [{ messages := [.pushLink homeLink], now := 0 },
    { messages := [.pushLink homeLink], ttlChecker := true, now := 58 }]

theorem linkTtls_of_renewals :
    ∃ lttl ∈ (final (timestep homeNode) (bootstrapState homeNode true 0) renewals).linkTtls,
      lttl.key = homeLink.key :=
  linkTtls_of_run (run_record (timestep homeNode) (bootstrapState homeNode true 0) renewals)
    homeLink (by decide)

/-! ## Links that are overdue -/

/-- The steps after `before` push the link, go on without a push of it, and check
the lifetimes when that of the link has passed. An evaluation takes no negative
time. -/
structure Overdue (steps before : List NodeStep) (pushing : NodeStep) (between : List NodeStep)
    (checking : NodeStep) (link : LinkRow) : Prop where
  isPrefix : (before ++ pushing :: between) ++ [checking] <+: steps
  pushed : .pushLink link ∈ pushing.input.messages
  duration : 0 ≤ link.evalLength
  alone : ∀ step ∈ between ++ [checking], ∀ other, .pushLink other ∈ step.input.messages →
    other.key ≠ link.key
  ticks : checking.input.ttlChecker = true
  late : pushing.input.now + link.ttl < checking.input.now

/-- A link is gone after a check at which it is overdue. -/
def NeverOutlives (steps : List NodeStep) : Prop :=
  ∀ before pushing between checking link,
    Overdue steps before pushing between checking link → link ∉ checking.after.links

/-- The last failure that is reported for a link has been followed by ten minutes
when a check finds the link, unless the node of the link goes with that check. -/
def FailuresInTime (node : Node) (steps : List NodeStep) : Prop :=
  ∀ before pushing between checking link,
    Overdue steps before pushing between checking link →
      link ∈ checking.before.links → link ∉ deadLinks node checking.before checking.input →
        ∀ result failedAt,
          latest node.recordingKey (recordings between) link.key = some (.failed result failedAt) →
            failedAt + 10 * 60 < checking.input.now

theorem mem_expiredLinks {batch : Batch} {link : LinkRow} :
    link ∈ expiredLinks state batch ↔ link ∈ state.links ∧ batch.ttlChecker = true ∧
      ∃ lttl ∈ state.linkTtls, lttl.key = link.key ∧ lttl.expires < batch.now := by
  unfold expiredLinks ttledLinks
  split
  next hticks =>
    simp only [List.mem_flatMap, List.mem_filter, decide_eq_true_eq, hticks, true_and,
      Collection.mem_rows]
    constructor
    · rintro ⟨lttl, ⟨hlttl, hexpired⟩, hlink, hkey⟩
      exact ⟨hlink, lttl, hlttl, hkey.symm, hexpired⟩
    · rintro ⟨hlink, lttl, hlttl, hkey, hexpired⟩
      exact ⟨lttl, ⟨hlttl, hexpired⟩, hlink, hkey.symm⟩
  next hticks => simp [hticks]

section Overdue

variable {before between : List NodeStep} {pushing checking : NodeStep} {link : LinkRow}

/-- What is last recorded for the link: the push, or a failure after it. -/
theorem Overdue.latest_eq (hrun : NodeRun node isServer started steps state)
    (hoverdue : Overdue steps before pushing between checking link) :
    latest node.recordingKey (recordings (before ++ pushing :: between)) link.key =
      (latest node.recordingKey (recordings between) link.key).or
        (some (.pushed link pushing.input.now)) := by
  have hinitial : before ++ [pushing] <+: steps :=
    (show before ++ [pushing] <+: before ++ pushing :: between ++ [checking] from
      ⟨between ++ [checking], by simp⟩).trans hoverdue.isPrefix
  have hfires := fires_of_timestep (hrun.of_isPrefix hinitial).2
  rw [recordings_append, recordings_cons, latest_append, latest_append,
    latest_recordings_of_mem hfires hoverdue.pushed]
  cases latest node.recordingKey (recordings between) link.key <;> rfl

theorem Overdue.failed_of_latest (hoverdue : Overdue steps before pushing between checking link)
    {recording : Recording}
    (hlatest : latest node.recordingKey (recordings between) link.key = some recording) :
    ∃ result failedAt, recording = .failed result failedAt := by
  obtain ⟨hmem, hkey⟩ := mem_of_latest hlatest
  cases recording with
  | failed result failedAt => exact ⟨result, failedAt, rfl⟩
  | pushed other now =>
      obtain ⟨step, hstep, hmem⟩ := List.mem_flatMap.mp hmem
      have hpush : .pushLink other ∈ step.input.messages := by
        simp only [Batch.recordings, List.mem_append, List.mem_map, Batch.mem_pushLink,
          reduceCtorEq, and_false, exists_false, false_or, Recording.pushed.injEq] at hmem
        obtain ⟨same, hsame, rfl, -⟩ := hmem
        exact hsame
      exact absurd hkey (hoverdue.alone step (List.mem_append_left _ hstep) other hpush)

/-- The lifetime that the push has set has passed. -/
theorem Overdue.expires_lt (hoverdue : Overdue steps before pushing between checking link)
    (node : Node) :
    (node.row (.pushed link pushing.input.now)).expires < checking.input.now := by
  have hmargin : 0 ≤ node.margin link := by
    have hduration := hoverdue.duration
    unfold Node.margin
    split <;> omega
  have hlate := hoverdue.late
  rw [Node.row_pushed, Node.expires_linkTtl]
  omega

/-- An overdue link survives the check exactly for a failure that is less than
ten minutes old. -/
theorem Overdue.survives_iff (hrun : NodeRun node isServer started steps state)
    (hoverdue : Overdue steps before pushing between checking link) :
    link ∈ checking.after.links ↔
      link ∈ checking.before.links ∧ link ∉ deadLinks node checking.before checking.input ∧
        ∃ result failedAt,
          latest node.recordingKey (recordings between) link.key =
            some (.failed result failedAt) ∧ checking.input.now ≤ failedAt + 10 * 60 := by
  obtain ⟨hprior, hstep⟩ := hrun.of_isPrefix hoverdue.isPrefix
  have hfires := fires_of_timestep hstep
  have hlatest := hoverdue.latest_eq hrun
  have hnotPushed : ∀ other ∈ checking.input.pushLink, other.key ≠ link.key := by
    intro other hother
    exact hoverdue.alone checking (by simp) other (Batch.mem_pushLink.mp hother)
  rw [hfires.mem_links, List.mem_append, not_or, mem_expiredLinks]
  constructor
  · rintro (hpush | ⟨hlink, ⟨halive, hkept⟩, -⟩)
    · exact absurd rfl (hnotPushed link hpush)
    · refine ⟨hlink, halive, ?_⟩
      obtain ⟨recording, hrecording, hheld, -⟩ :=
        NodeRun.linksRecorded hprior link hlink
      have hexpires : checking.input.now ≤ (node.row recording).expires := by
        by_contra hexpired
        exact hkept ⟨hlink, hoverdue.ticks, node.row recording, hheld,
          (mem_of_latest hrecording).2, by omega⟩
      rw [hlatest] at hrecording
      cases hfailed : latest node.recordingKey (recordings between) link.key with
      | none =>
          rw [hfailed, Option.none_or] at hrecording
          obtain rfl := Option.some.inj hrecording
          have hpassed := hoverdue.expires_lt node
          omega
      | some last =>
          rw [hfailed, Option.some_or] at hrecording
          obtain rfl := Option.some.inj hrecording
          obtain ⟨result, failedAt, rfl⟩ := hoverdue.failed_of_latest hfailed
          exact ⟨result, failedAt, rfl, hexpires⟩
  · rintro ⟨hlink, halive, result, failedAt, hfailed, hrecent⟩
    refine .inr ⟨hlink, ⟨halive, ?_⟩, hnotPushed⟩
    rintro ⟨-, -, lttl, hlttl, hkey, hexpired⟩
    obtain ⟨recording, hrecording, hheld, -⟩ :=
      NodeRun.linksRecorded hprior link hlink
    rw [hlatest, hfailed, Option.some_or] at hrecording
    obtain rfl := Option.some.inj hrecording
    have hsame : lttl = node.row (.failed result failedAt) :=
      Collection.eq_of_key hlttl hheld (hkey.trans (mem_of_latest hfailed).2.symm)
    rw [hsame] at hexpired
    exact absurd hexpired (by simp only [Node.row, Node.failed]; omega)

end Overdue

/-- No link outlives its lifetime exactly if no failure comes in less than ten
minutes before an overdue link is checked. -/
theorem neverOutlives_iff (hrun : NodeRun node isServer started steps state) :
    NeverOutlives steps ↔ FailuresInTime node steps := by
  constructor
  · intro hnever before pushing between checking link hoverdue hlink halive result failedAt hfailed
    by_contra hrecent
    refine hnever before pushing between checking link hoverdue ?_
    exact (hoverdue.survives_iff hrun).mpr
      ⟨hlink, halive, result, failedAt, hfailed, by omega⟩
  · intro htime before pushing between checking link hoverdue hsurvives
    obtain ⟨hlink, halive, result, failedAt, hfailed, hrecent⟩ :=
      (hoverdue.survives_iff hrun).mp hsurvives
    have hpast := htime before pushing between checking link hoverdue hlink halive result failedAt
      hfailed
    omega

/-! ## A failure for a link that is still valid -/

/-- The device of the link changes, and the tactic does not reach it any more. -/
def deviceMoves : List Batch :=
  [{ messages := [.pushLink homeLink], now := 0 },
    { messages := [.failedEvaluationResult ⟨"direct_connection", "phone", "eth0"⟩], now := 10 },
    { ttlChecker := true, now := 62 }]

def deviceMovesSteps : List NodeStep :=
  record (timestep homeNode) (bootstrapState homeNode true 0) deviceMoves

theorem neverOutlives_iff_deviceMoves :
    NeverOutlives deviceMovesSteps ↔ FailuresInTime homeNode deviceMovesSteps :=
  neverOutlives_iff (run_record (timestep homeNode) (bootstrapState homeNode true 0) deviceMoves)

theorem exists_deviceMovesSteps :
    ∃ pushing failing checking, deviceMovesSteps = [pushing, failing, checking] ∧
      [pushing.input, failing.input, checking.input] = deviceMoves ∧
      homeLink ∈ checking.after.links := by
  have hinputs : deviceMovesSteps.map (fun step => step.input) = deviceMoves := by decide +kernel
  have hkept : deviceMovesSteps[2]?.any (fun step => homeLink ∈ step.after.links) = true := by
    decide +kernel
  generalize deviceMovesSteps = steps at hinputs hkept
  match steps with
  | [pushing, failing, checking] =>
      exact ⟨pushing, failing, checking, rfl, hinputs, by simpa using hkept⟩
  | [] | [_] | [_, _] | _ :: _ :: _ :: _ :: _ => simp [deviceMoves] at hinputs

theorem not_neverOutlives_deviceMoves :
    ¬ ∀ (node : Node) (isServer : Bool) (started : Int) (steps : List NodeStep) (state : State),
      NodeRun node isServer started steps state → NeverOutlives steps := by
  intro hclaim
  obtain ⟨pushing, failing, checking, hsteps, hinputs, hkept⟩ := exists_deviceMovesSteps
  simp only [deviceMoves, List.cons.injEq] at hinputs
  obtain ⟨hpushing, hfailing, hchecking, -⟩ := hinputs
  refine hclaim homeNode true 0 deviceMovesSteps _ (run_record _ _ deviceMoves) [] pushing
    [failing] checking homeLink ⟨?_, ?_, by decide, ?_, ?_, ?_⟩ hkept
  · rw [hsteps]
    exact List.prefix_rfl
  · rw [hpushing]
    exact List.mem_singleton_self _
  · intro step hstep other hother
    rcases List.mem_cons.mp hstep with rfl | hstep
    · simp [hfailing] at hother
    · obtain rfl := List.mem_singleton.mp hstep
      simp [hchecking] at hother
  · rw [hchecking]
  · rw [hpushing, hchecking]
    decide

end Signpost.Routing

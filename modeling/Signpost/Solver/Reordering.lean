import Mathlib.Data.List.Perm.Basic
import Signpost.Bloom.Reordering
import Signpost.Solver.Timestep

/-! # Messages of one timestep come in any order

What a solver stores, sends and explores does not depend on the order in which the
messages of a timestep have arrived, nor on how often each of them has, in this timestep
or in a later one.
-/

namespace Signpost.Solver

open Bloom Machine

variable {α : Type}

/-- The same messages have arrived. -/
structure Batch.Same (batch other : Batch α) : Prop where
  needTruth : SameRows batch.needTruth other.needTruth
  observeTruth : SameRows batch.observeTruth other.observeTruth
  provideTruth : SameRows batch.provideTruth other.provideTruth
  provideTruthFromExternal :
    SameRows batch.provideTruthFromExternal other.provideTruthFromExternal
  removeSubscriptions : SameRows batch.removeSubscriptions other.removeSubscriptions
  garbageCollectionTimer : batch.garbageCollectionTimer = other.garbageCollectionTimer
  now : batch.now = other.now

structure State.Same (state other : State α) : Prop where
  truths : SameRows state.truths.rows other.truths.rows
  truthSubscribers : SameRows state.truthSubscribers.rows other.truthSubscribers.rows

/-- The same is sent and called, and each as often. -/
structure Output.Same (output other : Output α) : Prop where
  answered : output.answered.Perm other.answered
  pushed : output.pushed.Perm other.pushed
  pushedAny : output.pushedAny.Perm other.pushedAny
  explorations : output.explorations.Perm other.explorations
  distributed : output.distributed.Perm other.distributed

structure Scratches.Same (scratches other : Scratches α) : Prop where
  needs : SameRows scratches.needs.rows other.needs.rows
  subscriptions : SameRows scratches.subscriptions.rows other.subscriptions.rows
  satisfiable : SameRows scratches.satisfiable.rows other.satisfiable.rows
  redistributable : SameRows scratches.redistributable.rows other.redistributable.rows
  provided : SameRows scratches.provided.rows other.provided.rows
  adapted : SameRows scratches.adapted.rows other.adapted.rows

section

variable {batch other : Batch α} {state state' : State α}

theorem Batch.Same.provided (hbatch : batch.Same other) :
    SameRows batch.provided other.provided :=
  hbatch.provideTruthFromExternal.append hbatch.provideTruth

theorem same_satisfiableTruthNeeds {now : Int} {truths others : List (TruthRow α)}
    {needs wants : List Subscription} (htruths : SameRows truths others)
    (hneeds : SameRows needs wants) :
    SameRows (satisfiableTruthNeeds now truths needs) (satisfiableTruthNeeds now others wants) := by
  intro answer
  simp only [mem_satisfiableTruthNeeds, htruths _, hneeds _]

theorem perm_pushToSubscribers {provided others : List (Provision α)}
    {subscribers listeners : List Subscription} (hprovided : provided.Perm others)
    (hsubscribers : subscribers.Perm listeners) :
    (pushToSubscribers provided subscribers).Perm (pushToSubscribers others listeners) :=
  hprovided.flatMap fun _ _ => hsubscribers.filterMap _

theorem perm_pushToAnySubscribers {adapted others : List (AdaptedTruth α)}
    {subscribers listeners : List Subscription} (hadapted : adapted.Perm others)
    (hsubscribers : subscribers.Perm listeners) :
    (pushToAnySubscribers adapted subscribers).Perm (pushToAnySubscribers others listeners) :=
  hadapted.flatMap fun _ _ => hsubscribers.filterMap _

theorem storableTruths_agree {now : Int} {rows others : List (Provision α)}
    (hrows : SameRows rows others) :
    Agree SameRows (storableTruths now rows) (storableTruths now others) := by
  rw [storableTruths_eq, storableTruths_eq]
  by_cases hmissing : ∃ row ∈ rows, row.ttl = none
  · have hothers : ∃ row ∈ others, row.ttl = none := by simpa only [hrows _] using hmissing
    rw [if_pos hmissing, if_pos hothers]
    exact .error _
  · have hothers : ¬ ∃ row ∈ others, row.ttl = none := by simpa only [hrows _] using hmissing
    rw [if_neg hmissing, if_neg hothers]
    exact .ok (hrows.filterMap _)

theorem derive_agree {ρ κ : Type} [DecidableEq ρ] [DecidableEq κ] (collection : KeyedCollection)
    (key : ρ → κ) {rows others : List ρ} (hrows : SameRows rows others) :
    Agree (fun left right => SameRows left.rows right.rows) (derive collection key rows)
      (derive collection key others) :=
  Collection.derive_agree key _ hrows

variable [DecidableEq α]

theorem deriveScratches_agree (hstate : state.Same state') (hbatch : batch.Same other) :
    Agree Scratches.Same (deriveScratches state batch) (deriveScratches state' other) := by
  refine (derive_agree _ _ hbatch.needTruth).bind fun needs needs' hneeds => ?_
  refine (derive_agree _ _ hbatch.observeTruth).bind fun observers observers' hobservers => ?_
  refine (derive_agree _ _ (hneeds.append hobservers)).bind
    fun subscriptions subscriptions' hsubscriptions => ?_
  rw [hbatch.now]
  refine (derive_agree _ _ (same_satisfiableTruthNeeds hstate.truths hneeds)).bind
    fun satisfiable satisfiable' hsatisfiable => ?_
  refine (derive_agree _ _ hbatch.provideTruth).bind
    fun redistributable redistributable' hredistributable => ?_
  refine (derive_agree _ _ hbatch.provided).bind fun provided provided' hprovided => ?_
  refine (derive_agree _ _ (hprovided.map adaptedProvidedTruth)).bind
    fun adapted adapted' hadapted => ?_
  exact .ok ⟨hneeds, hsubscriptions, hsatisfiable, hredistributable, hprovided, hadapted⟩

/-- A timestep does the same, or fails in the same way. -/
theorem timestep_agree (name : String) (hstate : state.Same state') (hbatch : batch.Same other) :
    Agree (fun left right => left.1.Same right.1 ∧ left.2.Same right.2)
      (timestep name state batch) (timestep name state' other) := by
  refine (deriveScratches_agree hstate hbatch).bind fun scratches scratches' hscratches => ?_
  rw [hbatch.now, hbatch.garbageCollectionTimer]
  refine (storableTruths_agree hscratches.provided).bind fun stored stored' hstored => ?_
  refine (derive_agree _ _ hstored).bind fun storable storable' hstorable => ?_
  refine (derive_agree _ _ hstorable).bind fun updates updates' hupdates => ?_
  have hsubscribers := Collection.perm_of_same hstate.truthSubscribers
  have hneeds := Collection.perm_of_same hscratches.needs
  refine .ok ⟨⟨?_, ?_⟩, ⟨?_, ?_, ?_, ?_, ?_⟩⟩
  · refine Collection.settle_same hstate.truths ?_ hupdates
    unfold garbageCollected
    split
    next => exact hstate.truths.filter fun _ => rfl
    next => exact SameRows.refl _
  · refine Collection.settle_same hstate.truthSubscribers ?_ hscratches.subscriptions
    exact hstate.truthSubscribers.filter fun row => by
      rw [decide_eq_decide]
      exact hbatch.removeSubscriptions row.who
  · exact (Collection.perm_of_same hscratches.satisfiable).map _
  · exact perm_pushToSubscribers (Collection.perm_of_same hscratches.provided) hsubscribers
  · exact perm_pushToAnySubscribers (Collection.perm_of_same hscratches.adapted) hsubscribers
  -- what is explored depends on which needs can be satisfied, and not on their order
  · rw [devNull1_congr hscratches.satisfiable]
    exact hneeds.filterMap _
  · exact Collection.perm_of_same hscratches.redistributable

/-- Two solvers that get the same messages in the same timesteps store and send the same
in each of them, and the one fails in the timestep in which the other does. -/
theorem solverRun_reordered (config : Config α) (start : Int) {batches others : List (Batch α)}
    (hbatches : List.Forall₂ Batch.Same batches others) :
    List.Forall₂ (Alike State.Same Batch.Same Output.Same)
        (record (timestep config.signpostClient) (initial config start) batches)
        (record (timestep config.signpostClient) (initial config start) others) ∧
      (final (timestep config.signpostClient) (initial config start) batches).Same
        (final (timestep config.signpostClient) (initial config start) others) := by
  refine record_alike (fun state state' hstate batch other hbatch => ?_) hbatches
    ⟨SameRows.refl _, SameRows.refl _⟩
  exact timestep_agree config.signpostClient hstate hbatch

end

/-- A truth is provided, and then needed beside another one. -/
def askedFor (needTruth : List Subscription) : List (Batch String) :=
  [{ provideTruth := [⟨"ip_for_domain@kle.io", "dns", "GLOBAL", "alpha", "10.0.0.1", some 300⟩]
     now := 10 },
   { needTruth, now := 20 }]

def pingNeed : Subscription := ⟨"ip_for_domain@kle.io", "127.0.0.1:4000", "ANY", "carol", "ping"⟩

def shellNeed : Subscription := ⟨"ssh@kle.io", "127.0.0.1:4001", "ANY", "carol", "shell"⟩

def pingFirst : List (Batch String) := askedFor [pingNeed, shellNeed]

def shellFirst : List (Batch String) := askedFor [shellNeed, pingNeed, shellNeed]

theorem solverRun_reordered_shellFirst :
    let config : Config String := ⟨"alpha", "probsteide.com", id⟩
    List.Forall₂ (Alike State.Same Batch.Same Output.Same)
        (record (timestep "alpha") (initial config 0) pingFirst)
        (record (timestep "alpha") (initial config 0) shellFirst) ∧
      (final (timestep "alpha") (initial config 0) pingFirst).Same
        (final (timestep "alpha") (initial config 0) shellFirst) := by
  intro config
  have hneeds : SameRows [pingNeed, shellNeed] [shellNeed, pingNeed, shellNeed] := by
    intro row
    simp only [List.mem_cons, List.not_mem_nil, or_false]
    tauto
  exact solverRun_reordered config 0
    (.cons ⟨.refl _, .refl _, .refl _, .refl _, .refl _, rfl, rfl⟩
      (.cons ⟨hneeds, .refl _, .refl _, .refl _, .refl _, rfl, rfl⟩ .nil))

end Signpost.Solver

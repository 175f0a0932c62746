import Signpost.Tactic.Reuse

/-! # When blocks are executed

A block is due when a version of one of its requirements is newer than the one
that it was executed with. Versions are counted under the names of truths, short
and full ones alike.
-/

namespace Signpost.Helper

open Machine
open Pool (Literals)

variable {α : Type}

/-! ## What has been received -/

/-- The name that a truth is known under: its resource, if it has one. -/
def shortForm (what : String) : String :=
  ((magicVariablesFrom what).map MagicVariables.resource).getD what

def names (truths : List (Fact α)) : List String := truths.map fun truth => shortForm truth.what

abbrev Record (α : Type) := List (Transition (State α) (List (Fact α)) (Reaction α))

def receivedIn (steps : Record α) : List (Fact α) := steps.flatMap fun now => now.input

/-- The indices of the blocks that were executed. -/
def Reaction.executed (reaction : Reaction α) : List ℕ := reaction.blocks.map Prod.fst

def HasRun (index : ℕ) (steps : Record α) : Prop := ∃ now ∈ steps, index ∈ now.output.executed

/-- The truths that were received after the last execution of the block. -/
def sinceLastRun (index : ℕ) (steps : Record α) : List (Fact α) :=
  steps.foldl (fun since now =>
    if index ∈ now.output.executed then [] else since ++ now.input) []

section Mandatory

variable [DecidableEq α] (literals : Literals α)

/-- The last fact about it says that the helper is a daemon. -/
def isDaemon (received : List (Fact α)) : Bool :=
  (received.filter fun truth => truth.what = "is_daemon").getLast?.any fun truth =>
    truth.truth = literals.ofBool true

/-- The facts that a helper waits for. -/
def mandatoryFacts (received : List (Fact α)) : List String :=
  if isDaemon literals received then ["is_daemon", "node_name"] else tacticFacts

/-- All mandatory facts and all requirements of the block have been received.
The block has not been executed yet, or a requirement or the name of the node has
been received since. -/
structure ShouldRun (block : Block α) (index : ℕ) (earlier : Record α)
    (truths : List (Fact α)) : Prop where
  mandatory : ∀ name ∈ mandatoryFacts literals (receivedIn earlier ++ truths),
    name ∈ names (receivedIn earlier ++ truths)
  requirements : ∀ req ∈ block.requirements, req ∈ names (receivedIn earlier ++ truths)
  news : HasRun index earlier → ∃ req ∈ block.requirements ++ ["node_name"],
    req ∈ names (sinceLastRun index earlier ++ truths)

/-- In each step the blocks that should run are executed, each of them once, and
no others. -/
def WhenDue (blocks : List (Block α)) (earlier : Record α)
    (now : Transition (State α) (List (Fact α)) (Reaction α)) : Prop :=
  now.output.executed.Nodup ∧ ∀ index block, blocks[index]? = some block →
    (index ∈ now.output.executed ↔ ShouldRun literals block index earlier now.input)

end Mandatory

/-! ## Counters -/

/-- The counter that the next version of a name is taken from. It is kept under
the name as a string, which is also where a truth of that full name goes. -/
def counter (data : Data α) (name : String) : ℕ :=
  ((data (.string name)).map Datum.version).getD 0

/-- Names that some block looks up the version of. -/
def Watched (blocks : List (Block α)) (name : String) : Prop :=
  name = "node_name" ∨ ∃ block ∈ blocks, name ∈ block.requirements

/-- A truth that a helper can deal with, in the state that it finds: it has a name,
the keys of the data are names when it tells the role of the helper, and it does not
set the counter of a requirement back that has its full name. -/
structure Admissible (blocks : List (Block α)) (state : State α) (truth : Fact α) : Prop where
  named : IsSymbol (shortForm truth.what)
  keys : truth.what = "is_daemon" → ∀ key ∈ state.keys, IsSymbol key
  keeps : ∀ block ∈ blocks, truth.what ∈ block.requirements →
    version state.data truth.what ≤ counter state.data (shortForm truth.what) + 1

instance (blocks : List (Block α)) (state : State α) (truth : Fact α) :
    Decidable (Admissible blocks state truth) :=
  decidable_of_iff (IsSymbol (shortForm truth.what) ∧
      (truth.what = "is_daemon" → ∀ key ∈ state.keys, IsSymbol key) ∧
      ∀ block ∈ blocks, truth.what ∈ block.requirements →
        version state.data truth.what ≤ counter state.data (shortForm truth.what) + 1)
    ⟨fun ⟨hnamed, hkeys, hkeeps⟩ => ⟨hnamed, hkeys, hkeeps⟩,
      fun ⟨hnamed, hkeys, hkeeps⟩ => ⟨hnamed, hkeys, hkeeps⟩⟩

/-- All truths of the message are, when it is their turn. -/
abbrev AdmissibleInput [DecidableEq α] (literals : Literals α) (blocks : List (Block α)) :
    State α → List (Fact α) → Prop :=
  Throughout (dealWithTruth literals) (Admissible blocks)

/-- What the data says of the truths that have been received. -/
structure DataTracks (blocks : List (Block α)) (received : List (Fact α)) (data : Data α) :
    Prop where
  symbol : ∀ name, (data (.symbol name)).isSome ↔ name ∈ names received
  string : ∀ name, (data (.string name)).isSome ↔
    name ∈ names received ∨ name ∈ received.map fun truth => truth.what
  counters : ∀ name, Watched blocks name → version data name ≤ counter data name

/-- The data with one more truth. -/
def store (data : Data α) (truth : Fact α) : Data α :=
  let datum : Datum α := ⟨truth.what, truth.truth, truth.provider, truth.userInfo, truth.signpost,
    counter data (shortForm truth.what) + 1, magicVariablesFrom truth.what⟩
  Function.update (Function.update (Function.update data
    (.symbol (shortForm truth.what)) (some datum)) (.string (shortForm truth.what)) (some datum))
    (.string truth.what) (some datum)

theorem version_store (data : Data α) (truth : Fact α) (name : String) :
    version (store data truth) name =
      if name = shortForm truth.what then counter data name + 1 else version data name := by
  unfold version store
  by_cases heq : name = shortForm truth.what
  · simp [heq]
  · simp [heq]

theorem counter_store (data : Data α) (truth : Fact α) (name : String) :
    counter (store data truth) name =
      if name = truth.what ∨ name = shortForm truth.what then
        counter data (shortForm truth.what) + 1
      else counter data name := by
  unfold counter store
  by_cases hwhat : name = truth.what
  · simp [Function.update_apply, hwhat, counter]
  · by_cases hshort : name = shortForm truth.what
    · simp [Function.update_apply, hshort, counter]
    · simp [hwhat, hshort]

theorem dataTracks_store {blocks : List (Block α)} {received : List (Fact α)} {state : State α}
    (htracks : DataTracks blocks received state.data) {truth : Fact α}
    (hadmissible : Admissible blocks state truth) :
    DataTracks blocks (received ++ [truth]) (store state.data truth) := by
  constructor
  case symbol =>
    intro name
    rw [names, List.map_append, List.mem_append, ← names, ← htracks.symbol name]
    by_cases heq : name = shortForm truth.what <;>
      simp [store, heq]
  case string =>
    intro name
    have hold := htracks.string name
    simp only [names, List.map_append, List.mem_append, List.map_cons, List.map_nil,
      List.mem_singleton] at hold ⊢
    by_cases hwhat : name = truth.what
    · simp [store, hwhat]
    · by_cases hshort : name = shortForm truth.what
      · simp [store, Function.update_apply, hshort]
      · simp [store, hwhat, hshort, hold]
  case counters =>
    intro name hwatched
    have hold := htracks.counters name hwatched
    rw [version_store, counter_store]
    by_cases hshort : name = shortForm truth.what
    · simp [hshort]
    · rw [if_neg hshort]
      by_cases hwhat : name = truth.what
      · rw [if_pos (.inl hwhat)]
        rcases hwatched with hnode | ⟨block, hblock, hreq⟩
        · -- the name of the node has no resource
          have hself : shortForm "node_name" = "node_name" := by decide
          rw [← hwhat, hnode, hself] at hshort
          exact absurd rfl hshort
        · exact hwhat ▸ hadmissible.keeps block hblock (hwhat ▸ hreq)
      · rw [if_neg (by simp [hwhat, hshort])]
        exact hold

/-! ## Facts that are still missing -/

section Role

variable [DecidableEq α] {literals : Literals α} {blocks : List (Block α)}
  {received : List (Fact α)} {state : State α} {truth : Fact α}

/-- The helper knows its role, and waits for the mandatory facts that have not
been received. -/
structure RoleTracks (literals : Literals α) (received : List (Fact α)) (state : State α) :
    Prop where
  ready : state.ready
  pending : state.pending =
    some ((mandatoryFacts literals received).filter fun name => name ∉ names received)

/-- The names of facts have no resource. -/
theorem shortForm_of_mandatory {name : String} (hname : name ∈ tacticFacts) :
    shortForm name = name := by
  revert name
  decide

omit [DecidableEq α] in
theorem removeExistingFromPending_eq (hdata : DataTracks blocks received state.data)
    {pending : List String} (hpending : ∀ name ∈ pending, name ∈ tacticFacts) :
    removeExistingFromPending state.data pending =
      pending.filter fun name => name ∉ names received := by
  apply List.filter_congr
  intro name hname
  have hself := shortForm_of_mandatory (hpending name hname)
  have hstring : (state.data (.string name)).isSome ↔ name ∈ names received := by
    rw [hdata.string name, or_iff_left_of_imp]
    intro hwhat
    obtain ⟨fact, hfact, rfl⟩ := List.mem_map.mp hwhat
    exact List.mem_map.mpr ⟨fact, hfact, hself⟩
  have hsymbol := hdata.symbol name
  rw [← Option.not_isSome, ← Option.not_isSome]
  cases h1 : (state.data (.symbol name)).isSome <;>
    cases h2 : (state.data (.string name)).isSome <;> simp_all

omit [DecidableEq α] in
theorem names_concat : names (received ++ [truth]) = names received ++ [shortForm truth.what] := by
  simp [names]

theorem mandatoryFacts_concat_of_isDaemon (hwhat : truth.what = "is_daemon") :
    mandatoryFacts literals (received ++ [truth]) =
      if truth.truth = literals.ofBool true then ["is_daemon", "node_name"] else tacticFacts := by
  simp [mandatoryFacts, isDaemon, List.filter_append, hwhat]

theorem mandatoryFacts_concat (hwhat : truth.what ≠ "is_daemon") :
    mandatoryFacts literals (received ++ [truth]) = mandatoryFacts literals received := by
  simp [mandatoryFacts, isDaemon, List.filter_append, hwhat]

omit [DecidableEq α] in
/-- The facts that are missing after one more truth. -/
theorem filter_missing_concat (mandatory : List String) :
    (mandatory.filter fun name => name ∉ names received).filter
        (fun name => name ≠ shortForm truth.what) =
      mandatory.filter fun name => name ∉ names (received ++ [truth]) := by
  rw [List.filter_filter, names_concat]
  apply List.filter_congr
  intro name _
  simp [Bool.and_comm]

/-- Being told the role is enough for a helper to know what it waits for. -/
theorem toldRole_ok (hdata : DataTracks blocks received state.data)
    (hkeys : truth.what = "is_daemon" → ∀ key ∈ state.keys, IsSymbol key)
    (hrole : truth.what = "is_daemon" ∨ RoleTracks literals received state) :
    ∃ told, toldRole literals state truth = .ok told ∧ told.data = state.data ∧
      told.todos = state.todos ∧ told.ready ∧ told.pending =
        some ((mandatoryFacts literals (received ++ [truth])).filter
          fun name => name ∉ names received) := by
  by_cases hwhat : truth.what = "is_daemon"
  · let role := if truth.truth = literals.ofBool true then ["is_daemon", "node_name"]
      else tacticFacts
    have hfacts : ∀ name ∈ role, name ∈ tacticFacts := by
      intro name hname
      dsimp only [role] at hname
      split at hname
      · revert name
        decide
      · exact hname
    have htold : (if truth.truth = literals.ofBool true then setPendingDaemonState state
        else setPendingTacticState state) =
        { state with
          pending := some (removeExistingFromPending state.data role)
          ready := true } := by
      dsimp only [role]
      split <;> rfl
    rw [removeExistingFromPending_eq hdata hfacts] at htold
    have hok : toldRole literals state truth = .ok { state with
        pending := some (role.filter fun name => name ∉ names received)
        ready := true } := by
      rw [toldRole, if_pos hwhat, if_pos (hkeys hwhat), htold]
    rw [mandatoryFacts_concat_of_isDaemon hwhat]
    exact ⟨_, hok, rfl, rfl, rfl, rfl⟩
  · obtain ⟨hready, hpending⟩ := hrole.resolve_left hwhat
    refine ⟨state, if_neg hwhat, rfl, rfl, hready, ?_⟩
    rw [hpending, mandatoryFacts_concat hwhat]

/-- A helper that knows its role deals with every truth that it can. -/
theorem dealWithTruth_ok (hdata : DataTracks blocks received state.data)
    (hadmissible : Admissible blocks state truth)
    (hrole : truth.what = "is_daemon" ∨ RoleTracks literals received state) :
    ∃ next message, dealWithTruth literals state truth = .ok (next, message) ∧
      next.data = store state.data truth ∧ next.todos = state.todos ∧
      RoleTracks literals (received ++ [truth]) next := by
  obtain ⟨told, htold, hsame, htodos, hready, hpending⟩ :=
    toldRole_ok hdata hadmissible.keys hrole
  have hnamed : toSym (shortForm truth.what) = .ok (shortForm truth.what) :=
    if_pos hadmissible.named
  unfold shortForm at hnamed
  simp only [dealWithTruth, htold, hnamed, bind, Except.bind, hpending]
  refine ⟨_, _, rfl, ?_, htodos, hready, ?_⟩
  · rw [← hsame]
    rfl
  · rw [← filter_missing_concat]
    rfl

/-- All truths of a message are dealt with. -/
theorem dealWithInput_ok {truths : List (Fact α)} (hdata : DataTracks blocks received state.data)
    (hadmissible : AdmissibleInput literals blocks state truths)
    (hrole : (∃ truth rest, truths = truth :: rest ∧ truth.what = "is_daemon") ∨
      RoleTracks literals received state) :
    ∃ next messages, dealWithInput literals state truths = .ok (next, messages) ∧
      DataTracks blocks (received ++ truths) next.data ∧ next.todos = state.todos ∧
      RoleTracks literals (received ++ truths) next ∧
      ∀ name, Watched blocks name → version state.data name ≤ version next.data name ∧
        (version state.data name < version next.data name ↔ name ∈ names truths) := by
  induction truths generalizing state received with
  | nil =>
      rw [List.append_nil]
      have hrole := hrole.resolve_left (by simp)
      exact ⟨state, [], rfl, hdata, rfl, hrole, fun name _ => by simp [names]⟩
  | cons truth rest ih =>
      obtain ⟨hnow, hrest⟩ := hadmissible
      have hfirst : truth.what = "is_daemon" ∨ RoleTracks literals received state :=
        hrole.imp_left fun ⟨_, _, heq, hwhat⟩ => (List.cons.inj heq).1 ▸ hwhat
      obtain ⟨middle, message, hok, hstore, htodos, htold⟩ := dealWithTruth_ok hdata hnow hfirst
      have hmiddle := dataTracks_store hdata hnow
      rw [← hstore] at hmiddle
      obtain ⟨next, messages, hinput, hnext, hsame, hfinal, hversions⟩ :=
        ih hmiddle (hrest _ _ hok) (.inr htold)
      rw [List.append_assoc, List.singleton_append] at hnext hfinal
      refine ⟨next, message :: messages, ?_, hnext, hsame.trans htodos, hfinal, ?_⟩
      · exact bind_eq_ok.mpr ⟨_, hok, bind_eq_ok.mpr ⟨_, hinput, rfl⟩⟩
      · intro name hwatched
        obtain ⟨hle, hlt⟩ := hversions name hwatched
        have hcounter := hdata.counters name hwatched
        have hfirst := version_store state.data truth name
        rw [← hstore] at hfirst
        rw [names, List.map_cons, List.mem_cons, ← names]
        by_cases heq : name = shortForm truth.what
        · rw [if_pos heq] at hfirst
          have hgrows : version state.data name < version next.data name := by omega
          exact ⟨Nat.le_of_lt hgrows, iff_of_true hgrows (.inl heq)⟩
        · rw [if_neg heq] at hfirst
          rw [← hfirst, or_iff_right heq]
          exact ⟨hle, hlt⟩

end Role

/-! ## The loop over the blocks -/

/-- The block of a todo never asks to be recycled. -/
def Todo.Keeps (todo : Todo α) : Prop := ∀ data, .recycleTactic ∉ todo.block data

/-- A todo after the loop has come to it. -/
def afterExecution (data : Data α) (todo : Todo α) : Todo α :=
  if isDue data todo then { todo with reqVersions := executedVersions data todo } else todo

theorem executable_afterExecution {data : Data α} {todo : Todo α}
    (hexecutable : Executable data todo) : Executable data (afterExecution data todo) := by
  unfold afterExecution
  split
  next hdue =>
    have hreqs := List.all_eq_true.mp ((Bool.and_eq_true _ _).mp hdue).1
    unfold Executable executedVersions
    by_cases hfirst : todo.reqVersions = []
    · rw [if_pos hfirst]
      refine ⟨fun _ => hexecutable.1 hfirst, ?_⟩
      simp only [List.forall_mem_map, List.forall_mem_append, List.forall_mem_singleton]
      exact ⟨hreqs, hexecutable.1 hfirst⟩
    · rw [if_neg hfirst]
      refine ⟨fun hnil => absurd (List.map_eq_nil_iff.mp hnil) hfirst, ?_⟩
      exact List.forall_mem_map.mpr fun entry hentry => hexecutable.2 entry hentry
  next => exact hexecutable

theorem keeps_afterExecution {data : Data α} {todo : Todo α} (hkeeps : todo.Keeps) :
    (afterExecution data todo).Keeps := by
  unfold afterExecution
  split <;> exact hkeeps

/-- A block that does not ask to be recycled changes its own versions only. -/
theorem executeUserBlock_of_keeps {state : State α}
    (hkeeps : ∀ todo ∈ state.todos, todo.Keeps ∧ Executable state.data todo) (first : ℕ) :
    ∃ middle messages, executeUserBlock state first = .ok (middle, messages) ∧
      middle.data = state.data ∧ middle.pending = state.pending ∧ middle.ready = state.ready ∧
      ∀ index, middle.todos[index]? =
        if index = first then state.todos[index]?.map (afterExecution state.data)
        else state.todos[index]? := by
  cases htodo : state.todos[first]? with
  | none =>
      refine ⟨state, [], executeUserBlock_of_none htodo, rfl, rfl, rfl, fun index => ?_⟩
      split
      next heq => rw [heq, htodo, Option.map_none]
      next => rfl
  | some todo =>
      obtain ⟨hkeep, hexecutable⟩ := hkeeps todo (List.mem_of_getElem? htodo)
      by_cases hdue : isDue state.data todo
      · have hstate : (runCalls (setVersions state first (executedVersions state.data todo))
            (todo.block state.data)).1 = _ := runCalls_of_notMem (hkeep state.data)
        have hblock := executeUserBlock_of_due htodo hdue hexecutable
        rw [← Prod.eta (runCalls _ _), hstate] at hblock
        refine ⟨_, _, hblock, rfl, rfl, rfl, fun index => ?_⟩
        rw [setVersions, List.getElem?_modify]
        by_cases heq : index = first
        · subst heq
          simp [htodo, afterExecution, hdue]
        · simp [heq, Ne.symm heq]
      · have hsame : ∀ index, state.todos[index]? =
            if index = first then state.todos[index]?.map (afterExecution state.data)
            else state.todos[index]? := by
          intro index
          split
          next heq => rw [heq, htodo, Option.map_some, afterExecution, if_neg hdue]
          next => rfl
        by_cases hreqs : todo.requirements.all fun req => (state.data (.symbol req)).isSome
        · rcases executeUserBlock_of_satisfied htodo hreqs with ⟨hnot, -⟩ | ⟨-, hok⟩
          · exact absurd hexecutable hnot
          · rw [if_neg hdue] at hok
            exact ⟨state, [], hok, rfl, rfl, rfl, hsame⟩
        · exact ⟨state, [], executeUserBlock_of_unsatisfied htodo hreqs, rfl, rfl, rfl, hsame⟩

/-- Blocks that do not ask to be recycled do not interfere. -/
theorem executeUserBlocks_of_keeps {indices : List ℕ} (hnodup : indices.Nodup) {state : State α}
    (hkeeps : ∀ todo ∈ state.todos, todo.Keeps ∧ Executable state.data todo) :
    ∃ next messages, executeUserBlocks state indices = .ok (next, messages) ∧
      next.data = state.data ∧ next.pending = state.pending ∧ next.ready = state.ready ∧
      (∀ index, next.todos[index]? =
        if index ∈ indices then state.todos[index]?.map (afterExecution state.data)
        else state.todos[index]?) ∧
      executions state indices =
        (indices.filter (dueAt state)).map fun index => (index, state.data) := by
  induction indices generalizing state with
  | nil => exact ⟨state, [], rfl, rfl, rfl, rfl, fun index => by simp, rfl⟩
  | cons first rest ih =>
      obtain ⟨hfresh, hrest⟩ := List.nodup_cons.mp hnodup
      obtain ⟨middle, own, hblock, hdata, hpending, hready, htodos⟩ :=
        executeUserBlock_of_keeps hkeeps first
      have hmiddle : ∀ todo ∈ middle.todos, todo.Keeps ∧ Executable middle.data todo := by
        intro todo htodo
        obtain ⟨index, hindex⟩ := List.getElem?_of_mem htodo
        rw [htodos] at hindex
        rw [hdata]
        split at hindex
        next =>
          obtain ⟨old, hold, rfl⟩ := Option.map_eq_some_iff.mp hindex
          obtain ⟨hkeep, hexecutable⟩ := hkeeps old (List.mem_of_getElem? hold)
          exact ⟨keeps_afterExecution hkeep, executable_afterExecution hexecutable⟩
        next => exact hkeeps todo (List.mem_of_getElem? hindex)
      obtain ⟨next, others, hblocks, hdata', hpending', hready', htodos', hexecutions⟩ :=
        ih hrest hmiddle
      have hdue : ∀ index ∈ rest, dueAt middle index = dueAt state index := by
        intro index hindex
        have hne : index ≠ first := fun heq => hfresh (heq ▸ hindex)
        rw [dueAt, dueAt, htodos, if_neg hne, hdata]
      refine ⟨next, own ++ others, ?_, hdata'.trans hdata, hpending'.trans hpending,
        hready'.trans hready, ?_, ?_⟩
      · exact bind_eq_ok.mpr ⟨_, hblock, bind_eq_ok.mpr ⟨_, hblocks, rfl⟩⟩
      · intro index
        rw [htodos', htodos, hdata]
        by_cases heq : index = first
        · subst heq
          simp [hfresh]
        · simp [heq]
      · rw [List.filter_congr hdue, hdata] at hexecutions
        rw [executions, hblock]
        simp only [hexecutions, List.filter_cons]
        split <;> rfl

/-! ## Versions and the truths since the last execution -/

/-- The versions of a todo agree with whether its block has run, and with the
truths that were received since. -/
structure TodoTracks (block : Block α) (ran : Prop) (since : List (Fact α)) (data : Data α)
    (todo : Todo α) : Prop where
  requirements : todo.requirements = block.requirements
  run : todo.block = block.run
  fresh : ¬ ran → todo.reqVersions = []
  keys : ran → todo.reqVersions.map Prod.fst = block.requirements ++ ["node_name"]
  present : ∀ entry ∈ todo.reqVersions, (data (.symbol entry.1)).isSome
  versions : ∀ entry ∈ todo.reqVersions, entry.2 ≤ version data entry.1 ∧
    (entry.2 < version data entry.1 ↔ entry.1 ∈ names since)

theorem isNewer_iff (data : Data α) (entry : String × ℕ) :
    isNewer data entry ↔ entry.2 < version data entry.1 := by
  unfold isNewer version
  cases data (.symbol entry.1) <;> simp

section Todo

variable {block : Block α} {ran : Prop} {since : List (Fact α)} {data : Data α} {todo : Todo α}

theorem TodoTracks.key_mem (htracks : TodoTracks block ran since data todo)
    {entry : String × ℕ} (hentry : entry ∈ todo.reqVersions) :
    entry.1 ∈ block.requirements ++ ["node_name"] := by
  have hran : ran := by
    by_contra hnot
    rw [htracks.fresh hnot] at hentry
    cases hentry
  rw [← htracks.keys hran]
  exact List.mem_map_of_mem hentry

/-- Receiving truths makes the versions newer of which there is news. -/
theorem TodoTracks.receive (htracks : TodoTracks block ran since data todo) {later : Data α}
    {truths : List (Fact α)}
    (hkeys : ∀ name, (data (.symbol name)).isSome → (later (.symbol name)).isSome)
    (hversions : ∀ name ∈ block.requirements ++ ["node_name"],
      version data name ≤ version later name ∧
        (version data name < version later name ↔ name ∈ names truths)) :
    TodoTracks block ran (since ++ truths) later todo := by
  refine { htracks with present := ?_, versions := ?_ }
  · exact fun entry hentry => hkeys entry.1 (htracks.present entry hentry)
  · intro entry hentry
    obtain ⟨hle, hlt⟩ := htracks.versions entry hentry
    obtain ⟨hle', hlt'⟩ := hversions entry.1 (htracks.key_mem hentry)
    refine ⟨Nat.le_trans hle hle', ?_⟩
    rw [names, List.map_append, List.mem_append, ← names, ← names, ← hlt, ← hlt']
    omega

/-- A block is due when its requirements are there, and something is new for it
unless it has not run. -/
theorem TodoTracks.isDue_iff (htracks : TodoTracks block ran since data todo) :
    isDue data todo ↔ (∀ req ∈ block.requirements, (data (.symbol req)).isSome) ∧
      (ran → ∃ req ∈ block.requirements ++ ["node_name"], req ∈ names since) := by
  rw [isDue, Bool.and_eq_true, List.all_eq_true, htracks.requirements, Bool.or_eq_true]
  refine and_congr_right fun _ => ?_
  by_cases hran : ran
  · have hkeys := htracks.keys hran
    have hnonempty : todo.reqVersions.isEmpty = false := by
      cases hversions : todo.reqVersions with
      | nil => simp [hversions] at hkeys
      | cons entry rest => rfl
    rw [hnonempty, ← hkeys, List.any_eq_true]
    simp only [Bool.false_eq_true, false_or, hran, forall_const, List.mem_map]
    constructor
    · rintro ⟨entry, hentry, hnewer⟩
      exact ⟨entry.1, ⟨entry, hentry, rfl⟩,
        (htracks.versions entry hentry).2.mp ((isNewer_iff data entry).mp hnewer)⟩
    · rintro ⟨_, ⟨entry, hentry, rfl⟩, hnews⟩
      exact ⟨entry, hentry,
        (isNewer_iff data entry).mpr ((htracks.versions entry hentry).2.mpr hnews)⟩
  · simp [htracks.fresh hran, hran]

theorem TodoTracks.executable (htracks : TodoTracks block ran since data todo)
    (hnode : (data (.symbol "node_name")).isSome) : Executable data todo :=
  ⟨fun _ => hnode, htracks.present⟩

/-- An executed block has the current version of everything that it looks up. -/
theorem TodoTracks.afterExecution (htracks : TodoTracks block ran since data todo)
    (hnode : (data (.symbol "node_name")).isSome) :
    TodoTracks block (ran ∨ isDue data todo) (if isDue data todo then [] else since) data
      (afterExecution data todo) := by
  have hexecutable := executable_afterExecution (htracks.executable hnode)
  by_cases hdue : isDue data todo
  · have hafter : Helper.afterExecution data todo =
        { todo with reqVersions := executedVersions data todo } := if_pos hdue
    rw [hafter] at hexecutable ⊢
    rw [if_pos hdue]
    refine ⟨htracks.requirements, htracks.run, fun hnot => absurd (.inr hdue) hnot, fun _ => ?_,
      hexecutable.2, fun entry hentry => ?_⟩
    · unfold executedVersions
      by_cases hfirst : todo.reqVersions = []
      · simp [hfirst, htracks.requirements, Function.comp_def]
      · have hran : ran := by
          by_contra hnot
          exact hfirst (htracks.fresh hnot)
        simp [hfirst, ← htracks.keys hran]
    · have hversion : entry.2 = version data entry.1 := by
        dsimp only [executedVersions] at hentry
        split at hentry
        next =>
          obtain ⟨req, _, rfl⟩ := List.mem_map.mp hentry
          rfl
        next =>
          obtain ⟨old, hold, rfl⟩ := List.mem_map.mp hentry
          exact Nat.max_eq_right (htracks.versions old hold).1
      simp [hversion, names]
  · have hafter : Helper.afterExecution data todo = todo := if_neg hdue
    rw [hafter, if_neg hdue]
    simpa [hdue] using htracks

end Todo

/-! ## Runs -/

theorem hasRun_concat (index : ℕ) (steps : Record α)
    (now : Transition (State α) (List (Fact α)) (Reaction α)) :
    HasRun index (steps ++ [now]) ↔ HasRun index steps ∨ index ∈ now.output.executed := by
  simp [HasRun, or_and_right, exists_or]

theorem sinceLastRun_concat (index : ℕ) (steps : Record α)
    (now : Transition (State α) (List (Fact α)) (Reaction α)) :
    sinceLastRun index (steps ++ [now]) =
      if index ∈ now.output.executed then [] else sinceLastRun index steps ++ now.input := by
  simp [sinceLastRun]

theorem receivedIn_concat (steps : Record α)
    (now : Transition (State α) (List (Fact α)) (Reaction α)) :
    receivedIn (steps ++ [now]) = receivedIn steps ++ now.input := by
  simp [receivedIn]

section Runs

variable [DecidableEq α] {literals : Literals α} {blocks : List (Block α)}

/-- The state of a helper after the recorded messages. -/
structure Tracks (literals : Literals α) (blocks : List (Block α)) (steps : Record α)
    (state : State α) : Prop where
  data : DataTracks blocks (receivedIn steps) state.data
  role : steps = [] ∨ RoleTracks literals (receivedIn steps) state
  length : state.todos.length = blocks.length
  todos : ∀ index block, blocks[index]? = some block → ∃ todo, state.todos[index]? = some todo ∧
    TodoTracks block (HasRun index steps) (sinceLastRun index steps) state.data todo

theorem tracks_newHelper : Tracks literals blocks [] (newHelper blocks) := by
  refine ⟨⟨?_, ?_, ?_⟩, .inl rfl, ?_, ?_⟩
  · exact fun name => by simp [newHelper, initial, names, receivedIn]
  · exact fun name => by simp [newHelper, initial, names, receivedIn]
  · exact fun name _ => by simp [newHelper, initial, version, counter]
  · simp [newHelper, initial]
  · intro index block hblock
    refine ⟨when block, by simp [newHelper, initial, hblock], rfl, rfl, fun _ => rfl, ?_, ?_, ?_⟩
    · rintro ⟨now, hnow, -⟩
      cases hnow
    · exact fun entry hentry => absurd hentry List.not_mem_nil
    · exact fun entry hentry => absurd hentry List.not_mem_nil

theorem node_name_mem_mandatoryFacts (received : List (Fact α)) :
    "node_name" ∈ mandatoryFacts literals received := by
  unfold mandatoryFacts
  split <;> decide

/-- The helper has dealt with the truths of a message, and has not come to the
blocks yet. -/
structure Told (literals : Literals α) (blocks : List (Block α)) (steps : Record α)
    (truths : List (Fact α)) (told : State α) : Prop where
  data : DataTracks blocks (receivedIn steps ++ truths) told.data
  role : RoleTracks literals (receivedIn steps ++ truths) told
  length : told.todos.length = blocks.length
  todos : ∀ index block, blocks[index]? = some block → ∃ todo, told.todos[index]? = some todo ∧
    TodoTracks block (HasRun index steps) (sinceLastRun index steps ++ truths) told.data todo

variable {steps : Record α} {state told : State α} {truths : List (Fact α)}

theorem exists_told (htracks : Tracks literals blocks steps state)
    (hanew : steps = [] → ∃ truth rest, truths = truth :: rest ∧ truth.what = "is_daemon")
    (hadmissible : AdmissibleInput literals blocks state truths) :
    ∃ told logs, dealWithInput literals state truths = .ok (told, logs) ∧
      Told literals blocks steps truths told := by
  obtain ⟨told, logs, htold, hdata, htodos, hrole, hversions⟩ := dealWithInput_ok
    htracks.data hadmissible (htracks.role.imp_left hanew)
  refine ⟨told, logs, htold, hdata, hrole, htodos ▸ htracks.length, ?_⟩
  intro index block hblock
  obtain ⟨todo, htodo, hold⟩ := htracks.todos index block hblock
  refine ⟨todo, htodos ▸ htodo, hold.receive ?_ ?_⟩
  · intro name hsome
    rw [hdata.symbol, names, List.map_append]
    exact List.mem_append_left _ ((htracks.data.symbol name).mp hsome)
  · intro name hname
    apply hversions
    rcases List.mem_append.mp hname with hreq | hnode
    · exact .inr ⟨block, List.mem_of_getElem? hblock, hreq⟩
    · exact .inl (List.mem_singleton.mp hnode)

theorem Told.pending_eq_nil_iff (htold : Told literals blocks steps truths told) :
    told.pending = some [] ↔ ∀ name ∈ mandatoryFacts literals (receivedIn steps ++ truths),
      name ∈ names (receivedIn steps ++ truths) := by
  rw [htold.role.pending, Option.some_inj, List.filter_eq_nil_iff]
  simp

/-- While mandatory facts are missing no block is executed, nor should be. -/
theorem Told.of_missing (htold : Told literals blocks steps truths told)
    (hpending : told.pending ≠ some []) (logs : List (Message α)) :
    Tracks literals blocks (steps ++ [⟨state, truths, ⟨logs, []⟩, told⟩]) told ∧
      WhenDue literals blocks steps ⟨state, truths, ⟨logs, []⟩, told⟩ := by
  have hnone : ∀ index, index ∉ (⟨logs, []⟩ : Reaction α).executed := by
    simp [Reaction.executed]
  refine ⟨⟨?_, .inr ?_, htold.length, ?_⟩, ?_, ?_⟩
  · rw [receivedIn_concat]
    exact htold.data
  · rw [receivedIn_concat]
    exact htold.role
  · intro index block hblock
    obtain ⟨todo, htodo, htracks⟩ := htold.todos index block hblock
    refine ⟨todo, htodo, ?_⟩
    rw [sinceLastRun_concat, if_neg (hnone index)]
    simpa only [hasRun_concat, hnone index, or_false] using htracks
  · simp [Reaction.executed]
  · intro index block _
    refine iff_of_false (hnone index) fun hshould => ?_
    exact hpending (htold.pending_eq_nil_iff.mpr hshould.mandatory)

/-- Every block that is registered keeps the counters, and has the data that it
needs, when the mandatory facts are there. -/
theorem Told.keeps (htold : Told literals blocks steps truths told)
    (hnode : (told.data (.symbol "node_name")).isSome)
    (hblocks : ∀ block ∈ blocks, ∀ data, .recycleTactic ∉ block.run data) {todo : Todo α}
    (htodo : todo ∈ told.todos) : todo.Keeps ∧ Executable told.data todo := by
  obtain ⟨index, hindex⟩ := List.getElem?_of_mem htodo
  have hlt := (List.getElem?_eq_some_iff.mp hindex).1
  have hblock := List.getElem?_eq_getElem (htold.length ▸ hlt : index < blocks.length)
  obtain ⟨found, hfound, htracks⟩ := htold.todos index _ hblock
  obtain rfl := Option.some.inj (hindex.symm.trans hfound)
  refine ⟨fun data => ?_, htracks.executable hnode⟩
  rw [htracks.run]
  exact hblocks _ (List.getElem_mem _) data

/-- When all mandatory facts are there the loop executes the blocks that are
due, which are those that should run. -/
theorem Told.of_loop (state : State α) (htold : Told literals blocks steps truths told)
    (hpending : told.pending = some [])
    (hblocks : ∀ block ∈ blocks, ∀ data, .recycleTactic ∉ block.run data) :
    ∃ next messages, executeUserBlocks told (List.range told.todos.length) = .ok (next, messages) ∧
      ∀ sent : List (Message α),
        let now : Transition (State α) (List (Fact α)) (Reaction α) :=
          ⟨state, truths, ⟨sent, executions told (List.range told.todos.length)⟩, next⟩
        Tracks literals blocks (steps ++ [now]) next ∧ WhenDue literals blocks steps now := by
  have hmandatory := htold.pending_eq_nil_iff.mp hpending
  have hnode : (told.data (.symbol "node_name")).isSome :=
    (htold.data.symbol _).mpr (hmandatory _ (node_name_mem_mandatoryFacts _))
  obtain ⟨next, messages, hloop, hdata, hnextpending, hready, hall, hexecutions⟩ :=
    executeUserBlocks_of_keeps (List.nodup_range (n := told.todos.length))
      fun todo htodo => htold.keeps hnode hblocks htodo
  have htodos : next.todos = told.todos.map (afterExecution told.data) := by
    apply List.ext_getElem?
    intro index
    rw [hall, List.getElem?_map]
    by_cases hlt : index < told.todos.length <;> simp [hlt]
  refine ⟨next, messages, hloop, fun sent => ?_⟩
  have hexecuted : ∀ index, index ∈ (⟨sent, executions told
      (List.range told.todos.length)⟩ : Reaction α).executed ↔ dueAt told index := by
    intro index
    simp only [Reaction.executed, hexecutions, List.map_map, Function.comp_def, List.map_id',
      List.mem_filter, List.mem_range, and_iff_right_iff_imp]
    intro hdue
    obtain ⟨todo, htodo, -⟩ := (Option.any_eq_true _ _).mp hdue
    exact (List.getElem?_eq_some_iff.mp htodo).1
  refine ⟨⟨?_, .inr ⟨hready ▸ htold.role.ready, ?_⟩, ?_, ?_⟩, ?_, ?_⟩
  · rw [receivedIn_concat, hdata]
    exact htold.data
  · rw [receivedIn_concat, hnextpending]
    exact htold.role.pending
  · rw [htodos, List.length_map]
    exact htold.length
  · intro index block hblock
    obtain ⟨todo, htodo, htracks⟩ := htold.todos index block hblock
    have hdue := dueAt_of_some htodo
    refine ⟨afterExecution told.data todo, ?_, ?_⟩
    · rw [htodos, List.getElem?_map, htodo, Option.map_some]
    · have hafter := htracks.afterExecution hnode
      rw [sinceLastRun_concat, hdata, hasRun_concat]
      simp only [hexecuted, hdue]
      exact hafter
  · rw [Reaction.executed, hexecutions, List.map_map]
    simpa [Function.comp_def] using List.nodup_range.filter _
  · intro index block hblock
    obtain ⟨todo, htodo, htracks⟩ := htold.todos index block hblock
    rw [hexecuted, dueAt_of_some htodo, htracks.isDue_iff]
    constructor
    · rintro ⟨hreqs, hnews⟩
      exact ⟨hmandatory, fun req hreq => (htold.data.symbol req).mp (hreqs req hreq), hnews⟩
    · intro hshould
      exact ⟨fun req hreq => (htold.data.symbol req).mpr (hshould.requirements req hreq),
        hshould.news⟩

/-- One more message is dealt with, and the blocks that should run do. -/
theorem react_ok (hblocks : ∀ block ∈ blocks, ∀ data, .recycleTactic ∉ block.run data)
    (htracks : Tracks literals blocks steps state)
    (hanew : steps = [] → ∃ truth rest, truths = truth :: rest ∧ truth.what = "is_daemon")
    (hadmissible : AdmissibleInput literals blocks state truths) :
    ∃ next reaction, react literals state truths = .ok (next, reaction) ∧
      Tracks literals blocks (steps ++ [⟨state, truths, reaction, next⟩]) next ∧
      WhenDue literals blocks steps ⟨state, truths, reaction, next⟩ := by
  obtain ⟨told, logs, hinput, htold⟩ := exists_told htracks hanew hadmissible
  by_cases hpending : told.pending = some []
  · obtain ⟨next, messages, hloop, hnow⟩ := htold.of_loop state hpending hblocks
    refine ⟨next, _, ?_, hnow (logs ++ messages)⟩
    rw [react_of_told hinput ⟨htold.role.ready, hpending⟩, hloop]
    rfl
  · exact ⟨told, _, react_of_not_ready hinput fun hboth => hpending hboth.2,
      htold.of_missing hpending logs⟩

/-- The run goes on through all messages that are left. -/
theorem record_of_tracks (hblocks : ∀ block ∈ blocks, ∀ data, .recycleTactic ∉ block.run data)
    {messages : List (List (Fact α))} (htracks : Tracks literals blocks steps state)
    (hanew : steps = [] → ∀ first rest, messages = first :: rest →
      ∃ truth others, first = truth :: others ∧ truth.what = "is_daemon")
    (hadmissible : ∀ later truths, Reaches (react literals) state messages later truths →
      AdmissibleInput literals blocks later truths) :
    (record (react literals) state messages).map (fun now => now.input) = messages ∧
      ∀ earlier now, earlier ++ [now] <+: record (react literals) state messages →
        WhenDue literals blocks (steps ++ earlier) now := by
  induction messages generalizing steps state with
  | nil =>
      refine ⟨rfl, fun earlier now hinitial => ?_⟩
      exact absurd (List.prefix_nil.mp hinitial) (by simp)
  | cons truths rest ih =>
      have hfirst : AdmissibleInput literals blocks state truths :=
        hadmissible state truths ⟨[], .start, by simp⟩
      obtain ⟨next, reaction, hreact, hnext, hdue⟩ :=
        react_ok hblocks htracks (fun hnil => hanew hnil _ _ rfl) hfirst
      have hlater : ∀ later truths', Reaches (react literals) next rest later truths' →
          AdmissibleInput literals blocks later truths' := by
        rintro later truths' ⟨between, hrun, hinitial⟩
        refine hadmissible later truths' ⟨_ :: between, hrun.cons hreact, ?_⟩
        simpa using hinitial
      obtain ⟨hinputs, hall⟩ := ih hnext (fun hnil => by simp at hnil) hlater
      simp only [record, hreact, List.map_cons, hinputs, true_and]
      intro earlier now hinitial
      cases earlier with
      | nil =>
          rw [List.nil_append, List.cons_prefix_cons] at hinitial
          obtain ⟨rfl, -⟩ := hinitial
          rwa [List.append_nil]
      | cons first others =>
          rw [List.cons_append, List.cons_prefix_cons] at hinitial
          obtain ⟨rfl, hothers⟩ := hinitial
          have hdue := hall others now hothers
          rwa [List.append_assoc, List.singleton_append] at hdue

/-- In a run in which the helper can deal with each truth, all messages are dealt
with, and each of them executes the blocks that should run. -/
theorem whenDue_of_admissible {config : Pool.PoolConfig α}
    (hblocks : ∀ block ∈ blocks, ∀ data, .recycleTactic ∉ block.run data)
    {messages : List (List (Fact α))} (hanew : StartsAnew config messages)
    (hadmissible : ∀ state truths,
      Reaches (react config.literals) (newHelper blocks) messages state truths →
        AdmissibleInput config.literals blocks state truths) :
    (record (react config.literals) (newHelper blocks) messages).map (fun now => now.input) =
        messages ∧
      ∀ earlier now,
        earlier ++ [now] <+: record (react config.literals) (newHelper blocks) messages →
          WhenDue config.literals blocks earlier now := by
  refine record_of_tracks hblocks tracks_newHelper (fun _ first rest hmessages => ?_) hadmissible
  obtain ⟨initial, others, heq, hinitial⟩ := hanew
  obtain ⟨rfl, -⟩ := List.cons.inj (hmessages.symm.trans heq)
  exact isDaemon_of_isInitialMessage hinitial

end Runs

/-! ## A name that is a requirement and a truth -/

open Pool (echoConfig echoThread)

/-- A block that requires `a@b`, the resource of `a@b@c`. -/
def nestedBlock : Block (String ⊕ (Bool ⊕ Option ℕ)) := ⟨["a@b"], fun _ => [.log "executed"]⟩

def truthOf (what : String) : Fact (String ⊕ (Bool ⊕ Option ℕ)) :=
  ⟨what, "dns", "GLOBAL", "alpha", .inl what⟩

/-- The truth `a@b` sets the counter of the requirement back to one. -/
def nestedMessages : List (List (Fact (String ⊕ (Bool ⊕ Option ℕ)))) :=
  [kleFacts, [truthOf "a@b@c"], [truthOf "a@b@c"], [truthOf "a@b"], [truthOf "a@b@c"]]

theorem startsAnew_kleFacts (rest : List (List (Fact (String ⊕ (Bool ⊕ Option ℕ))))) :
    StartsAnew echoConfig (kleFacts :: rest) :=
  ⟨_, rest, rfl, .inl ⟨echoThread, "carol", "ip@kle.io", rfl⟩⟩

/-- The truth `a@b` comes before the counter of the requirement has been set. -/
def executedMessages : List (List (Fact (String ⊕ (Bool ⊕ Option ℕ)))) :=
  [kleFacts, [truthOf "a@b"], [truthOf "a@b@c"], [truthOf "a@b@c"]]

theorem whenDue_of_nestedBlock :
    (record (react echoConfig.literals) (newHelper [nestedBlock]) executedMessages).map
        (fun now => now.output.executed) = [[], [], [0], [0]] ∧
      (record (react echoConfig.literals) (newHelper [nestedBlock]) executedMessages).map
        (fun now => now.input) = executedMessages ∧
      ∀ earlier now,
        earlier ++ [now] <+:
            record (react echoConfig.literals) (newHelper [nestedBlock]) executedMessages →
          WhenDue echoConfig.literals [nestedBlock] earlier now := by
  refine ⟨rfl, whenDue_of_admissible (by simp [nestedBlock]) (startsAnew_kleFacts _) ?_⟩
  have hall : Throughout (react echoConfig.literals)
      (AdmissibleInput echoConfig.literals [nestedBlock]) (newHelper [nestedBlock])
      executedMessages := by
    decide +kernel
  exact fun state truths hreaches => hall.of_reaches hreaches

theorem not_whenDue_of_nested :
    ¬ ∀ (config : Pool.PoolConfig (String ⊕ (Bool ⊕ Option ℕ)))
      (blocks : List (Block (String ⊕ (Bool ⊕ Option ℕ)))),
      (∀ block ∈ blocks, ∀ data, .recycleTactic ∉ block.run data) →
        ∀ messages, StartsAnew config messages →
          ∀ earlier now,
            earlier ++ [now] <+: record (react config.literals) (newHelper blocks) messages →
              WhenDue config.literals blocks earlier now := by
  intro hclaim
  have hall := hclaim echoConfig [nestedBlock] (by simp [nestedBlock]) nestedMessages
    (startsAnew_kleFacts _)
  generalize hsteps : record (react echoConfig.literals) (newHelper [nestedBlock])
    nestedMessages = steps at hall
  have hinputs : steps.map (fun now => now.input) = nestedMessages := hsteps ▸ rfl
  have hexecuted : steps.map (fun now => now.output.executed) = [[], [0], [0], [], []] :=
    hsteps ▸ rfl
  simp only [nestedMessages, List.map_eq_cons_iff, List.map_eq_nil_iff] at hinputs
  obtain ⟨first, _, rfl, hfirst, second, _, rfl, hsecond, third, _, rfl, hthird, fourth, _, rfl,
    hfourth, last, _, rfl, hlast, rfl⟩ := hinputs
  simp only [List.map_cons, List.map_nil, List.cons.injEq] at hexecuted
  obtain ⟨hnone, hone, hother, hnone', hmissed, -⟩ := hexecuted
  have hreceived : receivedIn [first, second, third, fourth] ++ last.input =
      nestedMessages.flatten := by
    simp [receivedIn, hfirst, hsecond, hthird, hfourth, hlast, nestedMessages]
  have hsince : sinceLastRun 0 [first, second, third, fourth] ++ last.input =
      [truthOf "a@b", truthOf "a@b@c"] := by
    simp [sinceLastRun, hone, hother, hnone', hfourth, hlast]
  have hshould : ShouldRun echoConfig.literals nestedBlock 0 [first, second, third, fourth]
      last.input := by
    refine ⟨?_, ?_, fun _ => ?_⟩
    · rw [hreceived]
      decide
    · rw [hreceived]
      decide
    · rw [hsince]
      decide
  have hexecuted := ((hall [first, second, third, fourth] last List.prefix_rfl).2 0 nestedBlock
    rfl).mpr hshould
  rw [hmissed] at hexecuted
  cases hexecuted

end Signpost.Helper

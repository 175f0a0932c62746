import Signpost.Machine.Run
import Signpost.Tactic.Helper

/-! # The blocks that a helper executes

A helper goes through its blocks after every message. What it executes is
recorded here next to what it sends.
-/

namespace Signpost.Helper

open Machine
open Pool (Literals)

variable {α : Type}

/-! ## Blocks -/

/-- A block of a script, with the requirements it is registered with. -/
structure Block (α : Type) where
  requirements : List String
  run : Data α → List (Call α)

/-- `TacticHelper#when`. -/
def when (block : Block α) : Todo α := ⟨block.requirements, block.run, []⟩

def newHelper (blocks : List (Block α)) : State α := initial (blocks.map when)

/-- The facts that a tactic waits for. -/
def tacticFacts : List String :=
  ["destination", "port", "domain", "resource", "user", "is_daemon", "what", "user", "node_name"]

/-- There is a newer version than the recorded one. -/
def isNewer (data : Data α) (recorded : String × ℕ) : Bool :=
  (data (.symbol recorded.1)).any fun datum => recorded.2 < datum.version

def isDue (data : Data α) (todo : Todo α) : Bool :=
  (todo.requirements.all fun req => (data (.symbol req)).isSome) &&
    (todo.reqVersions.isEmpty || todo.reqVersions.any (isNewer data))

def dueAt (state : State α) (index : ℕ) : Bool := state.todos[index]?.any (isDue state.data)

/-- The blocks that `execute_user_blocks` calls, with the data that it calls them
on. -/
def executions (state : State α) : List ℕ → List (ℕ × Data α)
  | [] => []
  | index :: rest =>
      match executeUserBlock state index with
      | .ok (next, _) =>
          if dueAt state index then (index, state.data) :: executions next rest
          else executions next rest
      | .error _ => []

/-! ## One block -/

def version (data : Data α) (req : String) : ℕ :=
  ((data (.symbol req)).map Datum.version).getD 0

/-- The versions that a block is recorded with when it is executed. -/
def executedVersions (data : Data α) (todo : Todo α) : List (String × ℕ) :=
  if todo.reqVersions = [] then
    (todo.requirements ++ ["node_name"]).map fun req => (req, version data req)
  else todo.reqVersions.map fun recorded => (recorded.1, max recorded.2 (version data recorded.1))

theorem map_versionOf_eq_ok_iff {β : Type} (data : Data α) (req : String) (f : ℕ → β) (result : β) :
    (versionOf data req).map f = .ok result ↔
      (data (.symbol req)).isSome ∧ result = f (version data req) := by
  unfold versionOf version
  cases data (.symbol req) <;> simp [Except.map, eq_comm]

theorem mapM_eq_ok_iff {β γ : Type} {f : β → Except HelperError γ} {g : β → γ} {P : β → Prop}
    (hf : ∀ x y, f x = .ok y ↔ P x ∧ y = g x) (xs : List β) (ys : List γ) :
    xs.mapM f = .ok ys ↔ (∀ x ∈ xs, P x) ∧ ys = xs.map g := by
  induction xs generalizing ys with
  | nil => simp [pure, Except.pure, eq_comm]
  | cons x rest ih =>
      rw [List.mapM_cons, bind_eq_ok, List.forall_mem_cons, List.map_cons]
      constructor
      · rintro ⟨y, hy, hrest⟩
        obtain ⟨others, hothers, hok⟩ := bind_eq_ok.mp hrest
        obtain rfl := Except.ok.inj hok
        obtain ⟨hx, rfl⟩ := (hf x y).mp hy
        obtain ⟨hall, rfl⟩ := (ih others).mp hothers
        exact ⟨⟨hx, hall⟩, rfl⟩
      · rintro ⟨⟨hx, hall⟩, rfl⟩
        exact ⟨g x, (hf x _).mpr ⟨hx, rfl⟩, bind_eq_ok.mpr ⟨_, (ih _).mpr ⟨hall, rfl⟩, rfl⟩⟩

theorem map_versionOf_eq_error {β : Type} {data : Data α} {req : String} {f : ℕ → β}
    {error : HelperError} (herror : (versionOf data req).map f = .error error) :
    error = .noMethodError := by
  unfold versionOf at herror
  split at herror
  next =>
    cases herror
    rfl
  next => cases herror

/-- Looking a version up fails in one way only, and so does a list of lookups. -/
theorem mapM_eq_noMethodError {β γ : Type} {f : β → Except HelperError γ}
    (hf : ∀ x error, f x = .error error → error = .noMethodError) {xs : List β}
    (hne : ∀ ys, xs.mapM f ≠ .ok ys) : xs.mapM f = .error .noMethodError := by
  induction xs with
  | nil => exact absurd rfl (hne [])
  | cons x rest ih =>
      rw [List.mapM_cons] at hne ⊢
      cases hx : f x with
      | error error =>
          obtain rfl := hf x error hx
          rfl
      | ok y =>
          have hrest : rest.mapM f = .error .noMethodError := by
            apply ih
            intro ys hys
            exact hne (y :: ys) (bind_eq_ok.mpr ⟨y, hx, bind_eq_ok.mpr ⟨ys, hys, rfl⟩⟩)
          exact bind_eq_error.mpr (.inr ⟨y, rfl, bind_eq_error.mpr (.inl hrest)⟩)

theorem mapM_firstVersion (data : Data α) (reqs : List String) (versions : List (String × ℕ)) :
    reqs.mapM (firstVersion data) = .ok versions ↔
      (∀ req ∈ reqs, (data (.symbol req)).isSome) ∧
        versions = reqs.map fun req => (req, version data req) :=
  mapM_eq_ok_iff (fun req recorded => map_versionOf_eq_ok_iff data req (Prod.mk req) recorded)
    reqs versions

theorem mapM_newerVersion (data : Data α) (recorded versions : List (String × ℕ)) :
    recorded.mapM (newerVersion data) = .ok versions ↔
      (∀ entry ∈ recorded, (data (.symbol entry.1)).isSome) ∧
        versions = recorded.map fun entry => (entry.1, max entry.2 (version data entry.1)) :=
  mapM_eq_ok_iff (fun entry later => map_versionOf_eq_ok_iff data entry.1
    (fun v => (entry.1, max entry.2 v)) later) recorded versions

/-- The recorded versions stay as they are unless there is a newer one. -/
theorem map_max_eq_self_iff {data : Data α} {recorded : List (String × ℕ)}
    (hpresent : ∀ entry ∈ recorded, (data (.symbol entry.1)).isSome) :
    recorded.map (fun entry => (entry.1, max entry.2 (version data entry.1))) = recorded ↔
      recorded.any (isNewer data) = false := by
  rw [List.any_eq_false]
  refine Iff.trans (b := ∀ entry ∈ recorded, version data entry.1 ≤ entry.2) ?_ ?_
  · have hmap := List.map_inj_left (l := recorded) (g := id)
      (f := fun entry => (entry.1, max entry.2 (version data entry.1)))
    rw [List.map_id] at hmap
    refine hmap.trans (forall₂_congr fun entry _ => ?_)
    dsimp only [id]
    rw [Prod.ext_iff, and_iff_right rfl]
    dsimp only
    omega
  · refine forall₂_congr fun entry hentry => ?_
    obtain ⟨datum, hdatum⟩ := Option.isSome_iff_exists.mp (hpresent entry hentry)
    simp [version, isNewer, hdatum]

/-- What executing a block needs: a first execution records the name of the
node, and later ones look every recorded requirement up. -/
def Executable (data : Data α) (todo : Todo α) : Prop :=
  (todo.reqVersions = [] → (data (.symbol "node_name")).isSome) ∧
    ∀ entry ∈ todo.reqVersions, (data (.symbol entry.1)).isSome

theorem executeUserBlock_of_none {state : State α} {index : ℕ}
    (hnone : state.todos[index]? = none) :
    executeUserBlock state index = .ok (state, []) := by
  simp only [executeUserBlock, hnone]

theorem executeUserBlock_of_unsatisfied {state : State α} {index : ℕ} {todo : Todo α}
    (htodo : state.todos[index]? = some todo)
    (hreqs : ¬ todo.requirements.all fun req => (state.data (.symbol req)).isSome) :
    executeUserBlock state index = .ok (state, []) := by
  simp only [executeUserBlock, htodo, if_pos hreqs]

/-- A block whose requirements are there fails, or is executed, or there is
nothing new for it. -/
theorem executeUserBlock_of_satisfied {state : State α} {index : ℕ} {todo : Todo α}
    (htodo : state.todos[index]? = some todo)
    (hreqs : todo.requirements.all fun req => (state.data (.symbol req)).isSome) :
    (¬ Executable state.data todo ∧ executeUserBlock state index = .error .noMethodError) ∨
      Executable state.data todo ∧ executeUserBlock state index =
        .ok (if isDue state.data todo then
          runCalls (setVersions state index (executedVersions state.data todo))
            (todo.block state.data)
        else (state, [])) := by
  unfold executeUserBlock Executable isDue executedVersions
  simp only [htodo, hreqs, not_true_eq_false, if_false, Bool.true_and]
  by_cases hfirst : todo.reqVersions = []
  · have hall : (∀ req ∈ todo.requirements ++ ["node_name"], (state.data (.symbol req)).isSome) ↔
        (state.data (.symbol "node_name")).isSome := by
      rw [List.forall_mem_append, List.forall_mem_singleton, and_iff_right]
      exact List.all_eq_true.mp hreqs
    by_cases hnode : (state.data (.symbol "node_name")).isSome
    · have hversions := (mapM_firstVersion _ _ _).mpr ⟨hall.mpr hnode, rfl⟩
      right
      simp [hfirst, hnode, hversions, bind, Except.bind, pure, Except.pure]
    · left
      refine ⟨fun h => hnode (h.1 hfirst), ?_⟩
      have herror : (todo.requirements ++ ["node_name"]).mapM (firstVersion state.data) =
          .error .noMethodError :=
        mapM_eq_noMethodError (fun _ _ => map_versionOf_eq_error) fun versions hversions =>
          hnode (hall.mp ((mapM_firstVersion _ _ _).mp hversions).1)
      rw [if_pos hfirst, herror]
      rfl
  · by_cases hpresent : ∀ entry ∈ todo.reqVersions, (state.data (.symbol entry.1)).isSome
    · have hversions := (mapM_newerVersion _ _ _).mpr ⟨hpresent, rfl⟩
      right
      refine ⟨⟨fun h => absurd h hfirst, hpresent⟩, ?_⟩
      have hsame := map_max_eq_self_iff hpresent
      rw [if_neg hfirst, hversions]
      simp only [bind, Except.bind, pure, Except.pure, if_neg hfirst]
      by_cases hnewer : todo.reqVersions.any (isNewer state.data)
      · rw [if_neg fun heq => by simp [hsame.mp heq] at hnewer]
        simp [hnewer]
      · rw [if_pos (hsame.mpr (by simpa using hnewer))]
        simp [hnewer, hfirst]
    · left
      refine ⟨fun h => hpresent h.2, ?_⟩
      have herror : todo.reqVersions.mapM (newerVersion state.data) = .error .noMethodError :=
        mapM_eq_noMethodError (fun _ _ => map_versionOf_eq_error) fun versions hversions =>
          hpresent ((mapM_newerVersion _ _ _).mp hversions).1
      rw [if_neg hfirst, herror]
      rfl

theorem dueAt_of_some {state : State α} {index : ℕ} {todo : Todo α}
    (htodo : state.todos[index]? = some todo) : dueAt state index = isDue state.data todo := by
  rw [dueAt, htodo, Option.any_some]

/-- A block that does not fail leaves everything as it is, or is due and
executed. -/
theorem executeUserBlock_cases {state next : State α} {index : ℕ} {messages : List (Message α)}
    (hblock : executeUserBlock state index = .ok (next, messages)) :
    (dueAt state index = false ∧ next = state ∧ messages = []) ∨
      ∃ todo, state.todos[index]? = some todo ∧ isDue state.data todo ∧
        Executable state.data todo ∧
        (next, messages) = runCalls (setVersions state index (executedVersions state.data todo))
          (todo.block state.data) := by
  cases htodo : state.todos[index]? with
  | none =>
      rw [executeUserBlock_of_none htodo] at hblock
      cases hblock
      exact .inl ⟨by rw [dueAt, htodo, Option.any_none], rfl, rfl⟩
  | some todo =>
      rw [dueAt_of_some htodo]
      by_cases hreqs : todo.requirements.all fun req => (state.data (.symbol req)).isSome
      · rcases executeUserBlock_of_satisfied htodo hreqs with ⟨_, herror⟩ | ⟨hexecutable, hok⟩
        · rw [herror] at hblock
          cases hblock
        · rw [hok] at hblock
          by_cases hdue : isDue state.data todo
          · rw [if_pos hdue] at hblock
            exact .inr ⟨todo, rfl, hdue, hexecutable, (Except.ok.inj hblock).symm⟩
          · rw [if_neg hdue] at hblock
            cases hblock
            exact .inl ⟨by simpa using hdue, rfl, rfl⟩
      · rw [executeUserBlock_of_unsatisfied htodo hreqs] at hblock
        cases hblock
        exact .inl ⟨by simp [isDue, Bool.eq_false_iff.mpr hreqs], rfl, rfl⟩

theorem runCalls_of_notMem {state : State α} {calls : List (Call α)}
    (hnot : .recycleTactic ∉ calls) : (runCalls state calls).1 = state := by
  rw [runCalls]
  induction calls with
  | nil => rfl
  | cons call rest ih =>
      rw [List.mem_cons, not_or] at hnot
      rw [List.foldl_cons]
      cases call with
      | recycleTactic => exact absurd rfl hnot.1
      | log msg => exact ih hnot.2
      | needTruth need => exact ih hnot.2
      | observeTruth observe => exact ih hnot.2
      | provideTruth truth => exact ih hnot.2

theorem executeUserBlock_of_due {state : State α} {index : ℕ} {todo : Todo α}
    (htodo : state.todos[index]? = some todo) (hdue : isDue state.data todo)
    (hexecutable : Executable state.data todo) :
    executeUserBlock state index =
      .ok (runCalls (setVersions state index (executedVersions state.data todo))
        (todo.block state.data)) := by
  have hreqs := ((Bool.and_eq_true _ _).mp hdue).1
  rcases executeUserBlock_of_satisfied htodo hreqs with ⟨hnot, -⟩ | ⟨-, hok⟩
  · exact absurd hexecutable hnot
  · rw [hok, if_pos hdue]

/-! ## The loop over the blocks -/

theorem range_eq_append {index n : ℕ} (hlt : index < n) :
    ∃ rest, List.range n = List.range index ++ index :: rest ∧
      ∀ later, later ∈ rest ↔ index < later ∧ later < n := by
  obtain ⟨k, rfl⟩ := Nat.exists_eq_add_of_lt hlt
  refine ⟨(List.range k).map fun offset => index + (offset + 1), ?_, ?_⟩
  · rw [Nat.add_assoc, List.range_add, List.range_succ_eq_map, List.map_cons, List.map_map]
    rfl
  · intro later
    rw [List.mem_map]
    constructor
    · rintro ⟨offset, hoffset, rfl⟩
      have := List.mem_range.mp hoffset
      omega
    · rintro ⟨hlow, hhigh⟩
      exact ⟨later - (index + 1), List.mem_range.mpr (by omega), by omega⟩

theorem executeUserBlocks_append (state : State α) (first rest : List ℕ) :
    executeUserBlocks state (first ++ rest) =
      executeUserBlocks state first >>= fun (middle, messages) =>
        (executeUserBlocks middle rest).map fun (last, others) => (last, messages ++ others) := by
  induction first generalizing state with
  | nil =>
      cases hrest : executeUserBlocks state rest <;>
        simp [executeUserBlocks, hrest, bind, Except.bind, Except.map]
  | cons index first ih =>
      rw [List.cons_append, executeUserBlocks, executeUserBlocks]
      cases hblock : executeUserBlock state index with
      | error error => rfl
      | ok result =>
          simp only [bind, Except.bind, pure, Except.pure, ih]
          cases hfirst : executeUserBlocks result.1 first with
          | error error => rfl
          | ok middle =>
              cases hrest : executeUserBlocks middle.1 rest <;> simp [hrest, Except.map]

theorem executions_append {state middle : State α} {first : List ℕ} {messages : List (Message α)}
    (hfirst : executeUserBlocks state first = .ok (middle, messages)) (rest : List ℕ) :
    executions state (first ++ rest) = executions state first ++ executions middle rest := by
  induction first generalizing state messages with
  | nil =>
      cases hfirst
      rfl
  | cons index first ih =>
      rw [executeUserBlocks] at hfirst
      obtain ⟨⟨next, own⟩, hblock, hmiddle⟩ := bind_eq_ok.mp hfirst
      obtain ⟨⟨last, others⟩, hothers, hok⟩ := bind_eq_ok.mp hmiddle
      cases hok
      simp only [List.cons_append, executions, hblock, ih hothers]
      split <;> rfl

/-! ## Reactions -/

/-- What a helper does with a message: what it sends, and the blocks that it
executes. -/
structure Reaction (α : Type) where
  sent : List (Message α)
  blocks : List (ℕ × Data α)

variable [DecidableEq α]

/-- The blocks that `handle_input` executes. -/
def executedBlocks (literals : Literals α) (state : State α) (truths : List (Fact α)) :
    List (ℕ × Data α) :=
  match dealWithInput literals state truths with
  | .ok (told, _) =>
      if told.ready ∧ told.pending = some [] then
        executions told (List.range told.todos.length)
      else []
  | .error _ => []

/-- `handle_input`, recorded together with the blocks. -/
def react (literals : Literals α) (state : State α) (truths : List (Fact α)) :
    Except HelperError (State α × Reaction α) := do
  let (next, sent) ← handleInput literals state truths
  return (next, ⟨sent, executedBlocks literals state truths⟩)

/-- The message that starts a tactic or a daemon. -/
def IsInitialMessage (config : Pool.PoolConfig α) (truths : List (Fact α)) : Prop :=
  (∃ tactic userInfo what, Pool.execute config tactic userInfo what = .ok truths) ∨
    truths = Pool.daemonBootstrap config

/-- The first message starts a tactic or a daemon. -/
def StartsAnew (config : Pool.PoolConfig α) (messages : List (List (Fact α))) : Prop :=
  ∃ first rest, messages = first :: rest ∧ IsInitialMessage config first

omit [DecidableEq α] in
theorem isDaemon_of_isInitialMessage {config : Pool.PoolConfig α} {truths : List (Fact α)}
    (hinitial : IsInitialMessage config truths) :
    ∃ truth rest, truths = truth :: rest ∧ truth.what = "is_daemon" := by
  rcases hinitial with ⟨tactic, userInfo, what, hexecute⟩ | rfl
  · unfold Pool.execute at hexecute
    split at hexecute
    next => cases hexecute
    split at hexecute
    next => cases hexecute
    next => exact ⟨_, _, (Except.ok.inj hexecute).symm, rfl⟩
  · exact ⟨_, _, rfl, rfl⟩

theorem react_of_told {literals : Literals α} {state told : State α} {truths : List (Fact α)}
    {logs : List (Message α)} (htold : dealWithInput literals state truths = .ok (told, logs))
    (hready : told.ready ∧ told.pending = some []) :
    react literals state truths =
      (executeUserBlocks told (List.range told.todos.length)).map fun (last, messages) =>
        (last, ⟨logs ++ messages, executions told (List.range told.todos.length)⟩) := by
  unfold react handleInput executedBlocks
  simp only [htold, bind, Except.bind, if_pos hready]
  cases executeUserBlocks told (List.range told.todos.length) <;> rfl

theorem react_of_not_ready {literals : Literals α} {state told : State α} {truths : List (Fact α)}
    {logs : List (Message α)} (htold : dealWithInput literals state truths = .ok (told, logs))
    (hready : ¬ (told.ready ∧ told.pending = some [])) :
    react literals state truths = .ok (told, ⟨logs, []⟩) := by
  unfold react handleInput executedBlocks
  simp only [htold, bind, Except.bind, if_neg hready]
  rfl

end Signpost.Helper

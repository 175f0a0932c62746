import Signpost.Machine.RegexpSyntax
import Signpost.Tactic.Termination

/-! # Which tactics a request starts

An entry of the `provides` section of a tactic is a regular expression, in which
`Local` stands for the name of the node. The pool puts the name into the
expression as it is and anchors the expression at its beginning only. A tactic is
started once for each of its entries that matches.
-/

namespace Signpost.Provides

open Machine Machine.Regexp
open Pool (PoolConfig PoolRun TacticConfig TacticThread TacticObject Request Handed executions
  demand)

variable {α : Type}

/-! ## Configurations of tactics -/

/-- What `config.yml` in a folder of the tactics says. -/
structure TacticFolder where
  dirName : String
  name : String
  provides : List String
  hasDaemon : Bool
deriving DecidableEq, Repr

/-- The folders below `tactics` without a dot in their names, in any order. -/
structure TacticFolders where
  list : List TacticFolder
  nodup : (list.map fun folder => folder.dirName).Nodup

/-- The replacement of a match in `gsub!`, which reads backslashes: they refer to
the match, to what is before and after it, and to groups, of which there are none. -/
def expand (before matched after : List Char) : List Char → List Char
  | [] => []
  | '\\' :: c :: rest =>
      (if c = '0' ∨ c = '&' then matched
      else if c = Char.ofNat 96 then before
      else if c = Char.ofNat 39 then after
      else if c = '+' ∨ c.isDigit then []
      else if c = '\\' then ['\\']
      else ['\\', c]) ++ expand before matched after rest
  | c :: rest => c :: expand before matched after rest

/-- `gsub!` for any replacement. What has been read has its last letter first. -/
def gsubExpanding (pattern replacement : List Char) : ℕ → List Char → List Char → List Char
  | _, _, [] => []
  | skip + 1, before, c :: rest => gsubExpanding pattern replacement skip (c :: before) rest
  | 0, before, c :: rest =>
      if pattern.isPrefixOf (c :: rest) then
        expand before.reverse pattern ((c :: rest).drop pattern.length) replacement ++
          gsubExpanding pattern replacement (pattern.length - 1) (c :: before) rest
      else c :: gsubExpanding pattern replacement 0 (c :: before) rest

/-- `Tactic.deal_with_magic`, for any name of the node. -/
def dealWithMagic (provision nodeName : String) : String :=
  String.ofList (gsubExpanding "Local".toList nodeName.toList 0 [] provision.toList)

example : dealWithMagic "shell@Local:1" "a\\0\\1b" = "shell@aLocalb:1" := by decide

/-- `none` stands for a `RegexpError`. -/
def providePattern (nodeName entry : String) : Option (Regexp Char) :=
  parse ('^' :: (dealWithMagic entry nodeName).toList)

/-- `Tactic.provides`. -/
def provides (nodeName : String) (folder : TacticFolder) : Option TacticConfig := do
  let patterns ← folder.provides.mapM (providePattern nodeName)
  pure {
    name := folder.name
    provides := patterns.map fun pattern what => pattern.isMatch what.toList
    dirName := folder.dirName
    hasDaemon := folder.hasDaemon }

def learnAboutTactics (nodeName : String) (folders : TacticFolders) : Option (List TacticConfig) :=
  folders.list.mapM (provides nodeName)

/-! ## The right tactics -/

/-- The entry matches the whole name, with `Local` for the letters of the node's
name. -/
def matchesWhole (nodeName entry what : String) : Bool :=
  (parse (gsub "Local".toList (escape nodeName.toList) 0 entry.toList)).any fun pattern =>
    pattern.isWholeMatch what.toList

def TacticFolders.isRight (folders : TacticFolders) (nodeName what dirName : String) : Bool :=
  folders.list.any fun folder =>
    folder.dirName = dirName && folder.provides.any fun entry => matchesWhole nodeName entry what

def isFor (state : Pool.State) (dirName : String) (object : TacticObject) : Bool :=
  state.threads[object.thread]?.any fun thread => thread.config.dirName = dirName

/-- The executions of a tactic that have been started between two states, each
with what it is for: those with a thread, and those that wait for one. -/
def started (state next : Pool.State) (dirName : String) : List (Option String × String) :=
  ((next.tactics.drop state.tactics.length).filter (isFor next dirName)).map
      (fun object => (object.what, object.userInfo)) ++
    ((next.pool dirName).popq.drop (state.pool dirName).popq.length).map
      fun request => (some request.what, request.userInfo)

/-- A request starts one execution of each right tactic, and no other. -/
def ExecutesRight (config : PoolConfig α) (folders : TacticFolders) (state : Pool.State)
    (request : Request) : Prop :=
  ∃ next handed, Pool.exploreTruthSpaceFor config state request = .ok (next, handed) ∧
    ∀ dirName, started state next dirName =
      if folders.isRight config.nodeName request.what dirName then
        [(some request.what, request.userInfo)]
      else []

/-! ## Entries that match -/

/-- The entry matches a name as the pool sees it. -/
def matchesEntry (nodeName entry what : String) : Bool :=
  (providePattern nodeName entry).any fun pattern => pattern.isMatch what.toList

/-- The entries of a folder do what they are meant to do for a name. -/
structure EntriesRight (nodeName what : String) (folder : TacticFolder) : Prop where
  once : folder.provides.countP (fun entry => matchesEntry nodeName entry what) ≤ 1
  whole : ∀ entry ∈ folder.provides, matchesEntry nodeName entry what →
    ∃ other ∈ folder.provides, matchesWhole nodeName other what
  literal : escape nodeName.toList ≠ nodeName.toList →
    ∀ entry ∈ folder.provides, matchesWhole nodeName entry what →
      ∃ other ∈ folder.provides, matchesEntry nodeName other what

def isDaemonAt (state : Pool.State) (index : ℕ) : Bool :=
  state.threads[index]?.any fun thread => thread.isDaemon

/-- The magic variables can be read from the name, or the executions only take idle
threads of daemons, which do not read them. -/
def Readable (state : Pool.State) (what : String) (tactics : List TacticConfig) : Prop :=
  (magicVariablesFrom what).isSome ∨
    ∀ name, ∀ index ∈ (state.pool name).items.take (demand tactics name), isDaemonAt state index

/-! ## Patterns of plain names -/

theorem expand_eq_self (before matched after : List Char) {replacement : List Char}
    (hplain : '\\' ∉ replacement) : expand before matched after replacement = replacement := by
  fun_induction expand before matched after replacement with
  | case1 => rfl
  | case2 c rest => simp at hplain
  | case3 c rest _ ih => rw [ih (List.not_mem_of_not_mem_cons hplain)]

theorem gsubExpanding_eq_gsub (pattern : List Char) {replacement : List Char}
    (hplain : '\\' ∉ replacement) (skip : ℕ) (before text : List Char) :
    gsubExpanding pattern replacement skip before text = gsub pattern replacement skip text := by
  fun_induction gsubExpanding pattern replacement skip before text with
  | case1 => rw [gsub]
  | case2 skip before c rest ih => rw [gsub, ih]
  | case3 before c rest hbegin ih => rw [gsub, if_pos hbegin, expand_eq_self _ _ _ hplain, ih]
  | case4 before c rest hbegin ih => rw [gsub, if_neg hbegin, ih]

theorem dealWithMagic_eq {nodeName : String} (hplain : '\\' ∉ nodeName.toList)
    (provision : String) :
    dealWithMagic provision nodeName = Signpost.dealWithMagic provision nodeName := by
  rw [dealWithMagic, Signpost.dealWithMagic, gsubExpanding_eq_gsub _ hplain]

/-- The anchor in front takes no match of a whole name away. -/
theorem matchesEntry_of_matchesWhole {nodeName entry what : String}
    (hplain : escape nodeName.toList = nodeName.toList)
    (hwhole : matchesWhole nodeName entry what) : matchesEntry nodeName entry what := by
  obtain ⟨pattern, hparse, hmatch⟩ := (Option.any_eq_true _ _).mp hwhole
  obtain ⟨anchored, hanchored, hmatches⟩ := exists_parse_anchored hparse
  rw [hplain] at hanchored
  rw [matchesEntry, providePattern, dealWithMagic_eq (not_backslash_mem_of_escape_eq hplain),
    Signpost.dealWithMagic, String.toList_ofList, hanchored]
  exact hmatches _ hmatch

/-! ## How often a request starts a tactic -/

theorem forall₂_of_mapM {β γ : Type} {f : β → Option γ} {xs : List β} {ys : List γ}
    (hmap : xs.mapM f = some ys) : List.Forall₂ (fun x y => f x = some y) xs ys := by
  induction xs generalizing ys with
  | nil =>
      obtain rfl := Option.some.inj hmap
      exact .nil
  | cons x xs ih =>
      rw [List.mapM_cons] at hmap
      obtain ⟨y, hy, hrest⟩ := Option.bind_eq_some_iff.mp hmap
      obtain ⟨rest, htail, hresult⟩ := Option.bind_eq_some_iff.mp hrest
      obtain rfl := Option.some.inj hresult
      exact .cons hy (ih htail)

theorem countP_patterns {nodeName : String} {entries : List String}
    {patterns : List (Regexp Char)}
    (hpatterns : List.Forall₂ (fun entry pattern => providePattern nodeName entry = some pattern)
      entries patterns) (what : String) :
    patterns.countP (fun pattern => pattern.isMatch what.toList) =
      entries.countP fun entry => matchesEntry nodeName entry what := by
  induction hpatterns with
  | nil => rfl
  | cons hpattern _ ih => simp only [List.countP_cons, ih, matchesEntry, hpattern, Option.any_some]

/-- How many entries of a folder match. -/
def matching (nodeName what : String) (folder : TacticFolder) : ℕ :=
  folder.provides.countP fun entry => matchesEntry nodeName entry what

theorem countP_of_provides {nodeName : String} {folder : TacticFolder} {tactic : TacticConfig}
    (hprovides : provides nodeName folder = some tactic) (what : String) :
    tactic.dirName = folder.dirName ∧
      tactic.provides.countP (fun thing => thing what) = matching nodeName what folder := by
  obtain ⟨patterns, hpatterns, hresult⟩ := Option.bind_eq_some_iff.mp hprovides
  obtain rfl := Option.some.inj hresult
  refine ⟨rfl, ?_⟩
  rw [List.countP_map]
  exact countP_patterns (forall₂_of_mapM hpatterns) what

theorem demand_append (first second : List TacticConfig) (name : String) :
    demand (first ++ second) name = demand first name + demand second name :=
  List.countP_append

theorem demand_executions_cons (tactic : TacticConfig) (what name : String) :
    demand ((tactic.provides.filter (fun thing => thing what)).map fun _ => tactic) name =
      if tactic.dirName = name then tactic.provides.countP (fun thing => thing what) else 0 := by
  rw [List.map_const', demand, List.countP_replicate, List.countP_eq_length_filter]
  simp

/-- A request starts each tactic once for each of its entries that match. -/
theorem demand_of_provides {nodeName : String} {folders : List TacticFolder}
    {tactics : List TacticConfig}
    (hlearn : List.Forall₂ (fun folder tactic => provides nodeName folder = some tactic)
      folders tactics) (what name : String) :
    demand (tactics.flatMap fun tactic =>
        (tactic.provides.filter (fun thing => thing what)).map fun _ => tactic) name =
      ((folders.filter fun folder => folder.dirName = name).flatMap fun folder =>
        folder.provides).countP fun entry => matchesEntry nodeName entry what := by
  induction hlearn with
  | nil => rfl
  | @cons folder tactic folders tactics hprovides _ ih =>
      obtain ⟨hname, hcount⟩ := countP_of_provides hprovides what
      rw [List.flatMap_cons, demand_append, ih, demand_executions_cons, hcount, hname,
        List.filter_cons]
      by_cases hfolder : folder.dirName = name <;> simp [hfolder, matching]

theorem entriesRight_iff {nodeName what : String} {folder : TacticFolder} :
    EntriesRight nodeName what folder ↔ matching nodeName what folder =
      if folder.provides.any fun entry => matchesWhole nodeName entry what then 1 else 0 := by
  have hpos : 0 < matching nodeName what folder ↔
      ∃ entry ∈ folder.provides, matchesEntry nodeName entry what := List.countP_pos_iff
  have hright : (folder.provides.any fun entry => matchesWhole nodeName entry what) = true ↔
      ∃ entry ∈ folder.provides, matchesWhole nodeName entry what := List.any_eq_true
  constructor
  · rintro ⟨honce, hwhole, hliteral⟩
    replace honce : matching nodeName what folder ≤ 1 := honce
    split
    next hany =>
      obtain ⟨entry, hentry, hmatch⟩ := hright.mp hany
      have hsome : ∃ other ∈ folder.provides, matchesEntry nodeName other what := by
        by_cases hplain : escape nodeName.toList = nodeName.toList
        · exact ⟨entry, hentry, matchesEntry_of_matchesWhole hplain hmatch⟩
        · exact hliteral hplain entry hentry hmatch
      exact Nat.le_antisymm honce (hpos.mpr hsome)
    next hany =>
      have hnone : ¬ 0 < matching nodeName what folder := by
        intro hmatching
        obtain ⟨entry, hentry, hmatch⟩ := hpos.mp hmatching
        exact hany (hright.mpr (hwhole entry hentry hmatch))
      exact Nat.eq_zero_of_not_pos hnone
  · intro hcount
    constructor
    case once =>
      change matching nodeName what folder ≤ 1
      rw [hcount]
      split <;> decide
    case whole =>
      intro entry hentry hmatch
      have hmatching := hpos.mpr ⟨entry, hentry, hmatch⟩
      rw [hcount] at hmatching
      split at hmatching
      next hany => exact hright.mp hany
      next => cases hmatching
    case literal =>
      intro _ entry hentry hmatch
      rw [if_pos (hright.mpr ⟨entry, hentry, hmatch⟩)] at hcount
      exact hpos.mp (hcount ▸ Nat.zero_lt_one)

theorem filter_dirName_of_mem {folders : List TacticFolder}
    (hnodup : (folders.map fun folder => folder.dirName).Nodup) {folder : TacticFolder}
    (hfolder : folder ∈ folders) :
    folders.filter (fun other => other.dirName = folder.dirName) = [folder] := by
  induction folders with
  | nil => cases hfolder
  | cons first rest ih =>
      rw [List.map_cons, List.nodup_cons] at hnodup
      rcases List.mem_cons.mp hfolder with rfl | hrest
      · rw [List.filter_cons_of_pos (by simp), List.filter_eq_nil_iff.mpr]
        intro other hother hname
        exact hnodup.1 (List.mem_map.mpr ⟨other, hother, of_decide_eq_true hname⟩)
      · rw [List.filter_cons_of_neg, ih hnodup.2 hrest]
        intro hname
        exact hnodup.1 (List.mem_map.mpr ⟨folder, hrest, (of_decide_eq_true hname).symm⟩)

/-- Every tactic is started as often as it should be exactly if the entries of all
folders do what they are meant to do. -/
theorem forall_demand_iff {nodeName : String} {folders : TacticFolders}
    {tactics : List TacticConfig} (hlearn : learnAboutTactics nodeName folders = some tactics)
    (what : String) :
    (∀ name, demand (tactics.flatMap fun tactic =>
        (tactic.provides.filter (fun thing => thing what)).map fun _ => tactic) name =
      if folders.isRight nodeName what name then 1 else 0) ↔
      ∀ folder ∈ folders.list, EntriesRight nodeName what folder := by
  simp only [demand_of_provides (forall₂_of_mapM hlearn), entriesRight_iff,
    TacticFolders.isRight, ← List.any_filter]
  constructor
  · intro hall folder hfolder
    have hname := hall folder.dirName
    simpa [filter_dirName_of_mem folders.nodup hfolder, matching] using hname
  · intro hall name
    by_cases hmem : ∃ folder ∈ folders.list, folder.dirName = name
    · obtain ⟨folder, hfolder, rfl⟩ := hmem
      simpa [filter_dirName_of_mem folders.nodup hfolder, matching] using hall folder hfolder
    · have hnone : folders.list.filter (fun folder => folder.dirName = name) = [] := by
        rw [List.filter_eq_nil_iff]
        intro folder hfolder hname
        exact hmem ⟨folder, hfolder, of_decide_eq_true hname⟩
      rw [hnone]
      rfl

/-! ## What threads are -/

/-- What a thread stays from its start on. -/
def kinds (state : Pool.State) : List (TacticConfig × Bool) :=
  state.threads.map fun thread => (thread.config, thread.isDaemon)

/-- Threads of tactics from a list may have been started. -/
def Grown (tactics : List TacticConfig) (state next : Pool.State) : Prop :=
  ∃ new : List (TacticConfig × Bool), kinds next = kinds state ++ new ∧
    ∀ kind ∈ new, kind.1 ∈ tactics

variable {config : PoolConfig α} {state next : Pool.State} {handed : List (Handed α)}
  {tactics : List TacticConfig}

theorem Grown.of_eq (heq : kinds next = kinds state) : Grown tactics state next :=
  ⟨[], by rw [heq, List.append_nil], by simp⟩

theorem Grown.trans {middle : Pool.State} (hfirst : Grown tactics state middle)
    (hlast : Grown tactics middle next) : Grown tactics state next := by
  obtain ⟨new, hkinds, hnew⟩ := hfirst
  obtain ⟨newer, hnext, hnewer⟩ := hlast
  refine ⟨new ++ newer, by rw [hnext, hkinds, List.append_assoc], fun kind hkind => ?_⟩
  exact (List.mem_append.mp hkind).elim (hnew kind) (hnewer kind)

theorem Grown.mono {others : List TacticConfig} (hgrown : Grown tactics state next)
    (hsubset : tactics ⊆ others) : Grown others state next := by
  obtain ⟨new, hkinds, hnew⟩ := hgrown
  exact ⟨new, hkinds, fun kind hkind => hsubset (hnew kind hkind)⟩

/-- A thread that has been started stays what it is. -/
theorem Grown.exists_thread (hgrown : Grown tactics state next) {index : ℕ}
    {thread : TacticThread} (hfound : state.threads[index]? = some thread) :
    ∃ after : TacticThread, next.threads[index]? = some after ∧ after.config = thread.config ∧
      after.isDaemon = thread.isDaemon := by
  obtain ⟨new, hkinds, _⟩ := hgrown
  have hkind : (kinds state)[index]? = some (thread.config, thread.isDaemon) := by
    rw [kinds, List.getElem?_map, hfound]
    rfl
  have hnext : (kinds next)[index]? = some (thread.config, thread.isDaemon) := by
    rw [hkinds, List.getElem?_append_left (List.getElem?_eq_some_iff.mp hkind).1, hkind]
  rw [kinds, List.getElem?_map] at hnext
  obtain ⟨after, hafter, hsame⟩ := Option.map_eq_some_iff.mp hnext
  exact ⟨after, hafter, Prod.mk.inj hsame⟩

theorem kinds_setThread {index : ℕ} {thread new : TacticThread}
    (hfound : state.threads[index]? = some thread) (hconfig : new.config = thread.config)
    (hdaemon : new.isDaemon = thread.isDaemon) :
    kinds (state.setThread index new) = kinds state := by
  apply List.ext_getElem?
  intro other
  rw [kinds, kinds, Pool.State.setThread, List.getElem?_map, List.getElem?_map]
  by_cases hself : index = other
  · subst hself
    rw [List.getElem?_set_self (List.getElem?_eq_some_iff.mp hfound).1, hfound, Option.map_some,
      Option.map_some, hconfig, hdaemon]
  · rw [List.getElem?_set_ne hself]

theorem newTactic_kinds {index : ℕ} {userInfo : String} {what : Option String}
    (hok : Pool.newTactic config state index userInfo what = .ok (next, handed)) :
    kinds next = kinds state := by
  obtain ⟨thread, _, hfound, rfl, _⟩ := Pool.newTactic_cases hok
  have hkinds : kinds (state.setThread index { thread with delegate := some state.tactics.length })
      = kinds state := kinds_setThread hfound rfl rfl
  exact hkinds

theorem tacticThreadReady_kinds {index : ℕ} {thread : TacticThread}
    (hfound : state.threads[index]? = some thread)
    (hok : Pool.tacticThreadReady config state index = .ok (next, handed)) :
    kinds next = kinds state := by
  rcases Pool.tacticThreadReady_cases hfound hok with
    ⟨queue, _, _, _, rfl, _⟩ | ⟨queue, request, _, _, hserve⟩
  · rfl
  · exact (newTactic_kinds hserve).trans rfl

theorem spawnExecutionFor_grown {tactic : TacticConfig} {request : Request}
    (hok : Pool.spawnExecutionFor config state tactic request = .ok (next, handed)) :
    Grown [tactic] state next := by
  rcases Pool.spawnExecutionFor_cases hok with
    ⟨queue, _, _, _, rfl, _⟩ | ⟨queue, index, _, _, hserve⟩
  · refine ⟨[(tactic, false)], ?_, by simp⟩
    simp [kinds, Pool.State.setPool, Pool.newThread]
  · exact .of_eq ((newTactic_kinds hserve).trans rfl)

theorem spawnExecutions_grown {request : Request}
    (hok : Pool.spawnExecutions config request tactics state = .ok (next, handed)) :
    Grown tactics state next := by
  induction tactics generalizing state handed with
  | nil =>
      obtain ⟨rfl, rfl⟩ := Prod.mk.inj (Except.ok.inj hok)
      exact .of_eq rfl
  | cons tactic rest ih =>
      obtain ⟨middle, first, others, hfirst, hothers, rfl⟩ := Pool.spawnExecutions_cons hok
      exact ((spawnExecutionFor_grown hfirst).mono (by simp)).trans ((ih hothers).mono (by simp))

theorem mem_of_mem_executions {what : String} {tactic : TacticConfig}
    (htactic : tactic ∈ executions config what) :
    tactic ∈ config.tactics ∧ tactic.provides.any fun thing => thing what := by
  obtain ⟨found, hfound, hmem⟩ := List.mem_flatMap.mp htactic
  obtain ⟨thing, hthing, rfl⟩ := List.mem_map.mp hmem
  obtain ⟨hprovides, hmatch⟩ := List.mem_filter.mp hthing
  exact ⟨hfound, List.any_eq_true.mpr ⟨thing, hprovides, hmatch⟩⟩

/-- No event changes what a thread is. -/
theorem step_grown [DecidableEq α] {event : Pool.Event α}
    (hok : Pool.step config state event = .ok (next, handed)) :
    Grown config.tactics state next := by
  cases event with
  | exploreTruthSpaceFor request =>
      apply (spawnExecutions_grown hok).mono
      exact fun tactic htactic => (mem_of_mem_executions htactic).1
  | connect index =>
      obtain ⟨thread, hfound, _, hready⟩ := Pool.registerReadyForDuty_cases hok
      have hconnected : kinds (state.setThread index { thread with script := .connected }) =
          kinds state := kinds_setThread hfound rfl rfl
      apply Grown.of_eq
      rw [← hconnected]
      split at hready
      next => exact newTactic_kinds hready
      next =>
        have hlength : index < state.threads.length := (List.getElem?_eq_some_iff.mp hfound).1
        exact tacticThreadReady_kinds (List.getElem?_set_self hlength) hready
  | receivedData index data =>
      obtain ⟨thread, tactic, object, hfound, _, _, _, hdata⟩ := Pool.receivedData_cases hok
      apply Grown.of_eq
      split at hdata
      next =>
        have hreleased : kinds (state.release index thread tactic object) = kinds state := by
          apply kinds_setThread hfound
          all_goals rfl
        have hlength : index < state.threads.length := (List.getElem?_eq_some_iff.mp hfound).1
        rw [← hreleased]
        exact tacticThreadReady_kinds (List.getElem?_set_self hlength) hdata
      next => rw [hdata.1]
  | neededTruth tactic facts =>
      obtain ⟨_, _, _, rfl, _⟩ := Pool.neededTruth_cases hok
      exact .of_eq rfl
  | stopTimer tactic =>
      obtain ⟨object, _, _, rfl, _⟩ := Pool.stopTimer_cases hok
      exact .of_eq rfl
  | unbind index =>
      obtain ⟨thread, hfound, _, rfl, _⟩ := Pool.terminated_cases hok
      exact .of_eq (kinds_setThread hfound rfl rfl)

/-- Every thread runs a tactic that the pool has learned about. -/
def Known (config : PoolConfig α) (state : Pool.State) : Prop :=
  ∀ kind ∈ kinds state, kind.1 ∈ config.tactics

theorem Grown.known (hgrown : Grown config.tactics state next) (hstate : Known config state) :
    Known config next := by
  obtain ⟨new, hkinds, hnew⟩ := hgrown
  intro kind hkind
  rw [hkinds] at hkind
  exact (List.mem_append.mp hkind).elim (hstate kind) (hnew kind)

theorem known_of_run [DecidableEq α]
    {steps : List (Transition Pool.State (Pool.Event α) (List (Handed α)))}
    (hrun : PoolRun config steps state) : Known config state := by
  apply Run.invariant hrun
  · intro kind hkind
    obtain ⟨thread, hthread, rfl⟩ := List.mem_map.mp hkind
    obtain ⟨tactic, htactic, rfl⟩ := List.mem_map.mp hthread
    exact (List.mem_filter.mp htactic).1
  · exact fun _ _ _ _ hstate hok => (step_grown hok).known hstate

/-! ## What a request starts -/

/-- The executions from a list have been started for a request. -/
structure Spawned (request : Request) (tactics : List TacticConfig) (state next : Pool.State)
    (made : List TacticObject) : Prop where
  objects : next.tactics = state.tactics ++ made
  requested : ∀ object ∈ made, object.what = some request.what ∧
    object.userInfo = request.userInfo
  counted : ∀ name, ∃ waiting,
    (next.pool name).popq = (state.pool name).popq ++ List.replicate waiting request ∧
      made.countP (isFor next name) + waiting = demand tactics name

theorem Grown.isFor_eq (hgrown : Grown tactics state next) {object : TacticObject}
    {thread : TacticThread} (hfound : state.threads[object.thread]? = some thread) (name : String) :
    isFor next name object = (thread.config.dirName = name : Bool) := by
  obtain ⟨after, hafter, hconfig, _⟩ := hgrown.exists_thread hfound
  rw [isFor, hafter, Option.any_some, hconfig]

/-- One more request waits in the queue of a directory. -/
theorem Spawned.waiting {request : Request} {tactic : TacticConfig} {queue : PopQueue ℕ Request}
    {made : List TacticObject} (hpopq : queue.popq = (state.pool tactic.dirName).popq ++ [request])
    (hspawned : Spawned request tactics
      ((Pool.newThread state tactic false).setPool tactic.dirName queue) next made) :
    Spawned request (tactic :: tactics) state next made := by
  obtain ⟨hobjects, hrequested, hcounted⟩ := hspawned
  refine ⟨hobjects, hrequested, fun name => ?_⟩
  obtain ⟨waiting, hwaiting, hcount⟩ := hcounted name
  by_cases hname : name = tactic.dirName
  · subst hname
    refine ⟨waiting + 1, ?_, ?_⟩
    · rw [hwaiting, Pool.State.setPool_self, hpopq, List.append_assoc, List.replicate_succ]
      rfl
    · rw [Pool.demand_cons, if_pos rfl, ← hcount, Nat.add_assoc]
  · refine ⟨waiting, ?_, ?_⟩
    · rw [hwaiting, Pool.State.setPool_of_ne _ hname]
      rfl
    · rw [Pool.demand_cons, if_neg (Ne.symm hname), ← hcount, Nat.add_zero]

/-- An idle thread of a directory has a new object, and no request waits there. -/
theorem Spawned.serving {request : Request} {tactic : TacticConfig} {queue : PopQueue ℕ Request}
    {index : ℕ} {thread : TacticThread} {made : List TacticObject}
    (hnone : (state.pool tactic.dirName).popq = []) (hempty : queue.popq = [])
    (hfound : state.threads[index]? = some thread)
    (hdirName : thread.config.dirName = tactic.dirName)
    (hgrown : Grown (tactic :: tactics) state next)
    (hspawned : Spawned request tactics ((state.setPool tactic.dirName queue).assign index thread
      request.userInfo (some request.what)) next made) :
    Spawned request (tactic :: tactics) state next
      (⟨index, request.userInfo, some request.what, .running⟩ :: made) := by
  obtain ⟨hobjects, hrequested, hcounted⟩ := hspawned
  refine ⟨?_, List.forall_mem_cons.mpr ⟨⟨rfl, rfl⟩, hrequested⟩, fun name => ?_⟩
  · rw [hobjects]
    simp [Pool.State.assign, Pool.State.setPool]
  · obtain ⟨waiting, hwaiting, hcount⟩ := hcounted name
    refine ⟨waiting, ?_, ?_⟩
    · rw [hwaiting]
      by_cases hname : name = tactic.dirName
      · subst hname
        rw [hnone, Pool.State.assign, Pool.State.setPool_self, hempty]
      · rw [Pool.State.assign, Pool.State.setPool_of_ne _ hname]
    · rw [List.countP_cons, hgrown.isFor_eq hfound, hdirName, Pool.demand_cons, ← hcount]
      simp only [decide_eq_true_eq]
      exact Nat.add_right_comm _ _ _

theorem spawnExecutions_spawned {request : Request} (hstate : Pool.Accounted state)
    (hok : Pool.spawnExecutions config request tactics state = .ok (next, handed)) :
    ∃ made, Spawned request tactics state next made := by
  induction tactics generalizing state handed with
  | nil =>
      obtain ⟨rfl, rfl⟩ := Prod.mk.inj (Except.ok.inj hok)
      exact ⟨[], by simp, by simp, fun name => ⟨0, by simp, rfl⟩⟩
  | cons tactic rest ih =>
      obtain ⟨middle, first, others, hfirst, hothers, rfl⟩ := Pool.spawnExecutions_cons hok
      obtain ⟨made, hspawned⟩ := ih (Pool.spawnExecutionFor_spec hstate hfirst).1 hothers
      rcases Pool.spawnExecutionFor_cases hfirst with
        ⟨queue, _, _, hpopq, rfl, _⟩ | ⟨queue, index, hempty, hitems, hserve⟩
      · exact ⟨made, hspawned.waiting hpopq⟩
      · obtain ⟨thread, _, hfound, rfl, _⟩ := Pool.newTactic_cases hserve
        obtain ⟨idle, hidle, _, _, hdirName⟩ :=
          hstate.idle_of_item tactic.dirName index (by simp [hitems])
        obtain rfl := Option.some.inj (hidle.symm.trans hfound)
        have hnone : (state.pool tactic.dirName).popq = [] :=
          (state.pool tactic.dirName).one_empty.resolve_left (by simp [hitems])
        exact ⟨_, hspawned.serving hnone hempty hidle hdirName (spawnExecutions_grown hok)⟩

/-- What a request has started is one execution after another of the same request. -/
theorem Spawned.started_eq {request : Request} {made : List TacticObject}
    (hspawned : Spawned request tactics state next made) (name : String) :
    started state next name =
      List.replicate (demand tactics name) (some request.what, request.userInfo) := by
  obtain ⟨hobjects, hrequested, hcounted⟩ := hspawned
  obtain ⟨waiting, hwaiting, hcount⟩ := hcounted name
  have hmade : (made.filter (isFor next name)).map (fun object => (object.what, object.userInfo)) =
      List.replicate (made.countP (isFor next name)) (some request.what, request.userInfo) := by
    rw [List.eq_replicate_iff, List.length_map, List.countP_eq_length_filter]
    refine ⟨rfl, fun execution hexecution => ?_⟩
    obtain ⟨object, hobject, rfl⟩ := List.mem_map.mp hexecution
    obtain ⟨hwhat, huser⟩ := hrequested object (List.mem_filter.mp hobject).1
    rw [hwhat, huser]
  rw [started, hobjects, hwaiting, List.drop_left, List.drop_left, hmade, List.map_replicate,
    List.replicate_append_replicate, hcount]

/-! ## Requests that can be read -/

/-- The pool knows the tactics by the names of their directories. -/
def DistinctNames (config : PoolConfig α) : Prop :=
  ∀ tactic ∈ config.tactics, ∀ other ∈ config.tactics, tactic.dirName = other.dirName →
    tactic = other

theorem spawnExecutionFor_of_nil {tactic : TacticConfig} {request : Request}
    (hitems : (state.pool tactic.dirName).items = []) :
    ∃ next handed, Pool.spawnExecutionFor config state tactic request = .ok (next, handed) := by
  cases hqueue : state.pool tactic.dirName with
  | mk items popq hempty =>
      rw [hqueue] at hitems
      subst hitems
      simp [Pool.spawnExecutionFor, Pool.newThread, hqueue, PopQueue.pop]

theorem spawnExecutionFor_of_cons (config : PoolConfig α) {tactic : TacticConfig}
    (request : Request) {index : ℕ} {items : List ℕ}
    (hitems : (state.pool tactic.dirName).items = index :: items) :
    ∃ queue : PopQueue ℕ Request, queue.items = items ∧
      Pool.spawnExecutionFor config state tactic request =
        Pool.serveTacticRequest config (state.setPool tactic.dirName queue) index request := by
  cases hqueue : state.pool tactic.dirName with
  | mk slots popq hempty =>
      rw [hqueue] at hitems
      subst hitems
      exact ⟨⟨items, [], .inr rfl⟩, rfl, by simp [Pool.spawnExecutionFor, hqueue, PopQueue.pop]⟩

theorem newTactic_isOk_iff {index : ℕ} {thread : TacticThread}
    (hfound : state.threads[index]? = some thread) (userInfo : String) {what : String}
    (hprovides : thread.config.provides.any fun thing => thing what) :
    (∃ next handed, Pool.newTactic config state index userInfo (some what) = .ok (next, handed)) ↔
      (magicVariablesFrom what).isSome ∨ isDaemonAt state index := by
  rw [isDaemonAt, hfound, Option.any_some]
  simp only [Pool.newTactic, hfound, Pool.performBootstrapping, Pool.execute, hprovides]
  cases hdaemon : thread.isDaemon <;> cases hvars : magicVariablesFrom what <;>
    simp [bind, Except.bind, Except.map, pure, Except.pure]

theorem Grown.isDaemonAt_eq (hgrown : Grown tactics state next) {index : ℕ} {thread : TacticThread}
    (hfound : state.threads[index]? = some thread) :
    isDaemonAt next index = isDaemonAt state index := by
  obtain ⟨after, hafter, _, hdaemon⟩ := hgrown.exists_thread hfound
  rw [isDaemonAt, isDaemonAt, hafter, hfound, Option.any_some, Option.any_some, hdaemon]

section Reading

variable {request : Request} {tactic : TacticConfig} (hstate : Pool.Accounted state)
  (hknown : Known config state) (hdistinct : DistinctNames config)
  (htactic : tactic ∈ config.tactics ∧ tactic.provides.any fun thing => thing request.what)

include hstate hknown hdistinct htactic

/-- A slot of a tactic is one of its own threads, whose entries are the same. -/
theorem provides_of_item {index : ℕ} (hitem : index ∈ (state.pool tactic.dirName).items) :
    ∃ thread : TacticThread, state.threads[index]? = some thread ∧
      thread.config.provides.any fun thing => thing request.what := by
  obtain ⟨thread, hfound, _, _, hname⟩ := hstate.idle_of_item tactic.dirName index hitem
  have hkind : (thread.config, thread.isDaemon) ∈ kinds state :=
    List.mem_map_of_mem (List.mem_of_getElem? hfound)
  have hconfig : thread.config = tactic := hdistinct _ (hknown _ hkind) _ htactic.1 hname
  exact ⟨thread, hfound, hconfig.symm ▸ htactic.2⟩

theorem spawnExecutionFor_isOk {rest : List TacticConfig}
    (hreadable : Readable state request.what (tactic :: rest)) :
    ∃ next handed, Pool.spawnExecutionFor config state tactic request = .ok (next, handed) := by
  cases hitems : (state.pool tactic.dirName).items with
  | nil => exact spawnExecutionFor_of_nil hitems
  | cons index items =>
      obtain ⟨queue, hqueue, hserve⟩ := spawnExecutionFor_of_cons config request hitems
      rw [← hqueue] at hitems
      have hitem : index ∈ (state.pool tactic.dirName).items := by simp [hitems]
      obtain ⟨thread, hfound, hprovides⟩ :=
        provides_of_item hstate hknown hdistinct htactic hitem
      have hpopped : (state.setPool tactic.dirName queue).threads[index]? = some thread := hfound
      rw [hserve]
      apply (newTactic_isOk_iff hpopped _ hprovides).mpr
      refine hreadable.imp_right fun hdaemons => ?_
      exact hdaemons _ index ((Pool.mem_take_demand_taken hitems rest _ index).mpr
        (.inl ⟨rfl, rfl⟩))

/-- The executions that are left can be read if and only if all can. -/
theorem readable_cons_iff {rest : List TacticConfig}
    (hok : Pool.spawnExecutionFor config state tactic request = .ok (next, handed)) :
    Readable state request.what (tactic :: rest) ↔ Readable next request.what rest := by
  have hgrown := spawnExecutionFor_grown hok
  have hdaemon : ∀ name, ∀ index ∈ (state.pool name).items,
      isDaemonAt next index = isDaemonAt state index := by
    intro name index hitem
    obtain ⟨thread, hfound, _⟩ := hstate.idle_of_item name index hitem
    exact hgrown.isDaemonAt_eq hfound
  rcases Pool.spawnExecutionFor_cases hok with
    ⟨queue, hitems, hempty, _, rfl, _⟩ | ⟨queue, index, _, hitems, hserve⟩
  · apply or_congr_right
    refine forall_congr' fun name => forall_congr' fun index => ?_
    rw [← Pool.mem_take_demand_waiting hitems hempty rest name index]
    refine imp_congr_right fun hitem => ?_
    rw [hdaemon name index (List.mem_of_mem_take hitem)]
  · have hitem : index ∈ (state.pool tactic.dirName).items := by simp [hitems]
    obtain ⟨thread, hfound, hprovides⟩ := provides_of_item hstate hknown hdistinct htactic hitem
    have hpopped : (state.setPool tactic.dirName queue).threads[index]? = some thread := hfound
    have hread := (newTactic_isOk_iff hpopped _ hprovides).mp ⟨_, _, hserve⟩
    obtain ⟨_, _, _, rfl, _⟩ := Pool.newTactic_cases hserve
    have htake := Pool.mem_take_demand_taken hitems rest
    constructor
    · refine Or.imp_right fun hdaemons name other hother => ?_
      have hmem := (htake name other).mpr (.inr hother)
      rw [hdaemon name other (List.mem_of_mem_take hmem)]
      exact hdaemons name other hmem
    · rintro (hvars | hdaemons)
      · exact .inl hvars
      · refine hread.imp_right fun hindex name other hother => ?_
        rw [← hdaemon name other (List.mem_of_mem_take hother)]
        rcases (htake name other).mp hother with ⟨rfl, rfl⟩ | hrest
        · rw [hdaemon _ _ (List.mem_of_mem_take hother)]
          exact hindex
        · exact hdaemons name other hrest

end Reading

/-- The executions of a request are all spawned exactly if all of them can be read. -/
theorem spawnExecutions_isOk_iff {request : Request} (hstate : Pool.Accounted state)
    (hknown : Known config state) (hdistinct : DistinctNames config)
    (htactics : ∀ tactic ∈ tactics,
      tactic ∈ config.tactics ∧ tactic.provides.any fun thing => thing request.what) :
    (∃ next handed, Pool.spawnExecutions config request tactics state = .ok (next, handed)) ↔
      Readable state request.what tactics := by
  induction tactics generalizing state with
  | nil =>
      refine iff_of_true ⟨_, _, rfl⟩ (.inr fun name index hindex => ?_)
      simp [demand] at hindex
  | cons tactic rest ih =>
      obtain ⟨htactic, hrest⟩ := List.forall_mem_cons.mp htactics
      have hmiddle : ∀ {middle : Pool.State} {first : List (Handed α)},
          Pool.spawnExecutionFor config state tactic request = .ok (middle, first) →
          ((∃ next handed, Pool.spawnExecutions config request rest middle = .ok (next, handed)) ↔
            Readable state request.what (tactic :: rest)) := by
        intro middle first hfirst
        have hgrown : Grown config.tactics state middle :=
          (spawnExecutionFor_grown hfirst).mono (by simp [htactic.1])
        rw [readable_cons_iff hstate hknown hdistinct htactic hfirst]
        exact ih (Pool.spawnExecutionFor_spec hstate hfirst).1 (hgrown.known hknown) hrest
      constructor
      · rintro ⟨next, handed, hok⟩
        obtain ⟨middle, first, others, hfirst, hothers, rfl⟩ := Pool.spawnExecutions_cons hok
        exact (hmiddle hfirst).mp ⟨next, others, hothers⟩
      · intro hreadable
        obtain ⟨middle, first, hfirst⟩ :=
          spawnExecutionFor_isOk hstate hknown hdistinct htactic hreadable
        obtain ⟨next, others, hothers⟩ := (hmiddle hfirst).mpr hreadable
        exact ⟨next, first ++ others, bind_eq_ok.mpr
          ⟨(middle, first), hfirst, bind_eq_ok.mpr ⟨(next, others), hothers, rfl⟩⟩⟩

/-! ## The right tactics are executed -/

theorem map_dirName_of_provides {nodeName : String} {folders : List TacticFolder}
    (hlearn : List.Forall₂ (fun folder tactic => provides nodeName folder = some tactic)
      folders tactics) :
    tactics.map (fun tactic => tactic.dirName) = folders.map fun folder => folder.dirName := by
  induction hlearn with
  | nil => rfl
  | cons hprovides _ ih =>
      rw [List.map_cons, List.map_cons, ih, (countP_of_provides hprovides "").1]

theorem distinctNames_of_learn {folders : TacticFolders}
    (hlearn : learnAboutTactics config.nodeName folders = some config.tactics) :
    DistinctNames config := by
  have hnodup : (config.tactics.map fun tactic => tactic.dirName).Nodup := by
    rw [map_dirName_of_provides (forall₂_of_mapM hlearn)]
    exact folders.nodup
  exact fun tactic htactic other hother => List.inj_on_of_nodup_map hnodup htactic hother

variable [DecidableEq α] {steps : List (Transition Pool.State (Pool.Event α) (List (Handed α)))}

theorem executesRight_iff_demand {folders : TacticFolders}
    (hlearn : learnAboutTactics config.nodeName folders = some config.tactics)
    (hrun : PoolRun config steps state) (request : Request) :
    ExecutesRight config folders state request ↔
      Readable state request.what (executions config request.what) ∧
        ∀ name, demand (executions config request.what) name =
          if folders.isRight config.nodeName request.what name then 1 else 0 := by
  have hstate := Pool.PoolRun.accounted hrun
  have hreadable : (∃ next handed,
      Pool.exploreTruthSpaceFor config state request = .ok (next, handed)) ↔
        Readable state request.what (executions config request.what) :=
    spawnExecutions_isOk_iff hstate (known_of_run hrun) (distinctNames_of_learn hlearn)
      fun tactic htactic => mem_of_mem_executions htactic
  have hstarted : ∀ {next handed},
      Pool.exploreTruthSpaceFor config state request = .ok (next, handed) → ∀ name,
      (started state next name =
        (if folders.isRight config.nodeName request.what name then
          [(some request.what, request.userInfo)]
        else []) ↔
      demand (executions config request.what) name =
        if folders.isRight config.nodeName request.what name then 1 else 0) := by
    intro next handed hok name
    obtain ⟨made, hspawned⟩ := spawnExecutions_spawned hstate hok
    have hone : ∀ isRight : Bool, (if isRight then [(some request.what, request.userInfo)] else [])
        = List.replicate (if isRight then 1 else 0) (some request.what, request.userInfo) := by
      intro isRight
      cases isRight <;> rfl
    rw [hspawned.started_eq name, hone, List.replicate_inj]
    exact and_iff_left (.inr rfl)
  constructor
  · rintro ⟨next, handed, hok, hright⟩
    exact ⟨hreadable.mp ⟨next, handed, hok⟩, fun name => (hstarted hok name).mp (hright name)⟩
  · rintro ⟨hread, hdemand⟩
    obtain ⟨next, handed, hok⟩ := hreadable.mpr hread
    exact ⟨next, handed, hok, fun name => (hstarted hok name).mpr (hdemand name)⟩

/-- A request executes the right tactics exactly if the entries of all folders do
what they are meant to do, and the executions can be read. -/
theorem executesRight_iff {folders : TacticFolders}
    (hlearn : learnAboutTactics config.nodeName folders = some config.tactics)
    (hrun : PoolRun config steps state) (request : Request) :
    ExecutesRight config folders state request ↔
      Readable state request.what (executions config request.what) ∧
        ∀ folder ∈ folders.list, EntriesRight config.nodeName request.what folder := by
  rw [executesRight_iff_demand hlearn hrun request]
  exact and_congr_right fun _ => forall_demand_iff hlearn request.what

/-! ## A secret for another domain -/

def secretFolders : TacticFolders where
  list := [⟨"shared_secret", "shared_secret", ["shared_secret-([[:graph:]]*)@Local"], false⟩]
  nodup := by decide

def secretPool : PoolConfig String where
  nodeName := "alpha"
  tactics := (learnAboutTactics "alpha" secretFolders).getD []
  literals := ⟨id, fun value => toString value, fun value => toString value, "null"⟩

theorem learnAboutTactics_secretFolders :
    learnAboutTactics secretPool.nodeName secretFolders = some secretPool.tactics := by
  rfl

theorem executesRight_iff_secret :
    ExecutesRight secretPool secretFolders (Pool.initial secretPool)
      ⟨"shared_secret-iodined@alpha", "carol"⟩ := by
  rw [executesRight_iff learnAboutTactics_secretFolders .start]
  refine ⟨.inl (by decide), fun folder hfolder => entriesRight_iff.mpr ?_⟩
  obtain rfl := List.mem_singleton.mp hfolder
  decide

theorem not_executesRight_alphabet :
    ¬ ∀ (folders : TacticFolders) (config : PoolConfig String)
      (steps : List (Transition Pool.State (Pool.Event String) (List (Handed String))))
      (state : Pool.State), learnAboutTactics config.nodeName folders = some config.tactics →
      PoolRun config steps state → ∀ request, ExecutesRight config folders state request := by
  intro hclaim
  have hright := hclaim secretFolders secretPool [] _ learnAboutTactics_secretFolders .start
    ⟨"shared_secret-iodined@alphabet", "carol"⟩
  have hdemand := ((executesRight_iff_demand learnAboutTactics_secretFolders .start _).mp hright).2
    "shared_secret"
  revert hdemand
  decide

end Signpost.Provides

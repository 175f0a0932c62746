import Signpost.Tactic.Termination

/-! # First come, first served

A request is served by whichever thread of its directory is ready first. The requests for a
directory still get their threads in the order in which they are made, each of them one.
-/

namespace Signpost.Pool

open Machine

variable {α : Type}

/-! ## What is asked for and what is served -/

/-- A request comes once for each execution in the directory. -/
def spawnedIn (name : String) (request : Request) (tactics : List TacticConfig) : List Request :=
  (tactics.filter fun tactic => tactic.dirName = name).map fun _ => request

def askedBy (config : PoolConfig α) (name : String) : Event α → List Request
  | .exploreTruthSpaceFor request => spawnedIn name request (executions config request.what)
  | .connect _ => []
  | .receivedData _ _ => []
  | .neededTruth _ _ => []
  | .stopTimer _ => []
  | .unbind _ => []

def asked (config : PoolConfig α) (name : String)
    (steps : List (Transition State (Event α) (List (Handed α)))) : List Request :=
  steps.flatMap fun now => askedBy config name now.input

/-- The object of a daemon has no request. -/
def TacticObject.request (object : TacticObject) : Option Request :=
  object.what.map fun what => ⟨what, object.userInfo⟩

def dirNameOf (state : State) (index : ℕ) : Option String :=
  state.threads[index]?.map fun thread => thread.config.dirName

/-- The requests that have got a thread of the directory. Objects are in the order in which
they were created. -/
def servedIn (state : State) (name : String) : List Request :=
  state.tactics.filterMap fun object =>
    if dirNameOf state object.thread = some name then object.request else none

/-- All requests for the directory that have not been forgotten. -/
def inLine (state : State) (name : String) : List Request :=
  servedIn state name ++ (state.pool name).popq

def Placed (state : State) : Prop :=
  ∀ object ∈ state.tactics, object.thread < state.threads.length

/-! ## Changes of the state -/

/-- An entry is replaced by one that is mapped to the same. -/
theorem filterMap_set {τ υ : Type} {f : τ → Option υ} {list : List τ} {index : ℕ} {old new : τ}
    (hold : list[index]? = some old) (hsame : f new = f old) :
    (list.set index new).filterMap f = list.filterMap f := by
  induction list generalizing index with
  | nil => cases hold
  | cons first rest ih =>
      cases index with
      | zero =>
          obtain rfl := Option.some.inj hold
          rw [List.set_cons_zero, List.filterMap_cons, List.filterMap_cons, hsame]
      | succ index =>
          rw [List.set_cons_succ, List.filterMap_cons, List.filterMap_cons, ih hold]

section

variable {state next : State} {name : String} {index : ℕ} {thread : TacticThread}

/-- Objects are added, and the threads of the others stay in their directories. -/
theorem servedIn_append {added : List TacticObject}
    (htactics : next.tactics = state.tactics ++ added)
    (hsame : ∀ object ∈ state.tactics,
      dirNameOf next object.thread = dirNameOf state object.thread) :
    servedIn next name = servedIn state name ++ added.filterMap fun object =>
      if dirNameOf next object.thread = some name then object.request else none := by
  rw [servedIn, htactics, List.filterMap_append, servedIn]
  congr 1
  exact List.filterMap_congr fun object hobject => by rw [hsame object hobject]

theorem servedIn_of_tactics (htactics : next.tactics = state.tactics)
    (hsame : ∀ object ∈ state.tactics,
      dirNameOf next object.thread = dirNameOf state object.thread) :
    servedIn next name = servedIn state name := by
  have hnone : next.tactics = state.tactics ++ [] := htactics.trans (List.append_nil _).symm
  rw [servedIn_append hnone hsame]
  exact List.append_nil _

theorem dirNameOf_set {new : TacticThread} (hfound : state.threads[index]? = some thread)
    (hconfig : new.config = thread.config) (other : ℕ) :
    dirNameOf (state.setThread index new) other = dirNameOf state other := by
  unfold dirNameOf State.setThread
  by_cases hself : index = other
  · subst hself
    have hlength := (List.getElem?_eq_some_iff.mp hfound).1
    rw [List.getElem?_set_self hlength, hfound, Option.map_some, Option.map_some, hconfig]
  · rw [List.getElem?_set_ne hself]

theorem servedIn_setThread {new : TacticThread} (hfound : state.threads[index]? = some thread)
    (hconfig : new.config = thread.config) :
    servedIn (state.setThread index new) name = servedIn state name :=
  servedIn_of_tactics rfl fun object _ => dirNameOf_set hfound hconfig object.thread

theorem Placed.setThread (hplaced : Placed state) (new : TacticThread) :
    Placed (state.setThread index new) := by
  intro object hobject
  rw [State.setThread, List.length_set]
  exact hplaced object hobject

theorem servedIn_assign (hfound : state.threads[index]? = some thread) (userInfo : String)
    (what : Option String) :
    servedIn (state.assign index thread userInfo what) name = servedIn state name ++
      if thread.config.dirName = name then (what.map fun what => ⟨what, userInfo⟩).toList
      else [] := by
  have hsame : ∀ other, dirNameOf (state.assign index thread userInfo what) other =
      dirNameOf state other :=
    @dirNameOf_set state index thread { thread with delegate := some state.tactics.length }
      hfound rfl
  have htactics : (state.assign index thread userInfo what).tactics =
      state.tactics ++ [⟨index, userInfo, what, .running⟩] := rfl
  rw [servedIn_append htactics fun object _ => hsame _]
  have hindex : dirNameOf state index = some thread.config.dirName := by
    rw [dirNameOf, hfound, Option.map_some]
  congr 1
  by_cases hname : thread.config.dirName = name
  · cases what with
    | none => simp [hsame, hindex, hname, TacticObject.request]
    | some what => simp [hsame, hindex, hname, TacticObject.request]
  · simp [hsame, hindex, hname]

theorem Placed.assign (hplaced : Placed state) (hfound : state.threads[index]? = some thread)
    (userInfo : String) (what : Option String) :
    Placed (state.assign index thread userInfo what) := by
  intro object hobject
  rw [State.assign, List.length_set]
  rcases List.mem_append.mp hobject with hold | hnew
  · exact hplaced object hold
  · obtain rfl := List.mem_singleton.mp hnew
    exact (List.getElem?_eq_some_iff.mp hfound).1

/-- An object changes its lifetime. -/
theorem servedIn_setTactic {tactic : ℕ} {object : TacticObject}
    (hobject : state.tactics[tactic]? = some object) (lifetime : Lifetime) :
    servedIn (state.setTactic tactic { object with lifetime := lifetime }) name =
      servedIn state name := by
  refine filterMap_set hobject ?_
  rfl

theorem Placed.setTactic {tactic : ℕ} {object : TacticObject} (hplaced : Placed state)
    (hobject : state.tactics[tactic]? = some object) (lifetime : Lifetime) :
    Placed (state.setTactic tactic { object with lifetime := lifetime }) := by
  intro changed hchanged
  rcases List.mem_or_eq_of_mem_set hchanged with hold | rfl
  · exact hplaced changed hold
  · exact hplaced object (List.mem_of_getElem? hobject)

theorem servedIn_newThread (hplaced : Placed state) (tactic : TacticConfig) :
    servedIn (newThread state tactic false) name = servedIn state name := by
  refine servedIn_of_tactics rfl fun object hobject => ?_
  rw [dirNameOf, Pool.newThread, List.getElem?_append_left (hplaced object hobject), dirNameOf]

theorem Placed.newThread (hplaced : Placed state) (tactic : TacticConfig) :
    Placed (newThread state tactic false) := by
  intro object hobject
  simp only [Pool.newThread, List.length_append]
  exact Nat.lt_add_right _ (hplaced object hobject)

end

/-! ## What the operations do to the line -/

/-- Requests join the lines of their directories at the end, and nobody leaves. -/
structure Joined (state next : State) (joining : String → List Request) : Prop where
  placed : Placed next
  line : ∀ name, inLine next name = inLine state name ++ joining name

section

variable {config : PoolConfig α} {state next : State} {handed : List (Handed α)}

theorem joined_refl (hplaced : Placed state) : Joined state state fun _ => [] :=
  ⟨hplaced, fun _ => (List.append_nil _).symm⟩

/-- A thread of a directory is given to a request, and the queue changes. -/
theorem inLine_serve {index : ℕ} {thread : TacticThread} {queue : PopQueue ℕ Request}
    {request : Request} (hfound : state.threads[index]? = some thread) (hplaced : Placed state)
    (hok : newTactic config (state.setPool thread.config.dirName queue) index request.userInfo
      (some request.what) = .ok (next, handed)) :
    Placed next ∧ ∀ name, inLine next name =
      if name = thread.config.dirName then servedIn state name ++ request :: queue.popq
      else inLine state name := by
  obtain ⟨given, _, hgiven, rfl, _⟩ := newTactic_cases hok
  obtain rfl := Option.some.inj (hfound.symm.trans hgiven)
  have hbefore : Placed (state.setPool thread.config.dirName queue) := hplaced
  refine ⟨hbefore.assign hgiven _ _, fun name => ?_⟩
  rw [inLine, servedIn_assign hgiven]
  by_cases hname : name = thread.config.dirName
  · subst hname
    simp [State.assign, servedIn, dirNameOf, State.setPool]
  · simp [State.assign, servedIn, dirNameOf, State.setPool, inLine, hname, Ne.symm hname]

/-- A thread that is ready takes the first one in line, if there is one. -/
theorem joined_ready {index : ℕ} {thread : TacticThread}
    (hfound : state.threads[index]? = some thread) (hplaced : Placed state)
    (hok : tacticThreadReady config state index = .ok (next, handed)) :
    Joined state next fun _ => [] := by
  rcases tacticThreadReady_cases hfound hok with
    ⟨queue, hnobody, _, hempty, rfl, -⟩ | ⟨queue, request, _, hpopq, hserve⟩
  -- nobody is in line, and the thread is queued itself
  · refine ⟨hplaced, fun name => ?_⟩
    rw [List.append_nil]
    by_cases hname : name = thread.config.dirName
    · subst hname
      rw [inLine, State.setPool_self, hempty, ← hnobody]
      rfl
    · rw [inLine, State.setPool_of_ne _ hname]
      rfl
  · obtain ⟨hplacedNext, hline⟩ := inLine_serve hfound hplaced hserve
    refine ⟨hplacedNext, fun name => ?_⟩
    rw [hline, List.append_nil]
    split
    next hname =>
      subst hname
      rw [inLine, hpopq]
    next => rfl

theorem joined_spawnExecutionFor (hplaced : Placed state) (haccounted : Accounted state)
    {tactic : TacticConfig} {request : Request}
    (hok : spawnExecutionFor config state tactic request = .ok (next, handed)) :
    Joined state next fun name => spawnedIn name request [tactic] := by
  rcases spawnExecutionFor_cases hok with
    ⟨queue, _, _, hpopq, rfl, -⟩ | ⟨queue, index, hempty, hitems, hserve⟩
  -- no thread is idle, so one is started and the request waits
  · refine ⟨hplaced.newThread tactic, fun name => ?_⟩
    by_cases hname : tactic.dirName = name
    · subst hname
      rw [inLine, State.setPool_self, hpopq, ← List.append_assoc]
      congr 1
      · exact congrArg (· ++ _) (servedIn_newThread hplaced tactic)
      · simp [spawnedIn]
    · rw [inLine, State.setPool_of_ne _ (Ne.symm hname)]
      simp only [spawnedIn, hname, decide_false, List.filter_cons_of_neg, Bool.false_eq_true,
        not_false_eq_true, List.filter_nil, List.map_nil, List.append_nil]
      exact congrArg (· ++ _) (servedIn_newThread hplaced tactic)
  · -- a thread of the directory was idle, so nobody was waiting for it
    obtain ⟨thread, hfound, _, _, hname⟩ :=
      haccounted.idle_of_item tactic.dirName index (by simp [hitems])
    have hnobody : (state.pool tactic.dirName).popq = [] :=
      (state.pool tactic.dirName).one_empty.resolve_left (by simp [hitems])
    rw [← hname] at hserve hnobody
    obtain ⟨hplacedNext, hline⟩ := inLine_serve hfound hplaced hserve
    refine ⟨hplacedNext, fun name => ?_⟩
    rw [hline]
    by_cases hsame : name = thread.config.dirName
    · subst hsame
      rw [if_pos rfl, inLine, hnobody, hempty, List.append_nil]
      simp [spawnedIn, hname]
    · simp [hsame, spawnedIn, ← hname, Ne.symm hsame]

theorem Joined.trans {middle : State} {first second : String → List Request}
    (hfirst : Joined state middle first) (hsecond : Joined middle next second) :
    Joined state next fun name => first name ++ second name :=
  ⟨hsecond.placed, fun name => by
    rw [hsecond.line, hfirst.line, List.append_assoc]⟩

theorem joined_spawnExecutions (hplaced : Placed state) (haccounted : Accounted state)
    {request : Request} {tactics : List TacticConfig}
    (hok : spawnExecutions config request tactics state = .ok (next, handed)) :
    Joined state next fun name => spawnedIn name request tactics := by
  induction tactics generalizing state handed with
  | nil =>
      obtain ⟨rfl, -⟩ := Prod.mk.inj (Except.ok.inj hok)
      exact joined_refl hplaced
  | cons tactic rest ih =>
      obtain ⟨middle, first, others, hfirst, hothers, -⟩ := spawnExecutions_cons hok
      have hjoined := joined_spawnExecutionFor hplaced haccounted hfirst
      have hrest := ih hjoined.placed (spawnExecutionFor_spec haccounted hfirst).1 hothers
      have hall : ∀ name, spawnedIn name request (tactic :: rest) =
          spawnedIn name request [tactic] ++ spawnedIn name request rest := by
        intro name
        rw [spawnedIn, ← List.singleton_append, List.filter_append, List.map_append]
        rfl
      simp only [hall]
      exact hjoined.trans hrest

/-- A state with the same line before it. -/
theorem Joined.of_inLine {middle : State} {joining : String → List Request}
    (hsame : ∀ name, inLine middle name = inLine state name)
    (hjoined : Joined middle next joining) : Joined state next joining :=
  ⟨hjoined.placed, fun name => by rw [hjoined.line, hsame]⟩

theorem joined_registerReadyForDuty (hplaced : Placed state) {index : ℕ}
    (hok : registerReadyForDuty config state index = .ok (next, handed)) :
    Joined state next fun _ => [] := by
  obtain ⟨thread, hfound, _, hready⟩ := registerReadyForDuty_cases hok
  have hlength := (List.getElem?_eq_some_iff.mp hfound).1
  have hconnected : (state.setThread index { thread with script := .connected }).threads[index]? =
      some { thread with script := .connected } := List.getElem?_set_self hlength
  have hsame : ∀ name, inLine (state.setThread index { thread with script := .connected }) name =
      inLine state name := fun name => congrArg (· ++ _) (servedIn_setThread hfound rfl)
  refine .of_inLine hsame ?_
  split at hready
  next =>
    -- the object of a daemon has no request
    obtain ⟨given, _, hgiven, rfl, _⟩ := newTactic_cases hready
    refine ⟨(hplaced.setThread _).assign hgiven _ _, fun name => ?_⟩
    rw [inLine, servedIn_assign hgiven]
    simp [inLine, State.assign]
  next => exact joined_ready hconnected (hplaced.setThread _) hready

theorem joined_receivedData (hplaced : Placed state) {index : ℕ} {data : ScriptData α}
    (hok : receivedData config state index data = .ok (next, handed)) :
    Joined state next fun _ => [] := by
  obtain ⟨thread, tactic, object, hfound, _, _, hobject, hdata⟩ := receivedData_cases hok
  split at hdata
  next =>
    have hlength := (List.getElem?_eq_some_iff.mp hfound).1
    have hreleased : (state.release index thread tactic object).threads[index]? =
        some { thread with delegate := none } := List.getElem?_set_self hlength
    have hstopping : Placed (state.setTactic tactic { object with lifetime := .stopping }) :=
      hplaced.setTactic hobject _
    have hsame : ∀ name, inLine (state.release index thread tactic object) name =
        inLine state name := by
      intro name
      have hfound' : (state.setTactic tactic
          { object with lifetime := .stopping }).threads[index]? = some thread := hfound
      have hthread := @servedIn_setThread _ name index thread { thread with delegate := none }
        hfound' rfl
      exact congrArg (· ++ _) (hthread.trans (servedIn_setTactic hobject .stopping))
    exact .of_inLine hsame (joined_ready hreleased (hstopping.setThread _) hdata)
  next =>
    obtain ⟨rfl, -⟩ := hdata
    exact joined_refl hplaced

theorem joined_step [DecidableEq α] {event : Event α} (hplaced : Placed state)
    (haccounted : Accounted state) (hok : step config state event = .ok (next, handed)) :
    Joined state next fun name => askedBy config name event := by
  cases event with
  | exploreTruthSpaceFor request => exact joined_spawnExecutions hplaced haccounted hok
  | connect thread => exact joined_registerReadyForDuty hplaced hok
  | receivedData thread data => exact joined_receivedData hplaced hok
  | neededTruth tactic facts =>
      obtain ⟨_, _, _, rfl, _⟩ := neededTruth_cases hok
      exact joined_refl hplaced
  | stopTimer tactic =>
      obtain ⟨object, hobject, _, rfl, -⟩ := stopTimer_cases hok
      refine .of_inLine (fun name => ?_) (joined_refl (hplaced.setTactic hobject _))
      exact congrArg (· ++ _) (servedIn_setTactic hobject .stopped)
  | unbind thread =>
      obtain ⟨found, hfound, _, rfl, -⟩ := terminated_cases hok
      refine .of_inLine (fun name => ?_) (joined_refl (hplaced.setThread _))
      exact congrArg (· ++ _) (servedIn_setThread hfound rfl)

/-! ## Every run -/

/-- Whoever connects, recycles or terminates first: the requests for a directory are served in
the order in which they are made, each of them once, and the others are waiting in this order.
When all threads of the directory have started, nobody waits. -/
theorem served_of_run [DecidableEq α]
    {steps : List (Transition State (Event α) (List (Handed α)))}
    (hrun : PoolRun config steps state) (name : String) :
    servedIn state name ++ (state.pool name).popq = asked config name steps ∧
      (startingFor state name = 0 → servedIn state name = asked config name steps) := by
  have hline : Placed state ∧ inLine state name = asked config name steps := by
    induction hrun with
    | start => exact ⟨fun object hobject => absurd hobject List.not_mem_nil, rfl⟩
    | @extend steps state next event output prior hstep ih =>
        have hjoined := joined_step ih.1 (PoolRun.accounted prior) hstep
        refine ⟨hjoined.placed, ?_⟩
        rw [hjoined.line, ih.2, asked, asked, List.flatMap_append, List.flatMap_singleton]
  refine ⟨hline.2, fun hstarted => ?_⟩
  have hawaited := (PoolRun.staffed hrun).awaited name
  rw [hstarted] at hawaited
  have hnobody := List.length_eq_zero_iff.mp (Nat.le_zero.mp hawaited)
  have hall := hline.2
  rwa [inLine, hnobody, List.append_nil] at hall

/-- Both requests of the run have been served, by one thread. -/
theorem served_of_run_overtaking :
    servedIn (final (step iodinePool) (initial iodinePool) overtakingEvents) "iodine" ++
        ((final (step iodinePool) (initial iodinePool) overtakingEvents).pool "iodine").popq =
      asked iodinePool "iodine"
        (record (step iodinePool) (initial iodinePool) overtakingEvents) ∧
    (startingFor (final (step iodinePool) (initial iodinePool) overtakingEvents) "iodine" = 0 →
      servedIn (final (step iodinePool) (initial iodinePool) overtakingEvents) "iodine" =
        asked iodinePool "iodine"
          (record (step iodinePool) (initial iodinePool) overtakingEvents)) :=
  served_of_run (run_record (step iodinePool) (initial iodinePool) overtakingEvents) "iodine"

end

end Signpost.Pool

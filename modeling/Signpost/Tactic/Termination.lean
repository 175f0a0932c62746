import Signpost.Tactic.Accounting

/-! # Requests and scripts that have terminated

A script that terminates stays where its thread is. If the thread is idle, its
slot stays in the queue, and the next request that pops the slot is served by
nobody.
-/

namespace Signpost.Pool

open Machine

variable {α : Type}

/-- The connection of the script has not been unbound. -/
def Alive (state : State) (index : ℕ) : Prop :=
  ∃ thread : TacticThread, state.threads[index]? = some thread ∧ thread.script ≠ .terminated

/-- The objects that were made in a step, each for what its thread was given to. -/
def served (step : Transition State (Event α) (List (Handed α))) : List TacticObject :=
  step.after.tactics.drop step.before.tactics.length

/-- Requests are only given to living scripts. -/
def ServedAlive (steps : List (Transition State (Event α) (List (Handed α)))) : Prop :=
  ∀ step ∈ steps, ∀ object ∈ served step, Alive step.after object.thread

/-- The tactics that a request starts, one for each pattern that matches. -/
def executions (config : PoolConfig α) (what : String) : List TacticConfig :=
  config.tactics.flatMap fun tactic =>
    (tactic.provides.filter (fun thing => thing what)).map fun _ => tactic

/-- How many threads of a directory a list of executions asks for. -/
def demand (tactics : List TacticConfig) (name : String) : ℕ :=
  tactics.countP (fun tactic => tactic.dirName = name)

/-- Whenever a request arrives, the idle threads that are first in the queues, as
many as the request starts executions of their tactic, have living scripts. -/
def FirstIdleAlive (config : PoolConfig α)
    (steps : List (Transition State (Event α) (List (Handed α)))) : Prop :=
  ∀ step ∈ steps, ∀ request, step.input = .exploreTruthSpaceFor request → ∀ name,
    ∀ index ∈ (step.before.pool name).items.take (demand (executions config request.what) name),
      Alive step.before index

/-! ## Threads keep their scripts while they are handed out -/

/-- No script has changed, though threads may have been started. -/
def SameScripts (state next : State) : Prop :=
  ∀ (index : ℕ) (thread : TacticThread), state.threads[index]? = some thread →
    ∃ after : TacticThread, next.threads[index]? = some after ∧ after.script = thread.script

theorem SameScripts.trans {state middle next : State} (hfirst : SameScripts state middle)
    (hlast : SameScripts middle next) : SameScripts state next := by
  intro index thread hfound
  obtain ⟨between, hbetween, hscript⟩ := hfirst index thread hfound
  obtain ⟨after, hafter, hsame⟩ := hlast index between hbetween
  exact ⟨after, hafter, hsame.trans hscript⟩

theorem SameScripts.alive_iff {state next : State} (hsame : SameScripts state next) {index : ℕ}
    {thread : TacticThread} (hfound : state.threads[index]? = some thread) :
    Alive next index ↔ Alive state index := by
  obtain ⟨after, hafter, hscript⟩ := hsame index thread hfound
  constructor
  · rintro ⟨found, hother, halive⟩
    obtain rfl := Option.some.inj (hafter.symm.trans hother)
    exact ⟨thread, hfound, hscript ▸ halive⟩
  · rintro ⟨found, hother, halive⟩
    obtain rfl := Option.some.inj (hfound.symm.trans hother)
    exact ⟨after, hafter, hscript.symm ▸ halive⟩

variable {config : PoolConfig α} {state next : State} {handed : List (Handed α)}

theorem sameScripts_assign {index : ℕ} {thread : TacticThread}
    (hfound : state.threads[index]? = some thread) (userInfo : String) (what : Option String) :
    SameScripts state (state.assign index thread userInfo what) := by
  intro other found hother
  by_cases hself : index = other
  · subst hself
    obtain rfl := Option.some.inj (hfound.symm.trans hother)
    have hlength : index < state.threads.length := (List.getElem?_eq_some_iff.mp hfound).1
    exact ⟨_, List.getElem?_set_self hlength, rfl⟩
  · exact ⟨found, by rwa [State.assign, List.getElem?_set_ne hself], rfl⟩

theorem sameScripts_newThread (tactic : TacticConfig) :
    SameScripts state (newThread state tactic false) := by
  intro index thread hfound
  have hlength : index < state.threads.length := (List.getElem?_eq_some_iff.mp hfound).1
  exact ⟨thread, by rwa [newThread, List.getElem?_append_left hlength], rfl⟩

/-- A thread that becomes ready is the only one that is handed out. -/
theorem tacticThreadReady_served {index : ℕ} {thread : TacticThread}
    (hfound : state.threads[index]? = some thread)
    (hok : tacticThreadReady config state index = .ok (next, handed)) :
    SameScripts state next ∧
      ∀ object ∈ next.tactics.drop state.tactics.length, object.thread = index := by
  rcases tacticThreadReady_cases hfound hok with
    ⟨queue, _, _, _, rfl, _⟩ | ⟨queue, request, _, _, hserve⟩
  · refine ⟨fun other found hother => ⟨found, hother, rfl⟩, fun object hobject => ?_⟩
    simp [State.setPool] at hobject
  · obtain ⟨given, _, hgiven, rfl, _⟩ := newTactic_cases hserve
    refine ⟨sameScripts_assign hgiven request.userInfo (some request.what), ?_⟩
    intro object hobject
    simp only [State.assign, State.setPool, List.drop_left, List.mem_singleton] at hobject
    rw [hobject]

/-! ## The idle threads that a request takes -/

theorem demand_cons (tactic : TacticConfig) (rest : List TacticConfig) (name : String) :
    demand (tactic :: rest) name = demand rest name + if tactic.dirName = name then 1 else 0 := by
  simp [demand, List.countP_cons]

/-- An execution that finds no idle thread takes none of those that the others take. -/
theorem mem_take_demand_waiting {tactic : TacticConfig} {queue : PopQueue ℕ Request}
    (hitems : (state.pool tactic.dirName).items = []) (hempty : queue.items = [])
    (rest : List TacticConfig) (name : String) (index : ℕ) :
    index ∈ (state.pool name).items.take (demand (tactic :: rest) name) ↔
      index ∈ (((newThread state tactic false).setPool tactic.dirName queue).pool name).items.take
        (demand rest name) := by
  by_cases hname : name = tactic.dirName
  · subst hname
    simp [hitems, hempty]
  · rw [State.setPool_of_ne _ hname, demand_cons, if_neg (Ne.symm hname)]
    rfl

/-- An execution that takes an idle thread leaves the next ones to the others. -/
theorem mem_take_demand_taken {tactic : TacticConfig} {queue : PopQueue ℕ Request} {index : ℕ}
    (hitems : (state.pool tactic.dirName).items = index :: queue.items)
    (rest : List TacticConfig) (name : String) (other : ℕ) :
    other ∈ (state.pool name).items.take (demand (tactic :: rest) name) ↔
      (name = tactic.dirName ∧ other = index) ∨
        other ∈ ((state.setPool tactic.dirName queue).pool name).items.take (demand rest name) := by
  by_cases hname : name = tactic.dirName
  · subst hname
    rw [demand_cons, if_pos rfl, hitems, List.take_succ_cons, State.setPool_self, List.mem_cons]
    simp
  · rw [State.setPool_of_ne _ hname, demand_cons, if_neg (Ne.symm hname)]
    simp [hname]

/-- The executions of a request take the first threads of every queue, as many as
there are executions, and leave the scripts alone. -/
theorem spawnExecutions_served {request : Request} {tactics : List TacticConfig}
    (hok : spawnExecutions config request tactics state = .ok (next, handed)) :
    SameScripts state next ∧ ∃ made : List TacticObject, next.tactics = state.tactics ++ made ∧
      ∀ index, (∃ object ∈ made, object.thread = index) ↔
        ∃ name, index ∈ (state.pool name).items.take (demand tactics name) := by
  induction tactics generalizing state handed with
  | nil =>
      obtain ⟨rfl, rfl⟩ := Prod.mk.inj (Except.ok.inj hok)
      refine ⟨fun index thread hfound => ⟨thread, hfound, rfl⟩, [], ?_, ?_⟩
      · simp
      · simp [demand]
  | cons tactic rest ih =>
      obtain ⟨middle, first, others, hfirst, hothers, rfl⟩ := spawnExecutions_cons hok
      obtain ⟨hsame, made, hmade, htaken⟩ := ih hothers
      rcases spawnExecutionFor_cases hfirst with
        ⟨queue, hitems, hempty, _, rfl, _⟩ | ⟨queue, index, _, hitems, hserve⟩
      · -- no thread of the directory is idle, before as after
        refine ⟨(sameScripts_newThread tactic).trans hsame, made, hmade, fun index => ?_⟩
        rw [htaken]
        apply exists_congr
        intro name
        exact (mem_take_demand_waiting hitems hempty rest name index).symm
      · obtain ⟨thread, _, hfound, rfl, _⟩ := newTactic_cases hserve
        refine ⟨(sameScripts_assign hfound _ _).trans hsame,
          ⟨index, request.userInfo, some request.what, .running⟩ :: made, ?_, fun other => ?_⟩
        · rw [hmade]
          simp [State.assign, State.setPool]
        · have htake := mem_take_demand_taken hitems rest
          simp only [List.mem_cons, exists_eq_or_imp, htaken, htake, exists_or, exists_eq_left]
          exact or_congr_left eq_comm

/-! ## Dead scripts -/

variable [DecidableEq α]

/-- What one event does: a request takes idle threads, and all other events hand
out the thread they are about, whose script is connected then. -/
theorem step_served {event : Event α} (hstate : Accounted state)
    (hok : step config state event = .ok (next, handed)) :
    (∃ request, event = .exploreTruthSpaceFor request) ∨
      ∀ object ∈ next.tactics.drop state.tactics.length, Alive next object.thread := by
  have hready : ∀ {middle : State} {index : ℕ} {thread : TacticThread},
      middle.threads[index]? = some thread → thread.script = .connected →
      middle.tactics.length = state.tactics.length →
      tacticThreadReady config middle index = .ok (next, handed) →
      ∀ object ∈ next.tactics.drop state.tactics.length, Alive next object.thread := by
    intro middle index thread hfound hscript hlength hready object hobject
    obtain ⟨hsame, hserved⟩ := tacticThreadReady_served hfound hready
    rw [hserved object (hlength ▸ hobject), hsame.alive_iff hfound]
    exact ⟨thread, hfound, by simp [hscript]⟩
  have hnone : next.tactics.length = state.tactics.length →
      ∀ object ∈ next.tactics.drop state.tactics.length, Alive next object.thread := by
    intro hlength object hobject
    rw [← hlength, List.drop_length] at hobject
    cases hobject
  cases event with
  | exploreTruthSpaceFor request => exact Or.inl ⟨request, rfl⟩
  | connect index =>
      right
      obtain ⟨thread, hfound, _, hconnects⟩ := registerReadyForDuty_cases hok
      have hlength : index < state.threads.length := (List.getElem?_eq_some_iff.mp hfound).1
      have hconnected : (state.setThread index { thread with script := .connected }).threads[index]?
          = some { thread with script := .connected } := List.getElem?_set_self hlength
      split at hconnects
      next =>
        obtain ⟨given, _, hgiven, rfl, _⟩ := newTactic_cases hconnects
        obtain rfl := Option.some.inj (hconnected.symm.trans hgiven)
        intro object hobject
        simp only [State.assign, State.setThread, List.drop_left, List.mem_singleton] at hobject
        rw [hobject, (sameScripts_assign hconnected _ _).alive_iff hconnected]
        exact ⟨_, hconnected, by simp⟩
      next => exact hready hconnected rfl rfl hconnects
  | receivedData index data =>
      right
      obtain ⟨thread, tactic, object, hfound, hscript, _, _, hdata⟩ := receivedData_cases hok
      split at hdata
      next =>
        have hlength : index < state.threads.length := (List.getElem?_eq_some_iff.mp hfound).1
        have hreleased : (state.release index thread tactic object).threads[index]? =
            some { thread with delegate := none } := List.getElem?_set_self hlength
        exact hready hreleased hscript List.length_set hdata
      next => exact hnone (by rw [hdata.1])
  | neededTruth tactic facts =>
      obtain ⟨_, _, _, rfl, _⟩ := neededTruth_cases hok
      exact Or.inr (hnone rfl)
  | stopTimer tactic =>
      obtain ⟨object, _, _, rfl, _⟩ := stopTimer_cases hok
      exact Or.inr (hnone List.length_set)
  | unbind index =>
      obtain ⟨thread, _, _, rfl, _⟩ := terminated_cases hok
      exact Or.inr (hnone rfl)

/-- A request is given to living scripts exactly if the first idle threads, which it
takes, have them. -/
theorem alive_served_iff {steps : List (Transition State (Event α) (List (Handed α)))}
    (hrun : PoolRun config steps state)
    {step : Transition State (Event α) (List (Handed α))} (hstep : step ∈ steps)
    {request : Request} (hinput : step.input = .exploreTruthSpaceFor request) :
    (∀ object ∈ served step, Alive step.after object.thread) ↔
      ∀ name, ∀ index ∈ (step.before.pool name).items.take
        (demand (executions config request.what) name), Alive step.before index := by
  obtain ⟨before, _, hbefore, hok⟩ := Run.exists_isPrefix hrun hstep
  rw [hinput] at hok
  replace hok : spawnExecutions config request (executions config request.what) step.before =
      .ok (step.after, step.output) := hok
  obtain ⟨hsame, made, hmade, htaken⟩ := spawnExecutions_served hok
  have hserved : served step = made := by rw [served, hmade, List.drop_left]
  have halive : ∀ name, ∀ index ∈ (step.before.pool name).items,
      (Alive step.after index ↔ Alive step.before index) := by
    intro name index hitem
    obtain ⟨thread, hfound, _⟩ := (PoolRun.accounted hbefore).idle_of_item name index hitem
    exact hsame.alive_iff hfound
  rw [hserved]
  constructor
  · intro hmadeAlive name index hitem
    obtain ⟨object, hobject, rfl⟩ := (htaken index).mpr ⟨name, hitem⟩
    exact (halive name _ (List.mem_of_mem_take hitem)).mp (hmadeAlive object hobject)
  · intro hidle object hobject
    obtain ⟨name, hitem⟩ := (htaken object.thread).mp ⟨object, hobject, rfl⟩
    exact (halive name _ (List.mem_of_mem_take hitem)).mpr (hidle name _ hitem)

/-- Requests are only given to living scripts exactly in the runs in which no
request finds a dead script among the first idle threads. -/
theorem servedAlive_iff {steps : List (Transition State (Event α) (List (Handed α)))}
    (hrun : PoolRun config steps state) :
    ServedAlive steps ↔ FirstIdleAlive config steps := by
  constructor
  · intro hserved step hstep request hinput
    exact (alive_served_iff hrun hstep hinput).mp (hserved step hstep)
  · intro hidle step hstep
    obtain ⟨before, _, hbefore, hok⟩ := Run.exists_isPrefix hrun hstep
    rcases step_served (PoolRun.accounted hbefore) hok with ⟨request, hinput⟩ | halive
    · exact (alive_served_iff hrun hstep hinput).mpr (hidle step hstep request hinput)
    · exact halive

/-! ## A script that terminates while its thread is idle -/

def terminatedEvents : List (Event String) :=
  [.exploreTruthSpaceFor ⟨"connectable_ip@beta", "carol"⟩,
    .connect 0,
    .receivedData 0 { recycle := true },
    .unbind 0,
    .exploreTruthSpaceFor ⟨"connectable_ip@gamma", "carol"⟩]

theorem servedAlive_iff_terminated :
    ServedAlive (record (step iodinePool) (initial iodinePool) terminatedEvents) ↔
      FirstIdleAlive iodinePool (record (step iodinePool) (initial iodinePool) terminatedEvents) :=
  servedAlive_iff (run_record (step iodinePool) (initial iodinePool) terminatedEvents)

theorem not_servedAlive_terminated :
    ¬ ∀ (steps : List (Transition State (Event String) (List (Handed String)))) (state : State),
      PoolRun iodinePool steps state → ServedAlive steps := by
  intro hclaim
  have halive := hclaim _ _ (run_record (step iodinePool) (initial iodinePool) terminatedEvents)
    ((record (step iodinePool) (initial iodinePool) terminatedEvents).get ⟨4, by decide⟩)
    (List.get_mem _ _) ⟨0, "carol", some "connectable_ip@gamma", .running⟩ (by decide)
  obtain ⟨thread, hfound, hscript⟩ := halive
  have hdead : (((record (step iodinePool) (initial iodinePool) terminatedEvents).get
      ⟨4, by decide⟩).after.threads[0]?.map fun thread => thread.script) = some .terminated := by
    decide
  rw [hfound] at hdead
  exact hscript (Option.some.inj hdead)

end Signpost.Pool

import Signpost.Tactic.Recycling

/-! # Threads, idle slots and waiting requests

A request that finds no idle thread starts one and waits, but the thread that
serves it may be another one of the directory that recycles first. Requests and
threads are therefore not matched one by one: there are never more requests
waiting for a directory than threads of it that are still starting.
-/

namespace Signpost.Pool

open Machine

variable {α : Type}

/-! ## The threads that requests wait for -/

/-- A tactic thread of the directory whose script has yet to connect. A daemon
does not enter the pool when it connects. -/
def startsFor (name : String) (thread : TacticThread) : Bool :=
  thread.script = .starting ∧ thread.isDaemon = false ∧ thread.config.dirName = name

def startingFor (state : State) (name : String) : ℕ := state.threads.countP (startsFor name)

structure Staffed (state : State) : Prop where
  queued : ∀ (index : ℕ) (thread : TacticThread), state.threads[index]? = some thread →
    thread.delegate = none → thread.script ≠ .starting →
      index ∈ (state.pool thread.config.dirName).items
  awaited : ∀ name, (state.pool name).popq.length ≤ startingFor state name
  requested : ∀ object ∈ state.tactics, object.what = none →
    ∃ thread : TacticThread, state.threads[object.thread]? = some thread ∧ thread.isDaemon = true

/-- One thread is on its way into the pool, and one more request may wait for its
directory than threads of it are starting. -/
structure Spare (state : State) (index : ℕ) (thread : TacticThread) : Prop where
  found : state.threads[index]? = some thread
  started : thread.script ≠ .starting
  queued : ∀ (other : ℕ) (idle : TacticThread), other ≠ index →
    state.threads[other]? = some idle → idle.delegate = none → idle.script ≠ .starting →
      other ∈ (state.pool idle.config.dirName).items
  awaited : ∀ name, (state.pool name).popq.length ≤
    startingFor state name + if name = thread.config.dirName then 1 else 0
  requested : ∀ object ∈ state.tactics, object.what = none →
    ∃ thread : TacticThread, state.threads[object.thread]? = some thread ∧ thread.isDaemon = true

theorem countP_set_add {τ : Type} {p : τ → Bool} {list : List τ} {index : ℕ} {old : τ} (new : τ)
    (hold : list[index]? = some old) :
    (list.set index new).countP p + (if p old then 1 else 0) =
      list.countP p + if p new then 1 else 0 := by
  obtain ⟨hlength, rfl⟩ := List.getElem?_eq_some_iff.mp hold
  have hpos : p list[index] = true → 0 < list.countP p := fun hp =>
    List.countP_pos_iff.mpr ⟨_, List.getElem_mem hlength, hp⟩
  rw [List.countP_set hlength]
  split
  next hp =>
    have := hpos hp
    omega
  next => omega

/-- A thread that does not start for a directory may change into another one. -/
theorem startingFor_setThread {state : State} {index : ℕ} {thread new : TacticThread}
    (hfound : state.threads[index]? = some thread) {name : String}
    (hold : startsFor name thread = false) (hnew : startsFor name new = false) :
    startingFor (state.setThread index new) name = startingFor state name := by
  have hcount := countP_set_add (p := startsFor name) new hfound
  rw [hold, hnew] at hcount
  exact Nat.add_right_cancel hcount

theorem startingFor_assign {state : State} {index : ℕ} {thread : TacticThread}
    (hfound : state.threads[index]? = some thread) (userInfo : String) (what : Option String)
    (name : String) :
    startingFor (state.assign index thread userInfo what) name = startingFor state name := by
  have hcount := countP_set_add (p := startsFor name)
    { thread with delegate := some state.tactics.length } hfound
  exact Nat.add_right_cancel hcount

@[simp] theorem startingFor_setPool (state : State) (other : String) (queue : PopQueue ℕ Request)
    (name : String) : startingFor (state.setPool other queue) name = startingFor state name :=
  rfl

theorem startingFor_newThread (state : State) (tactic : TacticConfig) (name : String) :
    startingFor (newThread state tactic false) name =
      startingFor state name + if tactic.dirName = name then 1 else 0 := by
  simp [startingFor, newThread, List.countP_append, startsFor]

variable {state : State}

/-- Changing the queue of one directory leaves the others as they are. -/
theorem awaited_setPool {dirName : String} {queue : PopQueue ℕ Request}
    (hqueue : queue.popq.length ≤ startingFor state dirName)
    (hothers : ∀ name, name ≠ dirName → (state.pool name).popq.length ≤ startingFor state name)
    (name : String) :
    ((state.setPool dirName queue).pool name).popq.length ≤
      startingFor (state.setPool dirName queue) name := by
  rw [startingFor_setPool]
  by_cases hname : name = dirName
  · subst hname
    rw [State.setPool_self]
    exact hqueue
  · rw [state.setPool_of_ne hname]
    exact hothers name hname

/-- A thread that is given to a new object needs no slot. -/
theorem Spare.assign {index : ℕ} {thread : TacticThread} (hspare : Spare state index thread)
    (hawaited : ∀ name, (state.pool name).popq.length ≤ startingFor state name)
    (userInfo : String) {what : Option String} (hwhat : what = none → thread.isDaemon = true) :
    Staffed (state.assign index thread userInfo what) := by
  obtain ⟨hfound, hstarted, hqueued, _, hrequested⟩ := hspare
  constructor
  case queued =>
    intro other idle hother hdelegate hidle
    apply hqueued other idle _ _ hdelegate hidle
    all_goals grind [State.assign]
  case awaited =>
    intro name
    rw [startingFor_assign hfound]
    exact hawaited name
  case requested => grind [State.assign]

/-- A spare thread takes a slot in the queue of its directory. -/
theorem Spare.enqueue {index : ℕ} {thread : TacticThread} (hspare : Spare state index thread)
    {queue : PopQueue ℕ Request}
    (hitems : queue.items = (state.pool thread.config.dirName).items ++ [index])
    (hempty : queue.popq = []) : Staffed (state.setPool thread.config.dirName queue) := by
  obtain ⟨hfound, _, hqueued, hawaited, hrequested⟩ := hspare
  constructor
  case queued =>
    intro other idle hother hdelegate hidle
    by_cases hself : other = index
    · subst hself
      obtain rfl := Option.some.inj (hfound.symm.trans hother)
      rw [State.setPool_self, hitems]
      simp
    · have hmem := hqueued other idle hself hother hdelegate hidle
      by_cases hname : idle.config.dirName = thread.config.dirName
      · rw [hname, State.setPool_self, hitems]
        rw [hname] at hmem
        exact List.mem_append_left _ hmem
      · rwa [state.setPool_of_ne hname]
  case awaited =>
    apply awaited_setPool
    · simp [hempty]
    · intro name hname
      simpa [hname] using hawaited name
  case requested => exact hrequested

/-- A spare thread goes into the queue of its directory or serves a request that
waits there. -/
theorem Spare.ready {config : PoolConfig α} {index : ℕ} {thread : TacticThread} {next : State}
    {handed : List (Handed α)} (hspare : Spare state index thread)
    (hok : tacticThreadReady config state index = .ok (next, handed)) : Staffed next := by
  rcases tacticThreadReady_cases hspare.found hok with
    ⟨queue, _, hitems, hempty, rfl, rfl⟩ | ⟨queue, request, hitems, hpopq, hserve⟩
  · exact hspare.enqueue hitems hempty
  · obtain ⟨hfound, hstarted, hqueued, hawaited, hrequested⟩ := hspare
    obtain ⟨given, _, hgiven, rfl, _⟩ := newTactic_cases hserve
    obtain rfl := Option.some.inj (hfound.symm.trans hgiven)
    -- a request waits for the directory, so no thread of it is idle
    have hnone : (state.pool thread.config.dirName).items = [] :=
      (state.pool thread.config.dirName).one_empty.resolve_right (by simp [hpopq])
    have hlength : (state.pool thread.config.dirName).popq.length = queue.popq.length + 1 := by
      rw [hpopq, List.length_cons]
    have hthread := hawaited thread.config.dirName
    rw [hlength, if_pos rfl] at hthread
    have hwaiting : ∀ name, ((state.setPool thread.config.dirName queue).pool name).popq.length ≤
        startingFor (state.setPool thread.config.dirName queue) name := by
      apply awaited_setPool (Nat.le_of_add_le_add_right hthread)
      intro name hname
      simpa [hname] using hawaited name
    apply Spare.assign _ hwaiting
    · intro habsurd
      cases habsurd
    · refine ⟨hfound, hstarted, ?_, fun name => Nat.le_add_right_of_le (hwaiting name), hrequested⟩
      intro other idle hother hidle hdelegate hscript
      have hmem := hqueued other idle hother hidle hdelegate hscript
      by_cases hname : idle.config.dirName = thread.config.dirName
      · rw [hname, hnone] at hmem
        cases hmem
      · rwa [state.setPool_of_ne hname]

/-! ## What the operations keep -/

theorem staffed_initial (config : PoolConfig α) : Staffed (initial config) := by
  constructor
  case queued =>
    intro index thread hfound _ hscript
    obtain ⟨tactic, _, rfl⟩ := List.mem_map.mp (List.mem_of_getElem? hfound)
    exact absurd rfl hscript
  case awaited => exact fun name => Nat.zero_le _
  case requested =>
    intro object hobject
    cases hobject

namespace Staffed

variable {config : PoolConfig α} {next : State} {handed : List (Handed α)}

/-- A thread that has connected or dropped its delegate is spare until it is
handed out. -/
theorem setThread_spare {index : ℕ} {thread spare : TacticThread} (hstate : Staffed state)
    (hfound : state.threads[index]? = some thread) (hconfig : spare.config = thread.config)
    (hdaemon : spare.isDaemon = thread.isDaemon) (hstarted : spare.script ≠ .starting) :
    Spare (state.setThread index spare) index spare := by
  obtain ⟨hqueued, hawaited, hrequested⟩ := hstate
  have hlength : index < state.threads.length := (List.getElem?_eq_some_iff.mp hfound).1
  constructor
  case found => exact List.getElem?_set_self hlength
  case started => exact hstarted
  case queued =>
    intro other idle hne hother hdelegate hscript
    rw [State.setThread, List.getElem?_set_ne (Ne.symm hne)] at hother
    exact hqueued other idle hother hdelegate hscript
  case awaited =>
    intro name
    apply Nat.le_trans (hawaited name)
    have hcount := countP_set_add (p := startsFor name) spare hfound
    have hcounted : startsFor name thread = true → name = thread.config.dirName := by
      simp only [startsFor, decide_eq_true_eq]
      exact fun hstarts => hstarts.2.2.symm
    simp only [startingFor, State.setThread]
    grind
  case requested =>
    intro object hobject hwhat
    obtain ⟨daemon, hfoundDaemon, hisDaemon⟩ := hrequested object hobject hwhat
    by_cases hself : index = object.thread
    · subst hself
      obtain rfl := Option.some.inj (hfound.symm.trans hfoundDaemon)
      exact ⟨spare, List.getElem?_set_self hlength, hdaemon.trans hisDaemon⟩
    · exact ⟨daemon, by rwa [State.setThread, List.getElem?_set_ne hself], hisDaemon⟩

/-- The process of a connected script changes. -/
theorem setScript {index : ℕ} {thread : TacticThread} (hstate : Staffed state)
    (hfound : state.threads[index]? = some thread) (hconnected : thread.script ≠ .starting)
    {script : Script} (hscript : script ≠ .starting) :
    Staffed (state.setThread index { thread with script := script }) := by
  obtain ⟨hqueued, hawaited, hrequested⟩ := hstate
  constructor
  case queued => grind [State.setThread]
  case awaited =>
    intro name
    have hold : startsFor name thread = false := by simp [startsFor, hconnected]
    have hnew : startsFor name { thread with script := script } = false := by
      simp [startsFor, hscript]
    rw [startingFor_setThread hfound hold hnew]
    exact hawaited name
  case requested => grind [State.setThread]

/-- An object is told to stop, or stops. -/
theorem setTactic {tactic : ℕ} {object : TacticObject} (hstate : Staffed state)
    (hobject : state.tactics[tactic]? = some object) (lifetime : Lifetime) :
    Staffed (state.setTactic tactic { object with lifetime := lifetime }) := by
  obtain ⟨hqueued, hawaited, hrequested⟩ := hstate
  constructor
  case queued => exact hqueued
  case awaited => exact hawaited
  case requested =>
    intro changed hchanged hwhat
    rcases List.mem_or_eq_of_mem_set hchanged with hold | rfl
    · exact hrequested changed hold hwhat
    · exact hrequested object (List.mem_of_getElem? hobject) hwhat

theorem spawnExecutionFor (hstate : Staffed state) (haccounted : Accounted state)
    {tactic : TacticConfig} {request : Request}
    (hok : spawnExecutionFor config state tactic request = .ok (next, handed)) :
    Staffed next := by
  obtain ⟨hqueued, hawaited, hrequested⟩ := hstate
  rcases spawnExecutionFor_cases hok with
    ⟨queue, hitems, hempty, hpopq, rfl, rfl⟩ | ⟨queue, index, hempty, hitems, hserve⟩
  · constructor
    case queued =>
      intro index thread hfound hdelegate hscript
      have hold : state.threads[index]? = some thread := by grind [State.setPool, newThread]
      have hmem := hqueued index thread hold hdelegate hscript
      by_cases hname : thread.config.dirName = tactic.dirName
      · rw [hname, hitems] at hmem
        cases hmem
      · rwa [State.setPool_of_ne _ hname]
    case awaited =>
      intro name
      rw [startingFor_setPool, startingFor_newThread]
      by_cases hname : name = tactic.dirName
      · subst hname
        rw [State.setPool_self, hpopq, List.length_append, if_pos rfl]
        exact Nat.add_le_add_right (hawaited _) 1
      · rw [State.setPool_of_ne _ hname]
        exact Nat.le_add_right_of_le (hawaited name)
    case requested => grind [State.setPool, newThread]
  · obtain ⟨thread, _, hfound, rfl, _⟩ := newTactic_cases hserve
    obtain ⟨idle, hidle, _, hstarted, hname⟩ :=
      haccounted.idle_of_item tactic.dirName index (by simp [hitems])
    obtain rfl := Option.some.inj (hfound.symm.trans hidle)
    have hwaiting : ∀ name, ((state.setPool tactic.dirName queue).pool name).popq.length ≤
        startingFor (state.setPool tactic.dirName queue) name := by
      apply awaited_setPool
      · simp [hempty]
      · exact fun name _ => hawaited name
    apply Spare.assign _ hwaiting
    · intro habsurd
      cases habsurd
    · refine ⟨hfound, hstarted, ?_, fun name => Nat.le_add_right_of_le (hwaiting name), hrequested⟩
      intro other found hne hother hdelegate hscript
      have hmem := hqueued other found hother hdelegate hscript
      by_cases hname : found.config.dirName = tactic.dirName
      · rw [hname, hitems] at hmem
        rw [hname, State.setPool_self]
        exact (List.mem_cons.mp hmem).resolve_left hne
      · rwa [state.setPool_of_ne hname]

theorem spawnExecutions (hstate : Staffed state) (haccounted : Accounted state)
    {tactics : List TacticConfig} {request : Request}
    (hok : spawnExecutions config request tactics state = .ok (next, handed)) : Staffed next := by
  induction tactics generalizing state handed with
  | nil =>
      obtain ⟨rfl, rfl⟩ := Prod.mk.inj (Except.ok.inj hok)
      exact hstate
  | cons tactic rest ih =>
      obtain ⟨middle, first, others, hfirst, hothers, rfl⟩ := spawnExecutions_cons hok
      apply ih (hstate.spawnExecutionFor haccounted hfirst)
      · exact (spawnExecutionFor_spec haccounted hfirst).1
      · exact hothers

theorem registerReadyForDuty (hstate : Staffed state) {index : ℕ}
    (hok : registerReadyForDuty config state index = .ok (next, handed)) : Staffed next := by
  obtain ⟨thread, hfound, _, hready⟩ := registerReadyForDuty_cases hok
  have hspare : Spare (state.setThread index { thread with script := .connected }) index
      { thread with script := .connected } :=
    hstate.setThread_spare hfound rfl rfl (by simp)
  split at hready
  next hdaemon =>
    obtain ⟨given, _, hgiven, rfl, _⟩ := newTactic_cases hready
    obtain rfl := Option.some.inj (hspare.found.symm.trans hgiven)
    apply hspare.assign
    · -- no request has counted on a daemon
      intro name
      have hold : startsFor name thread = false := by simp [startsFor, hdaemon]
      have hnew : startsFor name { thread with script := .connected } = false := by
        simp [startsFor]
      rw [startingFor_setThread hfound hold hnew]
      exact hstate.awaited name
    · exact fun _ => hdaemon
  next => exact hspare.ready hready

theorem receivedData (hstate : Staffed state) {index : ℕ} {data : ScriptData α}
    (hok : receivedData config state index data = .ok (next, handed)) : Staffed next := by
  obtain ⟨thread, tactic, object, hfound, hscript, _, hobject, hdata⟩ := receivedData_cases hok
  split at hdata
  next =>
    have hspare : Spare (state.release index thread tactic object) index
        { thread with delegate := none } :=
      (hstate.setTactic hobject .stopping).setThread_spare hfound rfl rfl (by simp [hscript])
    exact hspare.ready hdata
  next =>
    obtain ⟨rfl, rfl⟩ := hdata
    exact hstate

theorem step [DecidableEq α] {event : Event α} (hstate : Staffed state)
    (haccounted : Accounted state) (hok : step config state event = .ok (next, handed)) :
    Staffed next := by
  cases event with
  | exploreTruthSpaceFor request => exact hstate.spawnExecutions haccounted hok
  | connect thread => exact hstate.registerReadyForDuty hok
  | receivedData thread data => exact hstate.receivedData hok
  | neededTruth tactic facts =>
      obtain ⟨_, _, _, rfl, _⟩ := neededTruth_cases hok
      exact hstate
  | stopTimer tactic =>
      obtain ⟨object, hobject, _, rfl, rfl⟩ := stopTimer_cases hok
      exact hstate.setTactic hobject .stopped
  | unbind thread =>
      obtain ⟨found, hfound, hscript, rfl, rfl⟩ := terminated_cases hok
      exact hstate.setScript hfound (by simp [hscript]) (by decide)

end Staffed

theorem PoolRun.staffed [DecidableEq α] {config : PoolConfig α}
    {steps : List (Transition State (Event α) (List (Handed α)))}
    (hrun : PoolRun config steps state) : Staffed state :=
  (Run.invariant (P := fun state => Accounted state ∧ Staffed state) hrun
    ⟨accounted_initial config, staffed_initial config⟩
    fun _ _ _ _ hstate hok =>
      ⟨(step_spec hstate.1 hok).1, hstate.2.step hstate.1 hok⟩).2

/-! ## Accounting of the pool -/

/-- What a thread is doing. -/
inductive Status
  | starting
  | idle
  | assigned
deriving DecidableEq, Repr

/-- The object works for a request on the thread. -/
def Serves (state : State) (tactic index : ℕ) : Prop :=
  ∃ object : TacticObject, state.tactics[tactic]? = some object ∧ object.lifetime = .running ∧
    object.thread = index

def HasStatus (state : State) (index : ℕ) (thread : TacticThread) : Status → Prop
  | .starting => thread.script = .starting
  | .idle => ∃ name, index ∈ (state.pool name).items
  | .assigned => ∃ tactic, Serves state tactic index

structure Balanced (state : State) : Prop where
  one_status : ∀ (index : ℕ) (thread : TacticThread), state.threads[index]? = some thread →
    ∃! status, HasStatus state index thread status
  one_slot : ∀ (index position : ℕ) (name : String),
    (state.pool name).items[position]? = some index →
      (∃ thread : TacticThread, state.threads[index]? = some thread ∧
        thread.config.dirName = name) ∧
      ∀ (place : ℕ) (other : String), (state.pool other).items[place]? = some index →
        other = name ∧ place = position
  one_request : ∀ tactic index : ℕ, Serves state tactic index →
    (∀ other, Serves state other index → other = tactic) ∧
      ∃ (thread : TacticThread) (object : TacticObject), state.threads[index]? = some thread ∧
        state.tactics[tactic]? = some object ∧ thread.delegate = some tactic ∧
        (thread.isDaemon = false → object.what ≠ none)
  never_both : ∀ name, (state.pool name).items = [] ∨ (state.pool name).popq = []
  waiting_le : ∀ name, (state.pool name).popq.length ≤ startingFor state name

theorem Accounted.one_status (hstate : Accounted state) (hstaffed : Staffed state) {index : ℕ}
    {thread : TacticThread} (hfound : state.threads[index]? = some thread) :
    ∃! status, HasStatus state index thread status := by
  have hidle : HasStatus state index thread .idle →
      thread.script ≠ .starting ∧ thread.delegate = none := by
    rintro ⟨name, hitem⟩
    obtain ⟨idle, hidle, hdelegate, hstarted, _⟩ := hstate.idle_of_item name index hitem
    obtain rfl := Option.some.inj (hfound.symm.trans hidle)
    exact ⟨hstarted, hdelegate⟩
  have hassigned : HasStatus state index thread .assigned → thread.delegate ≠ none := by
    rintro ⟨tactic, object, hobject, hrunning, rfl⟩
    obtain ⟨given, hgiven, hdelegate⟩ := hstate.delegate_of_running tactic object hobject hrunning
    obtain rfl := Option.some.inj (hfound.symm.trans hgiven)
    simp [hdelegate]
  by_cases hscript : thread.script = .starting
  · refine ⟨.starting, hscript, ?_⟩
    rintro (_ | _ | _) hstatus
    · rfl
    · exact absurd hscript (hidle hstatus).1
    · exact absurd (hstate.unassigned_of_starting index thread hfound hscript)
        (hassigned hstatus)
  · cases hdelegate : thread.delegate with
    | none =>
        refine ⟨.idle, ⟨_, hstaffed.queued index thread hfound hdelegate hscript⟩, ?_⟩
        rintro (_ | _ | _) hstatus
        · exact absurd hstatus hscript
        · rfl
        · exact absurd hdelegate (hassigned hstatus)
    | some tactic =>
        refine ⟨.assigned, ?_, ?_⟩
        · obtain ⟨object, hobject, hthread, hrunning⟩ :=
            hstate.running_of_delegate index thread tactic hfound hdelegate
          exact ⟨tactic, object, hobject, hrunning, hthread⟩
        · rintro (_ | _ | _) hstatus
          · exact absurd hstatus hscript
          · simp [hidle hstatus] at hdelegate
          · rfl

theorem Accounted.one_slot (hstate : Accounted state) {index position place : ℕ}
    {name other : String} (hslot : (state.pool name).items[position]? = some index)
    (hplace : (state.pool other).items[place]? = some index) : other = name ∧ place = position := by
  obtain ⟨thread, hfound, _, _, hname⟩ :=
    hstate.idle_of_item name index (List.mem_of_getElem? hslot)
  obtain ⟨found, hother, _, _, hotherName⟩ :=
    hstate.idle_of_item other index (List.mem_of_getElem? hplace)
  obtain rfl := Option.some.inj (hfound.symm.trans hother)
  obtain rfl := hotherName.symm.trans hname
  refine ⟨rfl, ?_⟩
  have hlength : place < (state.pool other).items.length :=
    (List.getElem?_eq_some_iff.mp hplace).1
  exact (List.getElem?_inj hlength (hstate.items_nodup other)).mp (hplace.trans hslot.symm)

theorem Accounted.one_request (hstate : Accounted state) (hstaffed : Staffed state)
    {tactic index : ℕ} (hserves : Serves state tactic index) :
    (∀ other, Serves state other index → other = tactic) ∧
      ∃ (thread : TacticThread) (object : TacticObject), state.threads[index]? = some thread ∧
        state.tactics[tactic]? = some object ∧ thread.delegate = some tactic ∧
        (thread.isDaemon = false → object.what ≠ none) := by
  obtain ⟨object, hobject, hrunning, rfl⟩ := hserves
  obtain ⟨thread, hfound, hdelegate⟩ := hstate.delegate_of_running tactic object hobject hrunning
  constructor
  · rintro other ⟨second, hsecond, halso, hthread⟩
    obtain ⟨given, hgiven, hgives⟩ := hstate.delegate_of_running other second hsecond halso
    rw [hthread] at hgiven
    obtain rfl := Option.some.inj (hfound.symm.trans hgiven)
    exact Option.some.inj (hgives.symm.trans hdelegate)
  · refine ⟨thread, object, hfound, hobject, hdelegate, fun htactic hwhat => ?_⟩
    obtain ⟨daemon, hfoundDaemon, hdaemon⟩ :=
      hstaffed.requested object (List.mem_of_getElem? hobject) hwhat
    obtain rfl := Option.some.inj (hfound.symm.trans hfoundDaemon)
    exact absurd (hdaemon.symm.trans htactic) (by decide)

/-- The pool is balanced in every run, whoever recycles first and also if scripts
terminate. -/
theorem balanced_of_run [DecidableEq α] {config : PoolConfig α}
    {steps : List (Transition State (Event α) (List (Handed α)))}
    (hrun : PoolRun config steps state) : Balanced state := by
  have hstate := PoolRun.accounted hrun
  have hstaffed := PoolRun.staffed hrun
  constructor
  case one_status => exact fun index thread hfound => hstate.one_status hstaffed hfound
  case one_slot =>
    intro index position name hslot
    obtain ⟨thread, hfound, _, _, hname⟩ :=
      hstate.idle_of_item name index (List.mem_of_getElem? hslot)
    exact ⟨⟨thread, hfound, hname⟩, fun place other hplace => hstate.one_slot hslot hplace⟩
  case one_request => exact fun tactic index hserves => hstate.one_request hstaffed hserves
  case never_both => exact fun name => (state.pool name).one_empty
  case waiting_le => exact hstaffed.awaited

/-- Two requests wait for two threads, and the first thread serves both before the
second one has started. -/
def overtakingEvents : List (Event String) :=
  [.exploreTruthSpaceFor ⟨"connectable_ip@beta", "carol"⟩,
    .exploreTruthSpaceFor ⟨"connectable_ip@gamma", "carol"⟩,
    .connect 0,
    .receivedData 0 { recycle := true }]

theorem balanced_of_run_overtaking :
    startingFor (final (step iodinePool) (initial iodinePool) overtakingEvents) "iodine" = 1 ∧
      Balanced (final (step iodinePool) (initial iodinePool) overtakingEvents) :=
  ⟨by decide, balanced_of_run (run_record (step iodinePool) (initial iodinePool)
    overtakingEvents)⟩

end Signpost.Pool

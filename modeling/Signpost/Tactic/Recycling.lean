import Signpost.Tactic.Transitions

/-! # Isolation of consecutive requests

A running `Tactic` object is always the delegate of its thread, so what it
passes on reaches the script of its own request. An object in its last second
is no delegate any more, but it still passes on what the solver sends to it.
-/

namespace Signpost.Pool

open Bloom Machine

variable {α : Type}

/-! ## Accounting for threads -/

/-- A thread that waits in the queue of its directory. -/
def Idle (state : State) (name : String) (index : ℕ) : Prop :=
  ∃ thread : TacticThread, state.threads[index]? = some thread ∧ thread.delegate = none ∧
    thread.script ≠ .starting ∧ thread.config.dirName = name

structure Accounted (state : State) : Prop where
  running_of_delegate : ∀ (index : ℕ) (thread : TacticThread) (tactic : ℕ),
    state.threads[index]? = some thread → thread.delegate = some tactic →
      ∃ object : TacticObject, state.tactics[tactic]? = some object ∧ object.thread = index ∧
        object.lifetime = .running
  delegate_of_running : ∀ (tactic : ℕ) (object : TacticObject),
    state.tactics[tactic]? = some object → object.lifetime = .running →
      ∃ thread : TacticThread, state.threads[object.thread]? = some thread ∧
        thread.delegate = some tactic
  unassigned_of_starting : ∀ (index : ℕ) (thread : TacticThread),
    state.threads[index]? = some thread → thread.script = .starting → thread.delegate = none
  idle_of_item : ∀ name, ∀ index ∈ (state.pool name).items, Idle state name index
  items_nodup : ∀ name, (state.pool name).items.Nodup

/-- The thread is unassigned and in no queue. -/
structure Free (state : State) (index : ℕ) (thread : TacticThread) : Prop where
  found : state.threads[index]? = some thread
  unassigned : thread.delegate = none
  started : thread.script ≠ .starting
  unqueued : ∀ name, index ∉ (state.pool name).items

theorem accounted_initial (config : PoolConfig α) : Accounted (initial config) := by
  have hthread : ∀ (index : ℕ) (thread : TacticThread),
      (initial config).threads[index]? = some thread → thread.delegate = none := by
    intro index thread hfound
    obtain ⟨tactic, _, rfl⟩ := List.mem_map.mp (List.mem_of_getElem? hfound)
    rfl
  constructor
  case running_of_delegate =>
    intro index thread tactic hfound hdelegate
    rw [hthread index thread hfound] at hdelegate
    cases hdelegate
  case delegate_of_running => intro tactic object hobject; cases hobject
  case unassigned_of_starting => exact fun index thread hfound _ => hthread index thread hfound
  case idle_of_item => intro name index hitem; cases hitem
  case items_nodup => exact fun name => List.nodup_nil

namespace Accounted

variable {state : State}

/-- A queue may be replaced by one of idle threads. -/
theorem setPool (hstate : Accounted state) {name : String} {queue : PopQueue ℕ Request}
    (hidle : ∀ index ∈ queue.items, Idle state name index) (hnodup : queue.items.Nodup) :
    Accounted (state.setPool name queue) where
  running_of_delegate := hstate.running_of_delegate
  delegate_of_running := hstate.delegate_of_running
  unassigned_of_starting := hstate.unassigned_of_starting
  idle_of_item := by
    intro other index hitem
    by_cases hname : other = name
    · subst hname
      rw [State.setPool_self] at hitem
      exact hidle index hitem
    · rw [state.setPool_of_ne hname] at hitem
      exact hstate.idle_of_item other index hitem
  items_nodup := by
    intro other
    by_cases hname : other = name
    · subst hname
      rwa [State.setPool_self]
    · rw [state.setPool_of_ne hname]
      exact hstate.items_nodup other

theorem newThread (hstate : Accounted state) (tactic : TacticConfig) (isDaemon : Bool) :
    Accounted (newThread state tactic isDaemon) := by
  obtain ⟨hdelegate, hrunning, hstarting, hidle, hnodup⟩ := hstate
  constructor
  case running_of_delegate => grind [Pool.newThread]
  case delegate_of_running => grind [Pool.newThread]
  case unassigned_of_starting => grind [Pool.newThread]
  case idle_of_item =>
    intro name index hitem
    obtain ⟨thread, hfound, hrest⟩ := hidle name index hitem
    exact ⟨thread, by grind [Pool.newThread], hrest⟩
  case items_nodup => exact hnodup

/-- A free thread is given to a new object. -/
theorem assign (hstate : Accounted state) {index : ℕ} {thread : TacticThread}
    (hfree : Free state index thread) (userInfo : String) (what : Option String) :
    Accounted (state.assign index thread userInfo what) := by
  obtain ⟨hfound, hunassigned, hstarted, hunqueued⟩ := hfree
  obtain ⟨hdelegate, hrunning, hstarting, hidle, hnodup⟩ := hstate
  constructor
  case running_of_delegate =>
    intro other found tactic hother hsome
    by_cases heq : index = other
    · subst heq
      have hlength : index < state.threads.length := (List.getElem?_eq_some_iff.mp hfound).1
      rw [State.assign, List.getElem?_set_self hlength] at hother
      obtain rfl := Option.some.inj hother
      obtain rfl := Option.some.inj hsome
      exact ⟨_, List.getElem?_concat_length, rfl, rfl⟩
    · rw [State.assign, List.getElem?_set_ne heq] at hother
      obtain ⟨object, hobject, hrest⟩ := hdelegate other found tactic hother hsome
      have hold : tactic < state.tactics.length := (List.getElem?_eq_some_iff.mp hobject).1
      exact ⟨object, by rwa [State.assign, List.getElem?_append_left hold], hrest⟩
  case delegate_of_running => grind [State.assign]
  case unassigned_of_starting => grind [State.assign]
  case idle_of_item =>
    intro name other hitem
    have hne : index ≠ other := fun heq => hunqueued name (heq ▸ hitem)
    obtain ⟨idle, hidle, hrest⟩ := hidle name other hitem
    exact ⟨idle, by rwa [State.assign, List.getElem?_set_ne hne], hrest⟩
  case items_nodup => exact hnodup

/-- The process of a script changes, but not back to its start. -/
theorem setScript (hstate : Accounted state) {index : ℕ} {thread : TacticThread}
    (hfound : state.threads[index]? = some thread) (script : Script)
    (hscript : script ≠ .starting) :
    Accounted (state.setThread index { thread with script := script }) := by
  obtain ⟨hdelegate, hrunning, hstarting, hidle, hnodup⟩ := hstate
  constructor
  case running_of_delegate => grind [State.setThread]
  case delegate_of_running => grind [State.setThread]
  case unassigned_of_starting => grind [State.setThread]
  case idle_of_item =>
    intro name other hitem
    obtain ⟨idle, hother, hidle⟩ := hidle name other hitem
    by_cases heq : index = other
    · subst heq
      obtain rfl := Option.some.inj (hfound.symm.trans hother)
      have hlength : index < state.threads.length := (List.getElem?_eq_some_iff.mp hfound).1
      exact ⟨{ thread with script := script }, List.getElem?_set_self hlength, hidle.1, hscript,
        hidle.2.2⟩
    · exact ⟨idle, by rwa [State.setThread, List.getElem?_set_ne heq], hidle⟩
  case items_nodup => exact hnodup

/-- The delegate of a thread is told to stop. -/
theorem release (hstate : Accounted state) {index tactic : ℕ} {thread : TacticThread}
    {object : TacticObject} (hfound : state.threads[index]? = some thread)
    (hassigned : thread.delegate = some tactic) (hobject : state.tactics[tactic]? = some object) :
    Accounted (state.release index thread tactic object) := by
  obtain ⟨hdelegate, hrunning, hstarting, hidle, hnodup⟩ := hstate
  constructor
  case running_of_delegate => grind [State.release, State.setThread, State.setTactic]
  case delegate_of_running => grind [State.release, State.setThread, State.setTactic]
  case unassigned_of_starting => grind [State.release, State.setThread, State.setTactic]
  case idle_of_item =>
    intro name other hitem
    obtain ⟨idle, hother, hidle⟩ := hidle name other hitem
    have hne : index ≠ other := by
      rintro rfl
      obtain rfl := Option.some.inj (hfound.symm.trans hother)
      exact absurd (hassigned.symm.trans hidle.1) (Option.some_ne_none tactic)
    exact ⟨idle, by rwa [State.release, State.setThread, List.getElem?_set_ne hne], hidle⟩
  case items_nodup => exact hnodup

/-- The timer of an object that was told to stop fires. -/
theorem stop (hstate : Accounted state) {tactic : ℕ} {object : TacticObject}
    (hobject : state.tactics[tactic]? = some object) (hstopping : object.lifetime = .stopping) :
    Accounted (state.setTactic tactic { object with lifetime := .stopped }) := by
  obtain ⟨hdelegate, hrunning, hstarting, hidle, hnodup⟩ := hstate
  constructor
  case running_of_delegate => grind [State.setTactic]
  case delegate_of_running => grind [State.setTactic]
  case unassigned_of_starting => exact hstarting
  case idle_of_item => exact hidle
  case items_nodup => exact hnodup

end Accounted

/-! ## What is handed over -/

/-- Every message was passed on by the object that its thread was assigned to. -/
def Own (handed : List (Handed α)) : Prop :=
  ∀ message ∈ handed, message.assigned = some message.sender

theorem mem_passOnTruths {state : State} {tactic : ℕ} {truths : List (Fact α)}
    {message : Handed α} :
    message ∈ passOnTruths state tactic truths ↔
      ∃ object thread, state.tactics[tactic]? = some object ∧
        state.threads[object.thread]? = some thread ∧ thread.script = .connected ∧
        message = ⟨object.thread, thread.delegate, tactic, truths⟩ := by
  unfold passOnTruths
  cases hobject : state.tactics[tactic]? with
  | none => simp
  | some object =>
      cases hthread : state.threads[object.thread]? with
      | none => simp [hthread]
      | some thread => by_cases hscript : thread.script = .connected <;> simp [hthread, hscript]

variable {config : PoolConfig α} {state next : State} {handed : List (Handed α)}

/-- A new object only hands its own initial data over. -/
theorem newTactic_spec (hstate : Accounted state) {index : ℕ} {thread : TacticThread}
    (hfree : Free state index thread) {userInfo : String} {what : Option String}
    (hok : newTactic config state index userInfo what = .ok (next, handed)) :
    Accounted next ∧ Own handed := by
  obtain ⟨given, messages, hgiven, rfl, rfl⟩ := newTactic_cases hok
  obtain rfl := Option.some.inj (hfree.found.symm.trans hgiven)
  refine ⟨hstate.assign hfree userInfo what, ?_⟩
  intro message hmessage
  obtain ⟨truths, _, hmessage⟩ := List.mem_flatMap.mp hmessage
  obtain ⟨object, found, hobject, hfound, _, rfl⟩ := mem_passOnTruths.mp hmessage
  rw [State.assign, List.getElem?_concat_length] at hobject
  obtain rfl := Option.some.inj hobject
  have hlength : index < state.threads.length := (List.getElem?_eq_some_iff.mp hfree.found).1
  rw [State.assign, List.getElem?_set_self hlength] at hfound
  obtain rfl := Option.some.inj hfound
  rfl

theorem own_nil : Own ([] : List (Handed α)) :=
  fun _ hmessage => absurd hmessage List.not_mem_nil

/-- A free thread goes to a waiting request, or into the queue. -/
theorem tacticThreadReady_spec (hstate : Accounted state) {index : ℕ} {thread : TacticThread}
    (hfree : Free state index thread)
    (hok : tacticThreadReady config state index = .ok (next, handed)) :
    Accounted next ∧ Own handed := by
  rcases tacticThreadReady_cases hfree.found hok with
    ⟨queue, _, hitems, _, rfl, rfl⟩ | ⟨queue, request, hitems, _, hserve⟩
  · refine ⟨hstate.setPool ?_ ?_, own_nil⟩
    · intro other hother
      rw [hitems, List.mem_append, List.mem_singleton] at hother
      rcases hother with hother | rfl
      · exact hstate.idle_of_item _ other hother
      · exact ⟨thread, hfree.found, hfree.unassigned, hfree.started, rfl⟩
    · rw [hitems]
      apply List.Nodup.append (hstate.items_nodup _) (List.nodup_singleton index)
      exact List.disjoint_singleton.mpr (hfree.unqueued _)
  · have hqueue : Accounted (state.setPool thread.config.dirName queue) :=
      hstate.setPool (by simp [hitems]) (by simp [hitems])
    refine newTactic_spec hqueue ⟨hfree.found, hfree.unassigned, hfree.started, ?_⟩ hserve
    intro name hitem
    by_cases hname : name = thread.config.dirName
    · subst hname
      simp [hitems] at hitem
    · rw [state.setPool_of_ne hname] at hitem
      exact hfree.unqueued name hitem

theorem spawnExecutionFor_spec (hstate : Accounted state) {tactic : TacticConfig}
    {request : Request} (hok : spawnExecutionFor config state tactic request = .ok (next, handed)) :
    Accounted next ∧ Own handed := by
  rcases spawnExecutionFor_cases hok with
    ⟨queue, _, hitems, _, rfl, rfl⟩ | ⟨queue, index, _, hitems, hserve⟩
  · exact ⟨(hstate.newThread tactic false).setPool (by simp [hitems]) (by simp [hitems]), own_nil⟩
  · have hidle := hstate.idle_of_item tactic.dirName
    have hnodup := hstate.items_nodup tactic.dirName
    rw [hitems] at hidle hnodup
    obtain ⟨hunqueued, hnodup⟩ := List.nodup_cons.mp hnodup
    obtain ⟨thread, hfound, hunassigned, hstarted, hname⟩ := hidle index List.mem_cons_self
    have hqueue : Accounted (state.setPool tactic.dirName queue) :=
      hstate.setPool (fun other hother => hidle other (List.mem_cons_of_mem _ hother)) hnodup
    refine newTactic_spec hqueue ⟨hfound, hunassigned, hstarted, ?_⟩ hserve
    -- the thread is in no other queue, since a queue holds threads of its own directory
    intro other hitem
    by_cases heq : other = tactic.dirName
    · subst heq
      rw [State.setPool_self] at hitem
      exact hunqueued hitem
    · rw [state.setPool_of_ne heq] at hitem
      obtain ⟨found, hother, _, _, hdir⟩ := hstate.idle_of_item other index hitem
      obtain rfl := Option.some.inj (hfound.symm.trans hother)
      exact heq (hdir.symm.trans hname)

theorem spawnExecutions_spec (hstate : Accounted state) {request : Request}
    {tactics : List TacticConfig}
    (hok : spawnExecutions config request tactics state = .ok (next, handed)) :
    Accounted next ∧ Own handed := by
  induction tactics generalizing state handed with
  | nil =>
      obtain ⟨rfl, rfl⟩ := Prod.mk.inj (Except.ok.inj hok)
      exact ⟨hstate, own_nil⟩
  | cons tactic rest ih =>
      obtain ⟨middle, first, others, hfirst, hothers, rfl⟩ := spawnExecutions_cons hok
      obtain ⟨hmiddle, hownFirst⟩ := spawnExecutionFor_spec hstate hfirst
      obtain ⟨hlast, hownOthers⟩ := ih hmiddle hothers
      refine ⟨hlast, fun message hmessage => ?_⟩
      rcases List.mem_append.mp hmessage with hmessage | hmessage
      · exact hownFirst message hmessage
      · exact hownOthers message hmessage

theorem registerReadyForDuty_spec (hstate : Accounted state) {index : ℕ}
    (hok : registerReadyForDuty config state index = .ok (next, handed)) :
    Accounted next ∧ Own handed := by
  obtain ⟨thread, hfound, hscript, hready⟩ := registerReadyForDuty_cases hok
  have hconnected := hstate.setScript hfound .connected (by decide)
  have hlength : index < state.threads.length := (List.getElem?_eq_some_iff.mp hfound).1
  have hfree : Free (state.setThread index { thread with script := .connected }) index
      { thread with script := .connected } := by
    refine ⟨List.getElem?_set_self hlength,
      hstate.unassigned_of_starting index thread hfound hscript, by simp, ?_⟩
    intro name hitem
    obtain ⟨found, hother, _, hstarted, _⟩ := hstate.idle_of_item name index hitem
    obtain rfl := Option.some.inj (hfound.symm.trans hother)
    exact hstarted hscript
  split at hready
  next => exact newTactic_spec hconnected hfree hready
  next => exact tacticThreadReady_spec hconnected hfree hready

theorem receivedData_spec (hstate : Accounted state) {index : ℕ} {data : ScriptData α}
    (hok : receivedData config state index data = .ok (next, handed)) :
    Accounted next ∧ Own handed := by
  obtain ⟨thread, tactic, object, hfound, hscript, hdelegate, hobject, hdata⟩ :=
    receivedData_cases hok
  split at hdata
  next =>
    have hlength : index < state.threads.length := (List.getElem?_eq_some_iff.mp hfound).1
    refine tacticThreadReady_spec (hstate.release hfound hdelegate hobject)
      ⟨List.getElem?_set_self hlength, rfl, by simp [hscript], ?_⟩ hdata
    -- an assigned thread is in no queue
    intro name hitem
    obtain ⟨found, hother, hunassigned, _⟩ := hstate.idle_of_item name index hitem
    obtain rfl := Option.some.inj (hfound.symm.trans hother)
    exact absurd (hdelegate.symm.trans hunassigned) (Option.some_ne_none tactic)
  next =>
    obtain ⟨rfl, rfl⟩ := hdata
    exact ⟨hstate, own_nil⟩

variable [DecidableEq α]

/-- What one event does: threads stay accounted for, and only the delivery of a
needed truth can hand over a message that is not the delegate's. -/
theorem step_spec {event : Event α} (hstate : Accounted state)
    (hok : step config state event = .ok (next, handed)) :
    Accounted next ∧ (Own handed ∨ ∃ tactic facts, event = .neededTruth tactic facts) := by
  cases event with
  | exploreTruthSpaceFor request => exact (spawnExecutions_spec hstate hok).imp_right Or.inl
  | connect thread => exact (registerReadyForDuty_spec hstate hok).imp_right Or.inl
  | receivedData thread data => exact (receivedData_spec hstate hok).imp_right Or.inl
  | neededTruth tactic facts =>
      obtain ⟨_, _, _, rfl, _⟩ := neededTruth_cases hok
      exact ⟨hstate, Or.inr ⟨tactic, facts, rfl⟩⟩
  | stopTimer tactic =>
      obtain ⟨object, hobject, hstopping, rfl, rfl⟩ := stopTimer_cases hok
      exact ⟨hstate.stop hobject hstopping, Or.inl own_nil⟩
  | unbind thread =>
      obtain ⟨found, hfound, _, rfl, rfl⟩ := terminated_cases hok
      exact ⟨hstate.setScript hfound .terminated (by decide), Or.inl own_nil⟩

theorem PoolRun.accounted {steps : List (Transition State (Event α) (List (Handed α)))}
    (hrun : PoolRun config steps state) : Accounted state :=
  Run.invariant hrun (accounted_initial config)
    fun _ _ _ _ hstate hok => (step_spec hstate hok).1

/-! ## Isolation -/

/-- Every truths message handed to a script while its thread is assigned to a
request was passed on by the object of that request. -/
def RequestsIsolated (steps : List (Transition State (Event α) (List (Handed α)))) : Prop :=
  ∀ step ∈ steps, ∀ message ∈ step.output, ∀ tactic, message.assigned = some tactic →
    message.sender = tactic

/-- No truth reaches an object between its `stop_tactic` and its stop while the
pool has given its thread, with a living script, to another request. -/
def NoLateDelivery (steps : List (Transition State (Event α) (List (Handed α)))) : Prop :=
  ∀ step ∈ steps, ∀ tactic facts, step.input = .neededTruth tactic facts → facts ≠ [] →
    ∀ object thread, step.before.tactics[tactic]? = some object → object.lifetime = .stopping →
      step.before.threads[object.thread]? = some thread → thread.script = .connected →
        thread.delegate = none

/-- Consecutive requests on a thread are isolated exactly in the runs without a
late delivery. -/
theorem requestsIsolated_iff {steps : List (Transition State (Event α) (List (Handed α)))}
    (hrun : PoolRun config steps state) : RequestsIsolated steps ↔ NoLateDelivery steps := by
  constructor
  · intro hisolated step hstep tactic facts hinput hfacts object thread hobject hstopping hthread
      hscript
    obtain ⟨before, _, hbefore, hok⟩ := Run.exists_isPrefix hrun hstep
    rw [hinput] at hok
    obtain ⟨_, _, _, _, hhanded⟩ := neededTruth_cases hok
    obtain ⟨fact, hfact⟩ := List.exists_mem_of_ne_nil facts hfacts
    have hmessage := (hhanded _).mpr ⟨fact, hfact, mem_passOnTruths.mpr
      ⟨object, thread, hobject, hthread, hscript, rfl⟩⟩
    by_contra hassigned
    obtain ⟨delegate, hdelegate⟩ := Option.ne_none_iff_exists'.mp hassigned
    obtain rfl := hisolated step hstep _ hmessage delegate hdelegate
    obtain ⟨running, hrunning, _, hlifetime⟩ :=
      (PoolRun.accounted hbefore).running_of_delegate _ _ _ hthread hdelegate
    obtain rfl := Option.some.inj (hobject.symm.trans hrunning)
    rw [hstopping] at hlifetime
    cases hlifetime
  · intro hlate step hstep message hmessage tactic hassigned
    obtain ⟨before, _, hbefore, hok⟩ := Run.exists_isPrefix hrun hstep
    have haccounted := PoolRun.accounted hbefore
    rcases (step_spec haccounted hok).2 with hown | ⟨receiver, facts, hinput⟩
    · exact Option.some.inj ((hown message hmessage).symm.trans hassigned)
    · have hdelivery := hok
      rw [hinput] at hdelivery
      obtain ⟨alive, halive, hlifetime, _, hhanded⟩ := neededTruth_cases hdelivery
      obtain ⟨fact, hfact, hpassed⟩ := (hhanded message).mp hmessage
      obtain ⟨object, thread, hobject, hthread, hscript, rfl⟩ := mem_passOnTruths.mp hpassed
      obtain rfl := Option.some.inj (halive.symm.trans hobject)
      -- a running object is the delegate, and a stopping one finds no other delegate
      cases hcase : alive.lifetime with
      | running =>
          obtain ⟨found, hfound, hdelegate⟩ :=
            haccounted.delegate_of_running receiver alive hobject hcase
          obtain rfl := Option.some.inj (hthread.symm.trans hfound)
          exact Option.some.inj (hdelegate.symm.trans hassigned)
      | stopping =>
          have hnone := hlate step hstep receiver facts hinput (List.ne_nil_of_mem hfact) alive
            thread hobject hcase hthread hscript
          exact absurd (hassigned.symm.trans hnone) (Option.some_ne_none tactic)
      | stopped => exact absurd hcase hlifetime

/-! ## A delivery in the last second -/

/-- The iodine tactic is recycled by one user's request and given to another's,
before the first user's secret arrives. -/
def iodinePool : PoolConfig String where
  nodeName := "alpha"
  tactics := [⟨"iodine", [fun what => "connectable_ip@".toList.isPrefixOf what.toList], "iodine",
    false⟩]
  literals := ⟨id, fun value => toString value, fun value => toString value, "null"⟩

def iodineEvents : List (Event String) :=
  [.exploreTruthSpaceFor ⟨"connectable_ip@beta", "carol"⟩,
    .connect 0,
    .receivedData 0 { recycle := true },
    .exploreTruthSpaceFor ⟨"connectable_ip@gamma", "mallory"⟩,
    .neededTruth 0 [⟨"shared_secret-iodined@beta", "shared_secret", "carol", "beta", "s3cret"⟩]]

theorem requestsIsolated_iff_iodine :
    RequestsIsolated (record (step iodinePool) (initial iodinePool) iodineEvents) ↔
      NoLateDelivery (record (step iodinePool) (initial iodinePool) iodineEvents) :=
  requestsIsolated_iff (run_record (step iodinePool) (initial iodinePool) iodineEvents)

theorem not_requestsIsolated_iodine :
    ¬ ∀ (steps : List (Transition State (Event String) (List (Handed String)))) (state : State),
      PoolRun iodinePool steps state → RequestsIsolated steps := by
  intro hclaim
  have hisolated := hclaim _ _ (run_record (step iodinePool) (initial iodinePool) iodineEvents)
  have hsame := hisolated
    ((record (step iodinePool) (initial iodinePool) iodineEvents).get ⟨4, by decide⟩)
    (List.get_mem _ _) ⟨0, some 1, 0,
      [⟨"shared_secret-iodined@beta", "shared_secret", "carol", "beta", "s3cret"⟩]⟩ (by decide) 1
    rfl
  exact absurd hsame (by decide)

end Signpost.Pool

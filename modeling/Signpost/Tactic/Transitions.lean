import Signpost.Tactic.Pool

/-! # What the operations of the pool do

Each lemma takes one successful operation apart, with the tests that it made, so
that invariants of the pool need not unfold the operations.
-/

namespace Signpost.Pool

open Bloom Machine

variable {α : Type} {config : PoolConfig α} {state next : State} {handed : List (Handed α)}

/-! ## Handing out threads -/

theorem newTactic_cases {index : ℕ} {userInfo : String} {what : Option String}
    (hok : newTactic config state index userInfo what = .ok (next, handed)) :
    ∃ (thread : TacticThread) (messages : List (List (Fact α))),
      state.threads[index]? = some thread ∧
      next = state.assign index thread userInfo what ∧
      handed = messages.flatMap (passOnTruths next state.tactics.length) := by
  unfold newTactic at hok
  split at hok
  next => cases hok
  next thread hfound =>
  simp only [bind_eq_ok] at hok
  obtain ⟨messages, _, hresult⟩ := hok
  obtain ⟨rfl, rfl⟩ := Prod.mk.inj (Except.ok.inj hresult)
  exact ⟨thread, messages, hfound, rfl, rfl⟩

/-- A thread that is ready goes into the queue of its directory, or to the request
that has waited longest there. -/
theorem tacticThreadReady_cases {index : ℕ} {thread : TacticThread}
    (hfound : state.threads[index]? = some thread)
    (hok : tacticThreadReady config state index = .ok (next, handed)) :
    (∃ queue : PopQueue ℕ Request, (state.pool thread.config.dirName).popq = [] ∧
      queue.items = (state.pool thread.config.dirName).items ++ [index] ∧ queue.popq = [] ∧
      next = state.setPool thread.config.dirName queue ∧ handed = []) ∨
    ∃ (queue : PopQueue ℕ Request) (request : Request), queue.items = [] ∧
      (state.pool thread.config.dirName).popq = request :: queue.popq ∧
      newTactic config (state.setPool thread.config.dirName queue) index request.userInfo
        (some request.what) = .ok (next, handed) := by
  simp only [tacticThreadReady, hfound] at hok
  have hpush := (state.pool thread.config.dirName).push_cases index
  generalize (state.pool thread.config.dirName).push index = result at hok hpush
  obtain ⟨queue, waiting⟩ := result
  rcases hpush with ⟨hpopq, hnone, hitems, hempty⟩ | ⟨request, hsome, hitems, hpopq⟩
  · simp only at hnone hitems hempty
    subst hnone
    obtain ⟨rfl, rfl⟩ := Prod.mk.inj (Except.ok.inj hok)
    exact Or.inl ⟨queue, hpopq, hitems, hempty, rfl, rfl⟩
  · simp only at hsome hitems hpopq
    subst hsome
    exact Or.inr ⟨queue, request, hitems, hpopq, hok⟩

/-- An execution waits for the thread that is started for it, or takes the first
idle thread of the directory. -/
theorem spawnExecutionFor_cases {tactic : TacticConfig} {request : Request}
    (hok : spawnExecutionFor config state tactic request = .ok (next, handed)) :
    (∃ queue : PopQueue ℕ Request, (state.pool tactic.dirName).items = [] ∧ queue.items = [] ∧
      queue.popq = (state.pool tactic.dirName).popq ++ [request] ∧
      next = (newThread state tactic false).setPool tactic.dirName queue ∧ handed = []) ∨
    ∃ (queue : PopQueue ℕ Request) (index : ℕ), queue.popq = [] ∧
      (state.pool tactic.dirName).items = index :: queue.items ∧
      newTactic config (state.setPool tactic.dirName queue) index request.userInfo
        (some request.what) = .ok (next, handed) := by
  unfold spawnExecutionFor at hok
  extract_lets name expanded at hok
  have hpool : expanded.pool name = state.pool name := by
    unfold expanded
    split <;> rfl
  have hpop := (expanded.pool name).pop_cases request
  generalize (expanded.pool name).pop request = result at hok hpop
  obtain ⟨queue, taken⟩ := result
  rw [hpool] at hpop
  rcases hpop with ⟨hitems, hnone, hempty, hpopq⟩ | ⟨index, hsome, hpopq, hitems⟩
  · simp only at hnone hempty hpopq
    subst hnone
    obtain ⟨rfl, rfl⟩ := Prod.mk.inj (Except.ok.inj hok)
    have hexpanded : expanded = newThread state tactic false := if_pos hitems
    exact Or.inl ⟨queue, hitems, hempty, hpopq, by rw [hexpanded], rfl⟩
  · simp only at hsome hpopq hitems
    subst hsome
    have hexpanded : expanded = state := if_neg (by simp [name, hitems])
    rw [hexpanded] at hok
    exact Or.inr ⟨queue, index, hpopq, hitems, hok⟩

/-- The executions of a request are spawned one after another. -/
theorem spawnExecutions_cons {request : Request} {tactic : TacticConfig}
    {rest : List TacticConfig}
    (hok : spawnExecutions config request (tactic :: rest) state = .ok (next, handed)) :
    ∃ middle first others, spawnExecutionFor config state tactic request = .ok (middle, first) ∧
      spawnExecutions config request rest middle = .ok (next, others) ∧
      handed = first ++ others := by
  simp only [spawnExecutions, bind_eq_ok] at hok
  obtain ⟨⟨middle, first⟩, hfirst, ⟨last, others⟩, hothers, hresult⟩ := hok
  obtain ⟨rfl, rfl⟩ := Prod.mk.inj (Except.ok.inj hresult)
  exact ⟨middle, first, others, hfirst, hothers, rfl⟩

/-! ## Events of threads and objects -/

theorem registerReadyForDuty_cases {index : ℕ}
    (hok : registerReadyForDuty config state index = .ok (next, handed)) :
    ∃ thread, state.threads[index]? = some thread ∧ thread.script = .starting ∧
      if thread.isDaemon then
        newTactic config (state.setThread index { thread with script := .connected }) index
          "DAEMON" none = .ok (next, handed)
      else
        tacticThreadReady config (state.setThread index { thread with script := .connected })
          index = .ok (next, handed) := by
  unfold registerReadyForDuty at hok
  split at hok
  next => cases hok
  next thread hfound =>
  split at hok
  next => cases hok
  next hscript =>
  refine ⟨thread, hfound, not_not.mp hscript, ?_⟩
  split at hok
  next hdaemon => rwa [if_pos hdaemon]
  next hdaemon => rwa [if_neg hdaemon]

/-- The state in which the thread has dropped its delegate, which is told to stop. -/
def State.release (state : State) (index : ℕ) (thread : TacticThread) (tactic : ℕ)
    (object : TacticObject) : State :=
  (state.setTactic tactic { object with lifetime := .stopping }).setThread index
    { thread with delegate := none }

theorem receivedData_cases {index : ℕ} {data : ScriptData α}
    (hok : receivedData config state index data = .ok (next, handed)) :
    ∃ thread tactic object, state.threads[index]? = some thread ∧ thread.script = .connected ∧
      thread.delegate = some tactic ∧ state.tactics[tactic]? = some object ∧
      if data.recycle then
        tacticThreadReady config (state.release index thread tactic object) index =
          .ok (next, handed)
      else next = state ∧ handed = [] := by
  unfold receivedData at hok
  split at hok
  next => cases hok
  next thread hfound =>
  split at hok
  next => cases hok
  next hscript =>
  split at hok
  next => cases hok
  next tactic hdelegate =>
  split at hok
  next => cases hok
  next object hobject =>
  refine ⟨thread, tactic, object, hfound, not_not.mp hscript, hdelegate, hobject, ?_⟩
  split at hok
  next hrecycle => rwa [if_pos hrecycle]
  next hrecycle =>
    rw [if_neg hrecycle]
    obtain ⟨rfl, rfl⟩ := Prod.mk.inj (Except.ok.inj hok)
    exact ⟨rfl, rfl⟩

theorem stopTimer_cases {tactic : ℕ} (hok : stopTimer state tactic = .ok (next, handed)) :
    ∃ object, state.tactics[tactic]? = some object ∧ object.lifetime = .stopping ∧
      next = state.setTactic tactic { object with lifetime := .stopped } ∧ handed = [] := by
  unfold stopTimer at hok
  split at hok
  next => cases hok
  next object hobject =>
  split at hok
  next hstopping =>
    obtain ⟨rfl, rfl⟩ := Prod.mk.inj (Except.ok.inj hok)
    exact ⟨object, hobject, hstopping, rfl, rfl⟩
  next => cases hok

theorem terminated_cases {index : ℕ} (hok : terminated state index = .ok (next, handed)) :
    ∃ thread, state.threads[index]? = some thread ∧ thread.script = .connected ∧
      next = state.setThread index { thread with script := .terminated } ∧ handed = [] := by
  unfold terminated at hok
  split at hok
  next => cases hok
  next thread hfound =>
  split at hok
  next hscript =>
    obtain ⟨rfl, rfl⟩ := Prod.mk.inj (Except.ok.inj hok)
    exact ⟨thread, hfound, hscript, rfl, rfl⟩
  next => cases hok

variable [DecidableEq α]

/-- An object passes on what it is sent, one truth in each message. -/
theorem neededTruth_cases {tactic : ℕ} {facts : List (Fact α)}
    (hok : neededTruth state tactic facts = .ok (next, handed)) :
    ∃ object, state.tactics[tactic]? = some object ∧ object.lifetime ≠ .stopped ∧ next = state ∧
      ∀ message, message ∈ handed ↔ ∃ fact ∈ facts, message ∈ passOnTruths state tactic [fact] := by
  unfold neededTruth at hok
  split at hok
  next => cases hok
  next object hobject =>
  split at hok
  next => cases hok
  next hlifetime =>
  split at hok
  next => cases hok
  next rows hrows =>
  obtain ⟨rfl, rfl⟩ := Prod.mk.inj (Except.ok.inj hok)
  refine ⟨object, hobject, hlifetime, rfl, fun message => ?_⟩
  simp only [List.mem_flatMap, Collection.mem_rows, Collection.mem_of_derive hrows]

end Signpost.Pool

import Signpost.Tactic.Helper
import Signpost.Tactic.Recycling

/-! # Threads and their scripts

A thread and its script are two processes with a stream in each direction. The
script has no state for being idle: it answers every truth with a log message,
also after it has asked to be recycled, and the object that it worked for passes
truths on for another second. The thread hands each message to its delegate.
-/

namespace Signpost.Dispatch

open Machine Helper
open Pool (PoolConfig PoolError Request Handed)

variable {α : Type}

/-! ## The two streams of a thread -/

structure System (α : Type) where
  pool : Pool.State
  scripts : ℕ → Helper.State α
  toScript : ℕ → List (List (Fact α))
  toThread : ℕ → List (Message α)

inductive SystemError
  | disabled
  | pool (error : PoolError)
  | helper (error : HelperError)
deriving DecidableEq, Repr

/-- A line that the reads of a stream cut apart is not parsed by its receiver. -/
inductive Event (α : Type)
  | exploreTruthSpaceFor (request : Request)
  | connect (thread : ℕ)
  | neededTruth (tactic : ℕ) (facts : List (Fact α))
  | stopTimer (tactic : ℕ)
  | unbind (thread : ℕ)
  | handleInput (thread : ℕ)
  | cutInput (thread : ℕ)
  | call (thread : ℕ) (call : Call α)
  | receivedData (thread : ℕ)
  | cutData (thread : ℕ)

def handOver (toScript : ℕ → List (List (Fact α))) (handed : List (Handed α)) (thread : ℕ) :
    List (List (Fact α)) :=
  toScript thread ++
    (handed.filter fun message => message.thread = thread).map fun message => message.truths

/-- What the pool did, with the truths that it handed to scripts. -/
def System.poolStep (system : System α) (result : Except PoolError (Pool.Outcome α)) :
    Except SystemError (System α × Unit) :=
  match result with
  | .error error => .error (.pool error)
  | .ok (pool, handed) =>
      .ok ({ system with pool := pool, toScript := handOver system.toScript handed }, ())

/-- What a script did, with the messages that it relayed. -/
def System.scriptStep (system : System α) (thread : ℕ)
    (result : Except HelperError (Helper.State α × List (Message α))) :
    Except SystemError (System α × Unit) :=
  match result with
  | .error error => .error (.helper error)
  | .ok (script, messages) =>
      .ok ({ system with
        scripts := Function.update system.scripts thread script
        toThread := Function.update system.toThread thread
          (system.toThread thread ++ messages) }, ())

def System.dropInput (system : System α) (thread : ℕ) (rest : List (List (Fact α))) : System α :=
  { system with toScript := Function.update system.toScript thread rest }

def System.dropData (system : System α) (thread : ℕ) (rest : List (Message α)) : System α :=
  { system with toThread := Function.update system.toThread thread rest }

/-- The script of a thread that has not terminated. -/
def Runs (pool : Pool.State) (thread : ℕ) : Bool :=
  pool.threads[thread]?.any fun found => found.script ≠ .terminated

def step [DecidableEq α] (config : PoolConfig α) (system : System α) :
    Event α → Except SystemError (System α × Unit)
  | .exploreTruthSpaceFor request =>
      system.poolStep (Pool.exploreTruthSpaceFor config system.pool request)
  | .connect thread => system.poolStep (Pool.registerReadyForDuty config system.pool thread)
  | .neededTruth tactic facts => system.poolStep (Pool.neededTruth system.pool tactic facts)
  | .stopTimer tactic => system.poolStep (Pool.stopTimer system.pool tactic)
  | .unbind thread => system.poolStep (Pool.terminated system.pool thread)
  | .handleInput thread =>
      match system.toScript thread with
      | [] => .error .disabled
      | truths :: rest =>
          if Runs system.pool thread then
            (system.dropInput thread rest).scriptStep thread
              (Helper.handleInput config.literals (system.scripts thread) truths)
          else .error .disabled
  | .cutInput thread =>
      match system.toScript thread with
      | [] => .error .disabled
      | _ :: rest => .ok (system.dropInput thread rest, ())
  | .call thread call =>
      if Runs system.pool thread then
        system.scriptStep thread (.ok (runCalls (system.scripts thread) [call]))
      else .error .disabled
  | .receivedData thread =>
      match system.toThread thread with
      | [] => .error .disabled
      | message :: rest =>
          (system.dropData thread rest).poolStep
            (Pool.receivedData config system.pool thread message.data)
  | .cutData thread =>
      match system.toThread thread with
      | [] => .error .disabled
      | _ :: rest => .ok (system.dropData thread rest, ())

/-- The script of each thread registers the blocks of its program. -/
def initial (config : PoolConfig α) (program : ℕ → List (Todo α)) : System α where
  pool := Pool.initial config
  scripts := fun thread => Helper.initial (program thread)
  toScript := fun _ => []
  toThread := fun _ => []

abbrev Record (α : Type) := List (Transition (System α) (Event α) Unit)

abbrev SystemRun [DecidableEq α] (config : PoolConfig α) (program : ℕ → List (Todo α)) :
    Record α → System α → Prop :=
  Run (step config) (initial config program)

/-! ## Threads that keep their delegate -/

variable {config : PoolConfig α} {pool next : Pool.State} {handed : List (Handed α)}

/-- The thread has a `Tactic` to hand its data to. -/
def HasDelegate (pool : Pool.State) (thread : ℕ) : Prop :=
  ∃ found tactic, pool.threads[thread]? = some found ∧ found.delegate = some tactic

theorem getElem_setThread {index : ℕ} {found : Pool.TacticThread}
    (hfound : pool.threads[index]? = some found) (new : Pool.TacticThread) :
    (pool.setThread index new).threads[index]? = some new := by
  grind [Pool.State.setThread]

theorem hasDelegate_newTactic {index : ℕ} {userInfo : String} {what : Option String}
    (hok : Pool.newTactic config pool index userInfo what = .ok (next, handed)) :
    HasDelegate next index ∧ ∀ thread, HasDelegate pool thread → HasDelegate next thread := by
  obtain ⟨given, _, hgiven, rfl, _⟩ := Pool.newTactic_cases hok
  have hassigned : HasDelegate (pool.assign index given userInfo what) index := by
    refine ⟨{ given with delegate := some pool.tactics.length }, pool.tactics.length, ?_, rfl⟩
    grind [Pool.State.assign]
  refine ⟨hassigned, fun thread hthread => ?_⟩
  by_cases hsame : thread = index
  · rwa [hsame]
  · obtain ⟨found, tactic, hfound, hdelegate⟩ := hthread
    exact ⟨found, tactic, by grind [Pool.State.assign], hdelegate⟩

theorem hasDelegate_tacticThreadReady {index : ℕ} {found : Pool.TacticThread}
    (hfound : pool.threads[index]? = some found)
    (hok : Pool.tacticThreadReady config pool index = .ok (next, handed)) :
    ((pool.pool found.config.dirName).popq ≠ [] → HasDelegate next index) ∧
      ∀ thread, HasDelegate pool thread → HasDelegate next thread := by
  rcases Pool.tacticThreadReady_cases hfound hok with
    ⟨queue, hnone, _, _, rfl, _⟩ | ⟨queue, request, _, _, hserved⟩
  · exact ⟨fun hwaiting => absurd hnone hwaiting, fun _ hthread => hthread⟩
  · have hnew := hasDelegate_newTactic hserved
    exact ⟨fun _ => hnew.1, hnew.2⟩

theorem hasDelegate_spawnExecutions {request : Request} {tactics : List Pool.TacticConfig}
    (hok : Pool.spawnExecutions config request tactics pool = .ok (next, handed)) {thread : ℕ}
    (hthread : HasDelegate pool thread) : HasDelegate next thread := by
  induction tactics generalizing pool handed with
  | nil =>
      cases hok
      exact hthread
  | cons tactic rest ih =>
      obtain ⟨middle, first, others, hfirst, hothers, _⟩ := Pool.spawnExecutions_cons hok
      apply ih hothers
      rcases Pool.spawnExecutionFor_cases hfirst with
        ⟨queue, _, _, _, rfl, _⟩ | ⟨queue, index, _, _, hserved⟩
      · obtain ⟨found, given, hfound, hdelegate⟩ := hthread
        exact ⟨found, given, by grind [Pool.newThread, Pool.State.setPool], hdelegate⟩
      · exact (hasDelegate_newTactic hserved).2 thread hthread

theorem hasDelegate_setScript {index thread : ℕ} {found : Pool.TacticThread}
    (hfound : pool.threads[index]? = some found) (script : Pool.Script)
    (hthread : HasDelegate pool thread) :
    HasDelegate (pool.setThread index { found with script := script }) thread := by
  obtain ⟨other, tactic, hother, hdelegate⟩ := hthread
  by_cases hsame : thread = index
  · subst hsame
    obtain rfl := Option.some.inj (hfound.symm.trans hother)
    exact ⟨{ found with script := script }, tactic, getElem_setThread hfound _, hdelegate⟩
  · exact ⟨other, tactic, by grind [Pool.State.setThread], hdelegate⟩

theorem hasDelegate_registerReadyForDuty {index thread : ℕ}
    (hok : Pool.registerReadyForDuty config pool index = .ok (next, handed))
    (hthread : HasDelegate pool thread) : HasDelegate next thread := by
  obtain ⟨found, hfound, _, hready⟩ := Pool.registerReadyForDuty_cases hok
  have hkept := hasDelegate_setScript hfound .connected hthread
  split at hready
  next => exact (hasDelegate_newTactic hready).2 thread hkept
  next => exact (hasDelegate_tacticThreadReady (getElem_setThread hfound _) hready).2 thread hkept

theorem hasDelegate_stopTimer {tactic thread : ℕ}
    (hok : Pool.stopTimer pool tactic = .ok (next, handed)) (hthread : HasDelegate pool thread) :
    HasDelegate next thread := by
  obtain ⟨object, _, _, rfl, _⟩ := Pool.stopTimer_cases hok
  exact hthread

theorem hasDelegate_terminated {index thread : ℕ}
    (hok : Pool.terminated pool index = .ok (next, handed)) (hthread : HasDelegate pool thread) :
    HasDelegate next thread := by
  obtain ⟨found, hfound, _, rfl, _⟩ := Pool.terminated_cases hok
  exact hasDelegate_setScript hfound .terminated hthread

/-- The queue of the directory of a thread in which requests wait for one. -/
def waitingFor (pool : Pool.State) (thread : ℕ) : List Request :=
  pool.threads[thread]?.elim [] fun found => (pool.pool found.config.dirName).popq

/-- Only the thread that recycles loses its delegate, and only while no request
waits for it. -/
theorem hasDelegate_receivedData {index thread : ℕ} {data : ScriptData α}
    (hok : Pool.receivedData config pool index data = .ok (next, handed))
    (hthread : HasDelegate pool thread)
    (hrecycle : thread = index → data.recycle = true → waitingFor pool index ≠ []) :
    HasDelegate next thread := by
  obtain ⟨found, tactic, object, hfound, _, _, _, hdata⟩ := Pool.receivedData_cases hok
  split at hdata
  next hasks =>
    have hreleased : (pool.release index found tactic object).threads[index]? =
        some { found with delegate := none } := getElem_setThread hfound _
    have hready := hasDelegate_tacticThreadReady hreleased hdata
    by_cases hsame : thread = index
    · subst hsame
      apply hready.1
      have hwaiting := hrecycle rfl hasks
      rwa [waitingFor, hfound] at hwaiting
    · apply hready.2
      obtain ⟨other, given, hother, hdelegate⟩ := hthread
      refine ⟨other, given, ?_, hdelegate⟩
      grind [Pool.State.release, Pool.State.setThread, Pool.State.setTactic]
  next =>
    rw [hdata.1]
    exact hthread

/-! ## Messages under way -/

/-- A script takes input and makes calls only while its thread has a delegate. A
thread takes in that it is to be recycled with nothing of its script behind it, or
with a request waiting. -/
def Orderly (system : System α) : Event α → Prop
  | .handleInput thread | .call thread _ => HasDelegate system.pool thread
  | .receivedData thread =>
      (system.toThread thread).head?.any (fun message => message.data.recycle) →
        (system.toThread thread).tail = [] ∨ waitingFor system.pool thread ≠ []
  | .exploreTruthSpaceFor _ | .connect _ | .neededTruth _ _ | .stopTimer _ | .unbind _
  | .cutInput _ | .cutData _ => True

def Delegated (system : System α) : Prop :=
  ∀ thread, system.toThread thread ≠ [] → HasDelegate system.pool thread

theorem poolStep_cases {system : System α} {result : Except PoolError (Pool.Outcome α)}
    {after : System α} {output : Unit} (hok : system.poolStep result = .ok (after, output)) :
    ∃ handed, result = .ok (after.pool, handed) ∧ after.toThread = system.toThread := by
  unfold System.poolStep at hok
  split at hok
  next => cases hok
  next pool handed =>
    cases hok
    exact ⟨handed, rfl, rfl⟩

theorem scriptStep_cases {system : System α} {thread : ℕ}
    {result : Except HelperError (Helper.State α × List (Message α))} {after : System α}
    {output : Unit} (hok : system.scriptStep thread result = .ok (after, output)) :
    after.pool = system.pool ∧
      ∀ other, other ≠ thread → after.toThread other = system.toThread other := by
  unfold System.scriptStep at hok
  split at hok
  next => cases hok
  next =>
    cases hok
    exact ⟨rfl, fun other hother => Function.update_of_ne hother _ _⟩

/-! ### What each event of the streams needs and does -/

section Events

variable [DecidableEq α] {system after : System α} {thread : ℕ} {output : Unit}

theorem handleInput_cases
    (hok : step config system (.handleInput thread) = .ok (after, output)) :
    ∃ truths rest, system.toScript thread = truths :: rest ∧ Runs system.pool thread = true ∧
      (system.dropInput thread rest).scriptStep thread
        (Helper.handleInput config.literals (system.scripts thread) truths) =
          .ok (after, output) := by
  simp only [step] at hok
  split at hok
  next => cases hok
  next truths rest hinput =>
  split at hok
  next hruns => exact ⟨truths, rest, hinput, hruns, hok⟩
  next => cases hok

theorem cutInput_cases (hok : step config system (.cutInput thread) = .ok (after, output)) :
    ∃ truths rest, system.toScript thread = truths :: rest ∧
      after = system.dropInput thread rest := by
  simp only [step] at hok
  split at hok
  next => cases hok
  next truths rest hinput =>
    cases hok
    exact ⟨truths, rest, hinput, rfl⟩

theorem call_cases {call : Call α}
    (hok : step config system (.call thread call) = .ok (after, output)) :
    Runs system.pool thread = true ∧
      system.scriptStep thread (.ok (runCalls (system.scripts thread) [call])) =
        .ok (after, output) := by
  simp only [step] at hok
  split at hok
  next hruns => exact ⟨hruns, hok⟩
  next => cases hok

theorem receivedData_cases
    (hok : step config system (.receivedData thread) = .ok (after, output)) :
    ∃ message rest, system.toThread thread = message :: rest ∧
      (system.dropData thread rest).poolStep
        (Pool.receivedData config system.pool thread message.data) = .ok (after, output) := by
  simp only [step] at hok
  split at hok
  next => cases hok
  next message rest hmail => exact ⟨message, rest, hmail, hok⟩

theorem cutData_cases (hok : step config system (.cutData thread) = .ok (after, output)) :
    ∃ message rest, system.toThread thread = message :: rest ∧
      after = system.dropData thread rest := by
  simp only [step] at hok
  split at hok
  next => cases hok
  next message rest hmail =>
    cases hok
    exact ⟨message, rest, hmail, rfl⟩

end Events

namespace Delegated

variable {system after : System α} {output : Unit}

theorem poolStep (hsystem : Delegated system) {result : Except PoolError (Pool.Outcome α)}
    (hok : system.poolStep result = .ok (after, output))
    (hkeep : ∀ handed, result = .ok (after.pool, handed) →
      ∀ thread, HasDelegate system.pool thread → HasDelegate after.pool thread) :
    Delegated after := by
  obtain ⟨handed, hresult, hsame⟩ := poolStep_cases hok
  intro thread hthread
  rw [hsame] at hthread
  exact hkeep handed hresult thread (hsystem thread hthread)

theorem scriptStep (hsystem : Delegated system) {thread : ℕ}
    {result : Except HelperError (Helper.State α × List (Message α))}
    (hok : system.scriptStep thread result = .ok (after, output))
    (hthread : HasDelegate system.pool thread) : Delegated after := by
  obtain ⟨hpool, hothers⟩ := scriptStep_cases hok
  intro other hother
  rw [hpool]
  by_cases hsame : other = thread
  · rwa [hsame]
  · rw [hothers other hsame] at hother
    exact hsystem other hother

theorem dropData (hsystem : Delegated system) {thread : ℕ} {message : Message α}
    {rest : List (Message α)} (hmail : system.toThread thread = message :: rest) :
    Delegated (system.dropData thread rest) := by
  intro other hother
  apply hsystem
  by_cases hsame : other = thread
  · simp [hsame, hmail]
  · simpa [System.dropData, hsame] using hother

/-- What is under way to a thread finds a delegate there after every orderly step. -/
theorem step [DecidableEq α] (hsystem : Delegated system) {event : Event α}
    (horderly : Orderly system event) (hok : step config system event = .ok (after, output)) :
    Delegated after := by
  cases event with
  | exploreTruthSpaceFor request =>
      exact hsystem.poolStep hok fun _ hresult _ => hasDelegate_spawnExecutions hresult
  | connect thread =>
      exact hsystem.poolStep hok fun _ hresult _ => hasDelegate_registerReadyForDuty hresult
  | neededTruth tactic facts =>
      apply hsystem.poolStep hok
      intro handed hresult thread hthread
      obtain ⟨_, _, _, hsame, _⟩ := Pool.neededTruth_cases hresult
      rwa [hsame]
  | stopTimer tactic =>
      exact hsystem.poolStep hok fun _ hresult _ => hasDelegate_stopTimer hresult
  | unbind thread =>
      exact hsystem.poolStep hok fun _ hresult _ => hasDelegate_terminated hresult
  | handleInput thread =>
      obtain ⟨truths, rest, _, _, hscript⟩ := handleInput_cases hok
      have hrest : Delegated (system.dropInput thread rest) := hsystem
      exact hrest.scriptStep hscript horderly
  | cutInput thread =>
      obtain ⟨truths, rest, _, rfl⟩ := cutInput_cases hok
      exact hsystem
  | call thread call => exact hsystem.scriptStep (call_cases hok).2 horderly
  | receivedData thread =>
      obtain ⟨message, rest, hmail, hpool⟩ := receivedData_cases hok
      obtain ⟨handed, hresult, hsame⟩ := poolStep_cases hpool
      intro other hother
      rw [hsame] at hother
      apply hasDelegate_receivedData hresult (hsystem.dropData hmail other hother)
      rintro rfl hrecycle
      simp only [Orderly, hmail, List.head?_cons, Option.any_some, List.tail_cons] at horderly
      refine (horderly hrecycle).resolve_left fun hrest => hother ?_
      simp [System.dropData, hrest]
  | cutData thread =>
      obtain ⟨message, rest, hmail, rfl⟩ := cutData_cases hok
      exact hsystem.dropData hmail

end Delegated

/-! ## Dispatching -/

/-- Data that is under way to a thread finds a `Tactic` there, so that handing it
over does not fail. -/
def Dispatches [DecidableEq α] (config : PoolConfig α) (system : System α) : Prop :=
  ∀ thread, system.toThread thread ≠ [] →
    (∃ found tactic object, system.pool.threads[thread]? = some found ∧
      found.delegate = some tactic ∧ system.pool.tactics[tactic]? = some object) ∧
    step config system (.receivedData thread) ≠ .error (.pool .noDelegate)

theorem newTactic_ne_noDelegate {index : ℕ} {userInfo : String} {what : Option String} :
    Pool.newTactic config pool index userInfo what ≠ .error .noDelegate := by
  intro herror
  unfold Pool.newTactic at herror
  split at herror
  next => cases herror
  next found _ =>
  rcases bind_eq_error.mp herror with hfirst | ⟨_, _, hlast⟩
  · unfold Pool.performBootstrapping Pool.execute at hfirst
    grind [Except.map]
  · cases hlast

theorem tacticThreadReady_ne_noDelegate {index : ℕ} :
    Pool.tacticThreadReady config pool index ≠ .error .noDelegate := by
  intro herror
  unfold Pool.tacticThreadReady at herror
  split at herror
  next => cases herror
  next found _ =>
  extract_lets name at herror
  split at herror
  next => cases herror
  next => exact newTactic_ne_noDelegate herror

theorem receivedData_ne_noDelegate {thread : ℕ} {data : ScriptData α}
    (hthread : HasDelegate pool thread) :
    Pool.receivedData config pool thread data ≠ .error .noDelegate := by
  obtain ⟨found, tactic, hfound, hdelegate⟩ := hthread
  intro herror
  simp only [Pool.receivedData, hfound, hdelegate] at herror
  split at herror
  next => cases herror
  next =>
  split at herror
  next => cases herror
  next =>
  split at herror
  next => exact tacticThreadReady_ne_noDelegate herror
  next => cases herror

variable [DecidableEq α]

variable (config) in
theorem accounted_poolStep {before system after : System α} {output : Unit}
    (hsystem : Pool.Accounted before.pool) (event : Pool.Event α)
    (hok : system.poolStep (Pool.step config before.pool event) = .ok (after, output)) :
    Pool.Accounted after.pool := by
  obtain ⟨handed, hresult, _⟩ := poolStep_cases hok
  exact (Pool.step_spec hsystem hresult).1

theorem accounted_step {system after : System α} {event : Event α} {output : Unit}
    (hsystem : Pool.Accounted system.pool)
    (hok : step config system event = .ok (after, output)) : Pool.Accounted after.pool := by
  cases event with
  | exploreTruthSpaceFor request =>
      exact accounted_poolStep config hsystem (.exploreTruthSpaceFor request) hok
  | connect thread => exact accounted_poolStep config hsystem (.connect thread) hok
  | neededTruth tactic facts =>
      exact accounted_poolStep config hsystem (.neededTruth tactic facts) hok
  | stopTimer tactic => exact accounted_poolStep config hsystem (.stopTimer tactic) hok
  | unbind thread => exact accounted_poolStep config hsystem (.unbind thread) hok
  | handleInput thread =>
      obtain ⟨truths, rest, _, _, hscript⟩ := handleInput_cases hok
      rwa [(scriptStep_cases hscript).1]
  | cutInput thread =>
      obtain ⟨truths, rest, _, rfl⟩ := cutInput_cases hok
      exact hsystem
  | call thread call => rwa [(scriptStep_cases (call_cases hok).2).1]
  | receivedData thread =>
      obtain ⟨message, rest, _, hpool⟩ := receivedData_cases hok
      exact accounted_poolStep config hsystem (.receivedData thread message.data) hpool
  | cutData thread =>
      obtain ⟨message, rest, _, rfl⟩ := cutData_cases hok
      exact hsystem

/-- No thread is handed data without a delegate as long as its script is silent
from the moment that it asks to be recycled until it is given a new request. -/
theorem dispatches_of_orderly {program : ℕ → List (Todo α)} {steps : Record α}
    {system : System α} (hrun : SystemRun config program steps system)
    (horderly : ∀ step ∈ steps, Orderly step.before step.input) : Dispatches config system := by
  have hstate : Pool.Accounted system.pool ∧ Delegated system := by
    induction hrun with
    | start =>
        refine ⟨Pool.accounted_initial config, fun thread hthread => ?_⟩
        exact absurd rfl hthread
    | extend prior hstep ih =>
        obtain ⟨haccounted, hdelegated⟩ := ih fun step hprior =>
          horderly step (List.mem_append_left _ hprior)
        have hlast := horderly _ (List.mem_append_right _ List.mem_cons_self)
        exact ⟨accounted_step haccounted hstep, hdelegated.step hlast hstep⟩
  obtain ⟨haccounted, hdelegated⟩ := hstate
  intro thread hthread
  have hdelegate := hdelegated thread hthread
  constructor
  · obtain ⟨found, tactic, hfound, hgiven⟩ := hdelegate
    obtain ⟨object, hobject, _⟩ := haccounted.running_of_delegate thread found tactic hfound hgiven
    exact ⟨found, tactic, object, hfound, hgiven, hobject⟩
  · cases hmail : system.toThread thread with
    | nil => exact absurd hmail hthread
    | cons message rest =>
        intro herror
        simp only [step, hmail, System.poolStep] at herror
        split at herror
        next error hresult =>
          cases herror
          exact receivedData_ne_noDelegate hdelegate hresult
        next => cases herror

/-! ## A truth that reaches a recycled script -/

instance (pool : Pool.State) (thread : ℕ) : Decidable (HasDelegate pool thread) :=
  decidable_of_iff (pool.threads[thread]?.any fun found => found.delegate.isSome) <| by
    simp [HasDelegate, Option.any_eq_true, Option.isSome_iff_exists]

instance (system : System α) : DecidablePred (Orderly system)
  | .handleInput thread | .call thread _ => inferInstanceAs (Decidable (HasDelegate _ thread))
  | .receivedData _ => inferInstanceAs (Decidable (_ → _))
  | .exploreTruthSpaceFor _ | .connect _ | .neededTruth _ _ | .stopTimer _ | .unbind _
  | .cutInput _ | .cutData _ => isTrue trivial

/-- A script with one block, which answers its request and asks to be recycled. It is
executed when the truths of the request are there. -/
def answering (_ : ℕ) : List (Todo String) :=
  [⟨[], fun _ => [.provideTruth { what := "ip@beta", value := "10.0.0.2", ttl := none },
    .recycleTactic], []⟩]

def answeringEvents : List (Event String) :=
  [.exploreTruthSpaceFor ⟨"connectable_ip@beta", "carol"⟩, .connect 0, .handleInput 0,
    .receivedData 0]

theorem dispatches_of_orderly_answering :
    Dispatches Pool.iodinePool
      (final (step Pool.iodinePool) (initial Pool.iodinePool answering) answeringEvents) :=
  dispatches_of_orderly (run_record _ _ answeringEvents) (by decide +kernel)

/-- The truth is passed on before the thread takes in that it is to be recycled. -/
def lateTruthEvents : List (Event String) :=
  [.exploreTruthSpaceFor ⟨"connectable_ip@beta", "carol"⟩, .connect 0, .handleInput 0,
    .neededTruth 0 [⟨"shared_secret-iodined@beta", "shared_secret", "carol", "beta", "s3cret"⟩],
    .handleInput 0] ++ List.replicate 10 (.receivedData 0)

theorem not_dispatches_of_lateTruth :
    ¬ ∀ (steps : Record String) (system : System String),
      SystemRun Pool.iodinePool answering steps system → Dispatches Pool.iodinePool system := by
  intro hclaim
  have hmail : (final (step Pool.iodinePool) (initial Pool.iodinePool answering)
      lateTruthEvents).toThread 0 ≠ [] := by decide +kernel
  have hnone : ¬ HasDelegate (final (step Pool.iodinePool) (initial Pool.iodinePool answering)
      lateTruthEvents).pool 0 := by decide +kernel
  obtain ⟨⟨found, tactic, _, hfound, hdelegate, _⟩, _⟩ :=
    hclaim _ _ (run_record _ _ lateTruthEvents) 0 hmail
  exact hnone ⟨found, tactic, hfound, hdelegate⟩

end Signpost.Dispatch

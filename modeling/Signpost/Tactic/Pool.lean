import Signpost.Bloom.Collection
import Signpost.Machine.PopQueue
import Signpost.Machine.Run
import Signpost.Tactic.Names
import Signpost.Tactic.Tactic

/-! # The pool of tactic threads

A tactic thread runs one script and is given to one request after another. Each
request has its own `Tactic` object, which is the delegate of the thread until
the script asks to be recycled. The object stays alive for a second longer and
keeps its reference to the thread.

Objects and threads are never deleted, so they are named by their place in the
lists of those created.
-/

namespace Signpost.Pool

open Bloom Machine

variable {α : Type}

/-! ## Threads, tactics and requests -/

/-- What `Tactic.provides` reads from the configuration of a tactic. A pattern is
the set of names that it matches. -/
structure TacticConfig where
  name : String
  provides : List (String → Bool)
  dirName : String
  hasDaemon : Bool

/-- The script process of a thread. It opens one connection to the socket of
its thread. -/
inductive Script
  | starting
  | connected
  | terminated
deriving DecidableEq, Repr

structure TacticThread where
  config : TacticConfig
  isDaemon : Bool
  script : Script
  delegate : Option ℕ

/-- A `Tactic` object is stopped by a timer one second after `stop_tactic`. -/
inductive Lifetime
  | running
  | stopping
  | stopped
deriving DecidableEq, Repr

structure TacticObject where
  thread : ℕ
  userInfo : String
  what : Option String
  lifetime : Lifetime
deriving DecidableEq, Repr

structure Request where
  what : String
  userInfo : String
deriving DecidableEq, Repr

/-- How JSON literals embed in truth values. -/
structure Literals (α : Type) where
  ofString : String → α
  ofBool : Bool → α
  ofNat : ℕ → α
  null : α

structure PoolConfig (α : Type) where
  nodeName : String
  tactics : List TacticConfig
  literals : Literals α

structure State where
  threads : List TacticThread
  tactics : List TacticObject
  pool : String → PopQueue ℕ Request

/-- A truths message handed to the script of a thread: the request that the
thread was assigned to, the object that passed the message on, and its truths. -/
structure Handed (α : Type) where
  thread : ℕ
  assigned : Option ℕ
  sender : ℕ
  truths : List (Fact α)
deriving DecidableEq

inductive PoolError
  | disabled
  | noDelegate
  | keyConflict
  | failedTactic
  | resourceTypeException
deriving DecidableEq, Repr

/-- The result of a call, with the truths messages handed over during it. -/
abbrev Outcome (α : Type) := State × List (Handed α)

/-! ## Starting a tactic -/

/-- A script whose connection is closed receives nothing. -/
def passOnTruths (state : State) (tactic : ℕ) (truths : List (Fact α)) : List (Handed α) :=
  match state.tactics[tactic]? with
  | none => []
  | some object =>
      match state.threads[object.thread]? with
      | none => []
      | some thread =>
          if thread.script = .connected then [⟨object.thread, thread.delegate, tactic, truths⟩]
          else []

def initialValue (userInfo nodeName what : String) (value : α) : Fact α :=
  ⟨what, "initial_value", userInfo, nodeName, value⟩

/-- The truths of `send_initial_data`, for a `what` that the tactic provides. -/
def execute (config : PoolConfig α) (tactic : TacticConfig) (userInfo what : String) :
    Except PoolError (List (Fact α)) :=
  if ¬ tactic.provides.any (fun provide => provide what) then .error .failedTactic
  else
    match magicVariablesFrom what with
    | none => .error .resourceTypeException
    | some vars =>
        let fact := initialValue userInfo config.nodeName
        .ok [fact "is_daemon" (config.literals.ofBool false),
          fact "what" (config.literals.ofString what),
          fact "port" (vars.port.elim config.literals.null config.literals.ofNat),
          fact "destination" (config.literals.ofString vars.destination),
          fact "domain" (config.literals.ofString vars.domain),
          fact "resource" (config.literals.ofString vars.resource),
          fact "user" (config.literals.ofString userInfo),
          fact "node_name" (config.literals.ofString config.nodeName)]

def daemonBootstrap (config : PoolConfig α) : List (Fact α) :=
  let fact := initialValue "DAEMON" config.nodeName
  [fact "is_daemon" (config.literals.ofBool true),
    fact "node_name" (config.literals.ofString config.nodeName)]

/-- The data that a new object passes to its script. -/
def performBootstrapping (config : PoolConfig α) (thread : TacticThread) (userInfo : String)
    (what : Option String) : Except PoolError (List (List (Fact α))) :=
  if thread.isDaemon then .ok [daemonBootstrap config]
  else
    match what with
    | none => .ok []
    | some what => (execute config thread.config userInfo what).map fun facts => [facts]

/-- The state in which a thread has a new object as its delegate. -/
def State.assign (state : State) (index : ℕ) (thread : TacticThread) (userInfo : String)
    (what : Option String) : State :=
  { state with
    threads := state.threads.set index { thread with delegate := some state.tactics.length }
    tactics := state.tactics ++ [⟨index, userInfo, what, .running⟩] }

/-- `Tactic.new`. The object becomes the delegate of its thread before its first
timestep, which performs the bootstrapping. -/
def newTactic (config : PoolConfig α) (state : State) (index : ℕ) (userInfo : String)
    (what : Option String) : Except PoolError (Outcome α) :=
  match state.threads[index]? with
  | none => .error .disabled
  | some thread => do
      let next := state.assign index thread userInfo what
      let messages ← performBootstrapping config thread userInfo what
      pure (next, messages.flatMap (passOnTruths next state.tactics.length))

/-! ## The pool -/

def State.setPool (state : State) (name : String) (queue : PopQueue ℕ Request) : State :=
  { state with pool := Function.update state.pool name queue }

@[simp] theorem State.setPool_self (state : State) (name : String)
    (queue : PopQueue ℕ Request) : (state.setPool name queue).pool name = queue := by
  simp [State.setPool]

theorem State.setPool_of_ne (state : State) {name other : String} (hne : other ≠ name)
    (queue : PopQueue ℕ Request) : (state.setPool name queue).pool other = state.pool other := by
  simp [State.setPool, hne]

def serveTacticRequest (config : PoolConfig α) (state : State) (thread : ℕ)
    (request : Request) : Except PoolError (Outcome α) :=
  newTactic config state thread request.userInfo (some request.what)

def tacticThreadReady (config : PoolConfig α) (state : State) (index : ℕ) :
    Except PoolError (Outcome α) :=
  match state.threads[index]? with
  | none => .error .disabled
  | some thread =>
      let name := thread.config.dirName
      match (state.pool name).push index with
      | (queue, none) => .ok (state.setPool name queue, [])
      | (queue, some request) => serveTacticRequest config (state.setPool name queue) index request

def daemonThreadReady (config : PoolConfig α) (state : State) (index : ℕ) :
    Except PoolError (Outcome α) :=
  newTactic config state index "DAEMON" none

/-- `TacticThread.new`: its script is started and will connect. -/
def newThread (state : State) (tactic : TacticConfig) (isDaemon : Bool) : State :=
  { state with threads := state.threads ++ [⟨tactic, isDaemon, .starting, none⟩] }

def spawnExecutionFor (config : PoolConfig α) (state : State) (tactic : TacticConfig)
    (request : Request) : Except PoolError (Outcome α) :=
  let name := tactic.dirName
  -- a thread that starts is not in the pool yet, so the request waits for one
  let expanded := if (state.pool name).items = [] then newThread state tactic false else state
  match (expanded.pool name).pop request with
  | (queue, none) => .ok (expanded.setPool name queue, [])
  | (queue, some thread) => serveTacticRequest config (expanded.setPool name queue) thread request

def spawnExecutions (config : PoolConfig α) (request : Request) :
    List TacticConfig → State → Except PoolError (Outcome α)
  | [], state => .ok (state, [])
  | tactic :: rest, state => do
      let (next, handed) ← spawnExecutionFor config state tactic request
      let (last, others) ← spawnExecutions config request rest next
      pure (last, handed ++ others)

/-- One execution is spawned for each pattern that matches. -/
def exploreTruthSpaceFor (config : PoolConfig α) (state : State) (request : Request) :
    Except PoolError (Outcome α) :=
  spawnExecutions config request
    (config.tactics.flatMap fun tactic =>
      (tactic.provides.filter (fun thing => thing request.what)).map fun _ => tactic) state

/-! ## Threads -/

def State.setThread (state : State) (index : ℕ) (thread : TacticThread) : State :=
  { state with threads := state.threads.set index thread }

def State.setTactic (state : State) (index : ℕ) (object : TacticObject) : State :=
  { state with tactics := state.tactics.set index object }

/-- The script connects: `register_ready_for_duty`. -/
def registerReadyForDuty (config : PoolConfig α) (state : State) (index : ℕ) :
    Except PoolError (Outcome α) :=
  match state.threads[index]? with
  | none => .error .disabled
  | some thread =>
      if thread.script ≠ .starting then .error .disabled
      else
        let ready := state.setThread index { thread with script := .connected }
        if thread.isDaemon then daemonThreadReady config ready index
        else tacticThreadReady config ready index

/-- `received_data`. What the delegate does with the data are messages to the
solver. -/
def receivedData (config : PoolConfig α) (state : State) (index : ℕ) (data : ScriptData α) :
    Except PoolError (Outcome α) :=
  match state.threads[index]? with
  | none => .error .disabled
  | some thread =>
      if thread.script ≠ .connected then .error .disabled
      else
        match thread.delegate with
        | none => .error .noDelegate
        | some tactic =>
            match state.tactics[tactic]? with
            | none => .error .disabled
            | some object =>
                -- the thread drops its delegate, but the object keeps the thread
                if data.recycle then
                  tacticThreadReady config
                    ((state.setTactic tactic { object with lifetime := .stopping }).setThread index
                      { thread with delegate := none }) index
                else .ok (state, [])

/-- The truths that reach an object in one of its timesteps are passed on one by
one, until the object is stopped. -/
def neededTruth [DecidableEq α] (state : State) (tactic : ℕ) (facts : List (Fact α)) :
    Except PoolError (Outcome α) :=
  match state.tactics[tactic]? with
  | none => .error .disabled
  | some object =>
      if object.lifetime = .stopped then .error .disabled
      else
        match Collection.derive Fact.key facts with
        | none => .error .keyConflict
        | some rows => .ok (state, rows.rows.flatMap fun fact => passOnTruths state tactic [fact])

/-- The timer set by `stop_tactic` fires. -/
def stopTimer (state : State) (tactic : ℕ) : Except PoolError (Outcome α) :=
  match state.tactics[tactic]? with
  | none => .error .disabled
  | some object =>
      if object.lifetime = .stopping then
        .ok (state.setTactic tactic { object with lifetime := .stopped }, [])
      else .error .disabled

/-- The connection is unbound. The thread only deletes its socket. -/
def terminated (state : State) (index : ℕ) : Except PoolError (Outcome α) :=
  match state.threads[index]? with
  | none => .error .disabled
  | some thread =>
      if thread.script = .connected then
        .ok (state.setThread index { thread with script := .terminated }, [])
      else .error .disabled

/-! ## Runs of the pool -/

inductive Event (α : Type)
  | exploreTruthSpaceFor (request : Request)
  | connect (thread : ℕ)
  | receivedData (thread : ℕ) (data : ScriptData α)
  | neededTruth (tactic : ℕ) (facts : List (Fact α))
  | stopTimer (tactic : ℕ)
  | unbind (thread : ℕ)

def step [DecidableEq α] (config : PoolConfig α) (state : State) :
    Event α → Except PoolError (Outcome α)
  | .exploreTruthSpaceFor request => exploreTruthSpaceFor config state request
  | .connect thread => registerReadyForDuty config state thread
  | .receivedData thread data => receivedData config state thread data
  | .neededTruth tactic facts => neededTruth state tactic facts
  | .stopTimer tactic => stopTimer state tactic
  | .unbind thread => terminated state thread

/-- The pool when it starts, with the threads of the daemons. -/
def initial (config : PoolConfig α) : State where
  threads := (config.tactics.filter (fun tactic => tactic.hasDaemon)).map
    fun tactic => ⟨tactic, true, .starting, none⟩
  tactics := []
  pool := fun _ => PopQueue.empty

abbrev PoolRun [DecidableEq α] (config : PoolConfig α) :
    List (Transition State (Event α) (List (Handed α))) → State → Prop :=
  Run (step config) (initial config)

end Signpost.Pool

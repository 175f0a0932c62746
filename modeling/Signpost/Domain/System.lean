import Signpost.Comms.Network
import Signpost.Solver.Timestep

/-! # A domain of signposts

Every signpost runs a solver next to its communication centre. What the solver
is provided with locally it distributes, and what it cannot answer it may have
resolved remotely. A received truth waits on the channel
`provide_truth_from_external` and is processed in a timestep of its own.
-/

namespace Signpost.Domain

open Machine

variable {α δ : Type} [DecidableEq α] [DecidableEq δ]

/-- A message that a solver has its communication centre send. -/
inductive Outgoing (α : Type)
  | truth (row : Provision α)
  | resolve (query : ResolveQuery)

def Outgoing.data : Outgoing α → Data α
  | .truth row => { truths := some [row] }
  | .resolve query => { resolve := some query }

/-- The calls of the communication centre in the rule bodies of a timestep. -/
def outgoing (output : Solver.Output α) : List (Outgoing α) :=
  (output.explorations.filterMap fun call =>
    match call.2 with
    | .remoteResolve what userInfo signpost => some (.resolve ⟨what, userInfo, signpost⟩)
    | .exploreTruthSpaceFor _ _ => none) ++
  output.distributed.map fun row => .truth row

/-- The truths of a solver with their remaining TTLs. -/
def exportableTruths (now : Int) (truths : List (TruthRow α)) : List (Provision α) :=
  truths.filterMap fun row =>
    match row.ttlState with
    | .nonCacheable => none
    | .cacheable _ expires =>
        some ⟨row.what, row.provider, row.userInfo, row.signpost, row.truth, some (expires - now)⟩

structure State (α δ : Type) where
  net : NetState α δ
  solvers : String → Solver.State α
  inboxes : String → List (Provision α)

inductive Event (α : Type)
  /-- A timestep on what local tactics and questions have sent. -/
  | solve (node : String) (batch : Solver.Batch α)
  /-- A timestep on the oldest received truth, with the clock and the timer. -/
  | external (node : String) (timer : Bool) (now : Int)
  /-- The oldest message of a channel arrives. -/
  | deliver (sender receiver : String) (now : Int)
  | pruneBroadcastCache (node : String) (now : Int)

structure Output (α : Type) where
  sent : List (Data α) := []
  solved : Option (Solver.Output α) := none
  received : Option (Received α) := none

inductive DomainError
  | disabled
  | solver (error : Solver.SolverError)
deriving DecidableEq, Repr

def State.setSolver (state : State α δ) (node : String) (solver : Solver.State α) : State α δ :=
  { state with solvers := Function.update state.solvers node solver }

def State.setInbox (state : State α δ) (node : String) (inbox : List (Provision α)) :
    State α δ :=
  { state with inboxes := Function.update state.inboxes node inbox }

variable (graph : Graph) (digest : Data α → δ)

def send (node : String) (now : Int) (net : NetState α δ) : Outgoing α → NetState α δ
  | .truth row => (Network.distributeTruths graph net node [row]).1
  | .resolve query => (Network.remoteResolve graph digest net node query now).1

/-- The batch of a timestep on one received truth. -/
def externalBatch (row : Provision α) (timer : Bool) (now : Int) : Solver.Batch α :=
  { provideTruthFromExternal := [row], garbageCollectionTimer := timer, now := now }

/-- A timestep of the solver of a signpost. -/
def solve (state : State α δ) (node : String) (batch : Solver.Batch α) :
    Except DomainError (State α δ × Output α) :=
  match Solver.timestep node (state.solvers node) batch with
  | .error error => .error (.solver error)
  | .ok (solver, output) =>
      .ok ({ state.setSolver node solver with
          net := (outgoing output).foldl (send graph digest node batch.now) state.net },
        { sent := (outgoing output).map Outgoing.data, solved := some output })

def deliver (state : State α δ) (sender receiver : String) (now : Int) (data : Data α) :
    State α δ × Output α :=
  let (net, received) := Network.deliver graph digest state.net sender receiver
    (exportableTruths now (state.solvers receiver).truths.rows) now data
  ({ state.setInbox receiver (state.inboxes receiver ++ received.external) with net := net },
    { received := some received })

def step (state : State α δ) : Event α → Except DomainError (State α δ × Output α)
  | .solve node batch =>
      -- received truths come in through `external` only
      if node ∉ graph.nodes ∨ batch.provideTruthFromExternal ≠ [] then .error .disabled
      else solve graph digest state node batch
  | .external node timer now =>
      match state.inboxes node with
      | [] => .error .disabled
      | row :: rest =>
          solve graph digest (state.setInbox node rest) node (externalBatch row timer now)
  | .deliver sender receiver now =>
      match state.net.wires sender receiver with
      | [] => .error .disabled
      | data :: _ => .ok (deliver graph digest state sender receiver now data)
  | .pruneBroadcastCache node now =>
      .ok ({ state with net := Network.pruneBroadcastCache graph state.net node now }, {})

/-- Every signpost starts with the initial truths of its own solver. -/
def initial (signpostDomain : String) (ofString : String → α) (start : Int) : State α δ where
  net := Network.initial
  solvers node := Solver.initial ⟨node, signpostDomain, ofString⟩ start
  inboxes _ := []

abbrev DomainStep (α δ : Type) := Transition (State α δ) (Event α) (Output α)

abbrev DomainRun (signpostDomain : String) (ofString : String → α) (start : Int) :
    List (DomainStep α δ) → State α δ → Prop :=
  Run (step graph digest) (initial signpostDomain ofString start)

/-! ## What an event does -/

variable {graph digest} {state next : State α δ} {output : Output α}

theorem solve_eq_ok {node : String} {batch : Solver.Batch α}
    (hok : solve graph digest state node batch = .ok (next, output)) :
    ∃ solver solved, Solver.Fires node (state.solvers node) batch solver solved ∧
      next = { state.setSolver node solver with
        net := (outgoing solved).foldl (send graph digest node batch.now) state.net } ∧
      output = { sent := (outgoing solved).map Outgoing.data, solved := some solved } := by
  unfold solve at hok
  split at hok
  next => cases hok
  next solver solved htimestep =>
    obtain ⟨rfl, rfl⟩ := Prod.mk.inj (Except.ok.inj hok)
    exact ⟨solver, solved, Solver.fires_of_timestep htimestep, rfl, rfl⟩

theorem step_solve {node : String} {batch : Solver.Batch α}
    (hok : step graph digest state (.solve node batch) = .ok (next, output)) :
    node ∈ graph.nodes ∧ batch.provideTruthFromExternal = [] ∧
      solve graph digest state node batch = .ok (next, output) := by
  simp only [step] at hok
  split at hok
  next => cases hok
  next h =>
    rw [not_or, not_not, not_not] at h
    exact ⟨h.1, h.2, hok⟩

theorem step_external {node : String} {timer : Bool} {now : Int}
    (hok : step graph digest state (.external node timer now) = .ok (next, output)) :
    ∃ row rest, state.inboxes node = row :: rest ∧
      solve graph digest (state.setInbox node rest) node (externalBatch row timer now) =
        .ok (next, output) := by
  simp only [step] at hok
  split at hok
  next => cases hok
  next row rest hinbox => exact ⟨row, rest, hinbox, hok⟩

theorem step_deliver {sender receiver : String} {now : Int}
    (hok : step graph digest state (.deliver sender receiver now) = .ok (next, output)) :
    ∃ data rest, state.net.wires sender receiver = data :: rest ∧
      deliver graph digest state sender receiver now data = (next, output) := by
  simp only [step] at hok
  split at hok
  next => cases hok
  next data rest hhead => exact ⟨data, rest, hhead, Except.ok.inj hok⟩

/-- The solver of a signpost changes only in its own timesteps. -/
theorem solver_unchanged {event : Event α} {node : String}
    (hok : step graph digest state event = .ok (next, output))
    (hsolve : ∀ batch, event ≠ .solve node batch)
    (hexternal : ∀ timer now, event ≠ .external node timer now) :
    next.solvers node = state.solvers node := by
  have hother : ∀ (before : State α δ) (other : String) (batch : Solver.Batch α),
      solve graph digest before other batch = .ok (next, output) → node ≠ other →
        next.solvers node = before.solvers node := by
    intro before other batch hok hne
    obtain ⟨solver, solved, _, rfl, _⟩ := solve_eq_ok hok
    exact Function.update_of_ne hne _ _
  cases event with
  | solve other batch =>
      apply hother state other batch (step_solve hok).2.2
      rintro rfl
      exact hsolve batch rfl
  | external other timer now =>
      obtain ⟨row, rest, _, hok⟩ := step_external hok
      apply hother (state.setInbox other rest) other (externalBatch row timer now) hok
      rintro rfl
      exact hexternal timer now rfl
  | deliver sender receiver now =>
      obtain ⟨data, rest, _, hdeliver⟩ := step_deliver hok
      rw [← (Prod.mk.inj hdeliver).1]
      rfl
  | pruneBroadcastCache other now =>
      obtain ⟨rfl, _⟩ := Prod.mk.inj (Except.ok.inj hok)
      rfl

end Signpost.Domain

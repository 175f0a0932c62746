import Signpost.Tactic.Pool

/-! # The helper of a tactic script

A tactic script registers blocks with a `TacticHelper`. The helper collects the
truths that it is sent, answers each of them with a log message, and executes a
block when all that the block requires is there or has changed.
-/

namespace Signpost.Helper

open Pool (Literals)

variable {α : Type}

/-! ## Calls and messages -/

/-- What a block can ask its helper for. -/
inductive Call (α : Type)
  | log (msg : String)
  | needTruth (need : NeedData)
  | observeTruth (observe : NeedData)
  | provideTruth (truth : ProvideData α)
  | recycleTactic
deriving DecidableEq

inductive LogEntry (α : Type)
  | text (msg : String)
  | received (shortForm : String) (value : α) (version : ℕ)
deriving DecidableEq

/-- One line that is relayed to the thread. -/
structure Message (α : Type) where
  data : ScriptData α := {}
  logs : List (LogEntry α) := []
deriving DecidableEq

def Call.message : Call α → Message α
  | .log msg => { logs := [.text msg] }
  | .needTruth need => { data := { needTruths := [need] } }
  | .observeTruth observe => { data := { observe := [observe] } }
  | .provideTruth truth => { data := { provideTruths := [truth] } }
  | .recycleTactic => { data := { recycle := true } }

/-! ## The state of a helper -/

/-- Data is stored under symbols and under strings. -/
inductive Key
  | symbol (name : String)
  | string (name : String)
deriving DecidableEq

structure Datum (α : Type) where
  what : String
  value : α
  source : String
  user : String
  signpost : String
  version : ℕ
  magic : Option MagicVariables

abbrev Data (α : Type) := Key → Option (Datum α)

structure Todo (α : Type) where
  requirements : List String
  block : Data α → List (Call α)
  reqVersions : List (String × ℕ) := []

/-- The strings that are keys of `data` are in `keys`, and `pending` is `nil` until
the helper is told whether it is a daemon. -/
structure State (α : Type) where
  todos : List (Todo α)
  data : Data α
  keys : List String
  pending : Option (List String)
  ready : Bool

def initial (todos : List (Todo α)) : State α := ⟨todos, fun _ => none, [], none, false⟩

inductive HelperError
  | argumentError
  | noMethodError
deriving DecidableEq, Repr

/-- The strings that Ruby 1.8 makes a symbol of: not the empty one, and none with a
NUL character. -/
def IsSymbol (name : String) : Prop := name ≠ "" ∧ Char.ofNat 0 ∉ name.toList

instance : DecidablePred IsSymbol := fun _ => inferInstanceAs (Decidable (_ ∧ _))

def toSym (name : String) : Except HelperError String :=
  if IsSymbol name then .ok name else .error .argumentError

def removeExistingFromPending (data : Data α) (pending : List String) : List String :=
  pending.filter fun name => (data (.symbol name)).isNone ∧ (data (.string name)).isNone

def setPendingTacticState (state : State α) : State α :=
  { state with
    pending := some (removeExistingFromPending state.data
      ["destination", "port", "domain", "resource", "user", "is_daemon", "what", "user",
        "node_name"])
    ready := true }

def setPendingDaemonState (state : State α) : State α :=
  { state with
    pending := some (removeExistingFromPending state.data ["is_daemon", "node_name"])
    ready := true }

/-- `recycle_tactic` without its message. No key is left that could be no symbol. -/
def recycle (state : State α) : State α :=
  let pending := setPendingTacticState { state with data := fun _ => none, keys := [] }
  { pending with todos := pending.todos.map fun todo => { todo with reqVersions := [] } }

def runCall (state : State α) : Call α → State α
  | .recycleTactic => recycle state
  | .log _ | .needTruth _ | .observeTruth _ | .provideTruth _ => state

def runCalls (state : State α) (calls : List (Call α)) : State α × List (Message α) :=
  (calls.foldl runCall state, calls.map Call.message)

/-! ## Executing blocks -/

def setVersions (state : State α) (index : ℕ) (versions : List (String × ℕ)) : State α :=
  { state with
    todos := state.todos.modify index fun todo => { todo with reqVersions := versions } }

def versionOf (data : Data α) (req : String) : Except HelperError ℕ :=
  match data (.symbol req) with
  | none => .error .noMethodError
  | some datum => .ok datum.version

/-- What a requirement is recorded with when its block is executed first. -/
def firstVersion (data : Data α) (req : String) : Except HelperError (String × ℕ) :=
  (versionOf data req).map fun version => (req, version)

/-- The recorded version is replaced by a newer one only. -/
def newerVersion (data : Data α) (recorded : String × ℕ) : Except HelperError (String × ℕ) :=
  (versionOf data recorded.1).map fun version => (recorded.1, max recorded.2 version)

/-- A block is executed the first time that its requirements are satisfied, and
then whenever one of them has a newer version. -/
def executeUserBlock (state : State α) (index : ℕ) :
    Except HelperError (State α × List (Message α)) :=
  match state.todos[index]? with
  | none => .ok (state, [])
  | some todo =>
      if ¬ todo.requirements.all fun req => (state.data (.symbol req)).isSome then .ok (state, [])
      else if todo.reqVersions = [] then do
        let versions ← (todo.requirements ++ ["node_name"]).mapM (firstVersion state.data)
        pure (runCalls (setVersions state index versions) (todo.block state.data))
      else do
        let versions ← todo.reqVersions.mapM (newerVersion state.data)
        if versions = todo.reqVersions then pure (state, [])
        else pure (runCalls (setVersions state index versions) (todo.block state.data))

def executeUserBlocks (state : State α) :
    List ℕ → Except HelperError (State α × List (Message α))
  | [] => .ok (state, [])
  | index :: rest => do
      let (next, messages) ← executeUserBlock state index
      let (last, others) ← executeUserBlocks next rest
      pure (last, messages ++ others)

/-! ## Input -/

variable [DecidableEq α]

/-- Being told whether it is a daemon sets what the helper waits for, and makes a
symbol of each key on the way. -/
def toldRole (literals : Literals α) (state : State α) (truth : Fact α) :
    Except HelperError (State α) :=
  if truth.what = "is_daemon" then
    if ∀ key ∈ state.keys, IsSymbol key then
      .ok (if truth.truth = literals.ofBool true then setPendingDaemonState state
        else setPendingTacticState state)
    else .error .argumentError
  else .ok state

/-- One truth of an input. If it has a name, the helper answers with a log message,
whatever state it is in. -/
def dealWithTruth (literals : Literals α) (state : State α) (truth : Fact α) :
    Except HelperError (State α × Message α) := do
  let told ← toldRole literals state truth
  let magic := magicVariablesFrom truth.what
  -- a truth without a resource has an empty name here, which is no symbol
  let shortForm ← toSym ((magic.map MagicVariables.resource).getD truth.what)
  match told.pending with
  | none => .error .noMethodError
  | some pending =>
      let version := ((told.data (.string shortForm)).map Datum.version).getD 0 + 1
      let datum : Datum α :=
        ⟨truth.what, truth.truth, truth.provider, truth.userInfo, truth.signpost, version, magic⟩
      .ok ({ told with
          keys := truth.what :: shortForm :: told.keys
          pending := some (pending.filter (fun name => name ≠ shortForm))
          data := Function.update (Function.update (Function.update told.data
            (.symbol shortForm) (some datum)) (.string shortForm) (some datum))
            (.string truth.what) (some datum) },
        { logs := [.received shortForm truth.truth version] })

def dealWithInput (literals : Literals α) (state : State α) :
    List (Fact α) → Except HelperError (State α × List (Message α))
  | [] => .ok (state, [])
  | truth :: rest => do
      let (next, message) ← dealWithTruth literals state truth
      let (last, others) ← dealWithInput literals next rest
      pure (last, message :: others)

def handleInput (literals : Literals α) (state : State α) (truths : List (Fact α)) :
    Except HelperError (State α × List (Message α)) := do
  let (next, logs) ← dealWithInput literals state truths
  if next.ready ∧ next.pending = some [] then
    let (last, messages) ← executeUserBlocks next (List.range next.todos.length)
    pure (last, logs ++ messages)
  else pure (next, logs)

end Signpost.Helper

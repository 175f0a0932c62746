import Signpost.Solver.Protocol

/-! # Messages of a tactic

A `Tactic` object stands between a tactic script and the solver. It turns what
the script asks for into protocol messages that carry its own address and its
own user.
-/

namespace Signpost

variable {α : Type}

/-! ## Data received from a script -/

/-- An entry of `need_truths` or of `observe`. -/
structure NeedData where
  what : String
  destination : Option String := none
  domain : Option String := none
  port : Option String := none
  signpost : Option String := none
deriving DecidableEq, Repr

/-- An entry of `provide_truths`. -/
structure ProvideData (α : Type) where
  what : String
  value : α
  ttl : Option Int
  isGlobal : Bool := false
deriving DecidableEq, Repr

/-- One message of a script. -/
structure ScriptData (α : Type) where
  provideTruths : List (ProvideData α) := []
  needTruths : List NeedData := []
  observe : List NeedData := []
  recycle : Bool := false
deriving DecidableEq, Repr

/-! ## Messages to the solver -/

inductive SolverMessage (α : Type)
  | provideTruth (row : Provision α)
  | needTruth (row : Subscription)
  | observeTruth (row : Subscription)
  | removeSubscriptions (who : String)
deriving DecidableEq, Repr

/-- The fields of a `Tactic` that its messages are made of. A daemon has no
domain and no destination. -/
structure Tactic where
  name : String
  userInfo : String
  nodeName : String
  ipPort : String
  domain : Option String := none
  destination : Option String := none
deriving DecidableEq, Repr

/-- `gsub!` with a nonempty literal pattern; `skip` counts the characters of a
replaced occurrence that are still to be dropped. -/
def gsub (pattern replacement : List Char) : ℕ → List Char → List Char
  | _, [] => []
  | skip + 1, _ :: rest => gsub pattern replacement skip rest
  | 0, c :: rest =>
      if pattern.isPrefixOf (c :: rest) then
        replacement ++ gsub pattern replacement (pattern.length - 1) rest
      else c :: gsub pattern replacement 0 rest

/-- The name of the node has no backslash, which `gsub!` would read. -/
def dealWithMagic (provision nodeName : String) : String :=
  String.ofList (gsub "Local".toList nodeName.toList 0 provision.toList)

namespace Tactic

/-- The name and the signpost that a need asks for. Interpolating `nil` prints
nothing. -/
def needFrom (tactic : Tactic) (data : NeedData) : String × String :=
  let target := match data.destination, data.domain, data.port with
    | some destination, _, _ => destination
    | none, some domain, some port => domain ++ ":" ++ port
    | none, some domain, none => domain
    | none, none, some port => tactic.domain.getD "" ++ ":" ++ port
    | none, none, none => tactic.destination.getD ""
  (data.what ++ "@" ++ target, data.signpost.getD "ANY")

/-- An observation without port, domain and destination is for `ANY`
destination, for a tactic as for a daemon. -/
def observationFrom (tactic : Tactic) (data : NeedData) : String × String :=
  if data.port = none ∧ data.domain = none ∧ data.destination = none then
    tactic.needFrom { data with destination := some "ANY" }
  else tactic.needFrom data

def addTruth (tactic : Tactic) (truth : String) (value : α) (userInfo : String)
    (ttl : Option Int) : SolverMessage α :=
  .provideTruth ⟨truth, tactic.name, userInfo, tactic.nodeName, value, ttl⟩

def subscription (tactic : Tactic) (requirement signpost : String) : Subscription :=
  ⟨requirement, tactic.ipPort, signpost, tactic.userInfo, tactic.name⟩

def addObserver (tactic : Tactic) (requirement signpost : String) : SolverMessage α :=
  .observeTruth (tactic.subscription requirement signpost)

def addRequirement (tactic : Tactic) (requirement signpost : String) : SolverMessage α :=
  .needTruth (tactic.subscription requirement signpost)

/-- The messages that one message of the script makes the tactic send. -/
def dealWith (tactic : Tactic) (data : ScriptData α) : List (SolverMessage α) :=
  (data.provideTruths.map fun truth =>
    tactic.addTruth (dealWithMagic truth.what tactic.nodeName) truth.value
      (if truth.isGlobal then "GLOBAL" else tactic.userInfo) truth.ttl) ++
  (data.needTruths.map fun need =>
    tactic.addRequirement (tactic.needFrom need).1 (tactic.needFrom need).2) ++
  (data.observe.map fun observation =>
    tactic.addObserver (tactic.observationFrom observation).1
      (tactic.observationFrom observation).2)

/-- The subscription that a message registers. -/
def interestOf : SolverMessage α → Option Subscription
  | .needTruth row => some row
  | .observeTruth row => some row
  | .provideTruth _ => none
  | .removeSubscriptions _ => none

/-- Every subscription of a tactic carries its own address and user. -/
theorem interest_of_dealWith (tactic : Tactic) (data : ScriptData α) {message : SolverMessage α}
    (hmessage : message ∈ tactic.dealWith data) {row : Subscription}
    (hrow : interestOf message = some row) :
    row.who = tactic.ipPort ∧ row.userInfo = tactic.userInfo := by
  simp only [dealWith, List.mem_append, List.mem_map] at hmessage
  rcases hmessage with (⟨truth, _, rfl⟩ | ⟨need, _, rfl⟩) | ⟨observation, _, rfl⟩
  · cases hrow
  · cases hrow
    exact ⟨rfl, rfl⟩
  · cases hrow
    exact ⟨rfl, rfl⟩

end Tactic

end Signpost

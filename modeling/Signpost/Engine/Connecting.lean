import Signpost.Engine.Stackability
import Signpost.Machine.Actions

/-! # Connecting two nodes

The engine connects two nodes with every stack that has the required properties.
A stack is run by a fold from the right over a list that the search has built by
consing, so that the tactics connect in the order in which they were checked.
-/

namespace Signpost.Engine

open Machine

/-- A node has an address, by which it is known before any tactic has run. -/
structure Node where
  name : String
  controlChannel : String
  ips : List Addressable
  ips_ne : ips ≠ []

def Node.addressable (node : Node) : Addressable := node.ips.head node.ips_ne

/-- What `connect` may raise. -/
inductive Exn
  | tacticFailed
  | other (message : String)
deriving DecidableEq, Repr

/-- A module of `TacticSig`. Connecting two nodes changes a world that the code
does not see. -/
structure Module (ω : Type) extends Tactic where
  connect : Node × Addressable → Node × Addressable → ω →
    Except Exn (Addressable × Addressable) × ω

/-- A call of `connect`. -/
structure Call (ω : Type) where
  tactic : Module ω
  left : Node × Addressable
  right : Node × Addressable
  returned : Except Exn (Addressable × Addressable)

inductive Event (ω : Type)
  | call (call : Call ω)
  | printed (line : String)

variable {ω : Type}

/-! ## Running a stack -/

def callConnect (tactic : Module ω) (left right : Node × Addressable) :
    Action ω (Event ω) Exn (Addressable × Addressable) := fun world =>
  let outcome := tactic.connect left right world
  ⟨outcome.1, outcome.2, [.call ⟨tactic, left, right, outcome.1⟩]⟩

/-- `List.fold_right` over the tactics. The innermost application is the one of
the last element. -/
def connectStack (nodeA nodeB : Node) :
    List (Module ω) → Addressable × Addressable →
      Action ω (Event ω) Exn (Addressable × Addressable)
  | [], acc => .done acc
  | tactic :: beneath, acc =>
      (connectStack nodeA nodeB beneath acc).andThen fun addrs =>
        callConnect tactic (nodeA, addrs.1) (nodeB, addrs.2)

def strOfList {α : Type} (conv : α → String) (delim : String) : List α → String
  | [] => "Dafack?"
  | [thing] => conv thing
  | thing :: rest => conv thing ++ delim ++ strOfList conv delim rest

def propToStr : ChannelProperty → String
  | .authentication => "Authentication"
  | .encryption => "Encryption"
  | .anonymity => "Anonymity"
  | .compression => "Compression"
  | .bidirectional => "Bidirectional"

def outputLineFromConnOption (tactics : List (Module ω)) (properties : List ChannelProperty) :
    String :=
  "(" ++ strOfList (fun tactic => tactic.name) " over " tactics ++ ") " ++
    " provides properties: " ++ strOfList propToStr ", " properties

def connectedLine (nodeA nodeB : Node) (tactics : List (Module ω))
    (properties : List ChannelProperty) : String :=
  "Connected node " ++ nodeA.name ++ " to node " ++ nodeB.name ++ " (using " ++
    outputLineFromConnOption tactics properties ++ ")"

/-- A stack of tactics with what it provides. -/
abbrev Connection (ω : Type) := List (Module ω) × List ChannelProperty

def pathsForReq (posCons : List (Connection ω)) (req : List ChannelProperty) :
    List (Connection ω) :=
  posCons.filter fun connection => (req.filter fun r => r ∉ connection.2) = []

/-- What is tried for one stack. -/
def connectOne (nodeA nodeB : Node) (connection : Connection ω) :
    Action ω (Event ω) Exn Unit :=
  .handle (fun e => e = .tacticFailed) <|
    (connectStack nodeA nodeB connection.1 (nodeA.addressable, nodeB.addressable)).andThen
      fun _ => .write (.printed (connectedLine nodeA nodeB connection.1 connection.2))

def connectNodes (nodeA nodeB : Node) (possibleConnections : List (Connection ω))
    (requirements : List ChannelProperty) : Action ω (Event ω) Exn Unit :=
  .iter (connectOne nodeA nodeB) (pathsForReq possibleConnections requirements)

/-! ## Bottom up -/

/-- The calls for the tactics of a stack, the one at the bottom first. Each call
takes the addresses that the call beneath it has returned, and the first one that
raises is the last one. -/
def BottomUp (nodeA nodeB : Node) : List (Module ω) → Addressable × Addressable →
    List (Call ω) → Except Exn (Addressable × Addressable) → Prop
  | [], acc, calls, result => calls = [] ∧ result = .ok acc
  | tactic :: above, acc, calls, result =>
      ∃ returned rest, calls = ⟨tactic, (nodeA, acc.1), (nodeB, acc.2), returned⟩ :: rest ∧
        match returned with
        | .ok addrs => BottomUp nodeA nodeB above addrs rest result
        | .error e => rest = [] ∧ result = .error e

section BottomUp

variable {nodeA nodeB : Node}

theorem BottomUp.append_of_error {stack : List (Module ω)} {acc : Addressable × Addressable}
    {calls : List (Call ω)} {e : Exn} (hup : BottomUp nodeA nodeB stack acc calls (.error e))
    (tactic : Module ω) : BottomUp nodeA nodeB (stack ++ [tactic]) acc calls (.error e) := by
  induction stack generalizing acc calls with
  | nil => cases hup.2
  | cons first above ih =>
      obtain ⟨returned, rest, rfl, hrest⟩ := hup
      refine ⟨returned, rest, rfl, ?_⟩
      cases returned with
      | error raised => exact hrest
      | ok addrs => exact ih hrest

/-- One more layer on top. -/
theorem BottomUp.append_of_ok {stack : List (Module ω)} {acc addrs : Addressable × Addressable}
    {calls : List (Call ω)} (hup : BottomUp nodeA nodeB stack acc calls (.ok addrs))
    (tactic : Module ω) (returned : Except Exn (Addressable × Addressable)) :
    BottomUp nodeA nodeB (stack ++ [tactic]) acc
      (calls ++ [⟨tactic, (nodeA, addrs.1), (nodeB, addrs.2), returned⟩]) returned := by
  induction stack generalizing acc calls with
  | nil =>
      obtain ⟨rfl, hacc⟩ := hup
      obtain rfl := Except.ok.inj hacc
      refine ⟨returned, [], rfl, ?_⟩
      cases returned with
      | error e => exact ⟨rfl, rfl⟩
      | ok last => exact ⟨rfl, rfl⟩
  | cons first above ih =>
      obtain ⟨middle, rest, rfl, hrest⟩ := hup
      refine ⟨middle, _, rfl, ?_⟩
      cases middle with
      | error raised => cases hrest.2
      | ok next => exact ih hrest

/-- The tactics are called in the order of the stack, all of them when nothing
is raised. -/
theorem BottomUp.map_tactic {stack : List (Module ω)} {acc : Addressable × Addressable}
    {calls : List (Call ω)} {result : Except Exn (Addressable × Addressable)}
    (hup : BottomUp nodeA nodeB stack acc calls result) :
    (calls.map fun call => call.tactic) <+: stack ∧
      (∀ addrs, result = .ok addrs → (calls.map fun call => call.tactic) = stack) ∧
      ∀ e, result = .error e → ∃ call ∈ calls, call.returned = .error e := by
  induction stack generalizing acc calls with
  | nil =>
      obtain ⟨rfl, rfl⟩ := hup
      simp
  | cons tactic above ih =>
      obtain ⟨returned, rest, rfl, hrest⟩ := hup
      cases returned with
      | error e =>
          obtain ⟨rfl, rfl⟩ := hrest
          simp
      | ok addrs =>
          obtain ⟨hinitial, hall, hraised⟩ := ih hrest
          refine ⟨by simpa using hinitial, fun last hlast => by simp [hall last hlast], ?_⟩
          intro e he
          obtain ⟨call, hcall, hown⟩ := hraised e he
          exact ⟨call, List.mem_cons_of_mem _ hcall, hown⟩

/-- The fold runs the stack bottom up. -/
theorem connectStack_bottomUp (nodeA nodeB : Node) (stack : List (Module ω))
    (acc : Addressable × Addressable) (world : ω) :
    ∃ calls, (connectStack nodeA nodeB stack acc world).entries = calls.map Event.call ∧
      BottomUp nodeA nodeB stack.reverse acc calls
        (connectStack nodeA nodeB stack acc world).result := by
  induction stack with
  | nil => exact ⟨[], rfl, rfl, rfl⟩
  | cons tactic beneath ih =>
      obtain ⟨calls, hentries, hup⟩ := ih
      rw [List.reverse_cons, connectStack]
      cases hresult : (connectStack nodeA nodeB beneath acc world).result with
      | error e =>
          rw [hresult] at hup
          rw [Action.andThen_of_error hresult]
          exact ⟨calls, hentries, hup.append_of_error tactic⟩
      | ok addrs =>
          rw [hresult] at hup
          rw [Action.andThen_of_ok hresult]
          exact ⟨_, by simp [hentries, callConnect], hup.append_of_ok tactic _⟩

end BottomUp

/-- What is tried for a stack, given with the tactic at the bottom first: the
calls, and a line of output when none of them raises. -/
def Attempted (nodeA nodeB : Node) (order : List (Module ω)) (connection : Connection ω)
    (events : List (Event ω)) : Prop :=
  ∃ calls result,
    BottomUp nodeA nodeB order (nodeA.addressable, nodeB.addressable) calls result ∧
    events = calls.map Event.call ++ match result with
      | .ok _ => [.printed (connectedLine nodeA nodeB connection.1 connection.2)]
      | .error _ => []

theorem connectOne_attempted (nodeA nodeB : Node) (connection : Connection ω) (world : ω) :
    Attempted nodeA nodeB connection.1.reverse connection
      (connectOne nodeA nodeB connection world).entries := by
  obtain ⟨calls, hentries, hup⟩ := connectStack_bottomUp nodeA nodeB connection.1
    (nodeA.addressable, nodeB.addressable) world
  refine ⟨calls, _, hup, ?_⟩
  rw [connectOne, Action.entries_handle, ← hentries]
  cases hresult : (connectStack nodeA nodeB connection.1
    (nodeA.addressable, nodeB.addressable) world).result with
  | error e => simp [Action.andThen_of_error hresult]
  | ok addrs => simp [Action.andThen_of_ok hresult, Action.write]

/-- Only an exception that is not `TacticFailed` gets out of an attempt. -/
theorem raised_of_connectOne {nodeA nodeB : Node} {connection : Connection ω} {world : ω} {e : Exn}
    (hraised : (connectOne nodeA nodeB connection world).result = .error e) :
    e ≠ .tacticFailed ∧ ∃ call,
      .call call ∈ (connectOne nodeA nodeB connection world).entries ∧
        call.returned = .error e := by
  obtain ⟨hown, hnot⟩ := Action.result_handle_eq_error_iff.mp hraised
  refine ⟨by simpa using hnot, ?_⟩
  obtain ⟨calls, hentries, hup⟩ := connectStack_bottomUp nodeA nodeB connection.1
    (nodeA.addressable, nodeB.addressable) world
  rw [connectOne, Action.entries_handle]
  cases hresult : (connectStack nodeA nodeB connection.1
    (nodeA.addressable, nodeB.addressable) world).result with
  | ok addrs =>
      rw [Action.andThen_of_ok hresult] at hown
      cases hown
  | error raised =>
      rw [Action.andThen_of_error hresult] at hown ⊢
      obtain rfl := Except.error.inj hown
      obtain ⟨call, hcall, hreturned⟩ := hup.map_tactic.2.2 raised hresult
      exact ⟨call, by rw [hentries]; exact List.mem_map_of_mem hcall, hreturned⟩

/-! ## The checks of the search -/

/-- A call of `check_stackability` that did not raise. -/
structure Check (ω : Type) where
  tactic : Module ω
  addr1 : Addressable
  addr2 : Addressable
  returned : Addressable × Addressable

/-- A result of the search, with the calls of `check_stackability` on the way to
it in the order in which they were made. -/
structure Checked (ω : Type) where
  connection : Connection ω
  checks : List (Check ω)

def Checked.order (checked : Checked ω) : List (Module ω) :=
  checked.checks.map fun check => check.tactic

def freshModules (modules : List (Module ω)) (properties : List ChannelProperty) :
    List (Module ω) :=
  modules.filter fun tactic => nonProvidedProperties tactic.toTactic properties ≠ []

def modulesExcept (tactic : Module ω) (modules : List (Module ω)) : List (Module ω) :=
  modules.filter fun other => other.name ≠ tactic.name

theorem length_modulesExcept_lt {modules : List (Module ω)} {properties : List ChannelProperty}
    {tactic : Module ω} (hmem : tactic ∈ freshModules modules properties) :
    (modulesExcept tactic modules).length < modules.length :=
  List.length_filter_lt_length_iff_exists.mpr ⟨tactic, (List.mem_filter.mp hmem).1, by simp⟩

/-- The search, which also records its checks. -/
def tryModule (modules usedTactics : List (Module ω)) (properties : List ChannelProperty)
    (checks : List (Check ω)) (results : List (Checked ω)) (addr1 addr2 : Addressable) :
    Option (List (Checked ω)) :=
  (freshModules modules properties).attach.foldlM (fun acc tactic =>
    (do
      let addrs ← tactic.1.checkStackability addr1 addr2
      tryModule (modulesExcept tactic.1 modules) (tactic.1 :: usedTactics)
        (nonProvidedProperties tactic.1.toTactic properties ++ properties)
        (checks ++ [⟨tactic.1, addr1, addr2, addrs⟩]) acc addrs.1 addrs.2) <|> some acc)
    (⟨(usedTactics, properties), checks⟩ :: results)
termination_by modules.length
decreasing_by exact length_modulesExcept_lt tactic.2

def checkedTree (available : List (Module ω)) : Option (List (Checked ω)) :=
  tryModule available [] [] [] [] fooIp fooIp

/-- A result without what `build_static_tactic_tree` does not keep. -/
def Checked.result (checked : Checked ω) : Result :=
  (checked.connection.1.map Module.toTactic, checked.connection.2)

theorem map_freshModules (modules : List (Module ω)) (properties : List ChannelProperty) :
    (freshModules modules properties).map Module.toTactic =
      freshTactics (modules.map Module.toTactic) properties := by
  rw [freshModules, freshTactics, List.filter_map]
  rfl

theorem map_modulesExcept (tactic : Module ω) (modules : List (Module ω)) :
    (modulesExcept tactic modules).map Module.toTactic =
      tacticsExcept tactic.toTactic (modules.map Module.toTactic) := by
  rw [modulesExcept, tacticsExcept, List.filter_map]
  rfl

theorem tryTactic_unfold (tactics usedTactics : List Tactic) (properties : List ChannelProperty)
    (results : List Result) (addr1 addr2 : Addressable) :
    tryTactic tactics usedTactics properties results addr1 addr2 =
      (freshTactics tactics properties).foldlM (fun acc tactic =>
        ((tactic.checkStackability addr1 addr2).bind fun addrs =>
          tryTactic (tacticsExcept tactic tactics) (tactic :: usedTactics)
            (nonProvidedProperties tactic properties ++ properties) acc addrs.1 addrs.2) <|>
          some acc) ((usedTactics, properties) :: results) := by
  rw [tryTactic]
  simp

theorem tryModule_unfold (modules usedTactics : List (Module ω))
    (properties : List ChannelProperty) (checks : List (Check ω)) (results : List (Checked ω))
    (addr1 addr2 : Addressable) :
    tryModule modules usedTactics properties checks results addr1 addr2 =
      (freshModules modules properties).foldlM (fun acc tactic =>
        ((tactic.checkStackability addr1 addr2).bind fun addrs =>
          tryModule (modulesExcept tactic modules) (tactic :: usedTactics)
            (nonProvidedProperties tactic.toTactic properties ++ properties)
            (checks ++ [⟨tactic, addr1, addr2, addrs⟩]) acc addrs.1 addrs.2) <|> some acc)
        (⟨(usedTactics, properties), checks⟩ :: results) := by
  rw [tryModule]
  simp

/-- Induction along the search: the tactics that are left become fewer. -/
theorem search_induction {P : List (Module ω) → Prop}
    (hstep : ∀ modules, (∀ properties, ∀ tactic ∈ freshModules modules properties,
      P (modulesExcept tactic modules)) → P modules) (modules : List (Module ω)) : P modules := by
  induction hlength : modules.length using Nat.strongRecOn generalizing modules with
  | ind n ih =>
      apply hstep
      intro properties tactic htactic
      exact ih _ (hlength ▸ length_modulesExcept_lt htactic) _ rfl

/-- The search with its checks lists what the search of the engine lists. -/
theorem map_tryModule (modules usedTactics : List (Module ω)) (properties : List ChannelProperty)
    (checks : List (Check ω)) (results : List (Checked ω)) (addr1 addr2 : Addressable) :
    (tryModule modules usedTactics properties checks results addr1 addr2).map
        (List.map Checked.result) =
      tryTactic (modules.map Module.toTactic) (usedTactics.map Module.toTactic) properties
        (results.map Checked.result) addr1 addr2 := by
  induction modules using search_induction generalizing usedTactics properties checks results
    addr1 addr2 with
  | hstep modules ih =>
      rw [tryModule_unfold, tryTactic_unfold, ← map_freshModules]
      refine foldlM_view (List.map Checked.result) Module.toTactic ?_ _
      intro acc tactic htactic
      rw [← map_modulesExcept, ← List.map_cons]
      cases hcheck : tactic.checkStackability addr1 addr2 with
      | none => rfl
      | some addrs =>
          have hrest := ih properties tactic htactic (tactic :: usedTactics)
            (nonProvidedProperties tactic.toTactic properties ++ properties)
            (checks ++ [⟨tactic, addr1, addr2, addrs⟩]) acc addrs.1 addrs.2
          rw [Option.bind_some, Option.bind_some, ← hrest]
          cases tryModule (modulesExcept tactic modules) (tactic :: usedTactics)
            (nonProvidedProperties tactic.toTactic properties ++ properties)
            (checks ++ [⟨tactic, addr1, addr2, addrs⟩]) acc addrs.1 addrs.2 <;> rfl

/-- The checks of a stack, given with the tactic at the bottom first: each one is
made on the addresses that the check beneath it has returned. -/
def ChecksUp : List (Module ω) → Addressable × Addressable → List (Check ω) →
    Addressable × Addressable → Prop
  | [], addrs, checks, last => checks = [] ∧ last = addrs
  | tactic :: above, addrs, checks, last =>
      ∃ returned rest, checks = ⟨tactic, addrs.1, addrs.2, returned⟩ :: rest ∧
        tactic.checkStackability addrs.1 addrs.2 = some returned ∧
        ChecksUp above returned rest last

theorem ChecksUp.order {stack : List (Module ω)} {addrs last : Addressable × Addressable}
    {checks : List (Check ω)} (hup : ChecksUp stack addrs checks last) :
    (checks.map fun check => check.tactic) = stack := by
  induction stack generalizing addrs checks with
  | nil =>
      obtain ⟨rfl, -⟩ := hup
      rfl
  | cons tactic above ih =>
      obtain ⟨returned, rest, rfl, -, hrest⟩ := hup
      rw [List.map_cons, ih hrest]

theorem ChecksUp.append {stack : List (Module ω)} {addrs last next : Addressable × Addressable}
    {checks : List (Check ω)} (hup : ChecksUp stack addrs checks last) {tactic : Module ω}
    (hcheck : tactic.checkStackability last.1 last.2 = some next) :
    ChecksUp (stack ++ [tactic]) addrs (checks ++ [⟨tactic, last.1, last.2, next⟩]) next := by
  induction stack generalizing addrs checks with
  | nil =>
      obtain ⟨rfl, rfl⟩ := hup
      exact ⟨next, [], rfl, hcheck, rfl, rfl⟩
  | cons first above ih =>
      obtain ⟨returned, rest, rfl, hfirst, hrest⟩ := hup
      exact ⟨returned, _, rfl, hfirst, ih hrest⟩

/-- The checks of a result are those of its stack, bottom up from the dummy
pair. -/
def Checked.Ordered (checked : Checked ω) : Prop :=
  ∃ last, ChecksUp checked.connection.1.reverse (fooIp, fooIp) checked.checks last

theorem Checked.Ordered.order_eq {checked : Checked ω} (hordered : checked.Ordered) :
    checked.order = checked.connection.1.reverse := by
  obtain ⟨last, hup⟩ := hordered
  exact hup.order

theorem ordered_of_tryModule {modules usedTactics : List (Module ω)}
    {properties : List ChannelProperty} {checks : List (Check ω)} {results tree : List (Checked ω)}
    {addr1 addr2 : Addressable}
    (hup : ChecksUp usedTactics.reverse (fooIp, fooIp) checks (addr1, addr2))
    (hresults : ∀ checked ∈ results, checked.Ordered)
    (htry : tryModule modules usedTactics properties checks results addr1 addr2 = some tree) :
    ∀ checked ∈ tree, checked.Ordered := by
  induction modules using search_induction generalizing usedTactics properties checks results tree
    addr1 addr2 with
  | hstep modules ih =>
      rw [tryModule_unfold] at htry
      have hfirst : ∀ checked ∈ ⟨(usedTactics, properties), checks⟩ :: results,
          Checked.Ordered checked := List.forall_mem_cons.mpr ⟨⟨_, hup⟩, hresults⟩
      refine law_of_foldlM (P := fun acc => ∀ checked ∈ acc, Checked.Ordered checked) ?_
        hfirst htry
      intro acc next tactic htactic hacc hnext
      cases hcheck : tactic.checkStackability addr1 addr2 with
      | none =>
          rw [hcheck] at hnext
          obtain rfl := Option.some.inj hnext
          exact hacc
      | some addrs =>
          rw [hcheck, Option.bind_some] at hnext
          cases hrest : tryModule (modulesExcept tactic modules) (tactic :: usedTactics)
              (nonProvidedProperties tactic.toTactic properties ++ properties)
              (checks ++ [⟨tactic, addr1, addr2, addrs⟩]) acc addrs.1 addrs.2 with
          | none =>
              rw [hrest] at hnext
              obtain rfl := Option.some.inj hnext
              exact hacc
          | some more =>
              rw [hrest] at hnext
              obtain rfl := Option.some.inj hnext
              refine ih properties tactic htactic ?_ hacc hrest
              rw [List.reverse_cons]
              exact hup.append hcheck

/-- The search lists the stacks of the engine, each with its checks in order. -/
theorem checkedTree_spec (available : List (Module ω)) :
    ∃ tree, checkedTree available = some tree ∧
      buildStaticTacticTree (available.map Module.toTactic) = some (tree.map Checked.result) ∧
      ∀ checked ∈ tree, checked.Ordered := by
  have hmap : (checkedTree available).map (List.map Checked.result) =
      buildStaticTacticTree (available.map Module.toTactic) :=
    map_tryModule available [] [] [] [] _ _
  rw [buildStaticTacticTree_eq] at hmap ⊢
  obtain ⟨tree, htree, hresults⟩ := Option.map_eq_some_iff.mp hmap
  have hground : ChecksUp ([] : List (Module ω)).reverse (fooIp, fooIp) [] (fooIp, fooIp) :=
    ⟨rfl, rfl⟩
  refine ⟨tree, htree, by rw [hresults], ?_⟩
  exact ordered_of_tryModule hground (fun _ hmem => absurd hmem List.not_mem_nil) htree

/-! ## Both orders -/

/-- The stacks of a list that are tried, each with what happens for it. They are
the first ones that meet the requirements, and all of these unless an exception
other than `TacticFailed` is raised. -/
def ConnectsInOrder (nodeA nodeB : Node) (possible : List (Checked ω))
    (requirements : List ChannelProperty) (effect : Effect ω (Event ω) Exn Unit) : Prop :=
  ∃ tried : List (Checked ω × List (Event ω)),
    let usable := possible.filter fun checked =>
      ∀ r ∈ requirements, r ∈ checked.connection.2
    tried.map Prod.fst <+: usable ∧
    effect.entries = tried.flatMap Prod.snd ∧
    (∀ attempt ∈ tried,
      Attempted nodeA nodeB attempt.1.order attempt.1.connection attempt.2) ∧
    ((∀ call e, .call call ∈ effect.entries → call.returned = .error e → e = .tacticFailed) →
      effect.result = .ok () ∧ tried.map Prod.fst = usable)

theorem pathsForReq_map (possible : List (Checked ω)) (requirements : List ChannelProperty) :
    pathsForReq (possible.map Checked.connection) requirements =
      (possible.filter fun checked =>
        ∀ r ∈ requirements, r ∈ checked.connection.2).map Checked.connection := by
  rw [pathsForReq, List.filter_map]
  congr 1
  apply List.filter_congr
  intro checked _
  simp [List.filter_eq_nil_iff]

theorem connectsInOrder (nodeA nodeB : Node) {possible : List (Checked ω)}
    (hordered : ∀ checked ∈ possible, checked.Ordered) (requirements : List ChannelProperty)
    (world : ω) :
    ConnectsInOrder nodeA nodeB possible requirements
      (connectNodes nodeA nodeB (possible.map Checked.connection) requirements world) := by
  rw [connectNodes, pathsForReq_map, Action.iter_map]
  generalize husable : (possible.filter fun checked =>
    ∀ r ∈ requirements, r ∈ checked.connection.2) = usable
  let body : Checked ω → Action ω (Event ω) Exn Unit :=
    fun checked => connectOne nodeA nodeB checked.connection
  have hsub : ∀ visit ∈ Action.visits body usable world, visit.1.Ordered := by
    intro visit hvisit
    have hmem := (Action.visits_isPrefix body usable world).subset (List.mem_map_of_mem hvisit)
    rw [← husable] at hmem
    exact hordered visit.1 (List.mem_filter.mp hmem).1
  refine ⟨(Action.visits body usable world).map fun visit =>
    (visit.1, (body visit.1 visit.2).entries), ?_, ?_, ?_, ?_⟩
  · rw [husable, List.map_map]
    exact Action.visits_isPrefix body usable world
  · rw [Action.entries_iter, List.flatMap_map]
  · intro attempt hattempt
    obtain ⟨visit, hvisit, rfl⟩ := List.mem_map.mp hattempt
    rw [(hsub visit hvisit).order_eq]
    exact connectOne_attempted nodeA nodeB visit.1.connection visit.2
  · intro honly
    have hok : (Action.iter body usable world).result = .ok () := by
      cases hresult : (Action.iter body usable world).result with
      | ok value => rfl
      | error e =>
          obtain ⟨visit, hvisit, hraised⟩ := Action.raised_of_iter hresult
          obtain ⟨hne, call, hcall, hreturned⟩ := raised_of_connectOne hraised
          refine absurd (honly call e ?_ hreturned) hne
          rw [Action.entries_iter]
          exact List.mem_flatMap.mpr ⟨visit, hvisit, hcall⟩
    refine ⟨hok, ?_⟩
    rw [husable, List.map_map]
    exact Action.visits_of_ok hok

/-- The engine connects the tactics of a stack in the order in which it has
checked them. -/
theorem connectNodes_inOrder (available : List (Module ω)) :
    ∃ tree, checkedTree available = some tree ∧
      buildStaticTacticTree (available.map Module.toTactic) = some (tree.map Checked.result) ∧
      ∀ (nodeA nodeB : Node) (possible : List {checked // checked ∈ tree})
        (requirements : List ChannelProperty) (world : ω),
        ConnectsInOrder nodeA nodeB (possible.map Subtype.val) requirements
          (connectNodes nodeA nodeB ((possible.map Subtype.val).map Checked.connection)
            requirements world) := by
  obtain ⟨tree, htree, hresults, hordered⟩ := checkedTree_spec available
  refine ⟨tree, htree, hresults, fun nodeA nodeB possible requirements world => ?_⟩
  apply connectsInOrder
  intro checked hchecked
  obtain ⟨listed, -, rfl⟩ := List.mem_map.mp hchecked
  exact hordered listed.1 listed.2

end Signpost.Engine

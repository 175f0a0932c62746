import Signpost.Engine.Connecting

/-! # Goal directed search

The server looks for a stack of tactics between two nodes by running tactics that
provide something that is still required. What is left of the requirements
becomes shorter with every tactic.
-/

namespace Signpost.Tactizing

open Machine Engine

abbrev Requirement := ChannelProperty

/-- What running a tactic may raise. -/
inductive RunExn
  | invalidAddressables
  | other (message : String)
deriving DecidableEq, Repr

/-- How a search stops before its end. -/
inductive Stop
  | raised (e : RunExn)
  | outOfFuel
deriving DecidableEq, Repr

/-- Running a tactic changes a world that the search does not see. -/
structure Tactic (ω : Type) where
  tacticName : String
  run : Addressable → Addressable → Addressable → ω →
    Except RunExn (Addressable × Addressable) × ω
  provides : List Requirement

structure Params (ω : Type) where
  startNode : Node
  endNode : Node
  nodes : List Node
  reqs : List Requirement
  tactics : List (Tactic ω)
  usedTactics : List (Tactic ω)

/-! ## Results -/

/-- What is reported. -/
structure Report (ω : Type) where
  tactics : List (Tactic ω)
  line : String

def strOfAddr : Addressable → String
  | .ipAddressInstance ip => ip.address ++ " (" ++ ip.name ++ ")"
  | .srvInstance srv => srv.ip.address ++ ":" ++ toString srv.port ++ " (" ++ srv.ip.name ++ ")"

def strOfNode (node : Node) : String := strOfAddr node.addressable ++ " [" ++ node.name ++ "]"

variable {ω : Type}

def strOfTactics : List (Tactic ω) → String
  | [] => "No tactics used"
  | [tactic] => tactic.tacticName
  | tactic :: rest => tactic.tacticName ++ " over " ++ strOfTactics rest

def outputResults (tactics : List (Tactic ω)) (a b : Node) : Action ω (Report ω) Stop Unit :=
  .write ⟨tactics, "Found connection " ++ strOfNode a ++ " -> " ++ strOfNode b ++ " (" ++
    strOfTactics tactics ++ ")"⟩

/-! ## The search -/

def doesTacticProvideReqs (tactic : Tactic ω) (reqs : List Requirement) : Bool :=
  (reqs.find? fun req => req ∈ tactic.provides).isSome

def tacticsProvidingReq (reqs : List Requirement) (tactics : List (Tactic ω)) :
    List (Tactic ω) :=
  tactics.filter fun tactic => doesTacticProvideReqs tactic reqs

def isLocal : Addressable → Bool
  | .ipAddressInstance ip => ip.name = "local"
  | .srvInstance _ => false

def alreadyHasTunnel (a b : Node) : Bool := !(isLocal a.addressable && isLocal b.addressable)

/-- The node with a new address in front. -/
def addAddress (node : Node) (address : Addressable) : Node where
  name := node.name
  controlChannel := node.controlChannel
  ips := address :: node.ips
  ips_ne := List.cons_ne_nil _ _

def runTactic (tactic : Tactic ω) (a b c : Addressable) :
    Action ω (Report ω) Stop (Addressable × Addressable) := fun world =>
  let outcome := tactic.run a b c world
  ⟨outcome.1.mapError .raised, outcome.2, []⟩

/-- The handler of `Invalid_addressables` is around the tactic and the search
that goes on from there. -/
def executeTactic (tactize : Params ω → Action ω (Report ω) Stop Unit) (a b c : Node)
    (tactic : Tactic ω) (params : Params ω) : Action ω (Report ω) Stop Unit :=
  .handle (fun stop => stop = .raised .invalidAddressables) <|
    (runTactic tactic a.addressable b.addressable c.addressable).andThen fun addrs =>
      tactize { params with
        startNode := addAddress a addrs.1
        endNode := addAddress b addrs.2 }

/-- The parameters after a tactic. -/
def Params.use (params : Params ω) (tactic : Tactic ω) : Params ω :=
  { params with
    usedTactics := tactic :: params.usedTactics
    reqs := params.reqs.filter fun r => r ∉ tactic.provides }

def makePermutations (tactize : Params ω → Action ω (Report ω) Stop Unit) (tactic : Tactic ω)
    (params : Params ω) : Action ω (Report ω) Stop Unit :=
  if alreadyHasTunnel params.startNode params.endNode then
    executeTactic tactize params.startNode params.endNode params.endNode tactic (params.use tactic)
  else
    .iter (fun node =>
      .iter (fun ends : Node × Node =>
        if ends.1.name = node.name then .done ()
        else executeTactic tactize ends.1 ends.2 node tactic (params.use tactic))
        [(params.startNode, params.endNode), (params.endNode, params.startNode)])
      params.nodes

/-- The fuel bounds the depth of the recursion. -/
def tactize : ℕ → Params ω → Action ω (Report ω) Stop Unit
  | 0, _ => .raise .outOfFuel
  | fuel + 1, params =>
      match params.reqs with
      | [] => outputResults params.usedTactics params.startNode params.endNode
      | requirements =>
          .iter (fun tactic => makePermutations (tactize fuel) tactic params)
            (tacticsProvidingReq requirements params.tactics)

/-! ## What is left of the requirements -/

/-- A stack of tactics, the one on top first, that the requirements justify. -/
structure Justified (tactics : List (Tactic ω)) (reqs : List Requirement)
    (used : List (Tactic ω)) : Prop where
  subset : used ⊆ tactics
  adds : ∀ above tactic beneath, used = above ++ tactic :: beneath →
    ∃ r ∈ reqs, r ∈ tactic.provides ∧ ∀ other ∈ beneath, r ∉ other.provides

/-- No tactic is there twice, as the lower one provides all that the upper one
could add. -/
theorem Justified.nodup {tactics used : List (Tactic ω)} {reqs : List Requirement}
    (hjustified : Justified tactics reqs used) : used.Nodup := by
  induction used with
  | nil => exact List.nodup_nil
  | cons tactic beneath ih =>
      refine List.nodup_cons.mpr ⟨fun hmem => ?_, ih ⟨?_, ?_⟩⟩
      · obtain ⟨r, -, hprovides, hnew⟩ := hjustified.adds [] tactic beneath rfl
        exact hnew tactic hmem hprovides
      · exact (List.cons_subset.mp hjustified.subset).2
      · intro above other rest heq
        exact hjustified.adds (tactic :: above) other rest (by rw [heq, List.cons_append])

/-- What holds of the parameters at every point of a search for `reqs`. -/
structure Outstanding (reqs : List Requirement) (params : Params ω) : Prop where
  justified : Justified params.tactics reqs params.usedTactics
  mem_reqs : ∀ r, r ∈ params.reqs ↔ r ∈ reqs ∧ ∀ tactic ∈ params.usedTactics, r ∉ tactic.provides

theorem mem_tacticsProvidingReq {reqs : List Requirement} {tactics : List (Tactic ω)}
    {tactic : Tactic ω} :
    tactic ∈ tacticsProvidingReq reqs tactics ↔
      tactic ∈ tactics ∧ ∃ r ∈ reqs, r ∈ tactic.provides := by
  simp [tacticsProvidingReq, doesTacticProvideReqs]

theorem length_use_lt {params : Params ω} {tactic : Tactic ω}
    (hmem : tactic ∈ tacticsProvidingReq params.reqs params.tactics) :
    (params.use tactic).reqs.length < params.reqs.length := by
  obtain ⟨-, r, hr, hprovides⟩ := mem_tacticsProvidingReq.mp hmem
  exact List.length_filter_lt_length_iff_exists.mpr ⟨r, hr, by simpa using hprovides⟩

theorem Outstanding.use {reqs : List Requirement} {params : Params ω}
    (houtstanding : Outstanding reqs params) {tactic : Tactic ω}
    (hmem : tactic ∈ tacticsProvidingReq params.reqs params.tactics) :
    Outstanding reqs (params.use tactic) := by
  obtain ⟨htactic, r, hr, hprovides⟩ := mem_tacticsProvidingReq.mp hmem
  refine ⟨⟨List.cons_subset.mpr ⟨htactic, houtstanding.justified.subset⟩, ?_⟩, ?_⟩
  · intro above other beneath heq
    cases above with
    | nil =>
        obtain ⟨rfl, rfl⟩ := List.cons.inj heq
        obtain ⟨hreq, hnew⟩ := (houtstanding.mem_reqs r).mp hr
        exact ⟨r, hreq, hprovides, hnew⟩
    | cons first above =>
        obtain ⟨rfl, hrest⟩ := List.cons.inj heq
        exact houtstanding.justified.adds above other beneath hrest
  · intro r
    simp only [Params.use, List.mem_filter, houtstanding.mem_reqs, decide_eq_true_eq,
      List.forall_mem_cons]
    tauto

/-! ## Every branch of a search -/

/-- A tactic of the list raises something else than `Invalid_addressables`. -/
def Raises (tactics : List (Tactic ω)) (stop : Stop) : Prop :=
  ∃ e, stop = .raised e ∧ e ≠ .invalidAddressables ∧
    ∃ tactic ∈ tactics, ∃ a b c world, (tactic.run a b c world).1 = .error e

/-- A stack that is reported provides all that was asked for. -/
def Reported (tactics : List (Tactic ω)) (reqs : List Requirement) (report : Report ω) : Prop :=
  Justified tactics reqs report.tactics ∧
    ∀ r ∈ reqs, ∃ tactic ∈ report.tactics, r ∈ tactic.provides

/-- The searches that go on from given requirements and used tactics. -/
def SameGoal (params other : Params ω) : Prop :=
  other.reqs = params.reqs ∧ other.tactics = params.tactics ∧
    other.usedTactics = params.usedTactics

section Branches

variable {tactize other : Params ω → Action ω (Report ω) Stop Unit} {tactics : List (Tactic ω)}
  {reqs : List Requirement}

theorem keeps_runTactic {tactic : Tactic ω} (htactic : tactic ∈ tactics) (a b c : Addressable)
    (P : Report ω → Prop) :
    (runTactic tactic a b c).Keeps P
      fun stop => stop = .raised .invalidAddressables ∨ Raises tactics stop := by
  refine ⟨fun _ _ hentry => absurd hentry List.not_mem_nil, fun world stop hraised => ?_⟩
  change (tactic.run a b c world).1.mapError Stop.raised = .error stop at hraised
  cases hrun : (tactic.run a b c world).1 with
  | ok addrs =>
      rw [hrun] at hraised
      cases hraised
  | error e =>
      rw [hrun] at hraised
      obtain rfl := Except.error.inj hraised
      by_cases hinvalid : e = .invalidAddressables
      · exact .inl (hinvalid ▸ rfl)
      · exact .inr ⟨e, rfl, hinvalid, tactic, htactic, a, b, c, world, hrun⟩

theorem keeps_executeTactic {P : Report ω → Prop} {tactic : Tactic ω} (htactic : tactic ∈ tactics)
    {params : Params ω}
    (hagain : ∀ later, SameGoal params later → (tactize later).Keeps P (Raises tactics))
    (a b c : Node) : (executeTactic tactize a b c tactic params).Keeps P (Raises tactics) := by
  have hrest : ∀ later, SameGoal params later → (tactize later).Keeps P
      fun stop => stop = .raised .invalidAddressables ∨ Raises tactics stop := by
    intro later hsame
    exact ⟨(hagain later hsame).writes, fun world stop hraise =>
      .inr ((hagain later hsame).raises _ _ hraise)⟩
  have hbody := (keeps_runTactic htactic a.addressable b.addressable c.addressable P).andThen
    fun addrs => hrest { params with
      startNode := addAddress a addrs.1
      endNode := addAddress b addrs.2 } ⟨rfl, rfl, rfl⟩
  refine hbody.handle fun stop hraised hnot => ?_
  rcases hraised with rfl | hraised
  · simp at hnot
  · exact hraised

theorem keeps_makePermutations {P : Report ω → Prop} {tactic : Tactic ω}
    (htactic : tactic ∈ tactics) {params : Params ω}
    (hagain : ∀ later, SameGoal (params.use tactic) later →
      (tactize later).Keeps P (Raises tactics)) :
    (makePermutations tactize tactic params).Keeps P (Raises tactics) := by
  unfold makePermutations
  split
  · exact keeps_executeTactic htactic hagain _ _ _
  · refine .iter fun node _ => .iter fun ends _ => ?_
    split
    · exact .done ()
    · exact keeps_executeTactic htactic hagain _ _ _

/-- A search goes on only through what it is given for that. -/
theorem makePermutations_congr {tactic : Tactic ω} {params : Params ω}
    (hagain : ∀ later, SameGoal (params.use tactic) later → tactize later = other later) :
    makePermutations tactize tactic params = makePermutations other tactic params := by
  have hexecute : ∀ a b c, executeTactic tactize a b c tactic (params.use tactic) =
      executeTactic other a b c tactic (params.use tactic) := by
    intro a b c
    unfold executeTactic
    congr 2
    funext addrs
    exact hagain _ ⟨rfl, rfl, rfl⟩
  unfold makePermutations
  simp only [hexecute]

end Branches

theorem Outstanding.of_sameGoal {reqs : List Requirement} {params later : Params ω}
    (houtstanding : Outstanding reqs params) (hsame : SameGoal params later) :
    Outstanding reqs later := by
  obtain ⟨hreqs, htactics, hused⟩ := hsame
  refine ⟨?_, ?_⟩
  · rw [htactics, hused]
    exact houtstanding.justified
  · rw [hreqs, hused]
    exact houtstanding.mem_reqs

/-- With fuel for every requirement a search ends, and what it reports is
justified. -/
theorem keeps_tactize {reqs : List Requirement} {fuel : ℕ} {params : Params ω}
    (houtstanding : Outstanding reqs params) (hfuel : params.reqs.length < fuel) :
    (tactize fuel params).Keeps (Reported params.tactics reqs) (Raises params.tactics) := by
  induction fuel generalizing params with
  | zero => exact absurd hfuel (Nat.not_lt_zero _)
  | succ fuel ih =>
      unfold tactize
      split
      next hnone =>
        refine .write ⟨houtstanding.justified, fun r hr => ?_⟩
        by_contra hmissing
        have hleft := (houtstanding.mem_reqs r).mpr ⟨hr, fun tactic htactic hprovides =>
          hmissing ⟨tactic, htactic, hprovides⟩⟩
        rw [hnone] at hleft
        cases hleft
      next =>
        refine .iter fun tactic htactic => ?_
        refine keeps_makePermutations (mem_tacticsProvidingReq.mp htactic).1 fun later hsame => ?_
        have hshorter := length_use_lt htactic
        have hlater := ih ((houtstanding.use htactic).of_sameGoal hsame) (by rw [hsame.1]; omega)
        rwa [show later.tactics = params.tactics from hsame.2.1] at hlater

/-- More fuel does not change a search. -/
theorem tactize_succ {fuel : ℕ} {params : Params ω} (hfuel : params.reqs.length < fuel) :
    tactize (fuel + 1) params = tactize fuel params := by
  induction fuel generalizing params with
  | zero => exact absurd hfuel (Nat.not_lt_zero _)
  | succ fuel ih =>
      rw [tactize, tactize]
      split
      next => rfl
      next =>
        apply Action.iter_congr
        intro tactic htactic
        refine makePermutations_congr fun later hsame => ih ?_
        have hshorter := length_use_lt htactic
        rw [hsame.1]
        omega

theorem tactize_eq_of_le {fuel more : ℕ} {params : Params ω} (hfuel : params.reqs.length < fuel)
    (hle : fuel ≤ more) : tactize more params = tactize fuel params := by
  induction hle with
  | refl => rfl
  | step hle ih => rw [tactize_succ (Nat.lt_of_lt_of_le hfuel hle), ih]

/-- The parameters of a search that has not used a tactic. -/
def start (startNode endNode : Node) (nodes : List Node) (reqs : List Requirement)
    (tactics : List (Tactic ω)) : Params ω :=
  ⟨startNode, endNode, nodes, reqs, tactics, []⟩

theorem outstanding_start (startNode endNode : Node) (nodes : List Node) (reqs : List Requirement)
    (tactics : List (Tactic ω)) :
    Outstanding reqs (start startNode endNode nodes reqs tactics) := by
  refine ⟨⟨List.nil_subset _, fun above tactic beneath heq => ?_⟩, by simp [start]⟩
  simp [start] at heq

/-- A search ends, by an exception only when a tactic raises one that is not
caught, and it reports justified stacks that provide what is asked for. -/
theorem tactize_spec (startNode endNode : Node) (nodes : List Node) (reqs : List Requirement)
    (tactics : List (Tactic ω)) (world : ω) :
    ∃ (fuel : ℕ) (effect : Effect ω (Report ω) Stop Unit),
      (∀ more ≥ fuel, tactize more (start startNode endNode nodes reqs tactics) world = effect) ∧
      (effect.result = .ok () ∨ ∃ stop, effect.result = .error stop ∧ Raises tactics stop) ∧
      ∀ report ∈ effect.entries,
        report.tactics.Nodup ∧
        (∀ r ∈ reqs, ∃ tactic ∈ report.tactics, r ∈ tactic.provides) ∧
        ∀ above tactic beneath, report.tactics = above ++ tactic :: beneath →
          ∃ r ∈ reqs, r ∈ tactic.provides ∧ ∀ other ∈ beneath, r ∉ other.provides := by
  have hfuel : (start startNode endNode nodes reqs tactics).reqs.length < reqs.length + 1 :=
    Nat.lt_succ_self _
  have hkeeps := keeps_tactize (outstanding_start startNode endNode nodes reqs tactics) hfuel
  refine ⟨reqs.length + 1, tactize (reqs.length + 1) (start startNode endNode nodes reqs tactics)
    world, fun more hle => by rw [tactize_eq_of_le hfuel hle], ?_, ?_⟩
  · cases hresult : (tactize (reqs.length + 1)
      (start startNode endNode nodes reqs tactics) world).result with
    | ok value => exact .inl rfl
    | error stop => exact .inr ⟨stop, rfl, hkeeps.raises world stop hresult⟩
  · intro report hreport
    obtain ⟨hjustified, hprovided⟩ := hkeeps.writes world report hreport
    exact ⟨hjustified.nodup, hprovided, hjustified.adds⟩

end Signpost.Tactizing

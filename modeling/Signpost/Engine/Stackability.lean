import Signpost.Machine.Search

/-! # Static tactic stacks

The engine looks for every way to run tactics on top of each other. A tactic is
stackable when it accepts the addresses of what is beneath it, and it is worth
stacking when it provides a property that nothing beneath it provides.
-/

namespace Signpost.Engine

open Machine

/-! ## Tactics -/

structure Ip where
  address : String
  name : String
deriving DecidableEq, Repr

structure Srv where
  ip : Ip
  port : Int
deriving DecidableEq, Repr

inductive ChannelProperty
  | authentication
  | encryption
  | anonymity
  | compression
  | bidirectional
deriving DecidableEq, Repr

inductive Addressable
  | ipAddressInstance (ip : Ip)
  | srvInstance (srv : Srv)
deriving DecidableEq, Repr

/-- What `TacticSig` offers without connecting anything. A check that raises
`NonValidAddressables` is `none`. -/
structure Tactic where
  name : String
  checkStackability : Addressable → Addressable → Option (Addressable × Addressable)
  provides : List ChannelProperty

abbrev Result := List Tactic × List ChannelProperty

/-! ## The search -/

/-- The properties that a tactic provides and that are not already provided. -/
def nonProvidedProperties (tactic : Tactic) (properties : List ChannelProperty) :
    List ChannelProperty :=
  tactic.provides.filter fun req => req ∉ properties

def freshTactics (tactics : List Tactic) (properties : List ChannelProperty) : List Tactic :=
  tactics.filter fun tactic => nonProvidedProperties tactic properties ≠ []

/-- Removed by name, as modules cannot be compared. -/
def tacticsExcept (tactic : Tactic) (tactics : List Tactic) : List Tactic :=
  tactics.filter fun other => other.name ≠ tactic.name

theorem mem_of_mem_freshTactics {tactics : List Tactic} {properties : List ChannelProperty}
    {tactic : Tactic} (hmem : tactic ∈ freshTactics tactics properties) : tactic ∈ tactics :=
  (List.mem_filter.mp hmem).1

theorem length_tacticsExcept_lt {tactics : List Tactic} {tactic : Tactic}
    (hmem : tactic ∈ tactics) : (tacticsExcept tactic tactics).length < tactics.length :=
  List.length_filter_lt_length_iff_exists.mpr ⟨tactic, hmem, by simp⟩

/-- The handler of `NonValidAddressables` is around the check and the recursive
call, and goes on with what has been found before. -/
def tryTactic (tactics usedTactics : List Tactic) (properties : List ChannelProperty)
    (results : List Result) (addr1 addr2 : Addressable) : Option (List Result) :=
  (freshTactics tactics properties).attach.foldlM (fun acc tactic =>
    (do
      let (na1, na2) ← tactic.1.checkStackability addr1 addr2
      tryTactic (tacticsExcept tactic.1 tactics) (tactic.1 :: usedTactics)
        (nonProvidedProperties tactic.1 properties ++ properties) acc na1 na2) <|> some acc)
    ((usedTactics, properties) :: results)
termination_by tactics.length
decreasing_by exact length_tacticsExcept_lt (mem_of_mem_freshTactics tactic.2)

def fooIp : Addressable := .ipAddressInstance ⟨"0.0.0.0", "foo"⟩

def buildStaticTacticTree (availableTactics : List Tactic) : Option (List Result) :=
  tryTactic availableTactics [] [] [] fooIp fooIp

/-! ## The search as a visit of positions -/

structure Position where
  tactics : List Tactic
  properties : List ChannelProperty
  addr1 : Addressable
  addr2 : Addressable

/-- The position on top of one more tactic. -/
def Position.stack (position : Position) (tactic : Tactic) : Option Position :=
  (tactic.checkStackability position.addr1 position.addr2).map fun addresses =>
    { tactics := tacticsExcept tactic position.tactics
      properties := nonProvidedProperties tactic position.properties ++ position.properties
      addr1 := addresses.1
      addr2 := addresses.2 }

theorem Position.stack_eq_some_iff {position later : Position} {tactic : Tactic} :
    position.stack tactic = some later ↔
      tactic.checkStackability position.addr1 position.addr2 = some (later.addr1, later.addr2) ∧
      later.tactics = tacticsExcept tactic position.tactics ∧
      later.properties =
        nonProvidedProperties tactic position.properties ++ position.properties := by
  rw [Position.stack, Option.map_eq_some_iff]
  constructor
  · rintro ⟨addresses, hcheck, rfl⟩
    exact ⟨hcheck, rfl, rfl⟩
  · rintro ⟨hcheck, htactics, hproperties⟩
    exact ⟨_, hcheck, by rw [← htactics, ← hproperties]⟩

def stacking : Search Position Tactic where
  moves position := freshTactics position.tactics position.properties
  next := Position.stack
  size position := position.tactics.length
  size_lt := by
    intro position later tactic hmem hnext
    rw [(Position.stack_eq_some_iff.mp hnext).2.1]
    exact length_tacticsExcept_lt (mem_of_mem_freshTactics hmem)

/-- The result that is listed at a position. -/
def listed (node : Position × List Tactic) : Result := (node.2, node.1.properties)

/-- The search never raises, whatever its accumulator, and it lists the
positions that a visit goes through. -/
theorem tryTactic_eq (node : Position × List Tactic) (visited : List (Position × List Tactic)) :
    tryTactic node.1.tactics node.2 node.1.properties (visited.map listed) node.1.addr1
      node.1.addr2 = some ((stacking.visit node visited).map listed) := by
  induction node using stacking.induction generalizing visited with
  | hstep node ih =>
      rw [tryTactic, Search.visit_eq, ← List.foldl_attach]
      refine foldlM_map_eq_some (List.map listed) ?_ (node :: visited)
      intro acc tactic _
      have hnext : stacking.next node.1 tactic.1 = node.1.stack tactic.1 := rfl
      unfold Search.visitMove
      cases hcheck : tactic.1.checkStackability node.1.addr1 node.1.addr2 with
      | none => simp [hnext, Position.stack, hcheck]
      | some addresses =>
          have hstack : stacking.next node.1 tactic.1 = some
              { tactics := tacticsExcept tactic.1 node.1.tactics
                properties := nonProvidedProperties tactic.1 node.1.properties ++ node.1.properties
                addr1 := addresses.1
                addr2 := addresses.2 } := by
            simp [hnext, Position.stack, hcheck]
          rw [hstack]
          simp [ih (_, tactic.1 :: node.2) ⟨tactic.1, tactic.2, hstack, rfl⟩ acc]

/-- The position beneath all stacks. -/
def ground (tactics : List Tactic) : Position := ⟨tactics, [], fooIp, fooIp⟩

theorem buildStaticTacticTree_eq (tactics : List Tactic) :
    buildStaticTacticTree tactics =
      some ((stacking.visit (ground tactics, []) []).map listed) :=
  tryTactic_eq (ground tactics, []) []

/-! ## The stacks that there are -/

/-- The addresses that a stack offers, applied bottom up to the dummy pair. The
tactic on top comes first. -/
def addressesOf : List Tactic → Option (Addressable × Addressable)
  | [] => some (fooIp, fooIp)
  | tactic :: beneath => do
      let (addr1, addr2) ← addressesOf beneath
      tactic.checkStackability addr1 addr2

/-- Every tactic provides a property that none beneath it provides. -/
def AddsProperties : List Tactic → Prop
  | [] => True
  | tactic :: beneath =>
      (∃ property ∈ tactic.provides, ∀ other ∈ beneath, property ∉ other.provides) ∧
        AddsProperties beneath

structure Stack (available stack : List Tactic) : Prop where
  subset : stack ⊆ available
  nodup : stack.Nodup
  stackable : (addressesOf stack).isSome
  addsProperties : AddsProperties stack

/-- What is known of a position on top of a stack. -/
structure OnTop (available : List Tactic) (node : Position × List Tactic) : Prop where
  stack : Stack available node.2
  addresses : addressesOf node.2 = some (node.1.addr1, node.1.addr2)
  mem_tactics : ∀ tactic, tactic ∈ node.1.tactics ↔ tactic ∈ available ∧ tactic ∉ node.2
  nodup_tactics : node.1.tactics.Nodup
  mem_properties : ∀ property, property ∈ node.1.properties ↔
    ∃ tactic ∈ node.2, property ∈ tactic.provides

theorem mem_nonProvidedProperties {tactic : Tactic} {properties : List ChannelProperty}
    {property : ChannelProperty} :
    property ∈ nonProvidedProperties tactic properties ↔
      property ∈ tactic.provides ∧ property ∉ properties := by
  simp [nonProvidedProperties]

section

variable {available : List Tactic} (hnames : (available.map Tactic.name).Nodup)

include hnames

/-- Removing a tactic by its name removes that tactic only. -/
theorem mem_tacticsExcept {tactics : List Tactic} (hsub : tactics ⊆ available) {tactic : Tactic}
    (hmem : tactic ∈ tactics) (other : Tactic) :
    other ∈ tacticsExcept tactic tactics ↔ other ∈ tactics ∧ other ≠ tactic := by
  rw [tacticsExcept, List.mem_filter, decide_eq_true_eq]
  refine and_congr_right fun hother => not_congr ⟨fun heq => ?_, fun heq => heq ▸ rfl⟩
  exact List.inj_on_of_nodup_map hnames (hsub hother) (hsub hmem) heq

theorem onTop_ground : OnTop available (ground available, []) where
  stack := ⟨List.nil_subset _, List.nodup_nil, rfl, trivial⟩
  addresses := rfl
  mem_tactics := by simp [ground]
  nodup_tactics := hnames.of_map
  mem_properties := by simp [ground]

/-- One more layer. -/
theorem OnTop.step {node later : Position × List Tactic} (hnode : OnTop available node)
    (hstep : stacking.Step node later) : OnTop available later := by
  obtain ⟨position, path⟩ := later
  obtain ⟨tactic, hmove, hnext, rfl⟩ := hstep
  obtain ⟨hcheck, htactics, hproperties⟩ := Position.stack_eq_some_iff.mp hnext
  obtain ⟨hmem, hfresh⟩ := List.mem_filter.mp hmove
  obtain ⟨havailable, hnot⟩ := (hnode.mem_tactics tactic).mp hmem
  have hsub : node.1.tactics ⊆ available := fun other h => ((hnode.mem_tactics other).mp h).1
  have haddresses : addressesOf (tactic :: node.2) = some (position.addr1, position.addr2) := by
    rw [addressesOf, hnode.addresses]
    exact hcheck
  refine ⟨⟨?_, ?_, ?_, ?_, hnode.stack.addsProperties⟩, haddresses, ?_, ?_, ?_⟩
  · exact List.cons_subset.mpr ⟨havailable, hnode.stack.subset⟩
  · exact List.nodup_cons.mpr ⟨hnot, hnode.stack.nodup⟩
  · rw [haddresses]
    rfl
  · obtain ⟨property, hproperty⟩ := List.exists_mem_of_ne_nil _ (decide_eq_true_eq.mp hfresh)
    obtain ⟨hprovides, hnew⟩ := mem_nonProvidedProperties.mp hproperty
    refine ⟨property, hprovides, fun other hother hold => hnew ?_⟩
    exact (hnode.mem_properties property).mpr ⟨other, hother, hold⟩
  · intro other
    rw [htactics, mem_tacticsExcept hnames hsub hmem, hnode.mem_tactics]
    simp only [List.mem_cons, not_or]
    tauto
  · rw [htactics]
    exact hnode.nodup_tactics.filter _
  · intro property
    rw [hproperties, List.mem_append, mem_nonProvidedProperties, hnode.mem_properties]
    simp only [List.mem_cons, exists_eq_or_imp]
    tauto

theorem onTop_of_reaches {node : Position × List Tactic}
    (hreaches : stacking.Reaches (ground available, []) node) : OnTop available node := by
  induction hreaches with
  | refl => exact onTop_ground hnames
  | tail _ hstep ih => exact ih.step hnames hstep

/-- Every stack is reached, layer by layer. -/
theorem exists_reaches_of_stack {stack : List Tactic} (hstack : Stack available stack) :
    ∃ position, stacking.Reaches (ground available, []) (position, stack) := by
  induction stack with
  | nil => exact ⟨ground available, .refl⟩
  | cons tactic beneath ih =>
      obtain ⟨hsub, hnodup, hstackable, ⟨property, hprovides, hnew⟩, hadds⟩ := hstack
      obtain ⟨havailable, hsub⟩ := List.cons_subset.mp hsub
      obtain ⟨hnot, hnodup⟩ := List.nodup_cons.mp hnodup
      have hbeneath : (addressesOf beneath).isSome := by
        cases haddresses : addressesOf beneath with
        | none => simp [addressesOf, haddresses] at hstackable
        | some _ => rfl
      obtain ⟨position, hreaches⟩ := ih ⟨hsub, hnodup, hbeneath, hadds⟩
      have htop := onTop_of_reaches hnames hreaches
      have hmove : tactic ∈ freshTactics position.tactics position.properties := by
        refine List.mem_filter.mpr ⟨(htop.mem_tactics tactic).mpr ⟨havailable, hnot⟩, ?_⟩
        rw [decide_eq_true_eq]
        apply List.ne_nil_of_mem (a := property)
        refine mem_nonProvidedProperties.mpr ⟨hprovides, fun hold => ?_⟩
        obtain ⟨other, hother, hprovided⟩ := (htop.mem_properties property).mp hold
        exact hnew other hother hprovided
      obtain ⟨addresses, hcheck⟩ := Option.isSome_iff_exists.mp hstackable
      rw [addressesOf, htop.addresses] at hcheck
      have hnext : stacking.next position tactic = some
          { tactics := tacticsExcept tactic position.tactics
            properties := nonProvidedProperties tactic position.properties ++ position.properties
            addr1 := addresses.1
            addr2 := addresses.2 } :=
        Position.stack_eq_some_iff.mpr ⟨hcheck, rfl, rfl⟩
      exact ⟨_, hreaches.tail ⟨tactic, hmove, hnext, rfl⟩⟩

/-- The tree lists exactly the stacks that can be built, each of them once, with
the properties that its tactics provide. -/
theorem buildStaticTacticTree_spec :
    ∃ results, buildStaticTacticTree available = some results ∧
      (results.map Prod.fst).Nodup ∧
      (∀ stack, (∃ properties, (stack, properties) ∈ results) ↔ Stack available stack) ∧
      ∀ stack properties, (stack, properties) ∈ results →
        ∀ property, property ∈ properties ↔ ∃ tactic ∈ stack, property ∈ tactic.provides := by
  have hmem : ∀ stack properties,
      (stack, properties) ∈ (stacking.visit (ground available, []) []).map listed ↔
        ∃ position, stacking.Reaches (ground available, []) (position, stack) ∧
          position.properties = properties := by
    intro stack properties
    simp only [List.mem_map, Search.mem_visit, List.not_mem_nil, false_or]
    constructor
    · rintro ⟨⟨position, _⟩, hreaches, heq⟩
      obtain ⟨rfl, rfl⟩ := Prod.mk.inj heq
      exact ⟨position, hreaches, rfl⟩
    · rintro ⟨position, hreaches, rfl⟩
      exact ⟨(position, stack), hreaches, rfl⟩
  refine ⟨_, buildStaticTacticTree_eq available, ?_, ?_, ?_⟩
  · rw [List.map_map]
    refine Search.nodup_visit _ (fun later hlater => ?_) List.nodup_nil (by simp)
    exact (onTop_of_reaches hnames hlater).nodup_tactics.filter _
  · intro stack
    constructor
    · rintro ⟨properties, hlisted⟩
      obtain ⟨position, hreaches, _⟩ := (hmem stack properties).mp hlisted
      exact (onTop_of_reaches hnames hreaches).stack
    · intro hstack
      obtain ⟨position, hreaches⟩ := exists_reaches_of_stack hnames hstack
      exact ⟨_, (hmem stack _).mpr ⟨position, hreaches, rfl⟩⟩
  · intro stack properties hlisted
    obtain ⟨position, hreaches, rfl⟩ := (hmem stack properties).mp hlisted
    exact (onTop_of_reaches hnames hreaches).mem_properties

end

/-! ## The tactics of the engine -/

def dummyIp : Addressable := .ipAddressInstance ⟨"0.0.0.0", "Dummy"⟩

def dummySrv : Addressable := .srvInstance ⟨⟨"0.0.0.0", "Dummy"⟩, 1111⟩

/-- All three checks of the engine ask for a pair of IP addresses and differ in
what they return. -/
def onIpAddresses (dummy : Addressable) : Addressable → Addressable →
    Option (Addressable × Addressable)
  | .ipAddressInstance _, .ipAddressInstance _ => some (dummy, dummy)
  | _, _ => none

def iodine : Tactic := ⟨"iodine", onIpAddresses dummyIp, [.authentication, .bidirectional]⟩

def openvpn : Tactic :=
  ⟨"OpenVPN", onIpAddresses dummySrv,
    [.authentication, .bidirectional, .encryption, .compression]⟩

def tor : Tactic := ⟨"tor", onIpAddresses dummySrv, [.anonymity, .bidirectional]⟩

theorem buildStaticTacticTree_spec_of_engine :
    ∃ results, buildStaticTacticTree [iodine, openvpn, tor] = some results ∧
      (results.map Prod.fst).Nodup ∧
      (∀ stack, (∃ properties, (stack, properties) ∈ results) ↔
        Stack [iodine, openvpn, tor] stack) ∧
      ∀ stack properties, (stack, properties) ∈ results →
        ∀ property, property ∈ properties ↔ ∃ tactic ∈ stack, property ∈ tactic.provides :=
  buildStaticTacticTree_spec (by decide)

end Signpost.Engine

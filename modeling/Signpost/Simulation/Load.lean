import Mathlib.Data.Finset.Card
import Signpost.Machine.Effects
import Signpost.Machine.Run
import Signpost.Simulation.Pending

/-! # The load of a simulation

Many resolvers share the root server and the domain roots, and many devices share a
resolver. In each tick, the resolvers go through the names that wait, and the devices
request names.
-/

namespace Signpost.Simulation

open Machine

variable {Name δ ρ ι : Type} [DecidableEq δ]

section Model

variable [DecidableEq Name]

/-! ## Devices -/

structure Resolver (Name δ : Type) where
  cpu : Cpu
  cache : Name → Option (Entry δ)
  pending : List Name

/-- A device, with its resolver. A signpost in the cloud keeps its tunnel up only. -/
structure Device (Name ρ : Type) where
  resolver : ρ
  signpostDevice : Bool
  cloud : Bool
  pending : List Name

def addOverhead (overhead : ℕ) : Step Name δ Unit :=
  .iter (fun _ => increaseCpu .resolver) (List.replicate overhead ())

/-- The name that is drawn, if there is one, and then the names that wait. The first for which
the resolver is too busy is left for later. The names that wait are deleted as an array. -/
def normalDns (device : Device Name ρ) (drawn : Option Name) (world : World Name δ) :
    Effect (World Name δ) (Charge δ) Exn Unit × List Name :=
  if device.signpostDevice ∧ device.cloud then (⟨.ok (), world, []⟩, device.pending)
  else
    let todo := drawn.toList ++ device.pending
    let (effect, resolved) := resolveAll todo world
    match effect.result with
    | .ok () => (effect, deleteItem device.pending (.array device.pending))
    | .error e =>
        if e.isBusy then
          ({ effect with result := .ok () }, device.pending ++ todo[resolved.length]?.toList)
        else (effect, device.pending)

/-- A signpost keeps a tunnel up, and requests nothing if that is too much already. -/
def deviceTick (iodineOverhead : ℕ) (device : Device Name ρ) (drawn : Option Name)
    (world : World Name δ) : Effect (World Name δ) (Charge δ) Exn Unit × List Name :=
  let first := addOverhead (if device.signpostDevice then iodineOverhead else 0) world
  match first.result with
  | .ok () =>
      let (second, pending) := normalDns device drawn first.world
      (⟨second.result, second.world, first.entries ++ second.entries⟩, pending)
  | .error e =>
      if e.isBusy then (⟨.ok (), first.world, first.entries⟩, device.pending)
      else (first, device.pending)

/-! ## The simulation -/

structure Simulated (Name δ ρ ι : Type) where
  rootServer : Cpu
  domainRoots : δ → Cpu
  domains : Name → Option δ
  signpost : δ → Bool
  resolvers : ρ → Resolver Name δ
  devices : ι → Device Name ρ

inductive SimulationEvent (Name ρ ι : Type)
  | startTick
  | resolverTick (resolver : ρ)
  | deviceTick (device : ι) (drawn : Option Name)

/-- The charges, each with the resolver that has asked. -/
abbrev Charges (δ ρ : Type) := List (ρ × Charge δ)

namespace Simulated

variable [DecidableEq ρ] [DecidableEq ι]

/-- A resolver with the agents that it asks. -/
def view (simulated : Simulated Name δ ρ ι) (resolver : ρ) : World Name δ where
  cpus
    | .resolver => (simulated.resolvers resolver).cpu
    | .rootServer => simulated.rootServer
    | .domainRoot domain => simulated.domainRoots domain
  domains := simulated.domains
  signpost := simulated.signpost
  cache := (simulated.resolvers resolver).cache
  pending := (simulated.resolvers resolver).pending

def put (simulated : Simulated Name δ ρ ι) (resolver : ρ) (world : World Name δ) :
    Simulated Name δ ρ ι :=
  { simulated with
    rootServer := world.cpus .rootServer
    domainRoots := fun domain => world.cpus (.domainRoot domain)
    resolvers := Function.update simulated.resolvers resolver
      ⟨world.cpus .resolver, world.cache, world.pending⟩ }

def setPending (simulated : Simulated Name δ ρ ι) (device : ι) (pending : List Name) :
    Simulated Name δ ρ ι :=
  { simulated with
    devices := Function.update simulated.devices device
      { simulated.devices device with pending } }

/-- What an exception that is not rescued ends. -/
def finish (simulated : Simulated Name δ ρ ι) (resolver : ρ)
    (effect : Effect (World Name δ) (Charge δ) Exn Unit) :
    Except Exn (Simulated Name δ ρ ι × Charges δ ρ) :=
  match effect.result with
  | .ok () => .ok (simulated.put resolver effect.world,
      effect.entries.map fun charge => (resolver, charge))
  | .error e => .error e

def startTick (simulated : Simulated Name δ ρ ι) : Simulated Name δ ρ ι :=
  { simulated with
    rootServer := { simulated.rootServer with tickCpu := 0 }
    domainRoots := fun domain => { simulated.domainRoots domain with tickCpu := 0 }
    resolvers := fun resolver =>
      { simulated.resolvers resolver with
        cpu := { (simulated.resolvers resolver).cpu with tickCpu := 0 } } }

def step (iodineOverhead : ℕ) (simulated : Simulated Name δ ρ ι) :
    SimulationEvent Name ρ ι → Except Exn (Simulated Name δ ρ ι × Charges δ ρ)
  | .startTick => .ok (simulated.startTick, [])
  | .resolverTick resolver => simulated.finish resolver (tick (simulated.view resolver))
  | .deviceTick device drawn =>
      let resolver := (simulated.devices device).resolver
      let (effect, pending) := Simulation.deviceTick iodineOverhead (simulated.devices device) drawn
        (simulated.view resolver)
      (simulated.setPending device pending).finish resolver effect

/-- Nothing has been asked for yet. -/
def start (rootServer : ℕ) (domainRoots : δ → ℕ) (resolvers : ρ → ℕ) (domains : Name → Option δ)
    (signpost : δ → Bool) (devices : ι → Device Name ρ) : Simulated Name δ ρ ι where
  rootServer := ⟨rootServer, 0⟩
  domainRoots domain := ⟨domainRoots domain, 0⟩
  domains := domains
  signpost := signpost
  resolvers resolver := ⟨⟨resolvers resolver, 0⟩, fun _ => none, []⟩
  devices device := { devices device with pending := [] }

end Simulated

end Model

/-! ## What a tick goes through -/

section Ticks

variable [DecidableEq Name]

theorem tick_eq (world : World Name δ) :
    (tick world).entries = (resolveAll world.pending world).1.entries ∧
      ∃ pending ⊆ (resolveAll world.pending world).1.world.pending,
        (tick world).world = { (resolveAll world.pending world).1.world with pending } := by
  have hworld : (tick world).world = { (resolveAll world.pending world).1.world with
      pending := deleteItem (resolveAll world.pending world).1.world.pending
        (.array (resolveAll world.pending world).2) } := by
    simp only [tick, Action.world_handle]
    rfl
  exact ⟨Action.entries_handle _ _ _, _, List.filter_subset_self _, hworld⟩

theorem normalDns_eq (device : Device Name ρ) (drawn : Option Name) (world : World Name δ) :
    ∃ todo, todo ⊆ drawn.toList ++ device.pending ∧
      (normalDns device drawn world).1.entries = (resolveAll todo world).1.entries ∧
      (normalDns device drawn world).1.world = (resolveAll todo world).1.world ∧
      (normalDns device drawn world).2 ⊆ drawn.toList ++ device.pending := by
  have hpending : device.pending ⊆ drawn.toList ++ device.pending := List.subset_append_right _ _
  unfold normalDns
  split
  · exact ⟨[], List.nil_subset _, rfl, rfl, hpending⟩
  · refine ⟨drawn.toList ++ device.pending, List.Subset.refl _, ?_⟩
    cases hresult : (resolveAll (drawn.toList ++ device.pending) world).1.result with
    | ok value =>
        simp only [hresult, true_and]
        exact List.Subset.trans (List.filter_subset_self _) hpending
    | error e =>
        -- one of the names that were asked for is added to those that wait
        cases hbusy : e.isBusy with
        | true =>
            simp only [hresult, hbusy, if_true, true_and]
            refine List.append_subset.mpr ⟨hpending, fun domainName hname => ?_⟩
            exact List.mem_of_getElem? (Option.mem_toList.mp hname)
        | false =>
            simp only [hresult, hbusy, Bool.false_eq_true, if_false, true_and]
            exact hpending

/-- A device tunnels, and then requests some of the names that it may request. -/
theorem deviceTick_eq (iodineOverhead : ℕ) (device : Device Name ρ) (drawn : Option Name)
    (world : World Name δ) :
    ∃ overhead todo, todo ⊆ drawn.toList ++ device.pending ∧
      let first := addOverhead overhead world
      let effect := deviceTick iodineOverhead device drawn world
      effect.1.entries = first.entries ++ (resolveAll todo first.world).1.entries ∧
        effect.1.world = (resolveAll todo first.world).1.world ∧
        effect.2 ⊆ drawn.toList ++ device.pending := by
  have hpending : device.pending ⊆ drawn.toList ++ device.pending := List.subset_append_right _ _
  refine ⟨if device.signpostDevice then iodineOverhead else 0, ?_⟩
  unfold deviceTick
  generalize (if device.signpostDevice then iodineOverhead else 0) = overhead
  cases hresult : (addOverhead overhead world).result with
  | ok value =>
      obtain ⟨todo, htodo, hentries, hworld, hleft⟩ :=
        normalDns_eq device drawn (addOverhead overhead world).world
      refine ⟨todo, htodo, ?_⟩
      simp only [hresult, hentries, hworld, true_and]
      exact hleft
  | error e =>
      refine ⟨[], List.nil_subset _, ?_⟩
      cases hbusy : e.isBusy with
      | true =>
          simp only [hresult, hbusy, if_true]
          exact ⟨(List.append_nil _).symm, rfl, hpending⟩
      | false =>
          simp only [hresult, hbusy, Bool.false_eq_true, if_false]
          exact ⟨(List.append_nil _).symm, rfl, hpending⟩

/-! ## Laws of ticks -/

/-- What a law has to hold of, apart from requests. -/
structure OfTicks (law : World Name δ → List (Charge δ) → World Name δ → Prop) : Prop where
  composes : Composes law
  increaseCpu : Action.Obeys law (increaseCpu .resolver : Step Name δ Unit)
  pending : ∀ {before after entries pending}, law before entries after →
    pending ⊆ after.pending → law before entries { after with pending }

variable {law : World Name δ → List (Charge δ) → World Name δ → Prop} {world : World Name δ}

theorem OfTicks.resolveAll (hlaw : OfTicks law) {todo : List Name}
    (hresolve : ∀ domainName ∈ todo, Action.Obeys law (resolve domainName)) :
    law world (resolveAll todo world).1.entries (resolveAll todo world).1.world := by
  have hloop := congrFun (resolveLoop_eq_iter todo) world
  rw [resolveLoop] at hloop
  rw [hloop]
  exact Action.Obeys.iter hlaw.composes hresolve world

theorem OfTicks.tick (hlaw : OfTicks law)
    (hresolve : ∀ domainName ∈ world.pending, Action.Obeys law (resolve domainName)) :
    law world (tick world).entries (tick world).world := by
  obtain ⟨hentries, pending, hpending, hworld⟩ := tick_eq world
  rw [hentries, hworld]
  exact hlaw.pending (hlaw.resolveAll hresolve) hpending

theorem OfTicks.deviceTick (hlaw : OfTicks law) {device : Device Name ρ} {drawn : Option Name}
    (hresolve : ∀ domainName ∈ drawn.toList ++ device.pending,
      Action.Obeys law (resolve domainName)) (iodineOverhead : ℕ) :
    law world (deviceTick iodineOverhead device drawn world).1.entries
      (deviceTick iodineOverhead device drawn world).1.world := by
  obtain ⟨overhead, todo, htodo, hentries, hworld, -⟩ :=
    deviceTick_eq iodineOverhead device drawn world
  rw [hentries, hworld]
  have hoverhead : Action.Obeys law (addOverhead overhead) :=
    .iter hlaw.composes fun _ _ => hlaw.increaseCpu
  exact hlaw.composes.trans (hoverhead world)
    (hlaw.resolveAll fun domainName hname => hresolve domainName (htodo hname))

end Ticks

/-! ## What agents are asked for -/

def asked (agent : AgentId δ) (entries : List (Charge δ)) : ℕ :=
  entries.countP fun charge => charge.agent = agent

def answered (agent : AgentId δ) (entries : List (Charge δ)) : ℕ :=
  entries.countP fun charge => charge.agent = agent ∧ charge.busy = false

/-- Every charge is counted, and is answered as long as the agent has CPU left. -/
structure Billed (before : World Name δ) (entries : List (Charge δ)) (after : World Name δ) :
    Prop where
  cpu : ∀ agent, (after.cpus agent).cpu = (before.cpus agent).cpu
  tickCpu : ∀ agent, (after.cpus agent).tickCpu = (before.cpus agent).tickCpu + asked agent entries
  answered : ∀ agent, answered agent entries +
    min (before.cpus agent).tickCpu (before.cpus agent).cpu =
      min (after.cpus agent).tickCpu (before.cpus agent).cpu

section Bills

variable {world before after : World Name δ} {entries : List (Charge δ)} {domainName : Name}

theorem asked_append (agent : AgentId δ) (entries later : List (Charge δ)) :
    asked agent (entries ++ later) = asked agent entries + asked agent later :=
  List.countP_append ..

theorem answered_append (agent : AgentId δ) (entries later : List (Charge δ)) :
    answered agent (entries ++ later) = answered agent entries + answered agent later :=
  List.countP_append ..

theorem Billed.of_cpus (hcpus : after.cpus = before.cpus) : Billed before [] after := by
  refine ⟨fun agent => by rw [hcpus], fun agent => by rw [hcpus]; rfl, fun agent => ?_⟩
  rw [hcpus]
  exact Nat.zero_add _

theorem composes_billed : Composes (@Billed Name δ _) := by
  refine ⟨fun world => .of_cpus rfl, ?_⟩
  intro first entries middle later last hfirst hlast
  refine ⟨fun agent => (hlast.cpu agent).trans (hfirst.cpu agent), fun agent => ?_, fun agent => ?_⟩
  · rw [hlast.tickCpu, hfirst.tickCpu, asked_append, Nat.add_assoc]
  · have hold := hfirst.answered agent
    have hnew := hlast.answered agent
    rw [hfirst.cpu] at hnew
    rw [answered_append]
    omega

theorem billed_charge (agent : AgentId δ) (busy : Bool) (hbusy : busy = false ↔ world.Spare agent) :
    Billed world [⟨agent, busy⟩] (world.charge agent) := by
  have hcpus : ∀ other, (world.charge agent).cpus other = if other = agent then
      ⟨(world.cpus agent).cpu, (world.cpus agent).tickCpu + 1⟩ else world.cpus other := by
    intro other
    simp only [World.charge, Function.update_apply]
  have hspare : world.Spare agent ↔ (world.cpus agent).tickCpu < (world.cpus agent).cpu := Iff.rfl
  refine ⟨fun other => ?_, fun other => ?_, fun other => ?_⟩ <;> rw [hcpus] <;>
    by_cases hother : other = agent
  · simp [hother]
  · simp [hother]
  · simp [hother, asked]
  · simp [hother, asked, Ne.symm hother]
  · subst hother
    rw [if_pos rfl]
    cases busy with
    | false =>
        have hless := hspare.mp (hbusy.mp rfl)
        simp only [answered, List.countP_singleton, decide_true, if_true, and_self]
        omega
    | true =>
        have hnot : ¬ (world.cpus other).tickCpu < (world.cpus other).cpu := fun hless =>
          Bool.noConfusion (hbusy.mpr (hspare.mpr hless))
        simp [answered]
        omega
  · simp [hother, answered, Ne.symm hother]

theorem obeys_increaseCpu (agent : AgentId δ) :
    Action.Obeys Billed (increaseCpu agent : Step Name δ Unit) := by
  intro world
  unfold increaseCpu
  split
  next hbusy => exact billed_charge agent true (by simp [World.Spare]; omega)
  next hspare => exact billed_charge agent false (by simp [World.Spare]; omega)

theorem obeys_modify {f : World Name δ → World Name δ}
    (hcpus : ∀ world, (f world).cpus = world.cpus) :
    Action.Obeys Billed (.modify f : Step Name δ Unit) :=
  fun world => .of_cpus (hcpus world)

theorem obeys_domainRootResolve (ns : δ) :
    Action.Obeys Billed (domainRootResolve ns : Step Name δ RR) :=
  .andThen composes_billed (obeys_increaseCpu _) fun _ _ => .of_cpus rfl

theorem obeys_rootServerResolve (domainName : Name) :
    Action.Obeys Billed (rootServerResolve domainName : Step Name δ (Option δ)) :=
  .andThen composes_billed (obeys_increaseCpu _) fun _ _ => .of_cpus rfl

section Resolving

variable [DecidableEq Name]

theorem obeys_resolveCached (domainName : Name) (entry : Entry δ) :
    Action.Obeys Billed (resolveCached domainName entry) := by
  refine .andThen composes_billed (obeys_modify fun _ => rfl) fun _ => ?_
  split
  · exact .done composes_billed ()
  · refine .andThen composes_billed (obeys_domainRootResolve _) fun rr => ?_
    split
    · exact obeys_modify fun _ => rfl
    · exact .done composes_billed ()
  · exact .done composes_billed ()

theorem obeys_resolveUncached {again : Name → Step Name δ Unit}
    (hagain : ∀ domainName, Action.Obeys Billed (again domainName)) (domainName : Name) :
    Action.Obeys Billed (resolveUncached again domainName) := by
  refine .andThen composes_billed (obeys_rootServerResolve domainName) fun ns =>
    .andThen composes_billed (obeys_modify fun _ => rfl) fun _ => ?_
  cases ns with
  | none => exact .raise composes_billed _
  | some ns =>
      exact .andThen composes_billed (obeys_modify fun _ => rfl) fun _ => hagain domainName

theorem obeys_resolveWith (fuel : ℕ) (domainName : Name) :
    Action.Obeys Billed (resolveWith fuel domainName : Step Name δ Unit) := by
  induction fuel generalizing domainName with
  | zero => exact .raise composes_billed _
  | succ fuel ih =>
      refine .andThen composes_billed (obeys_increaseCpu _) fun _ =>
        .rescue composes_billed ?_ (obeys_modify fun _ => rfl)
      refine .andThen composes_billed (fun world => .of_cpus rfl) fun cached => ?_
      cases cached with
      | some entry => exact obeys_resolveCached domainName entry
      | none => exact obeys_resolveUncached ih domainName

omit [DecidableEq Name] in
theorem ofTicks_billed : OfTicks (@Billed Name δ _) where
  composes := composes_billed
  increaseCpu := obeys_increaseCpu _
  pending hlaw _ := ⟨hlaw.cpu, hlaw.tickCpu, hlaw.answered⟩

end Resolving

end Bills

/-! ## What a resolver learns -/

section Learns

variable [DecidableEq Name] {names : Finset Name} {world before after : World Name δ}
  {entries : List (Charge δ)} {domainName : Name}

/-- How many of the names a resolver has no entry for. -/
def unknown (names : Finset Name) (cache : Name → Option (Entry δ)) : ℕ :=
  (names.filter fun domainName => (cache domainName).isNone).card

/-- The root server answers for names that become known, and only names of these wait. -/
structure Learned (names : Finset Name) (before : World Name δ) (entries : List (Charge δ))
    (after : World Name δ) : Prop where
  root : answered .rootServer entries + unknown names after.cache ≤ unknown names before.cache
  pending : ∀ domainName ∈ after.pending, domainName ∈ before.pending ∨ domainName ∈ names

omit [DecidableEq Name] in
theorem composes_learned (names : Finset Name) :
    Composes (@Learned Name δ _ names) := by
  refine ⟨fun world => ⟨Nat.le_of_eq (Nat.zero_add _), fun _ hname => .inl hname⟩, ?_⟩
  intro first entries middle later last hfirst hlast
  refine ⟨?_, fun domainName hname => ?_⟩
  · have hold := hfirst.root
    have hnew := hlast.root
    rw [answered_append]
    omega
  · rcases hlast.pending domainName hname with hmiddle | hnames
    · exact hfirst.pending domainName hmiddle
    · exact .inr hnames

omit [DecidableEq Name] in
theorem learned_charge {agent : AgentId δ} {busy : Bool} (hagent : agent ≠ .rootServer) :
    Learned names world [⟨agent, busy⟩] (world.charge agent) := by
  refine ⟨?_, fun _ hname => .inl hname⟩
  simp [answered, hagent, World.charge]

omit [DecidableEq Name] in
theorem learns_increaseCpu {agent : AgentId δ} (hagent : agent ≠ .rootServer) :
    Action.Obeys (Learned names) (increaseCpu agent : Step Name δ Unit) := by
  intro world
  unfold increaseCpu
  split
  · exact learned_charge hagent
  · exact learned_charge hagent

omit [DecidableEq δ] in
theorem unknown_setEntry_le (names : Finset Name) (world : World Name δ) (domainName : Name)
    (entry : Entry δ) :
    unknown names (world.setEntry domainName entry).cache ≤ unknown names world.cache := by
  refine Finset.card_le_card fun other hother => ?_
  obtain ⟨hmem, hnone⟩ := Finset.mem_filter.mp hother
  refine Finset.mem_filter.mpr ⟨hmem, ?_⟩
  by_cases heq : other = domainName
  · subst heq
    simp [World.setEntry] at hnone
  · simpa [World.setEntry, Function.update_of_ne heq] using hnone

omit [DecidableEq δ] in
/-- An entry for a name that was not known. -/
theorem unknown_setEntry (hname : domainName ∈ names) (huncached : world.cache domainName = none)
    (entry : Entry δ) :
    unknown names (world.setEntry domainName entry).cache + 1 ≤ unknown names world.cache := by
  have hmem : domainName ∈ names.filter fun other => (world.cache other).isNone :=
    Finset.mem_filter.mpr ⟨hname, by rw [huncached]; rfl⟩
  have hsubset : (names.filter fun other =>
      ((world.setEntry domainName entry).cache other).isNone) ⊆
        (names.filter fun other => (world.cache other).isNone).erase domainName := by
    intro other hother
    obtain ⟨hnames, hnone⟩ := Finset.mem_filter.mp hother
    have hne : other ≠ domainName := by
      rintro rfl
      simp [World.setEntry] at hnone
    refine Finset.mem_erase.mpr ⟨hne, Finset.mem_filter.mpr ⟨hnames, ?_⟩⟩
    simpa [World.setEntry, Function.update_of_ne hne] using hnone
  have hcard := Finset.card_le_card hsubset
  rw [Finset.card_erase_of_mem hmem] at hcard
  have hpositive := Finset.card_pos.mpr ⟨_, hmem⟩
  unfold unknown
  omega

theorem learns_setEntry (domainName : Name) (entry : Entry δ) :
    Action.Obeys (Learned names) (.modify fun world => world.setEntry domainName entry :
      Step Name δ Unit) := by
  intro world
  refine ⟨?_, fun _ hname => .inl hname⟩
  simpa [answered, Action.modify] using unknown_setEntry_le names world domainName entry

theorem learns_resolveCached (domainName : Name) (entry : Entry δ) :
    Action.Obeys (Learned names) (resolveCached domainName entry) := by
  refine .andThen (composes_learned names) (learns_setEntry _ _) fun _ => ?_
  split
  · exact .done (composes_learned names) ()
  · rw [domainRootResolve_andThen]
    refine .andThen (composes_learned names) (learns_increaseCpu (by simp)) fun _ world => ?_
    split
    · exact learns_setEntry _ _ world
    · exact (composes_learned names).refl world
  · exact .done (composes_learned names) ()

/-- The root server answers, and what comes next begins with an entry for the name. -/
theorem learned_rootServer {next : Unit → Step Name δ Unit} (hname : domainName ∈ names)
    (huncached : world.cache domainName = none)
    (hnext : ∃ entry, Learned names ((world.charge .rootServer).setEntry domainName entry)
      (next () (world.charge .rootServer)).entries (next () (world.charge .rootServer)).world) :
    Learned names world ((increaseCpu .rootServer).andThen next world).entries
      ((increaseCpu .rootServer).andThen next world).world := by
  by_cases hspare : world.Spare .rootServer
  -- the answer counts once, and one name fewer is unknown
  · rw [increaseCpu_andThen_of_spare hspare]
    obtain ⟨entry, hlearned⟩ := hnext
    have hcharged : (world.charge .rootServer).cache domainName = none := huncached
    have hentry := unknown_setEntry hname hcharged entry
    have hroot := hlearned.root
    have hcount : answered .rootServer (⟨.rootServer, false⟩ ::
        (next () (world.charge .rootServer)).entries) =
          answered .rootServer (next () (world.charge .rootServer)).entries + 1 := by
      simp [answered]
    have hcache : (world.charge .rootServer).cache = world.cache := rfl
    rw [hcache] at hentry
    refine ⟨?_, hlearned.pending⟩
    dsimp only
    rw [hcount]
    omega
  · rw [increaseCpu_andThen_of_busy hspare]
    exact ⟨by simp [answered, World.charge], fun _ hwaits => .inl hwaits⟩

theorem learns_resolveWith (hname : domainName ∈ names) (fuel : ℕ) :
    Action.Obeys (Learned names) (resolveWith fuel domainName : Step Name δ Unit) := by
  induction fuel with
  | zero => exact .raise (composes_learned names) _
  | succ fuel ih =>
      refine .andThen (composes_learned names) (learns_increaseCpu (by simp)) fun _ =>
        .rescue (composes_learned names) (fun world => ?_) fun world => ?_
      · cases hcached : world.cache domainName with
        | some entry =>
            rw [lookUp_of_cached hcached]
            exact learns_resolveCached domainName entry world
        | none =>
            rw [lookUp_of_uncached hcached, resolveUncached_eq]
            apply learned_rootServer hname hcached
            split
            · exact ⟨_, (composes_learned names).refl _⟩
            · exact ⟨_, ih _⟩
      -- whoever was asked is busy, and the name waits at the resolver
      · refine ⟨by simp [answered, Action.modify, World.queue], fun other hother => ?_⟩
        rcases List.mem_append.mp hother with hold | hnew
        · exact .inl hold
        · exact .inr (List.mem_singleton.mp hnew ▸ hname)

omit [DecidableEq Name] in
theorem ofTicks_learned (names : Finset Name) : OfTicks (Learned names (δ := δ)) where
  composes := composes_learned names
  increaseCpu := learns_increaseCpu (by simp)
  pending hlaw hsubset := ⟨hlaw.root, fun _ hname => hlaw.pending _ (hsubset hname)⟩

end Learns

end Signpost.Simulation

import Mathlib.Logic.Function.Basic
import Signpost.Machine.Actions

/-! # Agents of the simulation

A resolver asks a root server and domain roots for names. Each agent can only do
so much in a tick, and raises an exception when it is asked for more.
-/

namespace Signpost.Simulation

open Machine

/-! ## Agents -/

/-- What an agent can do in a tick, and what it has been asked for. -/
structure Cpu where
  cpu : ℕ
  tickCpu : ℕ
deriving DecidableEq

inductive AgentId (δ : Type)
  | resolver
  | rootServer
  | domainRoot (domain : δ)
deriving DecidableEq

inductive Exn
  | resourceCPUConstrained
  | noMethodError
  | outOfFuel
deriving DecidableEq

def Exn.isBusy : Exn → Bool
  | .resourceCPUConstrained => true
  | _ => false

structure RR where
  cacheable : Bool
deriving DecidableEq

/-- An entry of the cache. The name server is a domain root. -/
structure Entry (δ : Type) where
  count : ℕ
  ns : Option δ
  rr : Option RR
deriving DecidableEq

/-- A resolver, with the agents that it asks. The root server knows the domain
roots by their names. -/
structure World (Name δ : Type) where
  cpus : AgentId δ → Cpu
  domains : Name → Option δ
  signpost : δ → Bool
  cache : Name → Option (Entry δ)
  pending : List Name

/-- An increase of the CPU of an agent, and whether the agent was too busy. -/
structure Charge (δ : Type) where
  agent : AgentId δ
  busy : Bool
deriving DecidableEq

variable {Name δ : Type} [DecidableEq δ]

abbrev Step (Name δ α : Type) := Action (World Name δ) (Charge δ) Exn α

namespace World

variable (world : World Name δ)

def charge (agent : AgentId δ) : World Name δ :=
  { world with
    cpus := Function.update world.cpus agent
      { world.cpus agent with tickCpu := (world.cpus agent).tickCpu + 1 } }

/-- The agent can be asked once more in this tick. -/
def Spare (agent : AgentId δ) : Prop := (world.cpus agent).tickCpu < (world.cpus agent).cpu

instance (agent : AgentId δ) : Decidable (world.Spare agent) :=
  inferInstanceAs (Decidable (_ < _))

def queue (name : Name) : World Name δ := { world with pending := world.pending ++ [name] }

end World

def increaseCpu (agent : AgentId δ) : Step Name δ Unit := fun world =>
  if (world.cpus agent).tickCpu + 1 > (world.cpus agent).cpu then
    ⟨.error .resourceCPUConstrained, world.charge agent, [⟨agent, true⟩]⟩
  else ⟨.ok (), world.charge agent, [⟨agent, false⟩]⟩

/-- Domain roots are agents, and all agents can be cached. -/
def cacheable (_ns : δ) : Bool := true

def rootServerResolve (domainName : Name) : Step Name δ (Option δ) :=
  (increaseCpu .rootServer).andThen fun _ => .gets fun world => world.domains domainName

/-- The record can be cached if the domain root is one of a signpost. -/
def domainRootResolve (ns : δ) : Step Name δ RR :=
  (increaseCpu (.domainRoot ns)).andThen fun _ => .gets fun world => ⟨world.signpost ns⟩

section

variable {α : Type} {world : World Name δ} {agent : AgentId δ}

theorem increaseCpu_andThen_of_spare (hspare : world.Spare agent) (next : Unit → Step Name δ α) :
    (increaseCpu agent).andThen next world =
      ⟨(next () (world.charge agent)).result, (next () (world.charge agent)).world,
        ⟨agent, false⟩ :: (next () (world.charge agent)).entries⟩ := by
  have hincrease : increaseCpu agent world = ⟨.ok (), world.charge agent, [⟨agent, false⟩]⟩ :=
    if_neg (Nat.not_lt.mpr hspare)
  have hok : (increaseCpu agent world).result = .ok () := by rw [hincrease]
  rw [Action.andThen_of_ok hok, hincrease]
  rfl

theorem increaseCpu_andThen_of_busy (hbusy : ¬ world.Spare agent) (next : Unit → Step Name δ α) :
    (increaseCpu agent).andThen next world =
      ⟨.error .resourceCPUConstrained, world.charge agent, [⟨agent, true⟩]⟩ := by
  have hincrease : increaseCpu agent world =
      ⟨.error .resourceCPUConstrained, world.charge agent, [⟨agent, true⟩]⟩ :=
    if_pos (Nat.lt_of_not_ge hbusy)
  have hraised : (increaseCpu agent world).result = .error .resourceCPUConstrained := by
    rw [hincrease]
  rw [Action.andThen_of_error hraised, hincrease]

theorem rootServerResolve_andThen (domainName : Name) (next : Option δ → Step Name δ α) :
    (rootServerResolve domainName).andThen next =
      (increaseCpu .rootServer).andThen fun _ world => next (world.domains domainName) world := by
  rw [rootServerResolve, Action.andThen_assoc]
  rfl

theorem domainRootResolve_andThen (ns : δ) (next : RR → Step Name δ α) :
    (domainRootResolve ns).andThen next =
      (increaseCpu (.domainRoot ns)).andThen fun _ world => next ⟨world.signpost ns⟩ world := by
  rw [domainRootResolve, Action.andThen_assoc]
  rfl

end

/-! ## The resolver -/

variable [DecidableEq Name]

def World.setEntry (world : World Name δ) (name : Name) (entry : Entry δ) : World Name δ :=
  { world with cache := Function.update world.cache name (some entry) }

/-- The entry, if there is one, is counted before it is looked at. -/
def resolveCached (domainName : Name) (entry : Entry δ) : Step Name δ Unit :=
  let entry := { entry with count := entry.count + 1 }
  (Action.modify fun world => world.setEntry domainName entry).andThen fun _ =>
    match entry.rr, entry.ns with
    | some _, _ => .done ()
    | none, some ns =>
        (domainRootResolve ns).andThen fun rr =>
          if rr.cacheable then
            .modify fun world => world.setEntry domainName { entry with rr := some rr }
          else .done ()
    | none, none => .done ()

/-- Without an entry, the name is resolved again when there is one. -/
def resolveUncached (again : Name → Step Name δ Unit) (domainName : Name) : Step Name δ Unit :=
  (rootServerResolve domainName).andThen fun ns =>
    (Action.modify fun world => world.setEntry domainName ⟨1, none, none⟩).andThen fun _ =>
      match ns with
      | none => .raise .noMethodError
      | some ns =>
          (if cacheable ns then
            .modify fun world => world.setEntry domainName ⟨1, some ns, none⟩
          else .done () : Step Name δ Unit).andThen fun _ => again domainName

def lookUp (again : Name → Step Name δ Unit) (domainName : Name) : Step Name δ Unit :=
  (Action.gets fun world => world.cache domainName).andThen fun cached =>
    match cached with
    | some entry => resolveCached domainName entry
    | none => resolveUncached again domainName

/-- An agent that is too busy, apart from the resolver itself at the beginning,
leaves the name for the next tick. -/
def resolveWith : ℕ → Name → Step Name δ Unit
  | 0, _ => .raise .outOfFuel
  | fuel + 1, domainName =>
      (increaseCpu .resolver).andThen fun _ =>
        (lookUp (resolveWith fuel) domainName).rescue Exn.isBusy
          (.modify fun world => world.queue domainName)

/-- The second call finds the entry that the first one has made. -/
def resolve (domainName : Name) : Step Name δ Unit := resolveWith 2 domainName

/-- An element of an array: a name, or an array of names. -/
inductive Item (Name : Type)
  | name (name : Name)
  | array (names : List Name)
deriving DecidableEq

/-- `Array#delete` removes what is equal to its argument. -/
def deleteItem (names : List Name) (item : Item Name) : List Name :=
  names.filter fun name => Item.name name ≠ item

/-- The loop of `tick`, with the names that it has recorded as resolved. -/
def resolveAll : List Name → World Name δ →
    Effect (World Name δ) (Charge δ) Exn Unit × List Name
  | [], world => (⟨.ok (), world, []⟩, [])
  | domainName :: todo, world =>
      let first := resolve domainName world
      match first.result with
      | .error e => (⟨.error e, first.world, first.entries⟩, [])
      | .ok () =>
          let (rest, resolved) := resolveAll todo first.world
          (⟨rest.result, rest.world, first.entries ++ rest.entries⟩, domainName :: resolved)

def resolveLoop (todo : List Name) : Step Name δ Unit := fun world => (resolveAll todo world).1

/-- The loop goes through a copy of the pending names. What ends it is rescued if
an agent is too busy, and the names are deleted in any case. -/
def tick : Step Name δ Unit := fun world =>
  let resolved := (resolveAll world.pending world).2
  let rescued := (resolveLoop world.pending).handle Exn.isBusy world
  { rescued with
    world := { rescued.world with pending := deleteItem rescued.world.pending (.array resolved) } }

/-! ## Resolving -/

section

variable {world : World Name δ} {domainName : Name} {entry : Entry δ}
  {again : Name → Step Name δ Unit}

theorem lookUp_of_cached (hcached : world.cache domainName = some entry) :
    lookUp again domainName world = resolveCached domainName entry world := by
  rw [lookUp, Action.gets_andThen, hcached]

theorem lookUp_of_uncached (huncached : world.cache domainName = none) :
    lookUp again domainName world = resolveUncached again domainName world := by
  rw [lookUp, Action.gets_andThen, huncached]

omit [DecidableEq δ] in
theorem setEntry_setEntry (world : World Name δ) (domainName : Name) (entry other : Entry δ) :
    (world.setEntry domainName entry).setEntry domainName other =
      world.setEntry domainName other := by
  simp [World.setEntry]

/-- Without an entry, the root server is asked, and its answer is put into the
cache before the name is resolved again. -/
theorem resolveUncached_eq (again : Name → Step Name δ Unit) (domainName : Name) :
    resolveUncached again domainName =
      (increaseCpu .rootServer).andThen fun _ world =>
        match world.domains domainName with
        | none => ⟨.error .noMethodError, world.setEntry domainName ⟨1, none, none⟩, []⟩
        | some ns => again domainName (world.setEntry domainName ⟨1, some ns, none⟩) := by
  rw [resolveUncached, rootServerResolve_andThen]
  congr 1
  funext _ world
  cases world.domains domainName with
  | none => rfl
  | some ns =>
      rw [Action.modify_andThen]
      simp only [cacheable, if_true]
      rw [Action.modify_andThen, setEntry_setEntry]

theorem resolveWith_of_cached (fuel : ℕ) (hcached : world.cache domainName = some entry) :
    resolveWith (fuel + 1) domainName world = resolveWith 1 domainName world := by
  unfold resolveWith
  by_cases hspare : world.Spare .resolver
  · have hcharged : (world.charge .resolver).cache domainName = some entry := hcached
    have hlookUp : lookUp (resolveWith fuel) domainName (world.charge .resolver) =
        lookUp (resolveWith 0) domainName (world.charge .resolver) :=
      (lookUp_of_cached hcharged).trans (lookUp_of_cached hcharged).symm
    rw [increaseCpu_andThen_of_spare hspare, increaseCpu_andThen_of_spare hspare,
      Action.rescue_congr hlookUp]
  · rw [increaseCpu_andThen_of_busy hspare, increaseCpu_andThen_of_busy hspare]

/-- More fuel than two calls need changes nothing. -/
theorem resolveWith_add_two (fuel : ℕ) (domainName : Name) :
    resolveWith (fuel + 2) domainName = (resolve domainName : Step Name δ Unit) := by
  have hlookUp : lookUp (resolveWith (fuel + 1)) domainName =
      (lookUp (resolveWith 1) domainName : Step Name δ Unit) := by
    funext world
    cases hcached : world.cache domainName with
    | some entry => rw [lookUp_of_cached hcached, lookUp_of_cached hcached]
    | none =>
        rw [lookUp_of_uncached hcached, lookUp_of_uncached hcached, resolveUncached_eq,
          resolveUncached_eq]
        congr 1
        funext _ later
        cases later.domains domainName with
        | none => rfl
        | some ns =>
            have hentry : (later.setEntry domainName ⟨1, some ns, none⟩).cache domainName =
                some ⟨1, some ns, none⟩ := Function.update_self domainName _ later.cache
            exact resolveWith_of_cached fuel hentry
  rw [resolve, resolveWith, hlookUp]
  rfl

omit [DecidableEq Name] in
theorem increaseCpu_ne_outOfFuel {agent : AgentId δ} {next : Unit → Step Name δ Unit}
    (hnext : (next () (world.charge agent)).result ≠ .error .outOfFuel) :
    ((increaseCpu agent).andThen next world).result ≠ .error .outOfFuel := by
  by_cases hspare : world.Spare agent
  · rwa [increaseCpu_andThen_of_spare hspare]
  · rw [increaseCpu_andThen_of_busy hspare]
    intro hraised
    cases hraised

omit [DecidableEq Name] [DecidableEq δ] in
/-- Nothing else is rescued. -/
theorem rescue_of_not_busy {action handler : Step Name δ Unit}
    (hresult : (action world).result ≠ .error .resourceCPUConstrained) :
    action.rescue Exn.isBusy handler world = action world := by
  cases hraised : (action world).result with
  | ok value => exact Action.rescue_of_ok hraised
  | error e =>
      refine Action.rescue_of_passed hraised ?_
      cases e with
      | resourceCPUConstrained => exact absurd hraised hresult
      | noMethodError => rfl
      | outOfFuel => rfl

omit [DecidableEq Name] [DecidableEq δ] in
theorem rescue_of_busy {action handler : Step Name δ Unit}
    (hresult : (action world).result = .error .resourceCPUConstrained) :
    action.rescue Exn.isBusy handler world =
      ⟨(handler (action world).world).result, (handler (action world).world).world,
        (action world).entries ++ (handler (action world).world).entries⟩ :=
  Action.rescue_of_caught hresult rfl

omit [DecidableEq Name] [DecidableEq δ] in
theorem rescue_ne_outOfFuel {action : Step Name δ Unit}
    (haction : (action world).result ≠ .error .outOfFuel) :
    (action.rescue Exn.isBusy (.modify fun world => world.queue domainName) world).result ≠
      .error .outOfFuel := by
  by_cases hbusy : (action world).result = .error .resourceCPUConstrained
  · rw [rescue_of_busy hbusy]
    intro hraised
    cases hraised
  · rwa [rescue_of_not_busy hbusy]

theorem resolveCached_ne_outOfFuel (domainName : Name) (entry : Entry δ) (world : World Name δ) :
    (resolveCached domainName entry world).result ≠ .error .outOfFuel := by
  obtain ⟨count, ns, rr⟩ := entry
  rw [resolveCached, Action.modify_andThen]
  cases rr with
  | some rr =>
      intro hraised
      cases hraised
  | none =>
      cases ns with
      | none =>
          intro hraised
          cases hraised
      | some ns =>
          simp only [domainRootResolve_andThen]
          apply increaseCpu_ne_outOfFuel
          split
          · intro hraised
            cases hraised
          · intro hraised
            cases hraised

/-- Two calls are enough. -/
theorem resolve_ne_outOfFuel (domainName : Name) (world : World Name δ) :
    (resolve domainName world).result ≠ .error .outOfFuel := by
  apply increaseCpu_ne_outOfFuel
  apply rescue_ne_outOfFuel
  cases hcached : (world.charge .resolver).cache domainName with
  | some entry =>
      rw [lookUp_of_cached hcached]
      exact resolveCached_ne_outOfFuel domainName entry _
  | none =>
      rw [lookUp_of_uncached hcached, resolveUncached_eq]
      apply increaseCpu_ne_outOfFuel
      split
      · intro hraised
        cases hraised
      next ns _ =>
        apply increaseCpu_ne_outOfFuel
        apply rescue_ne_outOfFuel
        have hentry : ((((world.charge .resolver).charge .rootServer).setEntry domainName
            ⟨1, some ns, none⟩).charge .resolver).cache domainName = some ⟨1, some ns, none⟩ :=
          Function.update_self domainName _ _
        rw [lookUp_of_cached hentry]
        exact resolveCached_ne_outOfFuel domainName _ _

end

end Signpost.Simulation

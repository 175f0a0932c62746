import Signpost.Bloom.History
import Signpost.Simulation.Agents

/-! # Names that wait for the next tick

A name that cannot be resolved because an agent is too busy is left for the next
tick. What is to be left after a tick depends on how the latest attempt at each
name has ended.
-/

namespace Signpost.Simulation

open Machine Bloom

variable {Name δ : Type} [DecidableEq Name] [DecidableEq δ]

/-! ## What is to be pending after a tick -/

/-- Some agent was asked for more than it could do. -/
def Overloaded (entries : List (Charge δ)) : Prop := ∃ charge ∈ entries, charge.busy = true

/-- The names that a tick has attempted, each with the world at the beginning. -/
def attempts (world : World Name δ) : List (Name × World Name δ) :=
  Action.visits resolve world.pending world

def RanOut (attempt : Name × World Name δ) : Prop :=
  Overloaded (resolve attempt.1 attempt.2).entries

def Completed (attempt : Name × World Name δ) : Prop :=
  (resolve attempt.1 attempt.2).result = .ok () ∧ ¬ RanOut attempt

/-- The tick has ended early because the resolver was too busy. -/
def Exhausted (world : World Name δ) : Prop :=
  (Action.iter resolve world.pending world).result = .error .resourceCPUConstrained

/-- Pending afterwards are the names whose latest attempt ran out of CPU and those
that were not attempted, each once, and a name that was completed is not attempted
by a tick that begins with them. -/
structure LeavesUnresolved (world : World Name δ) : Prop where
  nodup : (tick world).world.pending.Nodup
  exactly : ∀ name, name ∈ (tick world).world.pending ↔
    (∃ attempt, latest Prod.fst (attempts world) name = some attempt ∧ RanOut attempt) ∨
      (name ∈ world.pending ∧ (∀ attempt ∈ attempts world, attempt.1 ≠ name) ∧ Exhausted world)
  completed : ∀ name attempt, latest Prod.fst (attempts world) name = some attempt →
    Completed attempt → ∀ next : World Name δ, next.pending = (tick world).world.pending →
      ∀ other ∈ attempts next, other.1 ≠ name

/-! ## What one attempt leaves -/

/-- How an attempt at a name may end, and what it does to the pending names. -/
inductive Accounted (domainName : Name) (pending : List Name)
    (effect : Effect (World Name δ) (Charge δ) Exn Unit) : Prop
  | spared (hentries : ¬ Overloaded effect.entries) (hpending : effect.world.pending = pending)
      (hresult : effect.result ≠ .error .resourceCPUConstrained)
  | queued (hentries : Overloaded effect.entries)
      (hpending : effect.world.pending = pending ++ [domainName]) (hresult : effect.result = .ok ())
  | raised (hentries : Overloaded effect.entries) (hpending : effect.world.pending = pending)
      (hresult : effect.result = .error .resourceCPUConstrained)

section

variable {domainName : Name} {pending : List Name} {world : World Name δ}

omit [DecidableEq Name] [DecidableEq δ] in
theorem Accounted.of_ok {effect : Effect (World Name δ) (Charge δ) Exn Unit}
    (hentries : effect.entries = []) (hpending : effect.world.pending = pending)
    (hresult : effect.result = .ok ()) : Accounted domainName pending effect :=
  .spared (by simp [Overloaded, hentries]) hpending (by simp [hresult])

omit [DecidableEq Name] [DecidableEq δ] in
theorem Accounted.of_error {effect : Effect (World Name δ) (Charge δ) Exn Unit} {e : Exn}
    (hentries : effect.entries = []) (hpending : effect.world.pending = pending)
    (hresult : effect.result = .error e) (he : e ≠ .resourceCPUConstrained) :
    Accounted domainName pending effect :=
  .spared (by simp [Overloaded, hentries]) hpending (by simp [hresult, he])

omit [DecidableEq δ] in
theorem overloaded_cons_iff {agent : AgentId δ} {entries : List (Charge δ)} :
    Overloaded (⟨agent, false⟩ :: entries) ↔ Overloaded entries := by
  simp [Overloaded]

omit [DecidableEq Name] in
/-- Asking an agent first, and going on only if it is not too busy. -/
theorem Accounted.increaseCpu {agent : AgentId δ} {next : Unit → Step Name δ Unit}
    (hpending : world.pending = pending)
    (hnext : Accounted domainName pending (next () (world.charge agent))) :
    Accounted domainName pending ((increaseCpu agent).andThen next world) := by
  by_cases hspare : world.Spare agent
  · rw [increaseCpu_andThen_of_spare hspare]
    cases hnext with
    | spared hentries hpending hresult =>
        exact .spared (by rwa [overloaded_cons_iff]) hpending hresult
    | queued hentries hpending hresult =>
        exact .queued (overloaded_cons_iff.mpr hentries) hpending hresult
    | raised hentries hpending hresult =>
        exact .raised (overloaded_cons_iff.mpr hentries) hpending hresult
  · rw [increaseCpu_andThen_of_busy hspare]
    exact .raised ⟨_, List.mem_cons_self, rfl⟩ hpending rfl

omit [DecidableEq Name] [DecidableEq δ] in
/-- What is rescued is never raised. -/
theorem Accounted.rescue {action : Step Name δ Unit}
    (haction : Accounted domainName pending (action world)) :
    let rescued := action.rescue Exn.isBusy (.modify fun world => world.queue domainName) world
    Accounted domainName pending rescued ∧ rescued.result ≠ .error .resourceCPUConstrained := by
  cases haction with
  | spared hentries hpending hresult =>
      simp only [rescue_of_not_busy hresult]
      exact ⟨.spared hentries hpending hresult, hresult⟩
  | queued hentries hpending hresult =>
      simp only [Action.rescue_of_ok hresult]
      exact ⟨.queued hentries hpending hresult, by simp [hresult]⟩
  | raised hentries hpending hresult =>
      simp only [rescue_of_busy hresult]
      refine ⟨.queued ?_ ?_ rfl, ?_⟩
      · simpa [Action.modify] using hentries
      · simp [Action.modify, World.queue, hpending]
      · simp [Action.modify]

theorem accounted_resolveCached (domainName : Name) (entry : Entry δ) (world : World Name δ) :
    Accounted domainName world.pending (resolveCached domainName entry world) := by
  obtain ⟨count, ns, rr⟩ := entry
  rw [resolveCached, Action.modify_andThen]
  cases rr with
  | some rr => exact .of_ok rfl rfl rfl
  | none =>
      cases ns with
      | none => exact .of_ok rfl rfl rfl
      | some ns =>
          simp only [domainRootResolve_andThen]
          refine .increaseCpu rfl ?_
          split
          · exact .of_ok rfl rfl rfl
          · exact .of_ok rfl rfl rfl

theorem accounted_lookUp {again : Name → Step Name δ Unit}
    (hagain : ∀ world, Accounted domainName world.pending (again domainName world))
    (world : World Name δ) :
    Accounted domainName world.pending (lookUp again domainName world) := by
  cases hcached : world.cache domainName with
  | some entry =>
      rw [lookUp_of_cached hcached]
      exact accounted_resolveCached domainName entry world
  | none =>
      rw [lookUp_of_uncached hcached, resolveUncached_eq]
      refine .increaseCpu rfl ?_
      split
      · exact .of_error rfl rfl rfl (by decide)
      next ns _ => exact hagain ((world.charge .rootServer).setEntry domainName ⟨1, some ns, none⟩)

theorem accounted_resolveWith (fuel : ℕ) (domainName : Name) (world : World Name δ) :
    Accounted domainName world.pending (resolveWith fuel domainName world) := by
  induction fuel generalizing world with
  | zero => exact .of_error rfl rfl rfl (by decide)
  | succ fuel ih =>
      have hlookUp := accounted_lookUp ih (world.charge .resolver)
      exact .increaseCpu rfl hlookUp.rescue.1

/-- While the resolver itself is not too busy, a name that runs out of CPU is
queued. -/
theorem pending_resolve_of_ranOut (hspare : world.Spare .resolver)
    (hranOut : RanOut (domainName, world)) :
    (resolve domainName world).world.pending = world.pending ++ [domainName] := by
  have hrescued := (accounted_lookUp (accounted_resolveWith 1 domainName)
    (world.charge .resolver)).rescue
  rw [RanOut, resolve, resolveWith, increaseCpu_andThen_of_spare hspare,
    overloaded_cons_iff] at hranOut
  rw [resolve, resolveWith, increaseCpu_andThen_of_spare hspare]
  cases hrescued.1 with
  | spared hentries _ _ => exact absurd hranOut hentries
  | queued _ hpending _ => exact hpending
  | raised _ _ hresult => exact absurd hresult hrescued.2

theorem resolve_of_busy (hbusy : ¬ world.Spare .resolver) :
    resolve domainName world =
      ⟨.error .resourceCPUConstrained, world.charge .resolver, [⟨.resolver, true⟩]⟩ := by
  rw [resolve, resolveWith, increaseCpu_andThen_of_busy hbusy]

theorem pending_resolve_isPrefix (domainName : Name) (world : World Name δ) :
    world.pending <+: (resolve domainName world).world.pending := by
  cases accounted_resolveWith 2 domainName world with
  | spared _ hpending _ => exact hpending ▸ List.prefix_rfl
  | queued _ hpending _ => exact hpending ▸ List.prefix_append _ _
  | raised _ hpending _ => exact hpending ▸ List.prefix_rfl

/-! ## The loop of a tick -/

theorem resolveLoop_eq_iter (todo : List Name) :
    (resolveLoop todo : Step Name δ Unit) = Action.iter resolve todo := by
  funext world
  induction todo generalizing world with
  | nil => rfl
  | cons domainName todo ih =>
      unfold resolveLoop at ih ⊢
      unfold resolveAll Action.iter
      cases hresult : (resolve domainName world).result with
      | error e => simp only [Action.andThen_of_error hresult, hresult]
      | ok value => simp only [Action.andThen_of_ok hresult, hresult, ih]

omit [DecidableEq δ] in
/-- No name is an array of names. -/
theorem deleteItem_array (names resolved : List Name) :
    deleteItem names (.array resolved) = names := by
  simp [deleteItem]

theorem pending_tick (world : World Name δ) :
    (tick world).world.pending = (Action.iter resolve world.pending world).world.pending := by
  simp only [tick, deleteItem_array, Action.world_handle, resolveLoop_eq_iter]

/-- Nothing that is pending is ever removed. -/
theorem pending_iter_isPrefix (todo : List Name) (world : World Name δ) :
    world.pending <+: (Action.iter resolve todo world).world.pending := by
  induction todo generalizing world with
  | nil => exact List.prefix_rfl
  | cons domainName todo ih =>
      have hfirst := pending_resolve_isPrefix domainName world
      unfold Action.iter
      cases hresult : (resolve domainName world).result with
      | error e => rwa [Action.andThen_of_error hresult]
      | ok value =>
          rw [Action.andThen_of_ok hresult]
          exact hfirst.trans (ih (resolve domainName world).world)

theorem pending_resolve_isPrefix_iter (domainName : Name) (todo : List Name)
    (world : World Name δ) :
    (resolve domainName world).world.pending <+:
      (Action.iter resolve (domainName :: todo) world).world.pending := by
  cases hresult : (resolve domainName world).result with
  | error e =>
      have hiter : Action.iter resolve (domainName :: todo) world =
          ⟨.error e, (resolve domainName world).world, (resolve domainName world).entries⟩ :=
        Action.andThen_of_error hresult
      exact hiter ▸ List.prefix_rfl
  | ok value =>
      rw [Action.iter, Action.andThen_of_ok hresult]
      exact pending_iter_isPrefix todo (resolve domainName world).world

/-- The first attempt at a name that is pending once is the latest one. -/
theorem latest_attempts_head {todo : List Name} (hpending : world.pending = domainName :: todo)
    (hnodup : world.pending.Nodup) :
    latest Prod.fst (attempts world) domainName = some (domainName, world) := by
  have hprefix := Action.visits_isPrefix resolve world.pending world
  have hattempts : ∃ later, attempts world = (domainName, world) :: later := by
    rw [attempts, hpending]
    exact ⟨_, rfl⟩
  obtain ⟨later, hlater⟩ := hattempts
  rw [attempts] at hlater
  rw [hlater, hpending, List.map_cons, List.cons_prefix_cons] at hprefix
  rw [hpending, List.nodup_cons] at hnodup
  have hother : latest Prod.fst later domainName = none := by
    rw [latest_eq_none_iff]
    intro attempt hattempt heq
    exact hnodup.1 (heq ▸ hprefix.2.subset (List.mem_map_of_mem hattempt))
  have happend : latest Prod.fst ([(domainName, world)] ++ later) domainName =
      latest Prod.fst [(domainName, world)] domainName := by
    rw [latest_append, hother, Option.none_or]
  rw [attempts, hlater]
  simpa [latest] using happend

/-- A resolver that cannot do anything attempts the first name only. -/
theorem attempts_of_busy {todo : List Name} (hpending : world.pending = domainName :: todo)
    (hbusy : ¬ world.Spare .resolver) : attempts world = [(domainName, world)] := by
  rw [attempts, hpending, Action.visits, resolve_of_busy hbusy]

theorem iter_of_busy (todo : List Name) (hbusy : ¬ world.Spare .resolver) :
    Action.iter resolve (domainName :: todo) world =
      ⟨.error .resourceCPUConstrained, world.charge .resolver, [⟨.resolver, true⟩]⟩ := by
  have hraised : (resolve domainName world).result = .error .resourceCPUConstrained := by
    rw [resolve_of_busy hbusy]
  rw [Action.iter, Action.andThen_of_error hraised, resolve_of_busy hbusy]

/-! ## When a tick leaves what is unresolved -/

theorem leavesUnresolved_of_nil (hpending : world.pending = []) : LeavesUnresolved world := by
  have htick : (tick world).world.pending = [] := by
    rw [pending_tick, hpending]
    exact hpending
  have hattempts : attempts world = [] := by
    rw [attempts, hpending]
    rfl
  constructor
  · rw [htick]
    exact List.nodup_nil
  · intro name
    simp [htick, hattempts, hpending, latest]
  · intro name attempt hlatest
    rw [hattempts] at hlatest
    cases hlatest

theorem leavesUnresolved_of_busy (hnodup : world.pending.Nodup) (hbusy : ¬ world.Spare .resolver) :
    LeavesUnresolved world := by
  cases hpending : world.pending with
  | nil => exact leavesUnresolved_of_nil hpending
  | cons domainName todo =>
      have htick : (tick world).world.pending = domainName :: todo := by
        rw [pending_tick, hpending, iter_of_busy todo hbusy]
        exact hpending
      have hexhausted : Exhausted world := by
        rw [Exhausted, hpending, iter_of_busy todo hbusy]
      have hranOut : RanOut (domainName, world) := by
        rw [RanOut, resolve_of_busy hbusy]
        exact ⟨_, List.mem_cons_self, rfl⟩
      have hattempts := attempts_of_busy hpending hbusy
      constructor
      · rwa [htick, ← hpending]
      · intro name
        rw [htick, hattempts, hpending]
        by_cases heq : domainName = name
        · subst heq
          simp [latest, hranOut]
        · simp [latest, heq, Ne.symm heq, hexhausted]
      · intro name attempt hlatest hcompleted
        rw [hattempts] at hlatest
        obtain ⟨hmem, -⟩ := mem_of_latest hlatest
        obtain rfl := List.mem_singleton.mp hmem
        exact absurd hranOut hcompleted.2

/-- A tick leaves exactly the unresolved names pending if and only if there are
none, or each is there once and the resolver cannot do anything any more. -/
theorem leavesUnresolved_iff (world : World Name δ) :
    LeavesUnresolved world ↔
      world.pending = [] ∨
        world.pending.Nodup ∧ (world.cpus .resolver).cpu ≤ (world.cpus .resolver).tickCpu := by
  constructor
  · intro hleaves
    cases hpending : world.pending with
    | nil => exact .inl rfl
    | cons domainName todo =>
        have hloop := pending_resolve_isPrefix_iter domainName todo world
        rw [← hpending, ← pending_tick] at hloop
        have hkept := (pending_resolve_isPrefix domainName world).trans hloop
        have hnodup : world.pending.Nodup := hleaves.nodup.sublist hkept.sublist
        refine .inr ⟨hpending ▸ hnodup, Nat.le_of_not_lt fun hspare => ?_⟩
        have hhead := latest_attempts_head hpending hnodup
        have hmem : domainName ∈ world.pending := hpending ▸ List.mem_cons_self
        -- the first name is queued a second time, or it is not to be pending any more
        have hranOut : ¬ RanOut (domainName, world) := by
          intro hranOut
          rw [pending_resolve_of_ranOut hspare hranOut] at hloop
          have htwice := hleaves.nodup.sublist hloop.sublist
          rw [List.nodup_append] at htwice
          exact htwice.2.2 domainName hmem domainName List.mem_cons_self rfl
        rcases (hleaves.exactly domainName).mp (hkept.subset hmem) with
          ⟨attempt, hattempt, hbusy⟩ | ⟨_, hnone, _⟩
        · obtain rfl := Option.some.inj (hhead.symm.trans hattempt)
          exact hranOut hbusy
        · exact hnone _ (mem_of_latest hhead).1 rfl
  · rintro (hpending | ⟨hnodup, hbusy⟩)
    · exact leavesUnresolved_of_nil hpending
    · exact leavesUnresolved_of_busy hnodup (Nat.not_lt.mpr hbusy)

end

/-! ## A name that is resolved -/

/-- One regular domain, one name that is pending, and nobody is busy. -/
def oneWaiting : World ℕ Unit where
  cpus _ := ⟨20, 0⟩
  domains _ := some ()
  signpost _ := false
  cache _ := none
  pending := [7]

theorem not_leavesUnresolved_oneWaiting :
    ¬ ∀ world : World ℕ Unit, LeavesUnresolved world := by
  intro hclaim
  have hpending : (tick oneWaiting).world.pending = [7] := by decide
  have hattempts : (attempts oneWaiting).map Prod.fst = [7] := by decide
  have hcalm : ∀ charge ∈ (resolve 7 oneWaiting).entries, charge.busy = false := by decide
  have hmem : 7 ∈ (tick oneWaiting).world.pending := by
    rw [hpending]
    exact List.mem_cons_self
  rcases ((hclaim oneWaiting).exactly 7).mp hmem with ⟨attempt, hlatest, hranOut⟩ | ⟨_, hnone, _⟩
  · have hwaiting : oneWaiting.pending = 7 :: [] := rfl
    have hhead := latest_attempts_head hwaiting (List.nodup_singleton 7)
    obtain rfl := Option.some.inj (hhead.symm.trans hlatest)
    obtain ⟨charge, hcharge, hbusy⟩ := hranOut
    rw [hcalm charge hcharge] at hbusy
    cases hbusy
  · have hfirst : 7 ∈ (attempts oneWaiting).map Prod.fst := by
      rw [hattempts]
      exact List.mem_cons_self
    obtain ⟨attempt, hattempt, heq⟩ := List.mem_map.mp hfirst
    exact hnone attempt hattempt heq

end Signpost.Simulation

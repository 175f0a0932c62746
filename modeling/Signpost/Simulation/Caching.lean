import Signpost.Machine.Run
import Signpost.Simulation.Pending

/-! # What the cache of a resolver holds

A resolver is to keep the answers for regular domains and none for those of
signposts, so that the load on the domain roots of the two can be compared.
-/

namespace Signpost.Simulation

open Machine

variable {Name δ : Type} [DecidableEq Name] [DecidableEq δ]

/-! ## Requests -/

/-- A new resolver. -/
def World.start (cpus : AgentId δ → Cpu) (domains : Name → Option δ) (signpost : δ → Bool) :
    World Name δ :=
  ⟨cpus, domains, signpost, fun _ => none, []⟩

abbrev Request (Name δ : Type) :=
  Transition (World Name δ) Name (Except Exn Unit × List (Charge δ))

/-- Every request ends, in one way or another. -/
def request (world : World Name δ) (domainName : Name) :
    Except Empty (World Name δ × Except Exn Unit × List (Charge δ)) :=
  let effect := resolve domainName world
  .ok (effect.world, effect.result, effect.entries)

/-- No agent is ever too busy. -/
def Ample (requests : List (Request Name δ)) : Prop :=
  ∀ transition ∈ requests, ∀ charge ∈ transition.output.2, charge.busy = false

instance (requests : List (Request Name δ)) : Decidable (Ample requests) :=
  inferInstanceAs (Decidable (∀ transition ∈ requests, ∀ charge ∈ transition.output.2, _))

/-- The name of a domain, of a signpost or of a regular one. -/
def World.IsDomain (world : World Name δ) (domainName : Name) (ns : δ) (signpost : Bool) : Prop :=
  world.domains domainName = some ns ∧ world.signpost ns = signpost

/-- Answers for signposts are never in the cache and always come from the domain
root. Those for regular domains come from the cache after the first one. -/
structure CachesRegular (requests : List (Request Name δ)) : Prop where
  signpost_uncached : ∀ transition ∈ requests, ∀ domainName ns entry,
    transition.after.IsDomain domainName ns true →
      transition.after.cache domainName = some entry → entry.rr = none
  signpost_asked : ∀ transition ∈ requests, ∀ ns,
    transition.before.IsDomain transition.input ns true →
      ⟨.domainRoot ns, false⟩ ∈ transition.output.2
  regular_cached : ∀ before first between later after,
    requests = before ++ first :: (between ++ later :: after) → first.input = later.input →
      first.output.1 = .ok () → ∀ ns, later.before.IsDomain later.input ns false →
        (∃ entry, later.before.cache later.input = some entry ∧ entry.rr ≠ none) ∧
          ∀ charge ∈ later.output.2, charge.agent ≠ .domainRoot ns

/-! ## A request while nobody is busy -/

/-- What the resolver keeps of the answer of a domain root. -/
def World.kept (world : World Name δ) (ns : δ) : Option RR :=
  if world.signpost ns then some ⟨true⟩ else none

/-- The entry that a request leaves, and the domain root that it asks. -/
def World.lookedUp (world : World Name δ) (domainName : Name) : Entry δ × Option δ :=
  match world.cache domainName with
  | some ⟨count, ns, some rr⟩ => (⟨count + 1, ns, some rr⟩, none)
  | some ⟨count, some ns, none⟩ => (⟨count + 1, some ns, world.kept ns⟩, some ns)
  | some ⟨count, none, none⟩ => (⟨count + 1, none, none⟩, none)
  | none =>
      match world.domains domainName with
      | some ns => (⟨2, some ns, world.kept ns⟩, some ns)
      | none => (⟨1, none, none⟩, none)

/-- The effect of a request, as far as the cache and the domain roots go. -/
structure Calm (world : World Name δ) (domainName : Name)
    (effect : Effect (World Name δ) (Charge δ) Exn Unit) : Prop where
  domains : effect.world.domains = world.domains
  signpost : effect.world.signpost = world.signpost
  cache : effect.world.cache =
    Function.update world.cache domainName (some (world.lookedUp domainName).1)
  asked : ∀ ns, ⟨.domainRoot ns, false⟩ ∈ effect.entries ↔
    (world.lookedUp domainName).2 = some ns
  result : ∀ ns, world.domains domainName = some ns → effect.result = .ok ()

section

variable {world : World Name δ} {domainName : Name}

omit [DecidableEq Name] in
theorem increaseCpu_andThen_of_calm {agent : AgentId δ} {next : Unit → Step Name δ Unit}
    (hcalm : ¬ Overloaded ((increaseCpu agent).andThen next world).entries) :
    (increaseCpu agent).andThen next world =
        ⟨(next () (world.charge agent)).result, (next () (world.charge agent)).world,
          ⟨agent, false⟩ :: (next () (world.charge agent)).entries⟩ ∧
      ¬ Overloaded (next () (world.charge agent)).entries := by
  by_cases hspare : world.Spare agent
  · have heq := increaseCpu_andThen_of_spare hspare next
    rw [heq, overloaded_cons_iff] at hcalm
    exact ⟨heq, hcalm⟩
  · rw [increaseCpu_andThen_of_busy hspare] at hcalm
    exact absurd ⟨_, List.mem_cons_self, rfl⟩ hcalm

omit [DecidableEq Name] [DecidableEq δ] in
theorem rescue_of_calm {action : Step Name δ Unit} {pending : List Name}
    (haction : Accounted domainName pending (action world))
    (hcalm : ¬ Overloaded (action.rescue Exn.isBusy
      (.modify fun world => world.queue domainName) world).entries) :
    action.rescue Exn.isBusy (.modify fun world => world.queue domainName) world =
      action world := by
  cases haction with
  | spared _ _ hresult => exact rescue_of_not_busy hresult
  | queued _ _ hresult => exact Action.rescue_of_ok hresult
  | raised hentries _ hresult =>
      obtain ⟨charge, hcharge, hbusy⟩ := hentries
      rw [rescue_of_busy hresult] at hcalm
      exact absurd ⟨charge, List.mem_append_left _ hcharge, hbusy⟩ hcalm

/-- A charge of another agent than a domain root changes nothing that matters. -/
theorem Calm.cons {agent : AgentId δ} {effect : Effect (World Name δ) (Charge δ) Exn Unit}
    (hagent : ∀ ns, agent ≠ .domainRoot ns) (hcalm : Calm (world.charge agent) domainName effect) :
    Calm world domainName ⟨effect.result, effect.world, ⟨agent, false⟩ :: effect.entries⟩ where
  domains := hcalm.domains
  signpost := hcalm.signpost
  cache := hcalm.cache
  asked ns := by
    rw [List.mem_cons, or_iff_right]
    · exact hcalm.asked ns
    · intro heq
      exact hagent ns (congrArg Charge.agent heq).symm
  result := hcalm.result

theorem calm_resolveCached {entry : Entry δ} (hcached : world.cache domainName = some entry)
    (hcalm : ¬ Overloaded (resolveCached domainName entry world).entries) :
    Calm world domainName (resolveCached domainName entry world) := by
  obtain ⟨count, ns, rr⟩ := entry
  rw [resolveCached, Action.modify_andThen] at hcalm ⊢
  cases rr with
  | some rr =>
      have hlookedUp : world.lookedUp domainName = (⟨count + 1, ns, some rr⟩, none) := by
        rw [World.lookedUp, hcached]
      refine ⟨rfl, rfl, ?_, ?_, fun _ _ => rfl⟩
      · rw [hlookedUp]
        rfl
      · simp [hlookedUp, Action.done]
  | none =>
      cases ns with
      | none =>
          have hlookedUp : world.lookedUp domainName = (⟨count + 1, none, none⟩, none) := by
            rw [World.lookedUp, hcached]
          refine ⟨rfl, rfl, ?_, ?_, fun _ _ => rfl⟩
          · rw [hlookedUp]
            rfl
          · simp [hlookedUp, Action.done]
      | some ns =>
          have hlookedUp : world.lookedUp domainName =
              (⟨count + 1, some ns, world.kept ns⟩, some ns) := by
            rw [World.lookedUp, hcached]
          simp only [domainRootResolve_andThen] at hcalm ⊢
          obtain ⟨heq, -⟩ := increaseCpu_andThen_of_calm hcalm
          rw [heq]
          have hcharged : ((world.setEntry domainName ⟨count + 1, some ns, none⟩).charge
              (.domainRoot ns)).signpost ns = world.signpost ns := rfl
          cases hsignpost : world.signpost ns with
          | true =>
              simp only [hcharged, hsignpost, if_true]
              refine ⟨rfl, rfl, ?_, ?_, fun _ _ => rfl⟩
              · simp [hlookedUp, World.kept, hsignpost, Action.modify, World.setEntry, World.charge]
              · simp [hlookedUp, Action.modify, eq_comm]
          | false =>
              simp only [hcharged, hsignpost, Bool.false_eq_true, if_false]
              refine ⟨rfl, rfl, ?_, ?_, fun _ _ => rfl⟩
              · simp [hlookedUp, World.kept, hsignpost, Action.done, World.setEntry, World.charge]
              · simp [hlookedUp, Action.done, eq_comm]

/-- A call of the resolver that does what its lookup does. -/
theorem calm_resolveWith_succ {fuel : ℕ}
    (hlookUp :
      ¬ Overloaded (lookUp (resolveWith fuel) domainName (world.charge .resolver)).entries →
        Calm (world.charge .resolver) domainName
          (lookUp (resolveWith fuel) domainName (world.charge .resolver)))
    (hcalm : ¬ Overloaded (resolveWith (fuel + 1) domainName world).entries) :
    Calm world domainName (resolveWith (fuel + 1) domainName world) := by
  rw [resolveWith] at hcalm ⊢
  obtain ⟨heq, hrescued⟩ := increaseCpu_andThen_of_calm hcalm
  have haccounted := accounted_lookUp (accounted_resolveWith fuel domainName)
    (world.charge .resolver)
  have hsame := rescue_of_calm haccounted hrescued
  rw [hsame] at hrescued
  rw [heq, hsame]
  have hagent : ∀ ns : δ, AgentId.resolver ≠ .domainRoot ns := by
    intro ns hns
    cases hns
  exact .cons hagent (hlookUp hrescued)

/-- The name is in the cache when it is resolved again. -/
theorem calm_again {ns : δ} (hdomain : world.domains domainName = some ns)
    (huncached : world.cache domainName = none)
    (hcalm : ¬ Overloaded
      (resolveWith 1 domainName (world.setEntry domainName ⟨1, some ns, none⟩)).entries) :
    Calm world domainName
      (resolveWith 1 domainName (world.setEntry domainName ⟨1, some ns, none⟩)) := by
  have hentry : (world.setEntry domainName ⟨1, some ns, none⟩).cache domainName =
      some ⟨1, some ns, none⟩ := Function.update_self domainName _ world.cache
  have hagain : Calm (world.setEntry domainName ⟨1, some ns, none⟩) domainName
      (resolveWith 1 domainName (world.setEntry domainName ⟨1, some ns, none⟩)) := by
    refine calm_resolveWith_succ (fun hlookUp => ?_) hcalm
    have hcached : ((world.setEntry domainName ⟨1, some ns, none⟩).charge .resolver).cache
        domainName = some ⟨1, some ns, none⟩ := hentry
    rw [lookUp_of_cached hcached] at hlookUp ⊢
    exact calm_resolveCached hcached hlookUp
  have hlookedUp : (world.setEntry domainName ⟨1, some ns, none⟩).lookedUp domainName =
      world.lookedUp domainName := by
    simp only [World.lookedUp, hentry, huncached, hdomain]
    rfl
  constructor
  · exact hagain.domains
  · exact hagain.signpost
  · rw [hagain.cache, hlookedUp]
    exact Function.update_idem _ _ _
  · rw [← hlookedUp]
    exact hagain.asked
  · exact hagain.result

theorem calm_resolve (hcalm : ¬ Overloaded (resolve domainName world).entries) :
    Calm world domainName (resolve domainName world) := by
  refine calm_resolveWith_succ (fun hlookUp => ?_) hcalm
  cases hcached : (world.charge .resolver).cache domainName with
  | some entry =>
      rw [lookUp_of_cached hcached] at hlookUp ⊢
      exact calm_resolveCached hcached hlookUp
  | none =>
      rw [lookUp_of_uncached hcached, resolveUncached_eq] at hlookUp ⊢
      obtain ⟨heq, hnext⟩ := increaseCpu_andThen_of_calm hlookUp
      rw [heq]
      have hagent : ∀ ns : δ, AgentId.rootServer ≠ .domainRoot ns := by
        intro ns hns
        cases hns
      refine .cons hagent ?_
      cases hdomain : ((world.charge .resolver).charge .rootServer).domains domainName with
      | none =>
          have huncached :
              ((world.charge .resolver).charge .rootServer).cache domainName = none := hcached
          have hlookedUp : ((world.charge .resolver).charge .rootServer).lookedUp domainName =
              (⟨1, none, none⟩, none) := by
            rw [World.lookedUp, huncached, hdomain]
          refine ⟨rfl, rfl, ?_, ?_, ?_⟩
          · rw [hlookedUp]
            rfl
          · simp [hlookedUp]
          · intro ns hns
            rw [hdomain] at hns
            cases hns
      | some ns =>
          simp only [hdomain] at hnext ⊢
          exact calm_again hdomain hcached hnext

/-! ## Runs of requests -/

theorem map_input_requests (world : World Name δ) (names : List Name) :
    (record request world names).map (fun transition => transition.input) = names := by
  induction names generalizing world with
  | nil => rfl
  | cons domainName names ih => exact congrArg (domainName :: ·) (ih _)

theorem exists_two_of_count {τ : Type*} (f : τ → Name) {steps : List τ} {name : Name}
    (hcount : 2 ≤ (steps.map f).count name) :
    ∃ before first between later after, steps = before ++ first :: (between ++ later :: after) ∧
      f first = name ∧ f later = name := by
  induction steps with
  | nil => simp at hcount
  | cons step steps ih =>
      rw [List.map_cons, List.count_cons] at hcount
      by_cases heq : f step = name
      · have hmem : name ∈ steps.map f := by
          rw [← List.one_le_count_iff]
          simp only [heq, beq_self_eq_true, if_true] at hcount
          omega
        obtain ⟨later, hlater, hname⟩ := List.mem_map.mp hmem
        obtain ⟨between, after, rfl⟩ := List.append_of_mem hlater
        exact ⟨[], step, between, later, after, rfl, heq, hname⟩
      · have hrest : 2 ≤ (steps.map f).count name := by simpa [heq] using hcount
        obtain ⟨before, first, between, later, after, rfl, hfirst, hlater⟩ := ih hrest
        exact ⟨step :: before, first, between, later, after, rfl, hfirst, hlater⟩

/-- Every entry of a domain has its domain root, and what is kept of its answer. -/
def Sound (world : World Name δ) : Prop :=
  ∀ domainName entry ns, world.cache domainName = some entry →
    world.domains domainName = some ns → entry.ns = some ns ∧ entry.rr = world.kept ns

omit [DecidableEq Name] [DecidableEq δ] in
/-- A request for a domain asks its domain root unless the answer is kept, and
leaves a sound entry. -/
theorem lookedUp_of_sound {ns : δ} (hsound : Sound world)
    (hdomain : world.domains domainName = some ns) :
    ((world.lookedUp domainName).1.ns = some ns ∧
        (world.lookedUp domainName).1.rr = world.kept ns) ∧
      (world.kept ns = none → (world.lookedUp domainName).2 = some ns) := by
  cases hcached : world.cache domainName with
  | none => simp [World.lookedUp, hcached, hdomain]
  | some entry =>
      obtain ⟨hns, hrr⟩ := hsound domainName entry ns hcached hdomain
      obtain ⟨count, server, rr⟩ := entry
      obtain rfl := hns
      obtain rfl := hrr
      cases hkept : world.kept ns with
      | none => simp [World.lookedUp, hcached, hkept]
      | some rr => simp [World.lookedUp, hcached, hkept]

omit [DecidableEq δ] in
theorem Calm.sound {effect : Effect (World Name δ) (Charge δ) Exn Unit}
    (hcalm : Calm world domainName effect) (hsound : Sound world) : Sound effect.world := by
  intro other entry ns hcached hdomain
  rw [hcalm.domains] at hdomain
  have hkept : effect.world.kept ns = world.kept ns := by
    rw [World.kept, hcalm.signpost, World.kept]
  rw [hcalm.cache, Function.update_apply] at hcached
  rw [hkept]
  split at hcached
  next heq =>
    subst heq
    obtain rfl := Option.some.inj hcached
    exact (lookedUp_of_sound hsound hdomain).1
  next => exact hsound other entry ns hcached hdomain

omit [DecidableEq δ] in
theorem Calm.entry {effect : Effect (World Name δ) (Charge δ) Exn Unit} {ns : δ}
    (hcalm : Calm world domainName effect) (hsound : Sound world)
    (hdomain : world.domains domainName = some ns) :
    ∃ entry, effect.world.cache domainName = some entry ∧ entry.rr = world.kept ns := by
  refine ⟨(world.lookedUp domainName).1, ?_, (lookedUp_of_sound hsound hdomain).1.2⟩
  rw [hcalm.cache, Function.update_self]

omit [DecidableEq δ] in
theorem Calm.asks {effect : Effect (World Name δ) (Charge δ) Exn Unit} {ns : δ}
    (hcalm : Calm world domainName effect) (hsound : Sound world)
    (hdomain : world.domains domainName = some ns) (hregular : world.signpost ns = false) :
    ⟨.domainRoot ns, false⟩ ∈ effect.entries := by
  refine (hcalm.asked ns).mpr ((lookedUp_of_sound hsound hdomain).2 ?_)
  rw [World.kept, hregular]
  rfl

/-- What every request of a run finds and leaves, if nobody is ever busy. -/
theorem calm_of_mem_requests {names : List Name} (hsound : Sound world)
    (hample : Ample (record request world names)) :
    ∀ transition ∈ record request world names,
      Sound transition.before ∧ transition.before.domains = world.domains ∧
        transition.before.signpost = world.signpost ∧
        Calm transition.before transition.input
          ⟨transition.output.1, transition.after, transition.output.2⟩ := by
  induction names generalizing world with
  | nil => nofun
  | cons domainName names ih =>
      unfold record request at hample ⊢
      rw [Ample, List.forall_mem_cons] at hample
      have hcalm : Calm world domainName (resolve domainName world) := by
        apply calm_resolve
        rintro ⟨charge, hcharge, hbusy⟩
        rw [hample.1 charge hcharge] at hbusy
        cases hbusy
      rw [List.forall_mem_cons]
      refine ⟨⟨hsound, rfl, rfl, hcalm⟩, fun transition hmem => ?_⟩
      have hlater := ih (hcalm.sound hsound) hample.2 transition hmem
      rwa [hcalm.domains, hcalm.signpost] at hlater

omit [DecidableEq δ] in
theorem Calm.cached {effect : Effect (World Name δ) (Charge δ) Exn Unit} {other : Name}
    (hcalm : Calm world domainName effect) (hcached : effect.world.cache other ≠ none) :
    other = domainName ∨ world.cache other ≠ none := by
  rw [hcalm.cache, Function.update_apply] at hcached
  split at hcached
  next heq => exact .inl heq
  next => exact .inr hcached

/-- Only names that are requested get into the cache. -/
theorem requested_of_cached {names : List Name} (hsound : Sound world)
    (hample : Ample (record request world names)) {other : Name} :
    ∀ transition ∈ record request world names, transition.after.cache other ≠ none →
      other ∈ names ∨ world.cache other ≠ none := by
  induction names generalizing world with
  | nil => nofun
  | cons domainName names ih =>
      intro transition hmem hcached
      obtain ⟨-, -, -, hcalm⟩ := calm_of_mem_requests hsound hample _ List.mem_cons_self
      unfold record request at hample hmem
      rw [Ample, List.forall_mem_cons] at hample
      rcases List.mem_cons.mp hmem with rfl | hlater
      · rcases hcalm.cached hcached with rfl | hbefore
        · exact .inl List.mem_cons_self
        · exact .inr hbefore
      · rcases ih (hcalm.sound hsound) hample.2 transition hlater hcached with hname | hbefore
        · exact .inl (List.mem_cons_of_mem _ hname)
        · rcases hcalm.cached hbefore with rfl | hstart
          · exact .inl List.mem_cons_self
          · exact .inr hstart

/-! ## What the flag makes of the cache -/

section

variable (cpus : AgentId δ → Cpu) (domains : Name → Option δ) (signpost : δ → Bool)
  (names : List Name)

omit [DecidableEq Name] [DecidableEq δ] in
theorem sound_start : Sound (World.start cpus domains signpost) := nofun

end

section

variable {cpus : AgentId δ → Cpu} {domains : Name → Option δ} {signpost : δ → Bool}
  {names : List Name}

theorem isDomain_before_iff
    (hample : Ample (record request (World.start cpus domains signpost) names))
    {transition : Request Name δ}
    (hmem : transition ∈ record request (World.start cpus domains signpost) names)
    {domainName : Name} {ns : δ} {flag : Bool} :
    transition.before.IsDomain domainName ns flag ↔
      domains domainName = some ns ∧ signpost ns = flag := by
  obtain ⟨-, hdomains, hsignpost, -⟩ :=
    calm_of_mem_requests (sound_start cpus domains signpost) hample transition hmem
  rw [World.IsDomain, hdomains, hsignpost]
  rfl

theorem isDomain_after_iff
    (hample : Ample (record request (World.start cpus domains signpost) names))
    {transition : Request Name δ}
    (hmem : transition ∈ record request (World.start cpus domains signpost) names)
    {domainName : Name} {ns : δ} {flag : Bool} :
    transition.after.IsDomain domainName ns flag ↔
      domains domainName = some ns ∧ signpost ns = flag := by
  obtain ⟨-, -, -, hcalm⟩ :=
    calm_of_mem_requests (sound_start cpus domains signpost) hample transition hmem
  rw [World.IsDomain, hcalm.domains, hcalm.signpost]
  exact isDomain_before_iff hample hmem

/-- The answer of a signpost would be kept. -/
theorem regular_of_cachesRegular
    (hample : Ample (record request (World.start cpus domains signpost) names))
    (hcaches : CachesRegular (record request (World.start cpus domains signpost) names))
    {domainName : Name} (hname : domainName ∈ names) {ns : δ}
    (hdomain : domains domainName = some ns) : signpost ns = false := by
  rw [← map_input_requests (World.start cpus domains signpost) names] at hname
  obtain ⟨transition, hmem, rfl⟩ := List.mem_map.mp hname
  obtain ⟨hsound, -, -, hcalm⟩ :=
    calm_of_mem_requests (sound_start cpus domains signpost) hample transition hmem
  rw [Bool.eq_false_iff]
  intro hother
  have hbefore := (isDomain_before_iff hample hmem).mpr ⟨hdomain, hother⟩
  have hafter := (isDomain_after_iff hample hmem).mpr ⟨hdomain, hother⟩
  obtain ⟨entry, hentry, hrr⟩ := hcalm.entry hsound hbefore.1
  rw [hcaches.signpost_uncached transition hmem _ ns entry hafter hentry, World.kept,
    hbefore.2] at hrr
  cases hrr

/-- The second request for a regular domain would ask its domain root again. -/
theorem count_of_cachesRegular
    (hample : Ample (record request (World.start cpus domains signpost) names))
    (hcaches : CachesRegular (record request (World.start cpus domains signpost) names))
    {domainName : Name} (hname : domainName ∈ names) {ns : δ}
    (hdomain : domains domainName = some ns) (hregular : signpost ns = false) :
    names.count domainName = 1 := by
  have hpositive : 1 ≤ names.count domainName := List.one_le_count_iff.mpr hname
  rcases Nat.lt_or_ge (names.count domainName) 2 with hless | htwice
  · omega
  · rw [← map_input_requests (World.start cpus domains signpost) names] at htwice
    obtain ⟨before, first, between, later, after, hrequests, rfl, hsame⟩ :=
      exists_two_of_count _ htwice
    have hfirst : first ∈ record request (World.start cpus domains signpost) names := by
      rw [hrequests]
      simp
    have hlater : later ∈ record request (World.start cpus domains signpost) names := by
      rw [hrequests]
      simp
    obtain ⟨-, -, -, hanswered⟩ :=
      calm_of_mem_requests (sound_start cpus domains signpost) hample first hfirst
    obtain ⟨hsound, -, -, hcalm⟩ :=
      calm_of_mem_requests (sound_start cpus domains signpost) hample later hlater
    have hok := hanswered.result ns
      ((isDomain_before_iff hample hfirst).mpr ⟨hdomain, hregular⟩).1
    have hbefore := (isDomain_before_iff hample hlater).mpr ⟨hsame ▸ hdomain, hregular⟩
    have hunused := (hcaches.regular_cached before first between later after hrequests hsame.symm
      hok ns hbefore).2
    exact absurd rfl (hunused _ (hcalm.asks hsound hbefore.1 hbefore.2))

/-- If no name comes up for which the flag matters, then it does no harm. -/
theorem cachesRegular_of_once
    (hample : Ample (record request (World.start cpus domains signpost) names))
    (hcondition : ∀ domainName ∈ names, ∀ ns, domains domainName = some ns →
      signpost ns = false ∧ names.count domainName = 1) :
    CachesRegular (record request (World.start cpus domains signpost) names) := by
  have hinputs := map_input_requests (World.start cpus domains signpost) names
  constructor
  · intro transition hmem domainName ns entry hdomain hentry
    rw [isDomain_after_iff hample hmem] at hdomain
    have hcached : transition.after.cache domainName ≠ none := by simp [hentry]
    rcases requested_of_cached (sound_start cpus domains signpost) hample transition hmem hcached
      with hname | hstart
    · have hregular := (hcondition domainName hname ns hdomain.1).1
      simp [hregular] at hdomain
    · exact absurd rfl hstart
  · intro transition hmem ns hdomain
    rw [isDomain_before_iff hample hmem] at hdomain
    have hname : transition.input ∈ names := hinputs ▸ List.mem_map_of_mem hmem
    have hregular := (hcondition transition.input hname ns hdomain.1).1
    simp [hregular] at hdomain
  · intro before first between later after hrequests hsame _ ns hdomain
    have hmem : later ∈ record request (World.start cpus domains signpost) names := by
      rw [hrequests]
      simp
    rw [isDomain_before_iff hample hmem] at hdomain
    have hname : later.input ∈ names := hinputs ▸ List.mem_map_of_mem hmem
    have honce := (hcondition later.input hname ns hdomain.1).2
    rw [← hinputs, hrequests] at honce
    simp only [List.map_append, List.map_cons, List.count_append, List.count_cons, hsame,
      beq_self_eq_true, if_true] at honce
    omega

end

/-- The cache keeps regular answers and no others exactly when it is of no use: no
domain of a signpost is requested, and no regular domain twice. -/
theorem cachesRegular_iff (cpus : AgentId δ → Cpu) (domains : Name → Option δ)
    (signpost : δ → Bool) (names : List Name)
    (hample : Ample (record request (World.start cpus domains signpost) names)) :
    CachesRegular (record request (World.start cpus domains signpost) names) ↔
      ∀ domainName ∈ names, ∀ ns, domains domainName = some ns →
        signpost ns = false ∧ names.count domainName = 1 := by
  constructor
  · intro hcaches domainName hname ns hdomain
    have hregular := regular_of_cachesRegular hample hcaches hname hdomain
    exact ⟨hregular, count_of_cachesRegular hample hcaches hname hdomain hregular⟩
  · exact cachesRegular_of_once hample

end

/-- Agents that have done nothing yet. -/
def idle (_agent : AgentId Unit) : Cpu := ⟨20, 0⟩

/-- There are two names, and others are not registered. -/
def registered (domainName : ℕ) : Option Unit :=
  if domainName = 7 ∨ domainName = 3 then some () else none

theorem cachesRegular_iff_once :
    CachesRegular (record request (World.start idle registered (fun _ => false)) [7, 9, 3, 9]) ↔
      ∀ domainName ∈ [7, 9, 3, 9], ∀ ns, registered domainName = some ns →
        false = false ∧ [7, 9, 3, 9].count domainName = 1 :=
  cachesRegular_iff idle registered (fun _ => false) [7, 9, 3, 9] (by decide)

/-- The answer for a signpost is kept in the cache. -/
theorem not_cachesRegular_signpost :
    ¬ ∀ (cpus : AgentId Unit → Cpu) (domains : ℕ → Option Unit) (signpost : Unit → Bool)
      (names : List ℕ), Ample (record request (World.start cpus domains signpost) names) →
        CachesRegular (record request (World.start cpus domains signpost) names) := by
  intro hclaim
  have hcaches := hclaim idle (fun _ => some ()) (fun _ => true) [7] (by decide)
  have hnone := hcaches.signpost_uncached _ List.mem_cons_self 7 () ⟨2, some (), some ⟨true⟩⟩
    ⟨rfl, rfl⟩ (by decide)
  cases hnone

end Signpost.Simulation

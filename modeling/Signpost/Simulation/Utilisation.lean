import Mathlib.Algebra.GroupWithZero.Nat
import Mathlib.Data.Finset.Card
import Signpost.Simulation.Load

/-! # The utilisation that a simulation reports

Whatever is drawn, and in whatever order resolvers and devices take their turns, the number
that is reported for an agent counts what it was asked for in the tick, it has answered as
much of that as it has CPU for, and the root server answers each resolver at most as often
as there are names that have been drawn.
-/

namespace Signpost.Simulation

open Machine

variable {Name δ ρ ι : Type}

/-! ## Agents of the whole simulation -/

inductive Party (ρ δ : Type)
  | resolver (resolver : ρ)
  | rootServer
  | domainRoot (domain : δ)
deriving DecidableEq

/-- The agent that is charged when a resolver asks. -/
def Party.of (resolver : ρ) : AgentId δ → Party ρ δ
  | .resolver => .resolver resolver
  | .rootServer => .rootServer
  | .domainRoot domain => .domainRoot domain

def Simulated.cpuOf (simulated : Simulated Name δ ρ ι) : Party ρ δ → Cpu
  | .resolver resolver => (simulated.resolvers resolver).cpu
  | .rootServer => simulated.rootServer
  | .domainRoot domain => simulated.domainRoots domain

abbrev SimulationStep (Name δ ρ ι : Type) :=
  Transition (Simulated Name δ ρ ι) (SimulationEvent Name ρ ι) (Charges δ ρ)

/-- What is counted since the last tick has started. -/
def sinceStart (count : Charges δ ρ → ℕ) (steps : List (SimulationStep Name δ ρ ι)) : ℕ :=
  steps.foldl (fun total step =>
    match step.input with
    | .startTick => 0
    | .resolverTick _ | .deviceTick _ _ => total + count step.output) 0

/-- A name that a device draws, and the resolver of the device. -/
def drawnBy (simulated : Simulated Name δ ρ ι) : SimulationEvent Name ρ ι → Option (ρ × Name)
  | .startTick | .resolverTick _ => none
  | .deviceTick device drawn => drawn.map fun domainName =>
      ((simulated.devices device).resolver, domainName)

section

variable {simulated : Simulated Name δ ρ ι} {resolver : ρ}
  {steps : List (SimulationStep Name δ ρ ι)} {last : SimulationStep Name δ ρ ι}

theorem Party.of_inj {resolver : ρ} {agent other : AgentId δ} :
    Party.of resolver agent = Party.of resolver other ↔ agent = other := by
  cases agent <;> cases other <;> simp [Party.of]

theorem cpuOf_of (resolver : ρ) (agent : AgentId δ) :
    simulated.cpuOf (Party.of resolver agent) = (simulated.view resolver).cpus agent := by
  cases agent <;> rfl

theorem cpuOf_startTick (party : Party ρ δ) :
    simulated.startTick.cpuOf party = { simulated.cpuOf party with tickCpu := 0 } := by
  cases party <;> rfl

theorem sinceStart_startTick (count : Charges δ ρ → ℕ) (hinput : last.input = .startTick) :
    sinceStart count (steps ++ [last]) = 0 := by
  simp [sinceStart, List.foldl_append, hinput]

theorem sinceStart_concat (count : Charges δ ρ → ℕ) (hinput : last.input ≠ .startTick) :
    sinceStart count (steps ++ [last]) = sinceStart count steps + count last.output := by
  rw [sinceStart, List.foldl_append]
  simp only [List.foldl_cons, List.foldl_nil]
  split
  next heq => exact absurd heq hinput
  all_goals rfl

end

variable [DecidableEq δ] [DecidableEq ρ]

def askedOf (party : Party ρ δ) (charges : Charges δ ρ) : ℕ :=
  charges.countP fun charge => Party.of charge.1 charge.2.agent = party

def answeredOf (party : Party ρ δ) (charges : Charges δ ρ) : ℕ :=
  charges.countP fun charge => Party.of charge.1 charge.2.agent = party ∧ charge.2.busy = false

/-- How often the root server has answered a resolver, in the whole simulation. -/
def rootAnswers (resolver : ρ) (steps : List (SimulationStep Name δ ρ ι)) : ℕ :=
  (steps.map fun step => step.output.countP fun charge =>
    charge = (resolver, ⟨.rootServer, false⟩)).sum

/-- The names that devices of the resolver have drawn. -/
def drawnFor (resolver : ρ) (steps : List (SimulationStep Name δ ρ ι)) : List Name :=
  steps.filterMap fun step => (drawnBy step.before step.input).bind fun drawn =>
    if drawn.1 = resolver then some drawn.2 else none

variable [DecidableEq Name]

/-! ## What a step does -/

/-- A resolver asks for some of the names that wait, for itself or for a device. -/
structure Asks (simulated next : Simulated Name δ ρ ι) (event : SimulationEvent Name ρ ι)
    (charges : Charges δ ρ) (resolver : ρ) (todo : List Name) : Prop where
  laws : ∃ entries world, charges = entries.map (fun charge => (resolver, charge)) ∧
    (∃ devices, next = { simulated with devices }.put resolver world) ∧
    ∀ law, OfTicks law → (∀ domainName ∈ todo, Action.Obeys law (resolve domainName)) →
      law (simulated.view resolver) entries world
  todo : ∀ domainName ∈ todo, domainName ∈ (simulated.resolvers resolver).pending ∨
    (∃ device, (simulated.devices device).resolver = resolver ∧
      domainName ∈ (simulated.devices device).pending) ∨
    drawnBy simulated event = some (resolver, domainName)
  devices : ∀ device, (next.devices device).resolver = (simulated.devices device).resolver ∧
    ∀ domainName ∈ (next.devices device).pending,
      domainName ∈ (simulated.devices device).pending ∨
        drawnBy simulated event = some ((simulated.devices device).resolver, domainName)

/-! ## Counting -/

section Counting

variable {simulated : Simulated Name δ ρ ι} {resolver : ρ} {entries : List (Charge δ)}
  {world : World Name δ} {devices : ι → Device Name ρ}

theorem askedOf_of (resolver : ρ) (agent : AgentId δ) (entries : List (Charge δ)) :
    askedOf (Party.of resolver agent) (entries.map fun charge => (resolver, charge)) =
      asked agent entries := by
  simp [askedOf, asked, List.countP_map, Function.comp_def, Party.of_inj]

theorem answeredOf_of (resolver : ρ) (agent : AgentId δ) (entries : List (Charge δ)) :
    answeredOf (Party.of resolver agent) (entries.map fun charge => (resolver, charge)) =
      answered agent entries := by
  simp [answeredOf, answered, List.countP_map, Function.comp_def, Party.of_inj]

omit [DecidableEq Name] [DecidableEq δ] in
theorem cpuOf_put_of (agent : AgentId δ) :
    ({ simulated with devices }.put resolver world).cpuOf (Party.of resolver agent) =
      world.cpus agent := by
  cases agent <;> simp [Simulated.cpuOf, Simulated.put, Party.of]

omit [DecidableEq δ] in
/-- An agent that a resolver asks, or another resolver. -/
theorem party_cases (resolver : ρ) (party : Party ρ δ) :
    (∃ agent, party = Party.of resolver agent) ∨
      ∃ other, other ≠ resolver ∧ party = .resolver other := by
  cases party with
  | resolver other =>
      by_cases heq : other = resolver
      · exact .inl ⟨.resolver, by rw [heq]; rfl⟩
      · exact .inr ⟨other, heq, rfl⟩
  | rootServer => exact .inl ⟨.rootServer, rfl⟩
  | domainRoot domain => exact .inl ⟨.domainRoot domain, rfl⟩

/-- Whoever asks, no other resolver is charged. -/
theorem count_other {other : ρ} (hother : other ≠ resolver) (entries : List (Charge δ)) :
    askedOf (.resolver other) (entries.map fun charge => (resolver, charge)) = 0 ∧
      answeredOf (.resolver other) (entries.map fun charge => (resolver, charge)) = 0 := by
  have hnot : ∀ agent : AgentId δ, Party.of resolver agent ≠ .resolver other := by
    intro agent
    cases agent <;> simp [Party.of, Ne.symm hother]
  constructor
  · simp [askedOf, List.countP_map, List.countP_eq_zero, hnot]
  · simp [answeredOf, List.countP_map, List.countP_eq_zero, hnot]

omit [DecidableEq Name] in
theorem rootAnswers_concat (resolver : ρ) (steps : List (SimulationStep Name δ ρ ι))
    (last : SimulationStep Name δ ρ ι) :
    rootAnswers resolver (steps ++ [last]) = rootAnswers resolver steps +
      last.output.countP fun charge => charge = (resolver, ⟨.rootServer, false⟩) := by
  simp [rootAnswers]

theorem countP_rootServer (resolver : ρ) (entries : List (Charge δ)) :
    ((entries.map fun charge => (resolver, charge)).countP fun charge =>
      charge = (resolver, ⟨.rootServer, false⟩)) = answered .rootServer entries := by
  rw [List.countP_map, answered]
  refine List.countP_congr fun charge _ => ?_
  obtain ⟨agent, busy⟩ := charge
  simp

theorem countP_rootServer_other {other : ρ} (hother : other ≠ resolver)
    (entries : List (Charge δ)) :
    ((entries.map fun charge => (resolver, charge)).countP fun charge =>
      charge = (other, ⟨.rootServer, false⟩)) = 0 := by
  simp [List.countP_map, List.countP_eq_zero, Ne.symm hother]

end Counting

/-! ## Every tick is metered -/

/-- What an agent was asked for since the tick has started is counted, and was answered as
far as its CPU goes. -/
structure Metered (start : Simulated Name δ ρ ι) (steps : List (SimulationStep Name δ ρ ι))
    (simulated : Simulated Name δ ρ ι) : Prop where
  cpu : ∀ party, (simulated.cpuOf party).cpu = (start.cpuOf party).cpu
  asked : ∀ party, (simulated.cpuOf party).tickCpu = sinceStart (askedOf party) steps
  answered : ∀ party, sinceStart (answeredOf party) steps =
    min (sinceStart (askedOf party) steps) (start.cpuOf party).cpu

section Runs

variable {start simulated next : Simulated Name δ ρ ι}
  {steps : List (SimulationStep Name δ ρ ι)} {last : SimulationStep Name δ ρ ι}
  {iodineOverhead : ℕ}

theorem Metered.asks {resolver : ρ} {todo : List Name} (hmetered : Metered start steps simulated)
    (hinput : last.input ≠ .startTick)
    (hasks : Asks simulated next last.input last.output resolver todo) :
    Metered start (steps ++ [last]) next := by
  obtain ⟨entries, world, hcharges, ⟨devices, rfl⟩, hlaws⟩ := hasks.laws
  have hbilled := hlaws Billed ofTicks_billed fun domainName _ => obeys_resolveWith 2 domainName
  have hparty : ∀ party, (({ simulated with devices }.put resolver world).cpuOf party).cpu =
        (simulated.cpuOf party).cpu ∧
      (({ simulated with devices }.put resolver world).cpuOf party).tickCpu =
        (simulated.cpuOf party).tickCpu + askedOf party last.output ∧
      answeredOf party last.output +
        min (simulated.cpuOf party).tickCpu (simulated.cpuOf party).cpu =
          min ((simulated.cpuOf party).tickCpu + askedOf party last.output)
            (simulated.cpuOf party).cpu := by
    intro party
    rw [hcharges]
    rcases party_cases resolver party with ⟨agent, rfl⟩ | ⟨other, hother, rfl⟩
    · rw [cpuOf_put_of, cpuOf_of resolver, askedOf_of, answeredOf_of,
        ← hbilled.tickCpu]
      exact ⟨hbilled.cpu agent, rfl, hbilled.answered agent⟩
    · obtain ⟨hasked, hanswered⟩ := count_other hother entries
      rw [hasked, hanswered, Nat.add_zero, Nat.zero_add]
      simp [Simulated.cpuOf, Simulated.put, Function.update_of_ne hother]
  refine ⟨fun party => (hparty party).1.trans (hmetered.cpu party), fun party => ?_,
    fun party => ?_⟩
  · rw [sinceStart_concat _ hinput, (hparty party).2.1, hmetered.asked]
  · have hold := hmetered.answered party
    have hnew := (hparty party).2.2
    rw [hmetered.asked, hmetered.cpu] at hnew
    rw [sinceStart_concat _ hinput, sinceStart_concat _ hinput]
    omega

omit [DecidableEq Name] in
theorem Metered.startTick (hmetered : Metered start steps simulated)
    (hinput : last.input = .startTick) : Metered start (steps ++ [last]) simulated.startTick := by
  refine ⟨fun party => ?_, fun party => ?_, fun party => ?_⟩
  · rw [cpuOf_startTick]
    exact hmetered.cpu party
  · rw [cpuOf_startTick, sinceStart_startTick _ hinput]
  · rw [sinceStart_startTick _ hinput, sinceStart_startTick _ hinput, Nat.zero_min]

/-! ## Names become known once -/

/-- The root server has told the resolver about some of the names, the other ones are not
known to it, and it is asked for no others. -/
structure Told (resolver : ρ) (names : Finset Name) (steps : List (SimulationStep Name δ ρ ι))
    (simulated : Simulated Name δ ρ ι) : Prop where
  root :
    rootAnswers resolver steps + unknown names (simulated.resolvers resolver).cache ≤ names.card
  pending : ∀ domainName ∈ (simulated.resolvers resolver).pending, domainName ∈ names
  devices : ∀ device, (simulated.devices device).resolver = resolver →
    ∀ domainName ∈ (simulated.devices device).pending, domainName ∈ names

variable {resolver : ρ} {names : Finset Name}

/-- Whatever is asked for waits already, or has just been drawn. -/
theorem Told.mem_todo {todo : List Name} (htold : Told resolver names steps simulated)
    (hdrawn : ∀ domainName, drawnBy simulated last.input = some (resolver, domainName) →
      domainName ∈ names)
    (hasks : Asks simulated next last.input last.output resolver todo) {domainName : Name}
    (hname : domainName ∈ todo) : domainName ∈ names := by
  rcases hasks.todo domainName hname with hwaits | ⟨device, hdevice, hwaits⟩ | hnew
  · exact htold.pending domainName hwaits
  · exact htold.devices device hdevice domainName hwaits
  · exact hdrawn domainName hnew

theorem Told.mem_devices {asking : ρ} {todo : List Name}
    (htold : Told resolver names steps simulated)
    (hdrawn : ∀ domainName, drawnBy simulated last.input = some (resolver, domainName) →
      domainName ∈ names)
    (hasks : Asks simulated next last.input last.output asking todo) :
    ∀ device, (next.devices device).resolver = resolver →
      ∀ domainName ∈ (next.devices device).pending, domainName ∈ names := by
  intro device hdevice domainName hname
  obtain ⟨hsame, hpending⟩ := hasks.devices device
  rw [hsame] at hdevice
  rcases hpending domainName hname with hold | hnew
  · exact htold.devices device hdevice domainName hold
  · exact hdrawn domainName (hdevice ▸ hnew)

theorem Told.asks {asking : ρ} {todo : List Name} (htold : Told resolver names steps simulated)
    (hdrawn : ∀ domainName, drawnBy simulated last.input = some (resolver, domainName) →
      domainName ∈ names)
    (hasks : Asks simulated next last.input last.output asking todo) :
    Told resolver names (steps ++ [last]) next := by
  have hdevices := htold.mem_devices hdrawn hasks
  obtain ⟨entries, world, hcharges, ⟨devices, rfl⟩, hlaws⟩ := hasks.laws
  by_cases hasking : asking = resolver
  · subst hasking
    have hlearned := hlaws (Learned names) (ofTicks_learned names)
      fun domainName hname => learns_resolveWith (htold.mem_todo hdrawn hasks hname) 2
    have hresolver : ({ simulated with devices }.put asking world).resolvers asking =
        ⟨world.cpus .resolver, world.cache, world.pending⟩ := Function.update_self ..
    refine ⟨?_, fun domainName hname => ?_, hdevices⟩
    -- each answer of the root server has made a name known
    · have hroot := htold.root
      have hnew : answered .rootServer entries + unknown names world.cache ≤
          unknown names (simulated.resolvers asking).cache := hlearned.root
      rw [rootAnswers_concat, hcharges, countP_rootServer, hresolver]
      dsimp only
      omega
    · rw [hresolver] at hname
      rcases hlearned.pending domainName hname with hwaits | hnames
      · exact htold.pending domainName hwaits
      · exact hnames
  -- another resolver asks, and neither the count nor the cache is touched
  · have hresolver : ({ simulated with devices }.put asking world).resolvers resolver =
        simulated.resolvers resolver := Function.update_of_ne (Ne.symm hasking) ..
    refine ⟨?_, ?_, hdevices⟩
    · rw [rootAnswers_concat, hcharges, countP_rootServer_other (Ne.symm hasking), hresolver]
      exact htold.root
    · rw [hresolver]
      exact htold.pending

omit [DecidableEq Name] in
theorem Told.startTick (htold : Told resolver names steps simulated) (houtput : last.output = []) :
    Told resolver names (steps ++ [last]) simulated.startTick := by
  refine ⟨?_, htold.pending, htold.devices⟩
  rw [rootAnswers_concat, houtput]
  exact htold.root

end Runs

/-! ## Every simulation -/

variable [DecidableEq ι]

section Steps

variable {iodineOverhead : ℕ} {simulated next : Simulated Name δ ρ ι} {charges : Charges δ ρ}

omit [DecidableEq δ] [DecidableEq Name] [DecidableEq ι] in
theorem finish_eq_ok {resolver : ρ} {effect : Effect (World Name δ) (Charge δ) Exn Unit}
    (hok : simulated.finish resolver effect = .ok (next, charges)) :
    next = simulated.put resolver effect.world ∧
      charges = effect.entries.map fun charge => (resolver, charge) := by
  unfold Simulated.finish at hok
  split at hok
  next =>
    obtain ⟨rfl, rfl⟩ := Prod.mk.inj (Except.ok.inj hok)
    exact ⟨rfl, rfl⟩
  next => cases hok

/-- A resolver asks again for what has been waiting since it was too busy. -/
theorem asks_resolverTick {resolver : ρ}
    (hstep : simulated.step iodineOverhead (.resolverTick resolver) = .ok (next, charges)) :
    Asks simulated next (.resolverTick resolver) charges resolver
      (simulated.resolvers resolver).pending := by
  obtain ⟨rfl, rfl⟩ := finish_eq_ok hstep
  exact ⟨⟨_, _, rfl, ⟨simulated.devices, rfl⟩, fun law hlaw hresolve => hlaw.tick hresolve⟩,
    fun _ hname => .inl hname, fun device => ⟨rfl, fun _ hname => .inl hname⟩⟩

/-- A device asks for what it has drawn, and for what has been waiting. -/
theorem asks_deviceTick {device : ι} {drawn : Option Name}
    (hstep : simulated.step iodineOverhead (.deviceTick device drawn) = .ok (next, charges)) :
    Asks simulated next (.deviceTick device drawn) charges (simulated.devices device).resolver
      (drawn.toList ++ (simulated.devices device).pending) := by
  obtain ⟨-, -, -, -, -, hpending⟩ := deviceTick_eq iodineOverhead (simulated.devices device)
    drawn (simulated.view (simulated.devices device).resolver)
  have hdrawn : ∀ domainName ∈ drawn.toList, drawnBy simulated (.deviceTick device drawn) =
      some ((simulated.devices device).resolver, domainName) := by
    intro domainName hname
    rw [Option.mem_toList.mp hname]
    rfl
  obtain ⟨rfl, rfl⟩ := finish_eq_ok hstep
  refine ⟨⟨_, _, rfl, ⟨_, rfl⟩, fun law hlaw hresolve => hlaw.deviceTick hresolve iodineOverhead⟩,
    fun domainName hname => ?_, fun other => ?_⟩
  · rcases List.mem_append.mp hname with hname | hname
    · exact .inr (.inr (hdrawn domainName hname))
    · exact .inr (.inl ⟨device, rfl, hname⟩)
  · by_cases hother : other = device
    · subst hother
      simp only [Simulated.put, Simulated.setPending, Function.update_self, true_and]
      intro domainName hname
      rcases List.mem_append.mp (hpending hname) with hname | hname
      · exact .inr (hdrawn domainName hname)
      · exact .inl hname
    · simp only [Simulated.put, Simulated.setPending, Function.update_of_ne hother, true_and]
      exact fun _ hname => .inl hname

theorem step_cases {event : SimulationEvent Name ρ ι}
    (hstep : simulated.step iodineOverhead event = .ok (next, charges)) :
    (event = .startTick ∧ next = simulated.startTick ∧ charges = []) ∨
      event ≠ .startTick ∧ ∃ resolver todo, Asks simulated next event charges resolver todo := by
  cases event with
  | startTick =>
      obtain ⟨rfl, rfl⟩ := Prod.mk.inj (Except.ok.inj hstep)
      exact .inl ⟨rfl, rfl, rfl⟩
  | resolverTick resolver => exact .inr ⟨by simp, _, _, asks_resolverTick hstep⟩
  | deviceTick device drawn => exact .inr ⟨by simp, _, _, asks_deviceTick hstep⟩

end Steps

section

variable {iodineOverhead : ℕ} {start simulated : Simulated Name δ ρ ι}
  {steps : List (SimulationStep Name δ ρ ι)}

theorem metered_of_run (hstart : ∀ party, (start.cpuOf party).tickCpu = 0)
    (hrun : Run (Simulated.step iodineOverhead) start steps simulated) :
    Metered start steps simulated := by
  induction hrun with
  | start => exact ⟨fun _ => rfl, fun party => hstart party, fun _ => (Nat.zero_min _).symm⟩
  | extend prior hstep ih =>
      rcases step_cases hstep with ⟨hevent, rfl, -⟩ | ⟨hevent, resolver, todo, hasks⟩
      · exact ih.startTick hevent
      · exact ih.asks hevent hasks

omit [DecidableEq δ] [DecidableEq Name] [DecidableEq ι] in
theorem drawnFor_concat (resolver : ρ) (steps : List (SimulationStep Name δ ρ ι))
    (last : SimulationStep Name δ ρ ι) :
    drawnFor resolver (steps ++ [last]) = drawnFor resolver steps ++ drawnFor resolver [last] :=
  List.filterMap_append ..

theorem told_of_run {resolver : ρ} {names : Finset Name}
    (hcache : (start.resolvers resolver).cache = fun _ => none)
    (hpending : (start.resolvers resolver).pending = [])
    (hdevices : ∀ device, (start.devices device).pending = [])
    (hdrawn : ∀ domainName ∈ drawnFor resolver steps, domainName ∈ names)
    (hrun : Run (Simulated.step iodineOverhead) start steps simulated) :
    Told resolver names steps simulated := by
  induction hrun with
  | start =>
      refine ⟨?_, by simp [hpending], fun device _ => by simp [hdevices]⟩
      simp [rootAnswers, unknown, hcache]
  | @extend steps simulated next event charges prior hstep ih =>
      rw [drawnFor_concat] at hdrawn
      have htold := ih fun domainName hname => hdrawn domainName (List.mem_append_left _ hname)
      rcases step_cases hstep with ⟨-, rfl, rfl⟩ | ⟨-, asking, todo, hasks⟩
      · exact htold.startTick rfl
      · refine htold.asks (fun domainName hname => ?_) hasks
        apply hdrawn domainName
        apply List.mem_append_right
        simp [drawnFor, hname]

/-- In every tick, each agent has answered what it was asked for as far as its CPU goes, and
in the whole simulation the root server answers a resolver at most as often as its devices
have drawn different names. -/
theorem load_of_run {rootServer : ℕ} {domainRoots : δ → ℕ} {resolvers : ρ → ℕ}
    {domains : Name → Option δ} {signpost : δ → Bool} {devices : ι → Device Name ρ}
    (hrun : Run (Simulated.step iodineOverhead)
      (Simulated.start rootServer domainRoots resolvers domains signpost devices) steps simulated) :
    Metered (Simulated.start rootServer domainRoots resolvers domains signpost devices) steps
        simulated ∧
      ∀ resolver, rootAnswers resolver steps ≤ (drawnFor resolver steps).toFinset.card := by
  constructor
  · refine metered_of_run (fun party => ?_) hrun
    cases party <;> rfl
  · intro resolver
    have htold : Told resolver (drawnFor resolver steps).toFinset steps simulated :=
      told_of_run rfl rfl (fun _ => rfl) (fun _ hname => List.mem_toFinset.mpr hname) hrun
    have hroot := htold.root
    omega

end

/-- Two devices share a resolver, and ask twice for the same name. -/
def twoDevices : Simulated ℕ Unit Unit Bool :=
  .start 100 (fun _ => 20) (fun _ => 20) (fun _ => some ()) (fun _ => false)
    fun _ => ⟨(), false, false, []⟩

def sharedEvents : List (SimulationEvent ℕ Unit Bool) :=
  [.startTick, .resolverTick (), .deviceTick false (some 7), .deviceTick true (some 7), .startTick,
    .deviceTick false (some 7)]

theorem load_of_run_shared :
    Metered twoDevices (record (Simulated.step 10) twoDevices sharedEvents)
        (final (Simulated.step 10) twoDevices sharedEvents) ∧
      ∀ resolver, rootAnswers resolver (record (Simulated.step 10) twoDevices sharedEvents) ≤
        (drawnFor resolver (record (Simulated.step 10) twoDevices sharedEvents)).toFinset.card :=
  load_of_run (run_record _ _ sharedEvents)

end Signpost.Simulation

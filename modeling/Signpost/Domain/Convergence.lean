import Mathlib.Tactic.IntervalCases
import Signpost.Domain.News
import Signpost.Flood.Spreading

/-! # Convergence of truths across signposts

The duplicate check of a signpost remembers messages by their content for 30
seconds. A truth that changes back within that time is therefore dropped by
every signpost that still remembers its earlier message, and a signpost that has
forgotten a message too early takes an outdated copy. In runs in which neither
happens, all signposts end up with the last truth of the origin.
-/

namespace Signpost.Domain

open Bloom Flood Flood.Channels Machine Solver

variable {α δ : Type}

/-- When nothing is in flight, the table of every other signpost that has
processed what it received holds the value of the origin's last provision. -/
def Converged (graph : Graph) (origin : String) (k : TruthKey) (steps : List (DomainStep α δ))
    (state : State α δ) : Prop :=
  state.net.wires.Quiet → ∀ row, lastProvision origin k steps = some row → ∀ node ∈ graph.nodes,
    node ≠ origin → state.inboxes node = [] →
      ∃ truth ∈ (state.solvers node).truths, truth.key = k ∧ truth.truth = row.truth

/-- The key is provided by the origin only, with positive TTLs, and what other
signposts hold of it is unexpired whenever they read the clock. -/
structure Lasting (origin : String) (k : TruthKey) (steps : List (DomainStep α δ)) : Prop where
  only_origin : ∀ node, node ≠ origin → ∀ provided ∈ localProvisions node steps, provided.1.key ≠ k
  positive : ∀ provided ∈ localProvisions origin steps, provided.1.key = k →
    ∃ ttl, provided.1.ttl = some ttl ∧ 0 < ttl
  unexpired : ∀ step ∈ steps, ∀ node, node ≠ origin → ∀ now, step.input.reading node = some now →
    ∀ truth ∈ (step.before.solvers node).truths, truth.key = k → ttlIsValid now truth = true

/-! ## Holding the last truth received -/

/-- The last truth of the key that a signpost has received waits in its inbox, or
it is in its table. -/
def Holds (k : TruthKey) (inbox : List (Provision α)) (solver : Solver.State α)
    (row : Provision α) : Prop :=
  latest Provision.key inbox k = some row ∨
    latest Provision.key inbox k = none ∧ ∃ truth ∈ solver.truths, truth.fact = row.fact

section Holds

variable {k : TruthKey} {inbox : List (Provision α)} {solver next : Solver.State α}
  {row : Provision α} {name : String} {batch : Batch α} {solved : Solver.Output α}

theorem Holds.received (hholds : Holds k inbox solver row) {external : List (Provision α)}
    (hsame : ∀ other ∈ external, other.key = k → other = row) :
    Holds k (inbox ++ external) solver row := by
  rw [Holds, latest_append]
  cases hlatest : latest Provision.key external k with
  | none => exact hholds
  | some other =>
      obtain ⟨hmem, hkey⟩ := mem_of_latest hlatest
      exact Or.inl (congrArg some (hsame other hmem hkey))

/-- A timestep that takes the oldest truths from the inbox, or others that are
not of the key, keeps the last one. -/
theorem Holds.timestep (hholds : Holds k inbox solver row)
    (hfires : Fires name solver batch next solved) (hkey : row.key = k)
    (hpositive : ∃ ttl, row.ttl = some ttl ∧ 0 < ttl)
    (hunexpired : ∀ truth ∈ solver.truths, truth.key = k → ttlIsValid batch.now truth = true)
    {rest : List (Provision α)} (htaken : latest Provision.key inbox k =
      (latest Provision.key rest k).or (latest Provision.key batch.provided k)) :
    Holds k rest next row := by
  cases hrest : latest Provision.key rest k with
  | some other =>
      rw [hrest, Option.some_or] at htaken
      rcases hholds with hlatest | ⟨hnone, _⟩
      · exact Or.inl (hrest.trans (htaken.symm.trans hlatest))
      · cases hnone.symm.trans htaken
  | none =>
      rw [hrest, Option.none_or] at htaken
      refine Or.inr ⟨hrest, ?_⟩
      -- either the last truth is taken from the inbox now, or its row has to stay
      rcases hholds with hlatest | ⟨hnone, truth, htruth, hfact⟩
      · obtain ⟨hmem, _⟩ := mem_of_latest (htaken.symm.trans hlatest)
        obtain ⟨ttl, httl, hpos⟩ := hpositive
        obtain ⟨truth, hstored⟩ : ∃ truth, storedRow batch.now row = some truth := by
          simp [storedRow, httl, hpos]
        refine ⟨truth, (hfires.mem_truths truth).mpr (Or.inl ?_),
          (storedRow_eq_some_iff.mp hstored).1⟩
        exact List.mem_filterMap.mpr ⟨row, hmem, hstored⟩
      · have htruthKey : truth.key = k := (congrArg Fact.key hfact).trans hkey
        refine ⟨truth,
          hfires.mem_truths_of_mem (hunexpired truth htruth htruthKey) ?_ htruth, hfact⟩
        intro update hupdate hupdateKey
        obtain ⟨provided, hprovided, hstored⟩ := List.mem_filterMap.mp hupdate
        apply latest_eq_none_iff.mp (htaken.symm.trans hnone) provided hprovided
        exact (key_of_storedRow hstored).symm.trans (hupdateKey.trans htruthKey)

end Holds

/-! ## Every step -/

/-- The last truth of the origin spreads, and who has taken it holds it. -/
structure Converging (graph : Graph) (origin : String) (k : TruthKey) (news : News α)
    (state : State α δ) : Prop where
  provision : ∀ row, news.provision = some row → row.key = k ∧ ∃ ttl, row.ttl = some ttl ∧ 0 < ttl
  spreading : ∀ row, news.provision = some row → Spreading graph.Linked origin (message row)
    (fun node => node ∈ news.taken) state.net.wires
  holds : ∀ row, news.provision = some row → ∀ node ∈ news.taken, node ≠ origin →
    Holds k (state.inboxes node) (state.solvers node) row

namespace Converging

variable {graph : Graph} {digest : Data α → δ} {origin : String} {k : TruthKey} {news : News α}
  {state next : State α δ} {output : Output α} {row : Provision α}

/-- A known message is dropped. -/
theorem drop (hconverging : Converging graph origin k news state) {sender receiver : String}
    {data : Data α} {rest : List (Data α)} (hhead : state.net.wires sender receiver = data :: rest)
    (hsolvers : next.solvers = state.solvers) (hinboxes : next.inboxes = state.inboxes)
    (hwires : next.net.wires = state.net.wires.take sender receiver)
    (hknown : receiver ≠ origin → ∀ row, news.provision = some row → message row = data →
      receiver ∈ news.taken) :
    Converging graph origin k news next where
  provision := hconverging.provision
  spreading := fun row hrow => hwires ▸ (hconverging.spreading row hrow).take hhead
    fun hreceiver heq => hknown hreceiver row hrow heq
  holds := hsolvers ▸ hinboxes ▸ hconverging.holds

/-- A message arrives that is not the last truth of the origin. -/
theorem pass (hconverging : Converging graph origin k news state) {sender receiver : String}
    {data : Data α} {rest : List (Data α)} {external : List (Provision α)}
    (hhead : state.net.wires sender receiver = data :: rest)
    (hsolvers : next.solvers = state.solvers)
    (hinboxes : next.inboxes =
      Function.update state.inboxes receiver (state.inboxes receiver ++ external))
    (hwires : next.net.wires = (state.net.wires.take sender receiver).send receiver
      ((graph.neighbours receiver).filter fun name => name ≠ sender) data)
    (hother : ∀ row, news.provision = some row → message row ≠ data)
    (houtdated : receiver ≠ origin → receiver ∈ news.taken → ∀ row ∈ external, row.key ≠ k) :
    Converging graph origin k news next := by
  constructor
  case provision => exact hconverging.provision
  case spreading =>
    intro row hrow
    rw [hwires]
    exact (hconverging.spreading row hrow).bypass hhead (hother row hrow)
  case holds =>
    intro row hrow node hnode horigin
    have hholds := hconverging.holds row hrow node hnode horigin
    rw [hsolvers, hinboxes]
    -- a signpost that has the last truth takes no other one of the key
    by_cases heq : node = receiver
    · subst heq
      rw [Function.update_self]
      exact hholds.received fun other hmem hkey => absurd hkey (houtdated horigin hnode other hmem)
    · rw [Function.update_of_ne heq]
      exact hholds

/-- The last truth of the origin arrives at a signpost that takes it. -/
theorem receive (hconverging : Converging graph origin k news state) {sender receiver : String}
    {rest : List (Data α)} (hlast : news.provision = some row)
    (hhead : state.net.wires sender receiver = message row :: rest)
    (hsolvers : next.solvers = state.solvers)
    (hinboxes : next.inboxes =
      Function.update state.inboxes receiver (state.inboxes receiver ++ [row]))
    (hwires : next.net.wires = (state.net.wires.take sender receiver).send receiver
      ((graph.neighbours receiver).filter fun name => name ≠ sender) (message row)) :
    Converging graph origin k { news with taken := receiver :: news.taken } next := by
  constructor
  case provision => exact hconverging.provision
  case spreading =>
    intro other hother
    obtain rfl := Option.some.inj (hlast.symm.trans hother)
    rw [hwires]
    refine ((hconverging.spreading row hlast).forward hhead fun next hlink hnext => ?_).congr
      fun node _ => ?_
    · exact List.mem_filter.mpr ⟨hlink, decide_eq_true hnext⟩
    · rw [List.mem_cons, or_comm]
  case holds =>
    intro other hother node hnode horigin
    obtain rfl := Option.some.inj (hlast.symm.trans hother)
    rw [hsolvers, hinboxes]
    by_cases heq : node = receiver
    · subst heq
      rw [Function.update_self, Holds, latest_append]
      simp [latest, (hconverging.provision row hlast).1]
    · rw [Function.update_of_ne heq]
      exact hconverging.holds row hlast node ((List.mem_cons.mp hnode).resolve_left heq) horigin

variable [DecidableEq α] [DecidableEq δ]

/-- A timestep keeps what is news, at another signpost when it provides nothing
under the key. -/
theorem timestep (hconverging : Converging graph origin k news state) {node : String}
    {before : State α δ} {batch : Batch α}
    (hok : solve graph digest before node batch = .ok (next, output))
    (hnet : before.net = state.net) (hsolvers : before.solvers = state.solvers)
    (hinboxes : ∀ other, other ≠ node → before.inboxes other = state.inboxes other)
    (hprovides : node ≠ origin → ∀ row ∈ batch.provideTruth, row.key ≠ k)
    (hunexpired : node ≠ origin → ∀ truth ∈ (state.solvers node).truths, truth.key = k →
      ttlIsValid batch.now truth = true)
    (htaken : node ≠ origin → latest Provision.key (state.inboxes node) k =
      (latest Provision.key (before.inboxes node) k).or (latest Provision.key batch.provided k)) :
    Converging graph origin k news next := by
  obtain ⟨solver, solved, hfires, hsolver, hinbox, hwires, hsent⟩ := solve_cases hok
  constructor
  case provision => exact hconverging.provision
  case spreading =>
    intro row hrow
    rw [hwires, hnet]
    apply (hconverging.spreading row hrow).sendAll
    intro hmem
    rw [hsent, mem_outgoing_truth, hfires.mem_distributed] at hmem
    by_cases hnode : node = origin
    · exact Or.inl hnode
    · exact absurd (hconverging.provision row hrow).1 (hprovides hnode row hmem)
  case holds =>
    intro row hrow other hother horigin
    have hholds := hconverging.holds row hrow other hother horigin
    obtain ⟨hkey, hpositive⟩ := hconverging.provision row hrow
    rw [hinbox, hsolver, hsolvers]
    by_cases heq : other = node
    · subst heq
      rw [Function.update_self]
      rw [hsolvers] at hfires
      exact hholds.timestep hfires hkey hpositive (hunexpired horigin) (htaken horigin)
    · rw [Function.update_of_ne heq, hinboxes other heq]
      exact hholds

/-- The origin provides a truth of which no copy is in flight. -/
theorem provide (hfresh : ¬ state.net.wires.InFlight (message row)) {batch : Batch α}
    (hok : solve graph digest state origin batch = .ok (next, output))
    (hrow : row ∈ batch.provideTruth) (hkey : row.key = k)
    (hpositive : ∃ ttl, row.ttl = some ttl ∧ 0 < ttl) :
    Converging graph origin k { provision := some row } next := by
  obtain ⟨solver, solved, hfires, hsolver, hinbox, hwires, hsent⟩ := solve_cases hok
  constructor
  case provision =>
    rintro _ ⟨⟩
    exact ⟨hkey, hpositive⟩
  case spreading =>
    rintro _ ⟨⟩
    rw [hwires]
    refine (Spreading.startAll ?_ hfresh fun _ hnext _ => hnext).congr fun node _ => ?_
    · rw [hsent, mem_outgoing_truth, hfires.mem_distributed]
      exact hrow
    · simp
  case holds =>
    rintro _ _ node hnode
    cases hnode

/-- A message arrives. -/
theorem deliver (hconverging : Converging graph origin k news state) {sender receiver : String}
    {now : Int} {out : Outgoing α} {rest : List (Data α)}
    (hhead : state.net.wires sender receiver = out.data :: rest)
    (hdeliver : Domain.deliver graph digest state sender receiver now out.data = (next, output))
    (htells : TellsNews digest origin k news ⟨state, .deliver sender receiver now, output, next⟩) :
    Converging graph origin k (news.after origin k
      ⟨state, .deliver sender receiver now, output, next⟩) next := by
  obtain ⟨received, rfl, hsolvers, hinboxes, hcases⟩ := deliver_cases (spreads_data out) hdeliver
  simp only [News.after, Option.elim_some, News.receive]
  rcases hcases with ⟨hremembers, hexternal, hwires⟩ | ⟨hnew, hexternal, hwires⟩
  · rw [hexternal, List.append_nil, Function.update_eq_self] at hinboxes
    rw [hexternal, if_neg (by simp)]
    apply hconverging.drop hhead hsolvers hinboxes hwires
    intro hreceiver row hlast heq
    rw [← heq] at hhead hremembers
    exact htells.known sender receiver now row rest rfl hreceiver hhead hlast hremembers
  · cases out with
    | truth row =>
        change received.external = [row] at hexternal
        rw [hexternal] at hinboxes ⊢
        by_cases hlast : news.provision = some row
        · rw [if_pos ⟨row, List.mem_cons_self, hlast⟩]
          exact hconverging.receive hlast hhead hsolvers hinboxes hwires
        · rw [if_neg (by simpa using hlast)]
          refine hconverging.pass hhead hsolvers hinboxes hwires ?_ ?_
          · exact fun other hother heq => hlast (message_inj.mp heq ▸ hother)
          · intro hreceiver htaken other hother hkey
            obtain rfl := List.mem_singleton.mp hother
            exact hnew (htells.outdated sender receiver now other rest rfl hreceiver hhead hkey
              hlast htaken)
    | resolve query =>
        change received.external = [] at hexternal
        rw [hexternal] at hinboxes ⊢
        rw [if_neg (by simp)]
        refine hconverging.pass hhead hsolvers hinboxes hwires ?_ ?_
        · rintro row _ ⟨⟩
        · exact fun _ _ row hrow => absurd hrow List.not_mem_nil

end Converging

/-! ## Every run -/

variable {graph : Graph} {digest : Data α → δ} {signpostDomain : String} {ofString : String → α}
  {start : Int} {steps : List (DomainStep α δ)} {state : State α δ} {origin : String} {k : TruthKey}

theorem Lasting.subset {others : List (DomainStep α δ)} (hlasting : Lasting origin k steps)
    (hsub : others ⊆ steps) : Lasting origin k others := by
  have hlocal : ∀ node, localProvisions node others ⊆ localProvisions node steps := by
    intro node provided hprovided
    obtain ⟨step, hstep, hmem⟩ := List.mem_flatMap.mp hprovided
    exact List.mem_flatMap.mpr ⟨step, hsub hstep, hmem⟩
  constructor
  case only_origin =>
    exact fun node hnode provided hmem =>
      hlasting.only_origin node hnode provided (hlocal node hmem)
  case positive => exact fun provided hmem => hlasting.positive provided (hlocal origin hmem)
  case unexpired => exact fun step hstep => hlasting.unexpired step (hsub hstep)

variable [DecidableEq α] [DecidableEq δ]

/-- A timestep on local messages. -/
theorem converging_solve {news : News α} {node : String} {batch : Batch α} {next : State α δ}
    {output : Output α} (hconverging : Converging graph origin k news state)
    (hok : step graph digest state (.solve node batch) = .ok (next, output))
    (hlasting : Lasting origin k [⟨state, .solve node batch, output, next⟩])
    (htells : TellsNews digest origin k news ⟨state, .solve node batch, output, next⟩) :
    Converging graph origin k (news.after origin k ⟨state, .solve node batch, output, next⟩)
      next := by
  obtain ⟨_, hexternal, hsolved⟩ := step_solve hok
  have hprovided : batch.provided = batch.provideTruth := by
    rw [Batch.provided, hexternal, List.nil_append]
  have hlocal : localProvisions node [(⟨state, .solve node batch, output, next⟩ : DomainStep α δ)] =
      batch.provideTruth.map (·, batch.now) := by
    simp [localProvisions, Event.localProvisions]
  have hprovides : node ≠ origin → ∀ row ∈ batch.provideTruth, row.key ≠ k := by
    intro hnode row hrow
    apply hlasting.only_origin node hnode (row, batch.now)
    rw [hlocal]
    exact List.mem_map.mpr ⟨row, hrow, rfl⟩
  have hkept : Converging graph origin k news next := by
    refine hconverging.timestep hsolved rfl rfl (fun _ _ => rfl) hprovides ?_ ?_
    · intro hnode
      exact hlasting.unexpired _ List.mem_cons_self node hnode batch.now
        (by simp [Event.reading])
    · intro hnode
      rw [hprovided, latest_eq_none_iff.mpr (hprovides hnode), Option.or_none]
  simp only [News.after]
  by_cases hnode : node = origin
  · subst hnode
    rw [if_pos rfl]
    by_cases hrow : ∃ row ∈ batch.provideTruth, row.key = k
    · obtain ⟨row, hrow, hkey⟩ := hrow
      obtain ⟨_, _, hfires, _⟩ := solve_cases hsolved
      rw [News.provideAll (hprovided ▸ hfires.keys_functional.provided) hrow hkey]
      by_cases hlast : news.provision = some row
      · rwa [News.provide_last hlast]
      · rw [News.provide_new hkey hlast]
        apply Converging.provide (htells.fresh batch rfl row hrow hkey hlast) hsolved hrow hkey
        refine hlasting.positive (row, batch.now) ?_ hkey
        rw [hlocal]
        exact List.mem_map.mpr ⟨row, hrow, rfl⟩
    · rwa [News.provideAll_of_ne fun row hmem hkey => hrow ⟨row, hmem, hkey⟩]
  · rwa [if_neg hnode]

/-- A timestep on a received truth. -/
theorem converging_external {news : News α} {node : String} {timer : Bool} {now : Int}
    {next : State α δ} {output : Output α} (hconverging : Converging graph origin k news state)
    (hok : step graph digest state (.external node timer now) = .ok (next, output))
    (hlasting : Lasting origin k [⟨state, .external node timer now, output, next⟩]) :
    Converging graph origin k news next := by
  obtain ⟨row, rest, hinbox, hsolved⟩ := step_external hok
  refine hconverging.timestep hsolved rfl rfl ?_ ?_ ?_ ?_
  · exact fun other hother => Function.update_of_ne hother _ _
  · exact fun _ row hrow => absurd hrow List.not_mem_nil
  · intro hnode
    exact hlasting.unexpired _ List.mem_cons_self node hnode now (by simp [Event.reading])
  · intro _
    rw [hinbox, ← List.singleton_append, latest_append]
    simp [State.setInbox, externalBatch, Batch.provided]

/-- In runs in which the duplicate checks tell news from what is not, the last
truth of the origin spreads. -/
theorem converging_of_run (hrun : DomainRun graph digest signpostDomain ofString start steps state)
    (hlasting : Lasting origin k steps) (htells : AllTellNews digest origin k steps) :
    Converging graph origin k (newsOf origin k steps) state := by
  induction hrun with
  | start => constructor <;> rintro _ ⟨⟩
  | @extend steps state next event output prior hok ih =>
      have hconverging := ih (hlasting.subset (List.subset_append_left _ _))
        fun before step hinitial => htells before step (hinitial.trans (List.prefix_append _ _))
      have hlast := htells steps ⟨state, event, output, next⟩ (List.prefix_refl _)
      have hnow := hlasting.subset (List.subset_append_right steps [⟨state, event, output, next⟩])
      rw [newsOf_append]
      cases event with
      | solve node batch => exact converging_solve hconverging hok hnow hlast
      | external node timer now => exact converging_external hconverging hok hnow
      | deliver sender receiver now =>
          obtain ⟨data, rest, hhead, hdeliver⟩ := step_deliver hok
          obtain ⟨_, _, out, rfl⟩ := sent_of_wire prior (hhead ▸ List.mem_cons_self)
          exact hconverging.deliver hhead hdeliver hlast
      | pruneBroadcastCache node now =>
          obtain ⟨rfl, _⟩ := Prod.mk.inj (Except.ok.inj hok)
          exact ⟨hconverging.provision, hconverging.spreading, hconverging.holds⟩

/-- In runs in which the duplicate checks tell news from what is not, all
signposts end up with the last truth of the origin. -/
theorem converged_of_tellNews (hconnected : graph.Connected) (horigin : origin ∈ graph.nodes)
    (hrun : DomainRun graph digest signpostDomain ofString start steps state)
    (hlasting : Lasting origin k steps) (htells : AllTellNews digest origin k steps) :
    Converged graph origin k steps state := by
  intro hquiet row hlast node hnode hother hinbox
  rw [← newsOf_provision] at hlast
  have hconverging := converging_of_run hrun hlasting htells
  have htaken := ((hconverging.spreading row hlast).complete hquiet
    (hconnected origin horigin node hnode)).resolve_left hother
  have hholds := hconverging.holds row hlast node htaken hother
  rw [hinbox] at hholds
  rcases hholds with hnone | ⟨_, truth, htruth, hfact⟩
  · cases hnone
  · refine ⟨truth, htruth, ?_, congrArg Fact.truth hfact⟩
    exact (congrArg Fact.key hfact).trans (hconverging.provision row hlast).1

/-! ## A truth that changes back -/

/-- Alpha changes its truth, and changes it back while beta remembers the
message. -/
def changeBackEvents : List (Event String) :=
  [.solve "alpha"
      { provideTruth := [⟨"port@alpha", "sip", "GLOBAL", "alpha", "5060", some 300⟩], now := 10 },
    .deliver "alpha" "beta" 11,
    .external "beta" false 12,
    .solve "alpha"
      { provideTruth := [⟨"port@alpha", "sip", "GLOBAL", "alpha", "5061", some 300⟩], now := 13 },
    .deliver "alpha" "beta" 14,
    .external "beta" false 15,
    .solve "alpha"
      { provideTruth := [⟨"port@alpha", "sip", "GLOBAL", "alpha", "5060", some 300⟩], now := 16 },
    .deliver "alpha" "beta" 17]

def pair : Graph := Graph.complete ["alpha", "beta"] (by decide)

def changeBackSteps : List (DomainStep String (Data String)) :=
  record (step pair id) (initial "probsteide.com" id 0) changeBackEvents

def changeBackFinal : State String (Data String) :=
  final (step pair id) (initial "probsteide.com" id 0) changeBackEvents

theorem changeBackRun : DomainRun pair id "probsteide.com" id 0 changeBackSteps changeBackFinal :=
  run_record _ _ _

theorem lasting_changeBack :
    Lasting "alpha" ⟨"port@alpha", "sip", "GLOBAL", "alpha"⟩ changeBackSteps := by
  have hinput : ∀ step ∈ changeBackSteps, ∀ node, node ≠ "alpha" →
      step.input.localProvisions node = [] ∧
        ∀ now, step.input.reading node = some now → node = "beta" := by
    intro step hstep node hnode
    have hinput := input_mem_of_record hstep
    simp only [changeBackEvents, List.mem_cons, List.not_mem_nil, or_false] at hinput
    rcases hinput with h | h | h | h | h | h | h | h <;>
      simp_all [Event.localProvisions, Event.reading, eq_comm]
  constructor
  case only_origin =>
    intro node hnode provided hprovided
    obtain ⟨step, hstep, hmem⟩ := List.mem_flatMap.mp hprovided
    rw [(hinput step hstep node hnode).1] at hmem
    cases hmem
  case positive =>
    have httl : ∀ provided ∈ localProvisions "alpha" changeBackSteps,
        provided.1.ttl = some 300 := by decide
    exact fun provided hprovided _ => ⟨300, httl provided hprovided, by decide⟩
  case unexpired =>
    intro step hstep node hnode now hnow truth htruth _
    obtain rfl := (hinput step hstep node hnode).2 now hnow
    have hvalid : ∀ step ∈ changeBackSteps, ∀ now ∈ (step.input.reading "beta").toList,
        ∀ truth ∈ (step.before.solvers "beta").truths.rows, ttlIsValid now truth = true := by decide
    exact hvalid step hstep now (Option.mem_toList.mpr hnow) truth htruth

theorem allTellNews_change :
    AllTellNews id "alpha" ⟨"port@alpha", "sip", "GLOBAL", "alpha"⟩ (changeBackSteps.take 6) := by
  intro before now hinitial
  have hrun := (changeBackRun.of_isPrefix (hinitial.trans (List.take_prefix _ _))).1
  have hfresh : ∀ row, message row ∉ sent before →
      ¬ now.before.net.wires.InFlight (message row) :=
    fun row hnew ⟨_, _, hmem⟩ => hnew (sent_of_wire hrun hmem).2.1
  obtain ⟨i, hi, rfl, rfl⟩ := exists_getElem_of_isPrefix hinitial
  have hlength : i < 6 := lt_of_lt_of_le hi (by decide)
  interval_cases i
  · refine TellsNews.of_solve rfl fun row hrow => hfresh row ?_
    obtain rfl := List.mem_singleton.mp hrow
    decide
  · exact TellsNews.of_deliver rfl rfl rfl (not_not.mpr rfl)
  · exact TellsNews.of_external rfl
  · refine TellsNews.of_solve rfl fun row hrow => hfresh row ?_
    obtain rfl := List.mem_singleton.mp hrow
    decide
  · exact TellsNews.of_deliver rfl rfl rfl (not_not.mpr rfl)
  · exact TellsNews.of_external rfl

theorem converged_of_tellNews_change : (changeBackSteps.take 6).length = 6 ∧
    Converged pair "alpha" ⟨"port@alpha", "sip", "GLOBAL", "alpha"⟩ (changeBackSteps.take 6)
      (changeBackSteps.get ⟨6, by decide⟩).before :=
  ⟨by decide, converged_of_tellNews (Graph.connected_complete _ _) (by decide)
    (changeBackRun.take (show 6 < changeBackSteps.length by decide))
    (lasting_changeBack.subset (List.take_subset _ _)) allTellNews_change⟩

theorem not_converged_changeBack :
    ¬ ∀ (steps : List (DomainStep String (Data String))) (state : State String (Data String))
      (k : TruthKey), DomainRun pair id "probsteide.com" id 0 steps state →
        Lasting "alpha" k steps → Converged pair "alpha" k steps state := by
  intro hclaim
  have hquiet : changeBackFinal.net.wires.Quiet := by
    intro sender receiver
    apply List.eq_nil_iff_forall_not_mem.mpr
    intro data hmem
    obtain ⟨hsender, hreceiver, hne⟩ :=
      Graph.mem_completeChannels.mp (sent_of_wire changeBackRun hmem).1
    have hempty : ∀ sender ∈ ["alpha", "beta"], ∀ receiver ∈ ["alpha", "beta"],
        changeBackFinal.net.wires sender receiver = [] := by decide
    rw [hempty sender hsender receiver hreceiver] at hmem
    cases hmem
  obtain ⟨truth, htruth, hkey, hvalue⟩ := hclaim _ _ _ changeBackRun lasting_changeBack hquiet
    ⟨"port@alpha", "sip", "GLOBAL", "alpha", "5060", some 300⟩ (by decide) "beta" (by decide)
    (by decide) (by decide)
  have hstale : ∀ truth ∈ (changeBackFinal.solvers "beta").truths.rows,
      truth.key = ⟨"port@alpha", "sip", "GLOBAL", "alpha"⟩ → truth.truth ≠ "5060" := by decide
  exact hstale truth htruth hkey hvalue

end Signpost.Domain

import Mathlib.Tactic.IntervalCases
import Signpost.Domain.Dissemination
import Signpost.Solver.Delivery
import Signpost.Solver.TruthTable

/-! # Truths that have expired

A truth has a lifetime when it is provided, a time of expiry in a table, and a
lifetime again when it is exported. The clocks of the signposts agree and
channels take no time, so the conversions lose nothing. But a table keeps a row
that has expired until the garbage collector runs, and exports it until then.

Channels are opened and closed, so the graph is part of the state.
-/

namespace Signpost.Expiry

open Flood Flood.Channels Machine Solver

variable {α δ : Type}

structure State (α δ : Type) where
  graph : Graph
  domain : Domain.State α δ

inductive Event (α : Type)
  | domain (event : Domain.Event α)
  /-- The signpost takes up a channel to a peer, after which the graph is this one. -/
  | newChannel (graph : Graph) (node peer : String) (now : Int)
  /-- Channels are closed, after which the graph is this one. -/
  | channelClosed (graph : Graph) (now : Int)

/-- What a signpost asks of a new peer. -/
def newChannelData : List (Data α) :=
  [{ action := some "list_of_signposts" }, { action := some "gimme_truths" }]

def newChannel (state : State α δ) (graph : Graph) (node peer : String) : State α δ :=
  { graph := graph
    domain := { state.domain with net := state.domain.net.reply node peer newChannelData } }

section Step

variable [DecidableEq α] [DecidableEq δ] (digest : Data α → δ)

def step (state : State α δ) :
    Event α → Except Domain.DomainError (State α δ × Domain.Output α)
  | .domain event =>
      match Domain.step state.graph digest state.domain event with
      | .error error => .error error
      | .ok (domain, output) => .ok ({ state with domain := domain }, output)
  | .newChannel graph node peer _ =>
      if peer ∉ graph.neighbours node then .error .disabled
      else .ok (newChannel state graph node peer, { sent := newChannelData })
  | .channelClosed graph _ => .ok ({ state with graph := graph }, {})

def initial (graph : Graph) (signpostDomain : String) (ofString : String → α) (start : Int) :
    State α δ :=
  ⟨graph, Domain.initial signpostDomain ofString start⟩

abbrev ExpiryStep (α δ : Type) := Transition (State α δ) (Event α) (Domain.Output α)

abbrev ExpiryRun (graph : Graph) (signpostDomain : String) (ofString : String → α) (start : Int) :
    List (ExpiryStep α δ) → State α δ → Prop :=
  Run (step digest) (initial graph signpostDomain ofString start)

end Step

/-! ## Clocks -/

/-- The reading of the clock, which all signposts share. -/
def Event.now : Event α → Int
  | .domain (.solve _ batch) => batch.now
  | .domain (.external _ _ now) => now
  | .domain (.deliver _ _ now) => now
  | .domain (.pruneBroadcastCache _ now) => now
  | .newChannel _ _ _ now => now
  | .channelClosed _ now => now

/-- No message waits for its receiver, and no received truth for its solver. -/
def Settled (state : State α δ) : Prop :=
  state.domain.net.wires.Quiet ∧ ∀ node, state.domain.inboxes node = []

/-- The last reading of the clock. -/
def clock (start : Int) (steps : List (ExpiryStep α δ)) : Int :=
  (steps.getLast?.map fun step => step.input.now).getD start

/-- The clock does not go back, and everything that is sent is processed before it
goes on. -/
def Instantaneous (start : Int) (steps : List (ExpiryStep α δ)) : Prop :=
  ∀ earlier step, earlier ++ [step] <+: steps → clock start earlier ≤ step.input.now ∧
    (clock start earlier < step.input.now → Settled step.before)

theorem clock_eq (start : Int) (steps : List (ExpiryStep α δ)) :
    clock start steps = ((steps.map fun step => step.input.now).getLast?).getD start := by
  rw [clock, List.getLast?_map]

theorem clock_concat (start : Int) (steps : List (ExpiryStep α δ)) (last : ExpiryStep α δ) :
    clock start (steps ++ [last]) = last.input.now := by
  simp [clock]

/-- While the clock stands still, it is what the next step reads. -/
theorem clock_take {start time : Int} {steps : List (ExpiryStep α δ)} {earlier : List Int} {n : ℕ}
    (hreadings : steps.map (fun step => step.input.now) = earlier ++ List.replicate n time) {i : ℕ}
    (hi : i < steps.length) (hlater : earlier.length < i) :
    clock start (steps.take i) = steps[i].input.now := by
  obtain ⟨k, rfl⟩ := Nat.exists_eq_add_of_lt hlater
  have hlength := congrArg List.length hreadings
  rw [List.length_map, List.length_append, List.length_replicate] at hlength
  have hnow : (steps.map fun step => step.input.now)[earlier.length + k + 1]? = some time := by
    rw [hreadings, List.getElem?_append_right (by omega), List.getElem?_replicate,
      if_pos (by omega)]
  rw [List.getElem?_map, List.getElem?_eq_getElem hi, Option.map_some, Option.some_inj] at hnow
  have hmin : min (k + 1) n = k + 1 := by omega
  rw [hnow, clock_eq, List.map_take, hreadings, Nat.add_assoc, List.take_length_add_append,
    List.take_replicate, hmin, List.replicate_succ', ← List.append_assoc, List.getLast?_concat]
  rfl

theorem Instantaneous.of_isPrefix {start : Int} {earlier steps : List (ExpiryStep α δ)}
    (hinstantaneous : Instantaneous start steps) (hinitial : earlier <+: steps) :
    Instantaneous start earlier :=
  fun before step hbefore => hinstantaneous before step (hbefore.trans hinitial)

/-! ## Lifetimes -/

/-- What the tactics of all signposts provide. -/
def Event.provisions : Event α → List (Provided α)
  | .domain (.solve _ batch) => batch.provideTruth.map (·, batch.now)
  | _ => []

section Lifetimes

variable (signpostDomain : String) (ofString : String → α) (start : Int)

/-- The truth was provided with this lifetime at this time, by a tactic or by a
signpost that started. -/
def ProvidedFor (steps : List (ExpiryStep α δ)) (fact : Fact α) (time ttl : Int) : Prop :=
  ∃ row : Provision α, row.fact = fact ∧ row.ttl = some ttl ∧
    ((∃ step ∈ steps, (row, time) ∈ step.input.provisions) ∨
      time = start ∧ ∃ node, row ∈ initialTruths ⟨node, signpostDomain, ofString⟩)

/-- The lifetime of a provision of the truth has not run out, or the truth is
provided right now and has none. -/
def Live (steps : List (ExpiryStep α δ)) (fact : Fact α) (now : Int) : Prop :=
  ∃ time ttl, ProvidedFor signpostDomain ofString start steps fact time ttl ∧
    (now < time + ttl ∨ ttl ≤ 0 ∧ time = now)

/-- The truth was provided with a lifetime, and is not live any more. -/
def Expired (steps : List (ExpiryStep α δ)) (fact : Fact α) (now : Int) : Prop :=
  (∃ time ttl, 0 < ttl ∧ ProvidedFor signpostDomain ofString start steps fact time ttl) ∧
    ¬ Live signpostDomain ofString start steps fact now

/-- No expired truth is sent to anybody. -/
def NothingExpired (steps : List (ExpiryStep α δ)) : Prop :=
  ∀ earlier step, earlier ++ [step] <+: steps → ∀ solved, step.output.solved = some solved →
    ∀ who fact, (who, fact) ∈ solved.neededTruth →
      ¬ Expired signpostDomain ofString start (earlier ++ [step]) fact step.input.now

/-- A received truth without a lifetime, for which there is a subscription, has not
expired. -/
def ReceivedUnexpired (steps : List (ExpiryStep α δ)) : Prop :=
  ∀ earlier step, earlier ++ [step] <+: steps → ∀ node timer now,
    step.input = .domain (.external node timer now) → ∀ row rest,
      step.before.domain.inboxes node = row :: rest → ∀ ttl, row.ttl = some ttl → ttl ≤ 0 →
        ∀ subscriber ∈ (step.before.domain.solvers node).truthSubscribers,
          PushedTo row subscriber → ¬ Expired signpostDomain ofString start earlier row.fact now

/-- A provision of the truth lasts as long. -/
def Lasts (steps : List (ExpiryStep α δ)) (fact : Fact α) (expires : Int) : Prop :=
  ∃ time ttl, ProvidedFor signpostDomain ofString start steps fact time ttl ∧
    expires ≤ time + ttl

/-- No table keeps a truth longer than a provision of it lasts, and nothing that is
in flight or waits is given a longer lifetime at this time. -/
structure Accurate (steps : List (ExpiryStep α δ)) (now : Int) (state : Domain.State α δ) :
    Prop where
  cached : ∀ node, ∀ row ∈ (state.solvers node).truths, ∀ ttl expires,
    row.ttlState = .cacheable ttl expires →
      Lasts signpostDomain ofString start steps row.fact expires
  carried : ∀ sender receiver, ∀ data ∈ state.net.wires sender receiver,
    ∀ row ∈ data.truths.getD [], ∀ ttl, row.ttl = some ttl →
      Lasts signpostDomain ofString start steps row.fact (now + ttl)
  waiting : ∀ node, ∀ row ∈ state.inboxes node, ∀ ttl, row.ttl = some ttl →
    Lasts signpostDomain ofString start steps row.fact (now + ttl)

end Lifetimes

section Provisions

variable {signpostDomain : String} {ofString : String → α} {start : Int}
  {steps later : List (ExpiryStep α δ)} {fact : Fact α} {expires now : Int}

theorem ProvidedFor.mono {time ttl : Int}
    (hprovided : ProvidedFor signpostDomain ofString start steps fact time ttl)
    (hsteps : steps ⊆ later) : ProvidedFor signpostDomain ofString start later fact time ttl := by
  obtain ⟨row, hfact, httl, hrow⟩ := hprovided
  refine ⟨row, hfact, httl, hrow.imp_left ?_⟩
  rintro ⟨step, hstep, hmem⟩
  exact ⟨step, hsteps hstep, hmem⟩

/-- A step without provisions leaves everything as expired as it was. -/
theorem providedFor_concat {last : ExpiryStep α δ} (hnone : last.input.provisions = [])
    {time ttl : Int} : ProvidedFor signpostDomain ofString start (steps ++ [last]) fact time ttl ↔
      ProvidedFor signpostDomain ofString start steps fact time ttl := by
  simp [ProvidedFor, or_and_right, exists_or, hnone]

theorem expired_concat {last : ExpiryStep α δ} (hnone : last.input.provisions = []) :
    Expired signpostDomain ofString start (steps ++ [last]) fact now ↔
      Expired signpostDomain ofString start steps fact now := by
  simp only [Expired, Live, providedFor_concat hnone]

theorem providedFor_last {last : ExpiryStep α δ} {row : Provision α} {time ttl : Int}
    (hrow : (row, time) ∈ last.input.provisions) (httl : row.ttl = some ttl) :
    ProvidedFor signpostDomain ofString start (steps ++ [last]) row.fact time ttl :=
  ⟨row, rfl, httl, Or.inl ⟨last, List.mem_append_right _ List.mem_cons_self, hrow⟩⟩

theorem Live.mono (hlive : Live signpostDomain ofString start steps fact now)
    (hsteps : steps ⊆ later) : Live signpostDomain ofString start later fact now := by
  obtain ⟨time, ttl, hprovided, hnow⟩ := hlive
  exact ⟨time, ttl, hprovided.mono hsteps, hnow⟩

theorem Lasts.mono (hlasts : Lasts signpostDomain ofString start steps fact expires)
    (hsteps : steps ⊆ later) : Lasts signpostDomain ofString start later fact expires := by
  obtain ⟨time, ttl, hprovided, hle⟩ := hlasts
  exact ⟨time, ttl, hprovided.mono hsteps, hle⟩

/-- What lasts longer than now is live. -/
theorem Lasts.live (hlasts : Lasts signpostDomain ofString start steps fact expires)
    (hnow : now < expires) : Live signpostDomain ofString start steps fact now := by
  obtain ⟨time, ttl, hprovided, hle⟩ := hlasts
  exact ⟨time, ttl, hprovided, Or.inl (Int.lt_of_lt_of_le hnow hle)⟩

end Provisions

/-! ## What the conversions keep -/

/-- A reply holds no truths but the exported ones. -/
theorem truths_of_replies [DecidableEq δ] {digest : Data α → δ} {centre : CommunicationCentre δ}
    {now : Int} {exportable : List (Provision α)} {channel : String} {data reply : Data α}
    (hreply : reply ∈ (centre.receive digest now exportable channel data).2.replies) :
    reply.truths.getD [] ⊆ exportable := by
  unfold CommunicationCentre.receive at hreply
  split at hreply
  next =>
    cases haction : data.action with
    | none => simp [haction] at hreply
    | some action =>
        simp only [haction, Option.elim_some] at hreply
        unfold CommunicationCentre.performActionForRemoteSignpost at hreply
        split at hreply
        next =>
          rw [List.mem_singleton.mp hreply]
          exact List.nil_subset _
        next =>
          split at hreply
          next =>
            split at hreply
            next => cases hreply
            next =>
              rw [List.mem_singleton.mp hreply]
              exact List.Subset.refl _
          next => cases hreply
  next => cases hreply

theorem external_of_receive [DecidableEq δ] {digest : Data α → δ} {centre : CommunicationCentre δ}
    {now : Int} {exportable : List (Provision α)} {channel : String} {data : Data α} :
    (centre.receive digest now exportable channel data).2.external ⊆ data.truths.getD [] := by
  unfold CommunicationCentre.receive
  split
  next => exact List.Subset.refl _
  next => exact List.nil_subset _

namespace Accurate

variable {signpostDomain : String} {ofString : String → α} {start now : Int}
  {steps later : List (ExpiryStep α δ)} {state next : Domain.State α δ}

theorem mono (haccurate : Accurate signpostDomain ofString start steps now state)
    (hsteps : steps ⊆ later) : Accurate signpostDomain ofString start later now state where
  cached node row hrow ttl expires hstate :=
    (haccurate.cached node row hrow ttl expires hstate).mono hsteps
  carried sender receiver data hdata row hrow ttl httl :=
    (haccurate.carried sender receiver data hdata row hrow ttl httl).mono hsteps
  waiting node row hrow ttl httl := (haccurate.waiting node row hrow ttl httl).mono hsteps

/-- Times of expiry do not depend on the clock. -/
theorem advance (haccurate : Accurate signpostDomain ofString start steps now state)
    (hquiet : state.net.wires.Quiet) (hempty : ∀ node, state.inboxes node = []) (time : Int) :
    Accurate signpostDomain ofString start steps time state where
  cached := haccurate.cached
  carried sender receiver data hdata := by
    rw [hquiet sender receiver] at hdata
    cases hdata
  waiting node row hrow := by
    rw [hempty node] at hrow
    cases hrow

theorem initial [DecidableEq α] (signpostDomain : String) (ofString : String → α) (start : Int) :
    Accurate signpostDomain ofString start ([] : List (ExpiryStep α δ)) start
      (Domain.initial signpostDomain ofString start) where
  cached node row hrow ttl expires hstate := by
    obtain ⟨provision, hprovision, hstored⟩ := List.mem_filterMap.mp (mem_initial_truths.mp hrow)
    obtain ⟨hfact, lifetime, _, hlifetime, hrowState⟩ := storedRow_eq_some_iff.mp hstored
    rw [hstate, TtlState.cacheable.injEq] at hrowState
    exact ⟨start, lifetime, ⟨provision, hfact.symm, hlifetime, Or.inr ⟨rfl, node, hprovision⟩⟩,
      Int.le_of_eq hrowState.2⟩
  carried _ _ _ hdata := absurd hdata List.not_mem_nil
  waiting _ _ hrow := absurd hrow List.not_mem_nil

/-- An exported truth is given the rest of its lifetime. -/
theorem exported (haccurate : Accurate signpostDomain ofString start steps now state)
    {node : String} {row : Provision α}
    (hrow : row ∈ Domain.exportableTruths now (state.solvers node).truths.rows) {ttl : Int}
    (httl : row.ttl = some ttl) :
    Lasts signpostDomain ofString start steps row.fact (now + ttl) := by
  obtain ⟨truth, htruth, hexport⟩ := List.mem_filterMap.mp hrow
  split at hexport
  next => cases hexport
  next lifetime expires hstate =>
    cases hexport
    obtain rfl := Option.some.inj httl
    have hrest : now + (expires - now) = expires := by omega
    rw [hrest]
    exact haccurate.cached node truth htruth lifetime expires hstate

/-- Nothing is on its way while the clock goes on. -/
theorem atStep {earlier : List (ExpiryStep α δ)} {now : ExpiryStep α δ}
    (haccurate : Accurate signpostDomain ofString start earlier (clock start earlier)
      now.before.domain) (hinstantaneous : Instantaneous start steps)
    (hinitial : earlier ++ [now] <+: steps) :
    Accurate signpostDomain ofString start earlier now.input.now now.before.domain := by
  obtain ⟨hle, hsettled⟩ := hinstantaneous earlier now hinitial
  rcases Int.lt_or_eq_of_le hle with hlt | heq
  · obtain ⟨hquiet, hempty⟩ := hsettled hlt
    exact haccurate.advance hquiet hempty now.input.now
  · exact heq ▸ haccurate

/-- An answer from the cache is live. -/
theorem live_of_valid (haccurate : Accurate signpostDomain ofString start steps now state)
    {node : String} {row : TruthRow α} (hrow : row ∈ (state.solvers node).truths)
    (hvalid : ttlIsValid now row = true) :
    Live signpostDomain ofString start steps row.fact now := by
  obtain ⟨ttl, expires, hstate, hnow⟩ := expires_of_valid hvalid
  exact (haccurate.cached node row hrow ttl expires hstate).live hnow

/-- A solver takes a received truth from its inbox. -/
theorem setInbox (haccurate : Accurate signpostDomain ofString start steps now state)
    {node : String} {row : Provision α} {rest : List (Provision α)}
    (hinbox : state.inboxes node = row :: rest) :
    Accurate signpostDomain ofString start steps now (state.setInbox node rest) where
  cached := haccurate.cached
  carried := haccurate.carried
  waiting := by
    intro other waiting hwaiting
    by_cases hother : other = node
    · subst hother
      simp only [Domain.State.setInbox, Function.update_self] at hwaiting
      exact haccurate.waiting other waiting (hinbox ▸ List.mem_cons_of_mem row hwaiting)
    · simp only [Domain.State.setInbox, Function.update_of_ne hother] at hwaiting
      exact haccurate.waiting other waiting hwaiting

variable [DecidableEq δ] {graph : Graph} {digest : Data α → δ} {output : Domain.Output α}

/-- A message arrives, is sent on, and may be answered. -/
theorem deliver [DecidableEq α] (haccurate : Accurate signpostDomain ofString start steps now state)
    {sender receiver : String} {data : Data α} {rest : List (Data α)}
    (hhead : state.net.wires sender receiver = data :: rest) :
    Accurate signpostDomain ofString start steps now
      (Domain.deliver graph digest state sender receiver now data).1 := by
  have hdata := haccurate.carried sender receiver data (hhead ▸ List.mem_cons_self)
  constructor
  case cached => exact haccurate.cached
  case carried =>
    intro first last other hother row hrow ttl httl
    rcases mem_sendAll hother with hsent | ⟨_, _, hreply⟩
    · rcases mem_send.mp hsent with hold | ⟨_, _, rfl⟩
      · exact haccurate.carried first last other (mem_of_mem_take hold) row hrow ttl httl
      · exact hdata row hrow ttl httl
    · exact haccurate.exported (truths_of_replies hreply hrow) httl
  case waiting =>
    intro node row hrow ttl httl
    by_cases hnode : node = receiver
    · subst hnode
      simp only [Domain.deliver, Domain.State.setInbox, Function.update_self,
        List.mem_append] at hrow
      rcases hrow with hold | hnew
      · exact haccurate.waiting node row hold ttl httl
      · exact hdata row (external_of_receive hnew) ttl httl
    · simp only [Domain.deliver, Domain.State.setInbox, Function.update_of_ne hnode] at hrow
      exact haccurate.waiting node row hrow ttl httl

/-- A timestep stores and sends what it is provided with, for as long as that
lasts. -/
theorem solve [DecidableEq α] (haccurate : Accurate signpostDomain ofString start steps now state)
    {node : String} {batch : Batch α} (hnow : batch.now = now)
    (hprovided : ∀ row ∈ batch.provided, ∀ ttl, row.ttl = some ttl →
      Lasts signpostDomain ofString start steps row.fact (now + ttl))
    (hok : Domain.solve graph digest state node batch = .ok (next, output)) :
    Accurate signpostDomain ofString start steps now next := by
  obtain ⟨solver, solved, hfires, hsolvers, hinboxes, hwires, hsent⟩ := Domain.solve_cases hok
  constructor
  case cached =>
    intro other row hrow ttl expires hstate
    rw [hsolvers] at hrow
    by_cases hother : other = node
    · subst hother
      rw [Function.update_self] at hrow
      rcases (hfires.mem_truths row).mp hrow with hstored | ⟨hold, _⟩
      · obtain ⟨provision, hprovision, hstored⟩ := List.mem_filterMap.mp hstored
        obtain ⟨hfact, lifetime, _, hlifetime, hrowState⟩ := storedRow_eq_some_iff.mp hstored
        rw [hstate, TtlState.cacheable.injEq, hnow] at hrowState
        rw [hfact, hrowState.2]
        exact hprovided provision hprovision lifetime hlifetime
      · exact haccurate.cached other row hold ttl expires hstate
    · rw [Function.update_of_ne hother] at hrow
      exact haccurate.cached other row hrow ttl expires hstate
  case carried =>
    intro first last data hdata row hrow ttl httl
    rw [hwires] at hdata
    rcases mem_sendAll hdata with hold | ⟨_, _, hnew⟩
    · exact haccurate.carried first last data hold row hrow ttl httl
    · rw [hsent] at hnew
      obtain ⟨out, hout, rfl⟩ := List.mem_map.mp hnew
      cases out with
      | truth sent =>
          have hsame : row = sent := List.mem_singleton.mp hrow
          have hlocal : sent ∈ batch.provideTruth := (hfires.mem_distributed sent).mp
            (Domain.mem_outgoing_truth.mp (List.mem_map.mpr ⟨_, hout, rfl⟩))
          exact hprovided row (hsame ▸ List.mem_append_right _ hlocal) ttl httl
      | resolve query => cases hrow
  case waiting =>
    intro other row hrow
    rw [hinboxes] at hrow
    exact haccurate.waiting other row hrow

end Accurate

/-! ## Every run -/

/-- What a timestep sends is in its cache or was provided in it. -/
theorem sent_cases {name : String} {solver after : Solver.State α} {batch : Batch α}
    {solved : Solver.Output α} (hfires : Fires name solver batch after solved) {who : String}
    {fact : Fact α} (hsent : (who, fact) ∈ solved.neededTruth) :
    (∃ row ∈ solver.truths, ttlIsValid batch.now row = true ∧ fact = row.fact) ∨
      ∃ row ∈ batch.provided, (∃ subscriber ∈ solver.truthSubscribers, PushedTo row subscriber) ∧
        fact = row.fact := by
  rcases List.mem_append.mp hsent with hanswered | hpushes
  · obtain ⟨row, hrow, need, _, hanswers, _, hfact⟩ := (hfires.mem_answered who fact).mp hanswered
    exact Or.inl ⟨row, hrow, hanswers.2.1.2, hfact⟩
  rcases List.mem_append.mp hpushes with hpushed | hpushed
  · obtain ⟨row, hrow, subscriber, hsubscriber, hwhat, hvisible, _, hfact⟩ :=
      (hfires.mem_pushed who fact).mp hpushed
    exact Or.inr ⟨row, hrow, ⟨subscriber, hsubscriber, Or.inl ⟨hwhat, hvisible⟩⟩, hfact⟩
  · obtain ⟨row, hrow, subscriber, hsubscriber, hwhat, haccepts, _, hfact⟩ :=
      (hfires.mem_pushedAny who fact).mp hpushed
    exact Or.inr ⟨row, hrow, ⟨subscriber, hsubscriber, Or.inr ⟨hwhat, haccepts⟩⟩, hfact⟩

section Runs

variable [DecidableEq α] [DecidableEq δ] {digest : Data α → δ} {graph : Graph}
  {signpostDomain : String} {ofString : String → α} {start : Int}
  {steps : List (ExpiryStep α δ)} {state next : State α δ} {event : Event α}
  {output : Domain.Output α}

theorem step_domain {input : Domain.Event α}
    (hok : step digest state (.domain input) = .ok (next, output)) :
    Domain.step state.graph digest state.domain input = .ok (next.domain, output) := by
  simp only [step] at hok
  split at hok
  next => cases hok
  next domain result hdomain =>
    obtain ⟨rfl, rfl⟩ := Prod.mk.inj (Except.ok.inj hok)
    exact hdomain

/-- Every step keeps what is known of the lifetimes. -/
theorem Accurate.step (haccurate : Accurate signpostDomain ofString start steps event.now
      state.domain)
    (hok : step digest state event = .ok (next, output)) :
    Accurate signpostDomain ofString start (steps ++ [⟨state, event, output, next⟩]) event.now
      next.domain := by
  have hsteps := haccurate.mono (List.subset_append_left steps [⟨state, event, output, next⟩])
  cases event with
  | domain input =>
      have hdomain := step_domain hok
      cases input with
      | solve node batch =>
          obtain ⟨_, hexternal, hsolve⟩ := Domain.step_solve hdomain
          apply hsteps.solve rfl _ hsolve
          intro row hrow ttl httl
          rw [Batch.provided, hexternal, List.nil_append] at hrow
          have hprovision : (row, batch.now) ∈
              (Event.domain (Domain.Event.solve node batch)).provisions :=
            List.mem_map.mpr ⟨row, hrow, rfl⟩
          exact ⟨batch.now, ttl, providedFor_last hprovision httl, Int.le_refl _⟩
      | external node timer now =>
          obtain ⟨row, rest, hinbox, hsolve⟩ := Domain.step_external hdomain
          apply (hsteps.setInbox hinbox).solve rfl _ hsolve
          intro received hreceived
          obtain rfl := List.mem_singleton.mp hreceived
          exact hsteps.waiting node received (hinbox ▸ List.mem_cons_self)
      | deliver sender receiver now =>
          obtain ⟨data, rest, hhead, hdeliver⟩ := Domain.step_deliver hdomain
          rw [← (Prod.mk.inj hdeliver).1]
          exact hsteps.deliver hhead
      | pruneBroadcastCache node now =>
          obtain ⟨hnext, _⟩ := Prod.mk.inj (Except.ok.inj hdomain)
          rw [← hnext]
          exact ⟨hsteps.cached, hsteps.carried, hsteps.waiting⟩
  | newChannel opened node peer now =>
      simp only [Expiry.step] at hok
      split at hok
      next => cases hok
      next =>
        obtain ⟨rfl, rfl⟩ := Prod.mk.inj (Except.ok.inj hok)
        refine ⟨hsteps.cached, ?_, hsteps.waiting⟩
        intro first last data hdata row hrow
        rcases mem_sendAll hdata with hold | ⟨_, _, hasked⟩
        · exact hsteps.carried first last data hold row hrow
        · -- a question holds no truths
          have hnone : ∀ data ∈ (newChannelData : List (Data α)), data.truths.getD [] = [] := by
            simp [newChannelData]
          rw [hnone data hasked] at hrow
          cases hrow
  | channelClosed remaining now =>
      obtain ⟨rfl, rfl⟩ := Prod.mk.inj (Except.ok.inj hok)
      exact hsteps

theorem accurate_of_run (hrun : ExpiryRun digest graph signpostDomain ofString start steps state)
    (hinstantaneous : Instantaneous start steps) :
    Accurate signpostDomain ofString start steps (clock start steps) state.domain := by
  induction hrun with
  | start => exact Accurate.initial signpostDomain ofString start
  | @extend steps state next event output prior hok ih =>
      have hbefore := ih (hinstantaneous.of_isPrefix (List.prefix_append _ _))
      rw [clock_concat]
      exact (hbefore.atStep hinstantaneous (List.prefix_refl _)).step hok

/-- The lifetimes that a step finds are those at its own time. -/
theorem accurate_before (hrun : ExpiryRun digest graph signpostDomain ofString start steps state)
    (hinstantaneous : Instantaneous start steps) {earlier : List (ExpiryStep α δ)}
    {now : ExpiryStep α δ} (hinitial : earlier ++ [now] <+: steps) :
    Accurate signpostDomain ofString start earlier now.input.now now.before.domain := by
  have hbefore := accurate_of_run (hrun.of_isPrefix hinitial).1
    (hinstantaneous.of_isPrefix ((List.prefix_append _ _).trans hinitial))
  exact hbefore.atStep hinstantaneous hinitial

/-- Only a timestep sends truths, on what tactics or one peer provided. -/
theorem solved_cases (hok : step digest state event = .ok (next, output))
    {solved : Solver.Output α} (hsolved : output.solved = some solved) :
    ∃ node batch solver, batch.now = event.now ∧
      Fires node (state.domain.solvers node) batch solver solved ∧
      ((event = .domain (.solve node batch) ∧ batch.provided = batch.provideTruth) ∨
        ∃ timer row rest, event = .domain (.external node timer batch.now) ∧
          state.domain.inboxes node = row :: rest ∧ batch.provided = [row]) := by
  cases event with
  | domain input =>
      have hdomain := step_domain hok
      cases input with
      | solve node batch =>
          obtain ⟨_, hexternal, hsolve⟩ := Domain.step_solve hdomain
          obtain ⟨solver, other, hfires, _, rfl⟩ := Domain.solve_eq_ok hsolve
          obtain rfl := Option.some.inj hsolved
          refine ⟨node, batch, solver, rfl, hfires, Or.inl ⟨rfl, ?_⟩⟩
          rw [Batch.provided, hexternal, List.nil_append]
      | external node timer now =>
          obtain ⟨row, rest, hinbox, hsolve⟩ := Domain.step_external hdomain
          obtain ⟨solver, other, hfires, _, rfl⟩ := Domain.solve_eq_ok hsolve
          obtain rfl := Option.some.inj hsolved
          exact ⟨node, _, solver, rfl, hfires, Or.inr ⟨timer, row, rest, rfl, hinbox, rfl⟩⟩
      | deliver sender receiver now =>
          obtain ⟨_, _, _, hdeliver⟩ := Domain.step_deliver hdomain
          rw [← (Prod.mk.inj hdeliver).2] at hsolved
          cases hsolved
      | pruneBroadcastCache node now =>
          rw [← (Prod.mk.inj (Except.ok.inj hdomain)).2] at hsolved
          cases hsolved
  | newChannel opened node peer now =>
      simp only [step] at hok
      split at hok
      next => cases hok
      next =>
        rw [← (Prod.mk.inj (Except.ok.inj hok)).2] at hsolved
        cases hsolved
  | channelClosed remaining now =>
      rw [← (Prod.mk.inj (Except.ok.inj hok)).2] at hsolved
      cases hsolved

/-- Nothing expired is sent exactly in the runs in which no received truth without
a lifetime, for which there is a subscription, has expired. -/
theorem nothingExpired_iff
    (hrun : ExpiryRun digest graph signpostDomain ofString start steps state)
    (hinstantaneous : Instantaneous start steps) :
    NothingExpired signpostDomain ofString start steps ↔
      ReceivedUnexpired signpostDomain ofString start steps := by
  constructor
  · intro hnothing earlier now hinitial node timer time hinput row rest hinbox ttl httl hle
      subscriber hsubscriber hpushed
    have hok := (hrun.of_isPrefix hinitial).2
    rw [hinput] at hok
    obtain ⟨other, later, hother, hsolve⟩ := Domain.step_external (step_domain hok)
    obtain ⟨rfl, rfl⟩ := List.cons.inj (hinbox.symm.trans hother)
    obtain ⟨solver, solved, hfires, _, houtput⟩ := Domain.solve_eq_ok hsolve
    have hsent : (subscriber.who, row.fact) ∈ solved.neededTruth := by
      apply List.mem_append_right
      apply (hfires.mem_pushes (List.mem_singleton.mpr rfl)).mpr
      exact ⟨subscriber, hsubscriber, rfl, hpushed⟩
    have hunexpired := hnothing earlier now hinitial solved (by rw [houtput]) _ _ hsent
    rw [expired_concat (by rw [hinput]; rfl), hinput] at hunexpired
    exact hunexpired
  · intro hreceived earlier now hinitial solved hsolved who fact hsent hexpired
    have haccurate := accurate_before hrun hinstantaneous hinitial
    obtain ⟨node, batch, solver, hnow, hfires, hinput⟩ :=
      solved_cases (hrun.of_isPrefix hinitial).2 hsolved
    have hlive : ∀ {other : Fact α},
        Live signpostDomain ofString start earlier other now.input.now → other ≠ fact := by
      rintro other hlive rfl
      exact hexpired.2 (hlive.mono (List.subset_append_left _ _))
    rcases sent_cases hfires hsent with ⟨row, hrow, hvalid, rfl⟩ |
      ⟨row, hrow, ⟨subscriber, hsubscriber, hpushed⟩, rfl⟩
    · exact hlive (haccurate.live_of_valid hrow (hnow ▸ hvalid)) rfl
    obtain ⟨ttl, httl⟩ := Option.ne_none_iff_exists'.mp (hfires.ttl_ne_none row hrow)
    rcases hinput with ⟨hinput, hprovided⟩ | ⟨timer, received, rest, hinput, hinbox, hprovided⟩
    · -- a tactic provides the truth at this moment
      rw [hprovided] at hrow
      have hprovision : (row, now.input.now) ∈ now.input.provisions := by
        rw [hinput]
        exact List.mem_map.mpr ⟨row, hrow, rfl⟩
      apply hexpired.2
      refine ⟨now.input.now, ttl, providedFor_last hprovision httl, ?_⟩
      by_cases hpos : 0 < ttl
      · exact Or.inl (by omega)
      · exact Or.inr ⟨by omega, rfl⟩
    · rw [hprovided, List.mem_singleton] at hrow
      subst hrow
      by_cases hpos : 0 < ttl
      · -- what is left of its lifetime is left of that of a provision
        have hlasts := haccurate.waiting node row (hinbox ▸ List.mem_cons_self) ttl httl
        exact hlive (hlasts.live (by omega)) rfl
      · rw [expired_concat (by rw [hinput]; rfl), hnow.symm] at hexpired
        exact hreceived earlier now hinitial node timer batch.now hinput row rest hinbox ttl httl
          (by omega) subscriber hsubscriber hpushed hexpired

end Runs

/-! ## A truth that is exported late -/

/-- Two signposts that are not connected. -/
def apart : Graph where
  nodes := ["alpha", "beta"]
  channels _ := []
  neighbours_nodup _ := List.nodup_nil
  symmetric _ _ hnext := absurd hnext List.not_mem_nil
  irreflexive _ := List.not_mem_nil

theorem nodup_joined : ["alpha", "beta"].Nodup := by decide

def joined : Graph := Graph.complete ["alpha", "beta"] nodup_joined

/-- Beta, where a tactic observes the address, connects to alpha, and its garbage
collector may run before it takes up what has arrived. -/
def joiningEvents (time : Int) (collects : Bool) : List (Event String) :=
  [.domain (.solve "beta"
      { observeTruth := [⟨"ip_for_domain@kle.io", "127.0.0.1:4000", "ANY", "carol", "ping"⟩]
        now := 5 }),
    .domain (.solve "alpha"
      { provideTruth := [⟨"ip_for_domain@kle.io", "dns", "GLOBAL", "alpha", "10.0.0.1", some 10⟩]
        now := 10 }),
    .newChannel joined "alpha" "beta" time,
    .newChannel joined "beta" "alpha" time,
    .domain (.deliver "beta" "alpha" time),
    .domain (.deliver "beta" "alpha" time),
    .domain (.deliver "alpha" "beta" time),
    .domain (.deliver "alpha" "beta" time),
    .domain (.deliver "alpha" "beta" time),
    .domain (.deliver "alpha" "beta" time),
    .domain (.external "beta" collects time),
    .domain (.external "beta" false time),
    .domain (.external "beta" false time)]

def joiningSteps (time : Int) (collects : Bool) : List (ExpiryStep String (Data String)) :=
  record (step id) (initial apart "probsteide.com" id 0) (joiningEvents time collects)

/-- Before the channels are opened nothing is sent. -/
theorem instantaneous_joining {time : Int} {collects : Bool} (hle : 10 ≤ time)
    (hreadings : (joiningSteps time collects).map (fun step => step.input.now) =
      [5, 10] ++ List.replicate 11 time) : Instantaneous 0 (joiningSteps time collects) := by
  intro earlier now hinitial
  obtain ⟨i, hi, rfl, rfl⟩ := exists_getElem_of_isPrefix hinitial
  by_cases hlater : 2 < i
  · have hsame : clock 0 ((joiningSteps time collects).take i) = _ :=
      clock_take hreadings hi hlater
    exact ⟨Int.le_of_eq hsame, fun hlt => absurd hsame (Int.ne_of_lt hlt)⟩
  · have hquiet : (Channels.empty : Channels String (Data String)).Quiet := fun _ _ => rfl
    interval_cases i
    · exact ⟨show (0 : Int) ≤ 5 by decide, fun _ => ⟨hquiet, fun _ => rfl⟩⟩
    · exact ⟨show (5 : Int) ≤ 10 by decide, fun _ => ⟨hquiet, fun _ => rfl⟩⟩
    · -- alpha has no peer to send the truth to
      refine ⟨show (10 : Int) ≤ time from hle, fun _ => ⟨fun sender receiver => ?_, fun _ => rfl⟩⟩
      exact send_of_not fun h => List.not_mem_nil h.2

/-- The channels are opened two seconds after the truth has expired, and beta gets it
with a lifetime of -2. -/
def lateEvents : List (Event String) := joiningEvents 22 false

def lateSteps : List (ExpiryStep String (Data String)) :=
  record (step id) (initial apart "probsteide.com" id 0) lateEvents

theorem length_late : lateSteps.length = 13 := by decide

theorem lt_length_late {i : ℕ} (hi : i < 13) : i < lateSteps.length := length_late ▸ hi

theorem instantaneous_late : Instantaneous 0 lateSteps :=
  instantaneous_joining (by decide) (by decide)

theorem nothingExpired_iff_late : lateSteps.length = 13 ∧
    (NothingExpired "probsteide.com" id 0 lateSteps ↔
      ReceivedUnexpired "probsteide.com" id 0 lateSteps) :=
  ⟨length_late, nothingExpired_iff
    (run_record (step id) (initial apart "probsteide.com" id 0) lateEvents) instantaneous_late⟩

theorem not_nothingExpired_late :
    ¬ ∀ (graph : Graph) (start : Int) (steps : List (ExpiryStep String (Data String)))
      (state : State String (Data String)),
      ExpiryRun id graph "probsteide.com" id start steps state → Instantaneous start steps →
        NothingExpired "probsteide.com" id start steps := by
  intro hclaim
  have hnothing := hclaim apart 0 lateSteps _ (run_record _ _ lateEvents) instantaneous_late
  have hinitial :
      lateSteps.take 12 ++ [lateSteps.get ⟨12, lt_length_late (by decide)⟩] <+: lateSteps :=
    (List.take_succ_eq_append_getElem (lt_length_late (by decide : 12 < 13))).symm ▸
      List.take_prefix 13 _
  have hprovisions :
      ∀ step ∈ lateSteps.take 12 ++ [lateSteps.get ⟨12, lt_length_late (by decide)⟩],
      ∀ provided ∈ step.input.provisions, provided.2 = 10 ∧ provided.1.ttl = some 10 := by decide
  apply hnothing _ _ hinitial _ rfl "127.0.0.1:4000"
    ⟨"ip_for_domain@kle.io", "dns", "GLOBAL", "alpha", "10.0.0.1"⟩ (by decide)
  constructor
  · refine ⟨10, 10, by decide,
      ⟨"ip_for_domain@kle.io", "dns", "GLOBAL", "alpha", "10.0.0.1", some 10⟩, rfl, rfl, Or.inl ?_⟩
    exact ⟨lateSteps.get ⟨1, lt_length_late (by decide)⟩, List.mem_cons_of_mem _ List.mem_cons_self,
      List.mem_cons_self⟩
  · rintro ⟨time, ttl, ⟨row, hfact, httl, ⟨step, hstep, hrow⟩ | ⟨_, node, hrow⟩⟩, hlive⟩
    · -- the only provision ended at 20
      obtain ⟨htime, hten⟩ := hprovisions step hstep (row, time) hrow
      have hnow : (lateSteps.get ⟨12, lt_length_late (by decide)⟩).input.now = 22 := rfl
      rw [hnow] at hlive
      simp only at htime hten
      rw [httl, Option.some_inj] at hten
      omega
    · have hprovider : row.provider = "dns" := congrArg Fact.provider hfact
      simp only [initialTruths, List.mem_cons, List.not_mem_nil, or_false] at hrow
      rcases hrow with rfl | rfl <;> simp at hprovider

end Signpost.Expiry

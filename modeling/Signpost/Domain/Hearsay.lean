import Mathlib.Logic.Relation
import Signpost.Domain.Expiry

/-! # Where truths and questions come from

Signposts tell each other what they have been told, while channels between them are
opened and closed. Whatever the clocks read, nobody is told a truth that no tactic has
provided or that nobody asked for, and no signpost is asked for others without a need.
-/

namespace Signpost.Expiry

open Flood Flood.Channels Machine Solver

variable {α δ : Type}

/-- The signpost whose solver takes a timestep. -/
def Event.solver : Event α → Option String
  | .domain (.solve node _) => some node
  | .domain (.external node _ _) => some node
  | _ => none

section Sources

variable (signpostDomain : String) (ofString : String → α) (graph : Graph)
  (steps : List (ExpiryStep α δ))

/-- There has been a channel between the two. -/
def Met (first second : String) : Prop :=
  graph.Linked first second ∨ ∃ step ∈ steps, step.after.graph.Linked first second

/-- The one can have told the other, by way of others. -/
def Reaches : String → String → Prop := Relation.ReflTransGen (Met graph steps)

/-- A tactic of the signpost has provided the truth, or it has started with it. -/
def ProvidedAt (origin : String) (fact : Fact α) : Prop :=
  ∃ row : Provision α, row.fact = fact ∧
    (row ∈ initialTruths ⟨origin, signpostDomain, ofString⟩ ∨
      ∃ step ∈ steps, ∃ batch, step.input = .domain (.solve origin batch) ∧
        row ∈ batch.provideTruth)

def NeededAt (origin : String) (query : ResolveQuery) : Prop :=
  ∃ step ∈ steps, ∃ batch, step.input = .domain (.solve origin batch) ∧
    ∃ need ∈ batch.needTruth, query = ⟨need.what, need.userInfo, need.signpost⟩

def AskedAt (node : String) (subscription : Subscription) : Prop :=
  ∃ step ∈ steps, ∃ batch, step.input = .domain (.solve node batch) ∧
    subscription ∈ batch.interests

/-- The truth can have come to the signpost over channels. -/
def Heard (node : String) (fact : Fact α) : Prop :=
  ∃ origin, Reaches graph steps origin node ∧ ProvidedAt signpostDomain ofString steps origin fact

def HeardOf (node : String) (query : ResolveQuery) : Prop :=
  ∃ origin, Reaches graph steps origin node ∧ NeededAt steps origin query

/-- Who subscribes may be told the truth. -/
def Concerns (fact : Fact α) (subscriber : Subscription) : Prop :=
  fact.what = subscriber.what ∧ Visible fact.userInfo subscriber.userInfo ∨
    subscriber.what = alternativeWhat fact.what ∧
      AcceptsSignpost subscriber.signpost fact.signpost

/-- All that is stored, waits or is in flight has been heard. -/
structure Hearsay (state : State α δ) : Prop where
  cached : ∀ node, ∀ row ∈ (state.domain.solvers node).truths,
    Heard signpostDomain ofString graph steps node row.fact
  waiting : ∀ node, ∀ row ∈ state.domain.inboxes node,
    Heard signpostDomain ofString graph steps node row.fact
  linked : ∀ sender receiver, ∀ data ∈ state.domain.net.wires sender receiver,
    Met graph steps sender receiver
  carried : ∀ sender receiver, ∀ data ∈ state.domain.net.wires sender receiver,
    ∀ row ∈ data.truths.getD [], Heard signpostDomain ofString graph steps sender row.fact
  queries : ∀ sender receiver, ∀ data ∈ state.domain.net.wires sender receiver,
    ∀ query ∈ data.resolve, HeardOf graph steps sender query
  subscribed : ∀ node, ∀ subscriber ∈ (state.domain.solvers node).truthSubscribers,
    AskedAt steps node subscriber
  open_met : ∀ first second, state.graph.Linked first second → Met graph steps first second

/-- A message that may be on a channel. -/
structure Tellable (sender receiver : String) (data : Data α) : Prop where
  linked : Met graph steps sender receiver
  carried : ∀ row ∈ data.truths.getD [], Heard signpostDomain ofString graph steps sender row.fact
  queries : ∀ query ∈ data.resolve, HeardOf graph steps sender query

end Sources

section Sources

variable {signpostDomain : String} {ofString : String → α} {graph : Graph}
  {steps later : List (ExpiryStep α δ)} {first second : String} {node : String}

theorem Met.mono (hmet : Met graph steps first second) (hsteps : steps ⊆ later) :
    Met graph later first second := by
  refine hmet.imp_right ?_
  rintro ⟨step, hstep, hlinked⟩
  exact ⟨step, hsteps hstep, hlinked⟩

theorem Met.symm (hmet : Met graph steps first second) : Met graph steps second first := by
  rcases hmet with hlinked | ⟨step, hstep, hlinked⟩
  · exact .inl (graph.symmetric _ _ hlinked)
  · exact .inr ⟨step, hstep, step.after.graph.symmetric _ _ hlinked⟩

theorem Reaches.mono (hreaches : Reaches graph steps first second) (hsteps : steps ⊆ later) :
    Reaches graph later first second :=
  Relation.ReflTransGen.mono (fun _ _ hmet => Met.mono hmet hsteps) _ _ hreaches

theorem Heard.mono {fact : Fact α} (hheard : Heard signpostDomain ofString graph steps node fact)
    (hsteps : steps ⊆ later) : Heard signpostDomain ofString graph later node fact := by
  obtain ⟨origin, hpath, row, hfact, hrow⟩ := hheard
  refine ⟨origin, hpath.mono hsteps, row, hfact, hrow.imp_right ?_⟩
  rintro ⟨step, hstep, hprovided⟩
  exact ⟨step, hsteps hstep, hprovided⟩

theorem Heard.pass {fact : Fact α} (hheard : Heard signpostDomain ofString graph steps first fact)
    (hmet : Met graph steps first second) :
    Heard signpostDomain ofString graph steps second fact := by
  obtain ⟨origin, hpath, hprovided⟩ := hheard
  exact ⟨origin, hpath.tail hmet, hprovided⟩

theorem HeardOf.mono {query : ResolveQuery} (hheard : HeardOf graph steps node query)
    (hsteps : steps ⊆ later) : HeardOf graph later node query := by
  obtain ⟨origin, hpath, step, hstep, hneeded⟩ := hheard
  exact ⟨origin, hpath.mono hsteps, step, hsteps hstep, hneeded⟩

theorem HeardOf.pass {query : ResolveQuery} (hheard : HeardOf graph steps first query)
    (hmet : Met graph steps first second) : HeardOf graph steps second query := by
  obtain ⟨origin, hpath, hneeded⟩ := hheard
  exact ⟨origin, hpath.tail hmet, hneeded⟩

/-- What a signpost is provided with by its own tactics. -/
theorem heard_of_provided {last : ExpiryStep α δ} {batch : Batch α}
    (hinput : last.input = .domain (.solve node batch)) {row : Provision α}
    (hrow : row ∈ batch.provideTruth) :
    Heard signpostDomain ofString graph (steps ++ [last]) node row.fact :=
  ⟨node, .refl, row, rfl, .inr ⟨last, List.mem_concat_self, batch, hinput, hrow⟩⟩

/-! ## What a step keeps -/

theorem resolve_of_replies [DecidableEq δ] {digest : Data α → δ} {centre : CommunicationCentre δ}
    {now : Int} {exportable : List (Provision α)} {channel : String} {data reply : Data α}
    (hreply : reply ∈ (centre.receive digest now exportable channel data).2.replies) :
    reply.resolve = none := by
  unfold CommunicationCentre.receive at hreply
  split at hreply
  next =>
    cases haction : data.action with
    | none => simp [haction] at hreply
    | some action =>
        simp only [haction, Option.elim_some] at hreply
        unfold CommunicationCentre.performActionForRemoteSignpost at hreply
        split at hreply
        next => rw [List.mem_singleton.mp hreply]
        next =>
          split at hreply
          next =>
            split at hreply
            next => cases hreply
            next => rw [List.mem_singleton.mp hreply]
          next => cases hreply
  next => cases hreply

theorem linked_of_relayed [DecidableEq δ] {digest : Data α → δ} {net : NetState α δ} {now : Int}
    {exportable : List (Provision α)} {channel target : String} {data : Data α}
    (htarget : target ∈
      ((net.centre graph node).receive digest now exportable channel data).2.relayed.getD []) :
    graph.Linked node target := by
  unfold CommunicationCentre.receive at htarget
  split at htarget
  next =>
    dsimp only at htarget
    split at htarget
    next => exact (List.mem_filter.mp htarget).1
    next => cases htarget
  next => cases htarget

theorem question_of_receive [DecidableEq δ] {digest : Data α → δ} {net : NetState α δ} {now : Int}
    {exportable : List (Provision α)} {channel what userInfo : String} {data : Data α}
    (hquestion : (what, userInfo) ∈
      ((net.centre graph node).receive digest now exportable channel data).2.questions) :
    data.resolve = some ⟨what, userInfo, node⟩ := by
  unfold CommunicationCentre.receive at hquestion
  split at hquestion
  next =>
    cases hresolve : data.resolve with
    | none => simp [hresolve] at hquestion
    | some query =>
        simp only [hresolve, Option.elim_some] at hquestion
        split at hquestion
        next hnode =>
          obtain ⟨rfl, rfl⟩ := Prod.mk.inj (List.mem_singleton.mp hquestion)
          rw [← NetState.name_centre graph net node, ← hnode]
        next => cases hquestion
  next => cases hquestion

/-- A solver has others resolve only what it needs. -/
theorem need_of_outgoing {solver after : Solver.State α} {batch : Batch α}
    {solved : Solver.Output α} (hfires : Fires node solver batch after solved)
    {query : ResolveQuery} (hmem : .resolve query ∈ Domain.outgoing solved) :
    ∃ need ∈ batch.needTruth, query = ⟨need.what, need.userInfo, need.signpost⟩ := by
  rw [Domain.outgoing, List.mem_append] at hmem
  rcases hmem with hresolve | htruth
  · obtain ⟨call, hcall, hquery⟩ := List.mem_filterMap.mp hresolve
    rw [hfires.explorations_eq] at hcall
    obtain ⟨need, hneed, hcalled⟩ := List.mem_filterMap.mp hcall
    refine ⟨need, List.mem_dedup.mp hneed, ?_⟩
    unfold devNull1Call at hcalled
    split at hcalled
    next => cases hcalled
    next =>
      cases hcalled
      unfold explorationFor at hquery
      split at hquery
      next what userInfo signpost hexploration =>
        split at hexploration
        next => cases hexploration
        next =>
          cases hexploration
          exact (Domain.Outgoing.resolve.inj (Option.some.inj hquery)).symm
      next => cases hquery
  · obtain ⟨row, _, hrow⟩ := List.mem_map.mp htruth
    cases hrow

theorem fact_of_exportable {now : Int} {truths : List (TruthRow α)} {row : Provision α}
    (hrow : row ∈ Domain.exportableTruths now truths) :
    ∃ truth ∈ truths, truth.fact = row.fact := by
  obtain ⟨truth, htruth, hexport⟩ := List.mem_filterMap.mp hrow
  split at hexport
  next => cases hexport
  next =>
    cases hexport
    exact ⟨truth, htruth, rfl⟩

namespace Hearsay

variable {state next : State α δ}

theorem mono (hhearsay : Hearsay signpostDomain ofString graph steps state)
    (hsteps : steps ⊆ later) : Hearsay signpostDomain ofString graph later state where
  cached node row hrow := (hhearsay.cached node row hrow).mono hsteps
  waiting node row hrow := (hhearsay.waiting node row hrow).mono hsteps
  linked sender receiver data hdata := (hhearsay.linked sender receiver data hdata).mono hsteps
  carried sender receiver data hdata row hrow :=
    (hhearsay.carried sender receiver data hdata row hrow).mono hsteps
  queries sender receiver data hdata query hquery :=
    (hhearsay.queries sender receiver data hdata query hquery).mono hsteps
  subscribed node subscriber hsubscriber := by
    obtain ⟨step, hstep, hasked⟩ := hhearsay.subscribed node subscriber hsubscriber
    exact ⟨step, hsteps hstep, hasked⟩
  open_met first second hlinked := (hhearsay.open_met first second hlinked).mono hsteps

theorem tellable (hhearsay : Hearsay signpostDomain ofString graph steps state)
    {sender receiver : String} {data : Data α}
    (hdata : data ∈ state.domain.net.wires sender receiver) :
    Tellable signpostDomain ofString graph steps sender receiver data :=
  ⟨hhearsay.linked _ _ _ hdata, hhearsay.carried _ _ _ hdata, hhearsay.queries _ _ _ hdata⟩

/-- Channels and the subscriptions stay, and messages that may be there are on the channels. -/
theorem of_tellable (hhearsay : Hearsay signpostDomain ofString graph steps state)
    {domain : Domain.State α δ}
    (hcached : ∀ node, ∀ row ∈ (domain.solvers node).truths,
      Heard signpostDomain ofString graph steps node row.fact)
    (hwaiting : ∀ node, ∀ row ∈ domain.inboxes node,
      Heard signpostDomain ofString graph steps node row.fact)
    (htellable : ∀ sender receiver, ∀ data ∈ domain.net.wires sender receiver,
      Tellable signpostDomain ofString graph steps sender receiver data)
    (hsubscribed : ∀ node, ∀ subscriber ∈ (domain.solvers node).truthSubscribers,
      AskedAt steps node subscriber) :
    Hearsay signpostDomain ofString graph steps { state with domain } where
  cached := hcached
  waiting := hwaiting
  linked sender receiver data hdata := (htellable sender receiver data hdata).linked
  carried sender receiver data hdata := (htellable sender receiver data hdata).carried
  queries sender receiver data hdata := (htellable sender receiver data hdata).queries
  subscribed := hsubscribed
  open_met := hhearsay.open_met

theorem initial [DecidableEq α] (signpostDomain : String) (ofString : String → α) (graph : Graph)
    (start : Int) :
    Hearsay signpostDomain ofString graph ([] : List (ExpiryStep α δ))
      (initial graph signpostDomain ofString start) where
  cached node row hrow := by
    obtain ⟨provision, hprovision, hstored⟩ := List.mem_filterMap.mp (mem_initial_truths.mp hrow)
    obtain ⟨hfact, _⟩ := storedRow_eq_some_iff.mp hstored
    exact ⟨node, .refl, provision, hfact.symm, .inl hprovision⟩
  waiting _ _ hrow := absurd hrow List.not_mem_nil
  linked _ _ _ hdata := absurd hdata List.not_mem_nil
  carried _ _ _ hdata := absurd hdata List.not_mem_nil
  queries _ _ _ hdata := absurd hdata List.not_mem_nil
  subscribed _ _ hsubscriber := absurd hsubscriber List.not_mem_nil
  open_met _ _ hlinked := .inl hlinked

/-- A message arrives, is sent on, and may be answered. -/
theorem deliver [DecidableEq α] [DecidableEq δ] {digest : Data α → δ}
    (hhearsay : Hearsay signpostDomain ofString graph steps state) {sender receiver : String}
    {now : Int} {data : Data α} {rest : List (Data α)}
    (hhead : state.domain.net.wires sender receiver = data :: rest) :
    Hearsay signpostDomain ofString graph steps
      { state with domain :=
          (Domain.deliver state.graph digest state.domain sender receiver now data).1 } := by
  have hmem : data ∈ state.domain.net.wires sender receiver := hhead ▸ List.mem_cons_self
  have hmet := hhearsay.linked sender receiver data hmem
  have hdata : ∀ row ∈ data.truths.getD [],
      Heard signpostDomain ofString graph steps receiver row.fact :=
    fun row hrow => (hhearsay.carried sender receiver data hmem row hrow).pass hmet
  have hquery : ∀ query ∈ data.resolve, HeardOf graph steps receiver query :=
    fun query hquery => (hhearsay.queries sender receiver data hmem query hquery).pass hmet
  refine hhearsay.of_tellable hhearsay.cached (fun node row hrow => ?_)
    (fun first last other hother => ?_) hhearsay.subscribed
  · by_cases hnode : node = receiver
    · subst hnode
      simp only [Domain.deliver, Domain.State.setInbox, Function.update_self,
        List.mem_append] at hrow
      rcases hrow with hold | hnew
      · exact hhearsay.waiting node row hold
      · exact hdata row (external_of_receive hnew)
    · simp only [Domain.deliver, Domain.State.setInbox, Function.update_of_ne hnode] at hrow
      exact hhearsay.waiting node row hrow
  · -- a message that is new on a channel is relayed, or an answer from the cache
    rcases mem_sendAll hother with hsent | ⟨rfl, hlast, hreply⟩
    · rcases mem_send.mp hsent with hold | ⟨rfl, hlast, rfl⟩
      · exact hhearsay.tellable (mem_of_mem_take hold)
      · exact ⟨hhearsay.open_met _ _ (linked_of_relayed hlast), hdata, hquery⟩
    · refine ⟨List.mem_singleton.mp hlast ▸ hmet.symm, fun row hrow => ?_, ?_⟩
      · obtain ⟨truth, htruth, hfact⟩ := fact_of_exportable (truths_of_replies hreply hrow)
        exact hfact ▸ hhearsay.cached _ truth htruth
      · rw [resolve_of_replies hreply]
        exact fun _ hquery => by cases hquery

/-- What a solver has its centre send. -/
theorem tellable_of_outgoing {peer : String} {solver after : Solver.State α} {batch : Batch α}
    {solved : Solver.Output α} {data : Data α} (hmet : Met graph steps node peer)
    (hfires : Fires node solver batch after solved)
    (hprovided : ∀ row ∈ batch.provided, Heard signpostDomain ofString graph steps node row.fact)
    (hneeded : ∀ need ∈ batch.needTruth,
      HeardOf graph steps node ⟨need.what, need.userInfo, need.signpost⟩)
    (hdata : data ∈ (Domain.outgoing solved).map Domain.Outgoing.data) :
    Tellable signpostDomain ofString graph steps node peer data := by
  obtain ⟨out, hout, rfl⟩ := List.mem_map.mp hdata
  cases out with
  | truth sent =>
      have hlocal : sent ∈ batch.provideTruth := (hfires.mem_distributed sent).mp
        (Domain.mem_outgoing_truth.mp (List.mem_map.mpr ⟨_, hout, rfl⟩))
      refine ⟨hmet, fun row hrow => ?_, fun _ hquery => by cases hquery⟩
      obtain rfl : row = sent := List.mem_singleton.mp hrow
      exact hprovided row (List.mem_append_right _ hlocal)
  -- what is resolved by others is what is needed here
  | resolve query =>
      refine ⟨hmet, fun _ hrow => (List.not_mem_nil hrow).elim, fun other hother => ?_⟩
      obtain rfl : query = other := Option.some.inj hother
      obtain ⟨need, hneed, rfl⟩ := need_of_outgoing hfires hout
      exact hneeded need hneed

/-- A timestep stores and sends what it is provided with, and what it needs. -/
theorem solve [DecidableEq α] [DecidableEq δ] {digest : Data α → δ} {output : Domain.Output α}
    {domain : Domain.State α δ} (hhearsay : Hearsay signpostDomain ofString graph steps state)
    {batch : Batch α} (hprovided : ∀ row ∈ batch.provided,
      Heard signpostDomain ofString graph steps node row.fact)
    (hneeded : ∀ need ∈ batch.needTruth,
      HeardOf graph steps node ⟨need.what, need.userInfo, need.signpost⟩)
    (hasked : ∀ interest ∈ batch.interests, AskedAt steps node interest)
    (hok : Domain.solve state.graph digest state.domain node batch = .ok (domain, output)) :
    Hearsay signpostDomain ofString graph steps { state with domain } := by
  obtain ⟨solver, solved, hfires, hsolvers, hinboxes, hwires, hsent⟩ := Domain.solve_cases hok
  refine hhearsay.of_tellable (fun other row hrow => ?_) (fun other row hrow => ?_)
    (fun first last data hdata => ?_) fun other subscriber hsubscriber => ?_
  -- a truth in the cache is provided in this timestep, or was there
  · rw [hsolvers] at hrow
    by_cases hother : other = node
    · subst hother
      rw [Function.update_self] at hrow
      rcases (hfires.mem_truths row).mp hrow with hstored | ⟨hold, _⟩
      · obtain ⟨provision, hprovision, hstored⟩ := List.mem_filterMap.mp hstored
        obtain ⟨hfact, _⟩ := storedRow_eq_some_iff.mp hstored
        exact hfact ▸ hprovided provision hprovision
      · exact hhearsay.cached other row hold
    · rw [Function.update_of_ne hother] at hrow
      exact hhearsay.cached other row hrow
  · exact hhearsay.waiting other row (hinboxes ▸ hrow)
  · rw [hwires] at hdata
    rcases mem_sendAll hdata with hold | ⟨rfl, hlast, hnew⟩
    · exact hhearsay.tellable hold
    · rw [hsent] at hnew
      exact tellable_of_outgoing (hhearsay.open_met _ _ hlast) hfires hprovided hneeded hnew
  · rw [hsolvers] at hsubscriber
    by_cases hother : other = node
    · subst hother
      rw [Function.update_self] at hsubscriber
      rcases (hfires.mem_truthSubscribers subscriber).mp hsubscriber with hnow | ⟨hold, _⟩
      · exact hasked subscriber hnow
      · exact hhearsay.subscribed other subscriber hold
    · rw [Function.update_of_ne hother] at hsubscriber
      exact hhearsay.subscribed other subscriber hsubscriber

/-- A solver takes a received truth from its inbox. -/
theorem setInbox (hhearsay : Hearsay signpostDomain ofString graph steps state)
    {row : Provision α} {rest : List (Provision α)}
    (hinbox : state.domain.inboxes node = row :: rest) :
    Hearsay signpostDomain ofString graph steps
      { state with domain := state.domain.setInbox node rest } := by
  refine ⟨hhearsay.cached, fun other waiting hwaiting => ?_, hhearsay.linked, hhearsay.carried,
    hhearsay.queries, hhearsay.subscribed, hhearsay.open_met⟩
  by_cases hother : other = node
  · subst hother
    simp only [Domain.State.setInbox, Function.update_self] at hwaiting
    exact hhearsay.waiting other waiting (hinbox ▸ List.mem_cons_of_mem row hwaiting)
  · simp only [Domain.State.setInbox, Function.update_of_ne hother] at hwaiting
    exact hhearsay.waiting other waiting hwaiting

/-- Channels are opened and closed, and questions without truths are sent. -/
theorem setGraph (hhearsay : Hearsay signpostDomain ofString graph steps state) {opened : Graph}
    (hopened : ∀ first second, opened.Linked first second → Met graph steps first second) :
    Hearsay signpostDomain ofString graph steps { state with graph := opened } :=
  ⟨hhearsay.cached, hhearsay.waiting, hhearsay.linked, hhearsay.carried, hhearsay.queries,
    hhearsay.subscribed, hopened⟩

theorem reply (hhearsay : Hearsay signpostDomain ofString graph steps state) {peer : String}
    (hmet : Met graph steps node peer) :
    Hearsay signpostDomain ofString graph steps
      { state with domain :=
          { state.domain with net := state.domain.net.reply node peer newChannelData } } := by
  refine hhearsay.of_tellable hhearsay.cached hhearsay.waiting (fun first last data hdata => ?_)
    hhearsay.subscribed
  rcases mem_sendAll hdata with hold | ⟨rfl, hlast, hasked⟩
  · exact hhearsay.tellable hold
  · have hempty : data.truths = none ∧ data.resolve = none := by
      simp only [newChannelData, List.mem_cons, List.not_mem_nil, or_false] at hasked
      rcases hasked with rfl | rfl <;> exact ⟨rfl, rfl⟩
    refine ⟨List.mem_singleton.mp hlast ▸ hmet, ?_, ?_⟩
    · rw [hempty.1]
      exact fun _ hrow => absurd hrow List.not_mem_nil
    · rw [hempty.2]
      exact fun _ hquery => by cases hquery

variable [DecidableEq α] [DecidableEq δ] {digest : Data α → δ}

theorem step {event : Event α} {output : Domain.Output α}
    (hhearsay : Hearsay signpostDomain ofString graph steps state)
    (hok : step digest state event = .ok (next, output)) :
    Hearsay signpostDomain ofString graph (steps ++ [⟨state, event, output, next⟩]) next := by
  have hsteps := hhearsay.mono (List.subset_append_left steps [⟨state, event, output, next⟩])
  have hopened : ∀ first second, next.graph.Linked first second →
      Met graph (steps ++ [⟨state, event, output, next⟩]) first second :=
    fun first second hlinked => .inr ⟨_, List.mem_concat_self, hlinked⟩
  cases event with
  | domain input =>
      simp only [Expiry.step] at hok
      split at hok
      next => cases hok
      next domain result hdomain =>
      obtain ⟨rfl, rfl⟩ := Prod.mk.inj (Except.ok.inj hok)
      cases input with
      | solve node batch =>
          obtain ⟨_, hexternal, hsolve⟩ := Domain.step_solve hdomain
          refine hsteps.solve (fun row hrow => ?_) (fun need hneed => ?_) (fun interest hinterest =>
            ⟨_, List.mem_concat_self, batch, rfl, hinterest⟩) hsolve
          · rw [Batch.provided, hexternal, List.nil_append] at hrow
            exact heard_of_provided rfl hrow
          · exact ⟨node, .refl, _, List.mem_concat_self, batch, rfl, need, hneed, rfl⟩
      | external node timer now =>
          obtain ⟨row, rest, hinbox, hsolve⟩ := Domain.step_external hdomain
          -- all that the solver is provided with is what was waiting for it
          refine (hsteps.setInbox hinbox).solve (fun received hreceived => ?_)
            (fun _ hneed => by cases hneed) (fun _ hinterest => by cases hinterest) hsolve
          obtain rfl := List.mem_singleton.mp hreceived
          exact hsteps.waiting node received (hinbox ▸ List.mem_cons_self)
      | deliver sender receiver now =>
          obtain ⟨data, rest, hhead, hdeliver⟩ := Domain.step_deliver hdomain
          obtain rfl := (Prod.mk.inj hdeliver).1
          exact hsteps.deliver hhead
      | pruneBroadcastCache node now =>
          obtain ⟨rfl, _⟩ := Prod.mk.inj (Except.ok.inj hdomain)
          exact ⟨hsteps.cached, hsteps.waiting, hsteps.linked, hsteps.carried, hsteps.queries,
            hsteps.subscribed, hsteps.open_met⟩
  | newChannel opened node peer now =>
      simp only [Expiry.step] at hok
      split at hok
      next => cases hok
      next hpeer =>
        obtain ⟨rfl, rfl⟩ := Prod.mk.inj (Except.ok.inj hok)
        exact (hsteps.setGraph hopened).reply (hopened node peer (not_not.mp hpeer))
  | channelClosed remaining now =>
      obtain ⟨rfl, rfl⟩ := Prod.mk.inj (Except.ok.inj hok)
      exact hsteps.setGraph hopened

theorem of_run {start : Int}
    (hrun : ExpiryRun digest graph signpostDomain ofString start steps state) :
    Hearsay signpostDomain ofString graph steps state := by
  induction hrun with
  | start => exact Hearsay.initial signpostDomain ofString graph start
  | extend prior hok ih => exact ih.step hok

end Hearsay

/-! ## What is told and asked -/

/-- Everybody who is told a truth has asked for it where it has been heard, and every
signpost that is asked by others is the one that was needed. -/
structure Sourced (signpostDomain : String) (ofString : String → α) (graph : Graph)
    (steps : List (ExpiryStep α δ)) (last : ExpiryStep α δ) : Prop where
  told : ∀ solved, last.output.solved = some solved → ∀ who fact,
    (who, fact) ∈ solved.neededTruth → ∃ node, last.input.solver = some node ∧
      Heard signpostDomain ofString graph (steps ++ [last]) node fact ∧
      ∃ subscriber, AskedAt (steps ++ [last]) node subscriber ∧ subscriber.who = who ∧
        Concerns fact subscriber
  asked : ∀ received, last.output.received = some received → ∀ what userInfo,
    (what, userInfo) ∈ received.questions →
      ∃ sender node now, last.input = .domain (.deliver sender node now) ∧
        HeardOf graph steps node ⟨what, userInfo, node⟩

/-- What a timestep tells is in its cache or has been provided in it, and the receiver is
one of its needs or a subscriber. -/
theorem Hearsay.told {state : State α δ} {solver : Solver.State α} {batch : Batch α}
    {solved : Solver.Output α} (hhearsay : Hearsay signpostDomain ofString graph steps state)
    (hprovided : ∀ row ∈ batch.provided,
      Heard signpostDomain ofString graph steps node row.fact)
    (hneeded : ∀ need ∈ batch.needTruth, AskedAt steps node need)
    (hfires : Fires node (state.domain.solvers node) batch solver solved) {who : String}
    {fact : Fact α} (htold : (who, fact) ∈ solved.neededTruth) :
    Heard signpostDomain ofString graph steps node fact ∧
      ∃ subscriber, AskedAt steps node subscriber ∧ subscriber.who = who ∧
        Concerns fact subscriber := by
  -- the answer to a need, a push to a subscriber, or one to a subscriber of anything
  rcases List.mem_append.mp htold with hanswered | hpushes
  · obtain ⟨row, hrow, need, hneed, hanswers, rfl, rfl⟩ :=
      (hfires.mem_answered who fact).mp hanswered
    exact ⟨hhearsay.cached node row hrow, need, hneeded need hneed, rfl,
      .inl ⟨hanswers.1, hanswers.2.1.1⟩⟩
  · rcases List.mem_append.mp hpushes with hpushed | hpushed
    · obtain ⟨row, hrow, subscriber, hsubscriber, hwhat, hvisible, rfl, rfl⟩ :=
        (hfires.mem_pushed who fact).mp hpushed
      exact ⟨hprovided row hrow, subscriber, hhearsay.subscribed node subscriber hsubscriber, rfl,
        .inl ⟨hwhat, hvisible⟩⟩
    · obtain ⟨row, hrow, subscriber, hsubscriber, hwhat, haccepts, rfl, rfl⟩ :=
        (hfires.mem_pushedAny who fact).mp hpushed
      exact ⟨hprovided row hrow, subscriber, hhearsay.subscribed node subscriber hsubscriber, rfl,
        .inr ⟨hwhat, haccepts⟩⟩

variable [DecidableEq α] [DecidableEq δ] {digest : Data α → δ} {start : Int}

/-- Only a message from another signpost is received. -/
theorem received_cases {state next : State α δ} {event : Event α} {output : Domain.Output α}
    (hok : step digest state event = .ok (next, output)) {received : Received α}
    (hreceived : output.received = some received) :
    ∃ sender receiver now data rest, event = .domain (.deliver sender receiver now) ∧
      state.domain.net.wires sender receiver = data :: rest ∧
      received = ((state.domain.net.centre state.graph receiver).receive digest now
        (Domain.exportableTruths now (state.domain.solvers receiver).truths.rows) sender
          data).2 := by
  cases event with
  | domain input =>
      have hdomain := step_domain hok
      cases input with
      | solve node batch =>
          obtain ⟨_, _, _, _, rfl⟩ := Domain.solve_eq_ok (Domain.step_solve hdomain).2.2
          cases hreceived
      | external node timer now =>
          obtain ⟨_, _, _, hsolve⟩ := Domain.step_external hdomain
          obtain ⟨_, _, _, _, rfl⟩ := Domain.solve_eq_ok hsolve
          cases hreceived
      | deliver sender receiver now =>
          obtain ⟨data, rest, hhead, hdeliver⟩ := Domain.step_deliver hdomain
          rw [← (Prod.mk.inj hdeliver).2] at hreceived
          exact ⟨sender, receiver, now, data, rest, rfl, hhead, (Option.some.inj hreceived).symm⟩
      | pruneBroadcastCache node now =>
          rw [← (Prod.mk.inj (Except.ok.inj hdomain)).2] at hreceived
          cases hreceived
  | newChannel opened node peer now =>
      simp only [step] at hok
      split at hok
      next => cases hok
      next =>
        rw [← (Prod.mk.inj (Except.ok.inj hok)).2] at hreceived
        cases hreceived
  | channelClosed remaining now =>
      rw [← (Prod.mk.inj (Except.ok.inj hok)).2] at hreceived
      cases hreceived

/-- Whatever the clocks read, and whichever channels are opened and closed. -/
theorem sourced_of_run {state : State α δ}
    (hrun : ExpiryRun digest graph signpostDomain ofString start steps state)
    {earlier : List (ExpiryStep α δ)} {last : ExpiryStep α δ}
    (hinitial : earlier ++ [last] <+: steps) :
    Sourced signpostDomain ofString graph earlier last := by
  obtain ⟨hprior, hok⟩ := hrun.of_isPrefix hinitial
  have hbefore := Hearsay.of_run hprior
  have hhearsay := hbefore.mono (List.subset_append_left earlier [last])
  have hlast : last ∈ earlier ++ [last] := List.mem_concat_self
  obtain ⟨before, event, output, after⟩ := last
  constructor
  case told =>
    intro solved hsolved who fact htold
    obtain ⟨node, batch, solver, _, hfires, ⟨rfl, hlocal⟩ | ⟨timer, _, _, rfl, _⟩⟩ :=
      solved_cases hok hsolved
    · refine ⟨node, rfl, hhearsay.told (fun row hrow => ?_) (fun need hneed => ?_) hfires htold⟩
      · exact heard_of_provided rfl (hlocal ▸ hrow)
      · exact ⟨_, hlast, batch, rfl, mem_interests.mpr (.inl hneed)⟩
    -- the truth that is told has been taken from the inbox in the same step
    · obtain ⟨row, rest, hinbox, hsolve⟩ := Domain.step_external (step_domain hok)
      obtain ⟨solver, other, hexternal, _, rfl⟩ := Domain.solve_eq_ok hsolve
      obtain rfl := Option.some.inj hsolved
      refine ⟨node, rfl, (hhearsay.setInbox hinbox).told (fun received hreceived => ?_)
        (fun _ hneed => by cases hneed) hexternal htold⟩
      obtain rfl := List.mem_singleton.mp hreceived
      exact hhearsay.waiting node received (hinbox ▸ List.mem_cons_self)
  case asked =>
    intro received hreceived what userInfo hquestion
    obtain ⟨sender, receiver, now, data, rest, hevent, hhead, rfl⟩ :=
      received_cases hok hreceived
    have hmem : data ∈ before.domain.net.wires sender receiver := hhead ▸ List.mem_cons_self
    have hquery := hbefore.queries sender receiver data hmem _ (question_of_receive hquestion)
    exact ⟨sender, receiver, now, hevent, hquery.pass (hbefore.linked sender receiver data hmem)⟩

end Sources

/-- Beta is told, by way of its observer, what alpha has been provided with. -/
theorem sourced_of_run_late :
    Sourced "probsteide.com" id apart (lateSteps.take 12)
      (lateSteps.get ⟨12, lt_length_late (by decide)⟩) := by
  have hinitial :
      lateSteps.take 12 ++ [lateSteps.get ⟨12, lt_length_late (by decide)⟩] <+: lateSteps :=
    (List.take_succ_eq_append_getElem (lt_length_late (by decide : 12 < 13))).symm ▸
      List.take_prefix 13 _
  exact sourced_of_run (run_record (step id) (initial apart "probsteide.com" id 0) lateEvents)
    hinitial

end Signpost.Expiry

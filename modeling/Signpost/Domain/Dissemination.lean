import Signpost.Comms.Relay
import Signpost.Domain.System

/-! # What is in flight in a domain

A timestep sends every message to all neighbours of its signpost. A message that
arrives is dropped, or it is sent on and its truths are queued for the solver.
-/

namespace Signpost.Domain

open Flood Flood.Channels Machine

variable {α δ : Type}

/-- The message in which a truth is distributed. -/
def message (row : Provision α) : Data α := { truths := some [row] }

theorem message_inj {row other : Provision α} : message row = message other ↔ row = other := by
  simp [message]

/-- All messages that the signposts have sent of their own. -/
def sent (steps : List (DomainStep α δ)) : List (Data α) :=
  steps.flatMap fun step => step.output.sent

variable {graph : Graph} {digest : Data α → δ} {signpostDomain : String} {ofString : String → α}
  {start : Int} {state next : State α δ} {output : Output α} {node : String} {now : Int}

theorem spreads_data (out : Outgoing α) : out.data.Spreads := by
  cases out with
  | truth row => exact ⟨Or.inl rfl, rfl⟩
  | resolve query => exact ⟨Or.inr rfl, rfl⟩

/-! ## Sending -/

variable [DecidableEq δ]

/-- Every message of a signpost goes to all of its neighbours. -/
theorem wires_send (net : NetState α δ) (out : Outgoing α) :
    (send graph digest node now net out).wires =
      net.wires.send node (graph.neighbours node) out.data := by
  cases out with
  | truth row => rfl
  | resolve query =>
      rw [← Network.filter_neighbours]
      rfl

theorem wires_foldl_send (net : NetState α δ) (outs : List (Outgoing α)) :
    (outs.foldl (send graph digest node now) net).wires =
      net.wires.sendAll node (graph.neighbours node) (outs.map Outgoing.data) := by
  induction outs generalizing net with
  | nil => rfl
  | cons out outs ih =>
      rw [List.foldl_cons, ih, wires_send]
      rfl

theorem mem_outgoing_truth {solved : Solver.Output α} {row : Provision α} :
    message row ∈ (outgoing solved).map Outgoing.data ↔ row ∈ solved.distributed := by
  rw [outgoing, List.map_append, List.mem_append, List.map_map]
  constructor
  · rintro (hresolve | htruth)
    · obtain ⟨out, hout, hdata⟩ := List.mem_map.mp hresolve
      obtain ⟨call, _, hcall⟩ := List.mem_filterMap.mp hout
      split at hcall
      next =>
        cases hcall
        simp [message, Outgoing.data] at hdata
      next => cases hcall
    · obtain ⟨other, hother, hdata⟩ := List.mem_map.mp htruth
      exact message_inj.mp hdata ▸ hother
  · exact fun hmem => Or.inr (List.mem_map.mpr ⟨row, hmem, rfl⟩)

/-! ## Arrival -/

/-- A message that arrives is either known and dropped, or new and sent on. -/
theorem deliver_cases {sender receiver : String} {data : Data α} (hspreads : data.Spreads)
    (hdeliver : deliver graph digest state sender receiver now data = (next, output)) :
    ∃ received, output = { received := some received } ∧ next.solvers = state.solvers ∧
      next.inboxes = Function.update state.inboxes receiver
        (state.inboxes receiver ++ received.external) ∧
      ((state.net.Remembers digest receiver data ∧ received.external = [] ∧
          next.net.wires = state.net.wires.take sender receiver) ∨
        (¬ state.net.Remembers digest receiver data ∧ received.external = data.truths.getD [] ∧
          next.net.wires = (state.net.wires.take sender receiver).send receiver
            ((graph.neighbours receiver).filter fun name => name ≠ sender) data)) := by
  obtain ⟨rfl, rfl⟩ := Prod.mk.inj hdeliver
  refine ⟨(Network.deliver graph digest state.net sender receiver
    (exportableTruths now (state.solvers receiver).truths.rows) now data).2, rfl, rfl, rfl, ?_⟩
  by_cases hknown : state.net.Remembers digest receiver data
  · have hdropped := Network.deliver_known graph sender
      (exportableTruths now (state.solvers receiver).truths.rows) now hknown
    exact Or.inl ⟨hknown, congrArg (fun result => result.2.external) hdropped,
      congrArg (fun result => result.1.wires) hdropped⟩
  · obtain ⟨hnet, _, _, hexternal⟩ := Network.deliver_new graph sender
      (exportableTruths now (state.solvers receiver).truths.rows) now hknown hspreads
    exact Or.inr ⟨hknown, hexternal, congrArg NetState.wires hnet⟩

/-! ## Timesteps -/

variable [DecidableEq α]

/-- What a timestep does to everything but the caches. -/
theorem solve_cases {batch : Solver.Batch α}
    (hok : solve graph digest state node batch = .ok (next, output)) :
    ∃ solver solved, Solver.Fires node (state.solvers node) batch solver solved ∧
      next.solvers = Function.update state.solvers node solver ∧ next.inboxes = state.inboxes ∧
      next.net.wires = state.net.wires.sendAll node (graph.neighbours node) output.sent ∧
      output.sent = (outgoing solved).map Outgoing.data := by
  obtain ⟨solver, solved, hfires, rfl, rfl⟩ := solve_eq_ok hok
  exact ⟨solver, solved, hfires, rfl, rfl, wires_foldl_send _ _, rfl⟩

/-! ## Every run -/

/-- Every message in flight is on a link, and has been sent by a timestep of a
solver. -/
theorem sent_of_wire {steps : List (DomainStep α δ)}
    (hrun : DomainRun graph digest signpostDomain ofString start steps state)
    {sender receiver : String} {data : Data α} (hmem : data ∈ state.net.wires sender receiver) :
    graph.Linked sender receiver ∧ data ∈ sent steps ∧ ∃ out : Outgoing α, out.data = data := by
  induction hrun generalizing sender receiver data with
  | start => cases hmem
  | @extend steps state next event output prior hok ih =>
      have hsent : sent (steps ++ [⟨state, event, output, next⟩]) = sent steps ++ output.sent := by
        simp [sent]
      rw [hsent, List.mem_append]
      have hold : data ∈ state.net.wires sender receiver → graph.Linked sender receiver ∧
          (data ∈ sent steps ∨ data ∈ output.sent) ∧ ∃ out : Outgoing α, out.data = data :=
        fun hmem => (ih hmem).imp_right fun h => h.imp_left Or.inl
      have hsolve : ∀ (before : State α δ) (node : String) (batch : Solver.Batch α),
          before.net = state.net → solve graph digest before node batch = .ok (next, output) →
            graph.Linked sender receiver ∧ (data ∈ sent steps ∨ data ∈ output.sent) ∧
              ∃ out : Outgoing α, out.data = data := by
        intro before node batch hnet hok
        obtain ⟨_, solved, _, _, _, hwires, hsolved⟩ := solve_cases hok
        rw [hwires, hnet] at hmem
        rcases mem_sendAll hmem with hmem | ⟨rfl, hlinked, hmem⟩
        · exact hold hmem
        · refine ⟨hlinked, Or.inr hmem, ?_⟩
          rw [hsolved] at hmem
          obtain ⟨out, _, hdata⟩ := List.mem_map.mp hmem
          exact ⟨out, hdata⟩
      cases event with
      | solve node batch => exact hsolve state node batch rfl (step_solve hok).2.2
      | external node timer time =>
          obtain ⟨row, rest, _, hok⟩ := step_external hok
          exact hsolve (state.setInbox node rest) node _ rfl hok
      | deliver first last time =>
          obtain ⟨arrived, rest, hhead, hdeliver⟩ := step_deliver hok
          -- what is relayed has been in flight before
          obtain ⟨_, hsentBefore, out, rfl⟩ := ih (hhead ▸ List.mem_cons_self)
          obtain ⟨_, _, _, _, ⟨_, _, hwires⟩ | ⟨_, _, hwires⟩⟩ :=
            deliver_cases (spreads_data out) hdeliver
          · rw [hwires] at hmem
            exact hold (mem_of_mem_take hmem)
          · rw [hwires] at hmem
            rcases mem_send.mp hmem with hmem | ⟨rfl, hlinked, rfl⟩
            · exact hold (mem_of_mem_take hmem)
            · exact ⟨(List.mem_filter.mp hlinked).1, Or.inl hsentBefore, out, rfl⟩
      | pruneBroadcastCache node time =>
          obtain ⟨rfl, _⟩ := Prod.mk.inj (Except.ok.inj hok)
          exact hold hmem

end Signpost.Domain

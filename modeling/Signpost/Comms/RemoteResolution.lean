import Mathlib.Tactic.IntervalCases
import Signpost.Comms.Relay

/-! # Remote resolutions that are made more than once

A remote resolution is flooded, and every copy of it belongs to the call that it
comes from. Signposts do not see that: a copy of a new call is dropped as one of
an earlier call with the same question, as long as that is remembered.
-/

namespace Signpost.Network

open Flood Flood.Channels Machine

variable {α δ : Type}

/-! ## Which call a copy belongs to -/

/-- What one step does to the copies in flight, each of which carries the number
of the step that first sent it. -/
def trackStep (graph : Graph) (number : ℕ) (copies : Channels String (Data α × ℕ))
    (step : NetStep α δ) : Channels String (Data α × ℕ) :=
  match step.input, step.output with
  | _, .injected node data => copies.send node (graph.neighbours node) (data, number)
  | .deliver sender receiver _ _, .arrived _ _ received =>
      match copies sender receiver with
      | [] => copies
      | copy :: _ =>
          if received.handled then
            (copies.take sender receiver).send receiver
              ((graph.neighbours receiver).filter fun name => name ≠ sender) copy
          else copies.take sender receiver
  | _, _ => copies

def track (graph : Graph) (steps : List (NetStep α δ)) : ℕ × Channels String (Data α × ℕ) :=
  steps.foldl (fun tracked step => (tracked.1 + 1, trackStep graph tracked.1 tracked.2 step))
    (0, Channels.empty)

/-- The copies in flight after a record of steps. -/
def copies (graph : Graph) (steps : List (NetStep α δ)) : Channels String (Data α × ℕ) :=
  (track graph steps).2

theorem track_fst (graph : Graph) (steps : List (NetStep α δ)) :
    (track graph steps).1 = steps.length := by
  induction steps using List.reverseRecOn with
  | nil => rfl
  | append_singleton steps last ih =>
      rw [track, List.foldl_append, ← track, List.foldl_cons, List.foldl_nil, ih,
        List.length_append]
      rfl

theorem copies_concat (graph : Graph) (steps : List (NetStep α δ)) (last : NetStep α δ) :
    copies graph (steps ++ [last]) = trackStep graph steps.length (copies graph steps) last := by
  rw [copies, track, List.foldl_append, ← track, List.foldl_cons, List.foldl_nil, track_fst]
  rfl

/-- The signpost takes a copy of the call in a step. -/
def Takes (graph : Graph) (earlier : List (NetStep α δ)) (now : NetStep α δ) (call : ℕ)
    (node : String) : Prop :=
  ∃ sender exportable time data rest received, now.input = .deliver sender node exportable time ∧
    now.output = .arrived node data received ∧ received.handled = true ∧
    copies graph earlier sender node = (data, call) :: rest

def Taken (graph : Graph) (steps : List (NetStep α δ)) (call : ℕ) (node : String) : Prop :=
  ∃ earlier now later, steps = earlier ++ now :: later ∧ Takes graph earlier now call node

/-- The step of the number is a call of the signpost, which sends the question. -/
def Calls (steps : List (NetStep α δ)) (call : ℕ) (node : String) (query : ResolveQuery) : Prop :=
  ∃ step, steps[call]? = some step ∧ step.output = .injected node { resolve := some query }

/-! ## Calls that are answered -/

/-- The signpost that the question is for asks its solver. -/
def Executes (step : NetStep α δ) (query : ResolveQuery) : Prop :=
  ∃ data received, step.output = .arrived query.signpost data received ∧
    (query.what, query.userInfo) ∈ received.questions

/-- With nothing in flight, every call has been followed by a resolution at the
signpost that it is for. -/
def Resolved (graph : Graph) (steps : List (NetStep α δ)) (state : NetState α δ) : Prop :=
  state.wires.Quiet → ∀ earlier now later, steps = earlier ++ now :: later →
    ∀ node query time, now.input = .remoteResolve node query time →
      query.signpost ∈ graph.nodes → ∃ step ∈ later, Executes step query

/-- A signpost resolves its own names itself. -/
def CallsOthers (steps : List (NetStep α δ)) : Prop :=
  ∀ step ∈ steps, ∀ node query now, step.input = .remoteResolve node query now →
    query.signpost ≠ node

/-- A question that arrives and is remembered belongs to a call of which the
signpost has taken a copy, or to its own. -/
def KnownFromItsCall (graph : Graph) (digest : Data α → δ) (steps : List (NetStep α δ)) : Prop :=
  ∀ earlier now later, steps = earlier ++ now :: later →
    ∀ sender receiver exportable time query call rest,
      now.input = .deliver sender receiver exportable time →
      copies graph earlier sender receiver = ({ resolve := some query }, call) :: rest →
      now.before.Remembers digest receiver { resolve := some query } →
      Calls earlier call receiver query ∨ Taken graph earlier call receiver

theorem taken_concat {graph : Graph} {steps : List (NetStep α δ)} {last : NetStep α δ} {call : ℕ}
    {node : String} :
    Taken graph (steps ++ [last]) call node ↔
      Taken graph steps call node ∨ Takes graph steps last call node := by
  constructor
  · rintro ⟨earlier, now, later, hsteps, htakes⟩
    rcases append_cons_eq_concat.mp hsteps.symm with ⟨rfl, rfl, _⟩ | ⟨rest, _, hbefore⟩
    · exact Or.inr htakes
    · exact Or.inl ⟨earlier, now, rest, hbefore.symm, htakes⟩
  · rintro (⟨earlier, now, later, rfl, htakes⟩ | htakes)
    · exact ⟨earlier, now, later ++ [last], by simp, htakes⟩
    · exact ⟨steps, last, [], rfl, htakes⟩

/-! ## What a step does to the copies -/

/-- What a step does to the wires. -/
inductive Carries (graph : Graph) (digest : Data α → δ) (step : NetStep α δ) : Prop
  | sends (node : String) (data : Data α) (hnode : node ∈ graph.nodes) (hspreads : data.Spreads)
      (houtput : step.output = .injected node data)
      (hwires : step.after.wires = step.before.wires.send node (graph.neighbours node) data)
  | drops (sender receiver : String) (exportable : List (Provision α)) (now : Int)
      (data : Data α) (rest : List (Data α)) (received : Received α)
      (hinput : step.input = .deliver sender receiver exportable now)
      (houtput : step.output = .arrived receiver data received)
      (hhandled : received.handled = false)
      (hhead : step.before.wires sender receiver = data :: rest)
      (hknown : step.before.Remembers digest receiver data)
      (hwires : step.after.wires = step.before.wires.take sender receiver)
  | relays (sender receiver : String) (exportable : List (Provision α)) (now : Int)
      (data : Data α) (rest : List (Data α)) (received : Received α)
      (hinput : step.input = .deliver sender receiver exportable now)
      (houtput : step.output = .arrived receiver data received)
      (hhandled : received.handled = true)
      (hquestions : received.questions = data.resolve.elim [] fun query =>
        if query.signpost = receiver then [(query.what, query.userInfo)] else [])
      (hhead : step.before.wires sender receiver = data :: rest)
      (hwires : step.after.wires = (step.before.wires.take sender receiver).send receiver
        ((graph.neighbours receiver).filter fun name => name ≠ sender) data)
  | rests (houtput : step.output = .silent) (hwires : step.after.wires = step.before.wires)

section Steps

variable [DecidableEq δ] {graph : Graph} {digest : Data α → δ} {state next : NetState α δ}
  {event : NetEvent α} {output : NetOutput α}

theorem carries_of_step
    (hspreads : ∀ sender receiver, ∀ data ∈ state.wires sender receiver, data.Spreads)
    (hok : step graph digest state event = .ok (next, output)) :
    Carries graph digest ⟨state, event, output, next⟩ := by
  cases event with
  | distributeTruths node truths =>
      obtain ⟨hnode, rfl, rfl⟩ := step_distributeTruths hok
      exact .sends node _ hnode ⟨Or.inl rfl, rfl⟩ rfl rfl
  | remoteResolve node query now =>
      obtain ⟨hnode, rfl, rfl⟩ := step_remoteResolve hok
      apply Carries.sends node { resolve := some query } hnode ⟨Or.inr rfl, rfl⟩ rfl
      rw [← filter_neighbours]
      rfl
  | deliver sender receiver exportable now =>
      obtain ⟨data, rest, hhead, rfl, rfl⟩ := step_deliver hok
      by_cases hknown : state.Remembers digest receiver data
      · rw [deliver_known graph sender exportable now hknown]
        exact .drops sender receiver exportable now data rest {} rfl rfl rfl hhead hknown rfl
      · have hdata := hspreads sender receiver data (hhead ▸ List.mem_cons_self)
        obtain ⟨hnext, hhandled, _, _⟩ := deliver_new graph sender exportable now hknown hdata
        apply Carries.relays sender receiver exportable now data rest _ rfl rfl hhandled
        · have hnew : (state.centre graph receiver).broadcastCache (digest data) = none :=
            not_not.mp hknown
          rw [deliver, CommunicationCentre.receive_new hnew hdata]
          rfl
        · exact hhead
        · exact congrArg NetState.wires hnext
  | pruneBroadcastCache node now =>
      obtain ⟨rfl, rfl⟩ := Prod.mk.inj (Except.ok.inj hok)
      exact .rests rfl rfl

end Steps

/-! ## The copies of every call spread -/

/-- What the copies of a record say about the state that it ends in. -/
structure Traced (graph : Graph) (steps : List (NetStep α δ)) (state : NetState α δ) : Prop where
  wires_eq : state.wires = (copies graph steps).map Prod.fst
  sent : ∀ sender receiver, ∀ copy ∈ copies graph steps sender receiver,
    ∃ step node, steps[copy.2]? = some step ∧ step.output = .injected node copy.1
  taken_lt : ∀ call node, Taken graph steps call node → call < steps.length
  spreading : ∀ call node query, Calls steps call node query →
    Spreading graph.Linked node ({ resolve := some query }, call) (Taken graph steps call)
      (copies graph steps)

section Invariant

variable {graph : Graph} {digest : Data α → δ} {steps : List (NetStep α δ)}
  {last : NetStep α δ} {call : ℕ} {node : String} {query : ResolveQuery}

theorem calls_concat :
    Calls (steps ++ [last]) call node query ↔ Calls steps call node query ∨
      call = steps.length ∧ last.output = .injected node { resolve := some query } := by
  unfold Calls
  rcases Nat.lt_trichotomy call steps.length with hlt | heq | hgt
  · simp [List.getElem?_append_left hlt, Nat.ne_of_lt hlt]
  · simp [heq]
  · have hnone : (steps ++ [last])[call]? = none := List.getElem?_eq_none (by simp; omega)
    simp [hnone, Nat.le_of_lt hgt, Nat.ne_of_gt hgt]

theorem Calls.lt (hcalls : Calls steps call node query) : call < steps.length := by
  obtain ⟨step, hstep, _⟩ := hcalls
  exact (List.getElem?_eq_some_iff.mp hstep).1

/-- A call has one caller. -/
theorem Calls.caller {other : String} {asked : ResolveQuery} (hcalls : Calls steps call node query)
    (hother : Calls steps call other asked) : node = other := by
  obtain ⟨step, hstep, houtput⟩ := hcalls
  obtain ⟨same, hsame, hasked⟩ := hother
  rw [hstep, Option.some_inj] at hsame
  rw [← hsame, houtput] at hasked
  exact (NetOutput.injected.inj hasked).1

theorem Takes.arrived (htakes : Takes graph steps last call node) :
    ∃ data received, last.output = .arrived node data received ∧ received.handled = true := by
  obtain ⟨_, _, _, data, _, received, _, houtput, hhandled, _⟩ := htakes
  exact ⟨data, received, houtput, hhandled⟩

/-- Taking a copy takes one of the copies in flight. -/
theorem Takes.exists_mem (htakes : Takes graph steps last call node) :
    ∃ sender data, (data, call) ∈ copies graph steps sender node := by
  obtain ⟨sender, _, _, data, _, _, _, _, _, hhead⟩ := htakes
  exact ⟨sender, data, hhead ▸ List.mem_cons_self⟩

/-- A step that handles no message takes no copy. -/
theorem taken_concat_of_idle
    (hidle : ∀ node data received, last.output = .arrived node data received →
      received.handled = false) :
    Taken graph (steps ++ [last]) call node ↔ Taken graph steps call node := by
  rw [taken_concat, or_iff_left_iff_imp]
  intro htakes
  obtain ⟨data, received, houtput, hhandled⟩ := htakes.arrived
  cases (hidle node data received houtput).symm.trans hhandled

namespace Traced

variable {state : NetState α δ}

/-- Copies in flight are of calls before. -/
theorem lt_of_mem (htraced : Traced graph steps state) {sender receiver : String} {data : Data α}
    (hmem : (data, call) ∈ copies graph steps sender receiver) : call < steps.length := by
  obtain ⟨step, _, hstep, _⟩ := htraced.sent sender receiver _ hmem
  exact (List.getElem?_eq_some_iff.mp hstep).1

/-- A copy with the number of a call is one of its question. -/
theorem data_eq (htraced : Traced graph steps state) (hcalls : Calls steps call node query)
    {sender receiver : String} {data : Data α}
    (hmem : (data, call) ∈ copies graph steps sender receiver) :
    { resolve := some query } = data := by
  obtain ⟨step, origin, hstep, houtput⟩ := htraced.sent sender receiver _ hmem
  obtain ⟨same, hsame, hasked⟩ := hcalls
  rw [hstep, Option.some_inj] at hsame
  rw [← hsame, houtput] at hasked
  exact (NetOutput.injected.inj hasked).2.symm

theorem taken_lt_concat (htraced : Traced graph steps state) (call : ℕ) (node : String)
    (htaken : Taken graph (steps ++ [last]) call node) : call < (steps ++ [last]).length := by
  rw [List.length_append]
  apply Nat.lt_add_right 1
  rcases taken_concat.mp htaken with hold | hnew
  · exact htraced.taken_lt call node hold
  · obtain ⟨sender, data, hmem⟩ := hnew.exists_mem
    exact htraced.lt_of_mem hmem

/-- Every copy that is in flight has been sent before, when a copy that was not in
flight before is of the new message. -/
theorem sent_concat (htraced : Traced graph steps state)
    (hcopies : ∀ sender receiver, ∀ copy ∈ copies graph (steps ++ [last]) sender receiver,
      (∃ sender receiver, copy ∈ copies graph steps sender receiver) ∨
        copy.2 = steps.length ∧ ∃ node, last.output = .injected node copy.1)
    (sender receiver : String) (copy : Data α × ℕ)
    (hcopy : copy ∈ copies graph (steps ++ [last]) sender receiver) :
    ∃ step node, (steps ++ [last])[copy.2]? = some step ∧
      step.output = .injected node copy.1 := by
  rcases hcopies sender receiver copy hcopy with ⟨first, second, hold⟩ | ⟨hnumber, node, houtput⟩
  · obtain ⟨step, node, hstep, houtput⟩ := htraced.sent first second copy hold
    refine ⟨step, node, ?_, houtput⟩
    rw [List.getElem?_append_left (htraced.lt_of_mem hold), hstep]
  · exact ⟨last, node, by simp [hnumber], houtput⟩

variable (htraced : Traced graph steps last.before)

include htraced

/-- A signpost sends a message of its own to all neighbours. -/
theorem sends {data : Data α} (houtput : last.output = .injected node data)
    (hwires : last.after.wires = last.before.wires.send node (graph.neighbours node) data) :
    Traced graph (steps ++ [last]) last.after := by
  have hcopies : copies graph (steps ++ [last]) =
      (copies graph steps).send node (graph.neighbours node) (data, steps.length) := by
    rw [copies_concat]
    unfold trackStep
    rw [houtput]
  have htaken : ∀ call other, Taken graph (steps ++ [last]) call other ↔
      Taken graph steps call other := by
    intro call other
    apply taken_concat_of_idle
    intro _ _ _ harrived
    cases houtput.symm.trans harrived
  constructor
  case wires_eq => rw [hwires, hcopies, Channels.map_send, htraced.wires_eq]
  case sent =>
    apply htraced.sent_concat
    intro sender receiver copy hcopy
    rw [hcopies, mem_send] at hcopy
    rcases hcopy with hold | ⟨_, _, rfl⟩
    · exact Or.inl ⟨sender, receiver, hold⟩
    · exact Or.inr ⟨rfl, node, houtput⟩
  case taken_lt => exact htraced.taken_lt_concat
  case spreading =>
    intro call origin query hcalls
    rw [hcopies]
    rcases calls_concat.mp hcalls with hold | ⟨rfl, hasked⟩
    · -- a copy of an earlier call carries another number
      have hother : ({ resolve := some query }, call) ≠ (data, steps.length) :=
        fun heq => absurd (congrArg Prod.snd heq) (Nat.ne_of_lt hold.lt)
      apply ((htraced.spreading call origin query hold).send fun heq => absurd heq hother).congr
      exact fun other _ => htaken call other
    · obtain ⟨rfl, rfl⟩ := NetOutput.injected.inj (houtput.symm.trans hasked)
      refine (Spreading.start ?_ fun next hnext _ => hnext).congr fun other _ => ?_
      · rintro ⟨sender, receiver, hmem⟩
        exact absurd (htraced.lt_of_mem hmem) (lt_irrefl _)
      · rw [htaken, iff_false]
        exact fun hother => absurd (htraced.taken_lt _ other hother) (lt_irrefl _)

/-- A signpost drops a copy, which is of its own call or of one of which it has
taken a copy. -/
theorem drops {sender receiver : String} {exportable : List (Provision α)} {now : Int}
    {data : Data α} {received : Received α}
    (hinput : last.input = .deliver sender receiver exportable now)
    (houtput : last.output = .arrived receiver data received) (hhandled : received.handled = false)
    (hwires : last.after.wires = last.before.wires.take sender receiver)
    {copy : Data α × ℕ} {rest : List (Data α × ℕ)}
    (hhead : copies graph steps sender receiver = copy :: rest)
    (hown : ∀ query, copy.1 = { resolve := some query } →
      Calls steps copy.2 receiver query ∨ Taken graph steps copy.2 receiver) :
    Traced graph (steps ++ [last]) last.after := by
  have hcopies : copies graph (steps ++ [last]) = (copies graph steps).take sender receiver := by
    rw [copies_concat]
    unfold trackStep
    rw [houtput, hinput]
    simp [hhead, hhandled]
  have htaken : ∀ call other, Taken graph (steps ++ [last]) call other ↔
      Taken graph steps call other := by
    intro call other
    apply taken_concat_of_idle
    intro _ _ _ harrived
    cases houtput.symm.trans harrived
    exact hhandled
  constructor
  case wires_eq => rw [hwires, hcopies, Channels.map_take, htraced.wires_eq]
  case sent =>
    apply htraced.sent_concat
    intro first second other hother
    rw [hcopies] at hother
    exact Or.inl ⟨first, second, mem_of_mem_take hother⟩
  case taken_lt => exact htraced.taken_lt_concat
  case spreading =>
    intro call origin query hcalls
    rw [hcopies]
    rcases calls_concat.mp hcalls with hold | ⟨_, hasked⟩
    · refine ((htraced.spreading call origin query hold).take hhead ?_).congr
        fun other _ => htaken call other
      rintro hother rfl
      exact (hown query rfl).resolve_left fun hcaller => hother (hcaller.caller hold)
    · cases houtput.symm.trans hasked

/-- A signpost takes a copy and sends it to all neighbours but its sender. -/
theorem relays {sender receiver : String} {exportable : List (Provision α)} {now : Int}
    {data : Data α} {received : Received α}
    (hinput : last.input = .deliver sender receiver exportable now)
    (houtput : last.output = .arrived receiver data received) (hhandled : received.handled = true)
    (hwires : last.after.wires = (last.before.wires.take sender receiver).send receiver
      ((graph.neighbours receiver).filter fun name => name ≠ sender) data)
    {number : ℕ} {rest : List (Data α × ℕ)}
    (hhead : copies graph steps sender receiver = (data, number) :: rest) :
    Traced graph (steps ++ [last]) last.after := by
  have hcopies : copies graph (steps ++ [last]) =
      ((copies graph steps).take sender receiver).send receiver
        ((graph.neighbours receiver).filter fun name => name ≠ sender) (data, number) := by
    rw [copies_concat]
    unfold trackStep
    rw [houtput, hinput]
    simp [hhead, hhandled]
  have htaken : ∀ call other, Taken graph (steps ++ [last]) call other ↔
      Taken graph steps call other ∨ call = number ∧ other = receiver := by
    intro call other
    rw [taken_concat]
    apply or_congr_right
    constructor
    · rintro ⟨first, _, _, same, _, _, hfirst, hsame, _, hcopy⟩
      cases hinput.symm.trans hfirst
      cases houtput.symm.trans hsame
      rw [hhead, List.cons.injEq, Prod.mk.injEq] at hcopy
      exact ⟨hcopy.1.2.symm, rfl⟩
    · rintro ⟨rfl, rfl⟩
      exact ⟨sender, exportable, now, data, rest, received, hinput, houtput, hhandled, hhead⟩
  have hmem : (data, number) ∈ copies graph steps sender receiver := hhead ▸ List.mem_cons_self
  constructor
  case wires_eq => rw [hwires, hcopies, Channels.map_send, Channels.map_take, htraced.wires_eq]
  case sent =>
    apply htraced.sent_concat
    intro first second other hother
    rw [hcopies, mem_send] at hother
    rcases hother with hold | ⟨_, _, rfl⟩
    · exact Or.inl ⟨first, second, mem_of_mem_take hold⟩
    · exact Or.inl ⟨sender, receiver, hmem⟩
  case taken_lt => exact htraced.taken_lt_concat
  case spreading =>
    intro call origin query hcalls
    rw [hcopies]
    rcases calls_concat.mp hcalls with hold | ⟨_, hasked⟩
    · have hspreading := htraced.spreading call origin query hold
      by_cases hcopy : (({ resolve := some query } : Data α), call) = (data, number)
      · obtain ⟨rfl, rfl⟩ := Prod.mk.inj hcopy
        apply (hspreading.forward hhead _).congr
        · intro other _
          simp [htaken]
        · exact fun next hnext hne => List.mem_filter.mpr ⟨hnext, by simpa using hne⟩
      · apply (hspreading.bypass hhead hcopy).congr
        intro other _
        rw [htaken, or_iff_left_iff_imp]
        rintro ⟨rfl, rfl⟩
        -- the number tells what was asked
        exact absurd (congrArg (fun asked => (asked, call)) (htraced.data_eq hold hmem)) hcopy
    · cases houtput.symm.trans hasked

/-- Nothing is sent or taken. -/
theorem rests (houtput : last.output = .silent) (hwires : last.after.wires = last.before.wires) :
    Traced graph (steps ++ [last]) last.after := by
  have hcopies : copies graph (steps ++ [last]) = copies graph steps := by
    rw [copies_concat]
    unfold trackStep
    rw [houtput]
  have htaken : ∀ call other, Taken graph (steps ++ [last]) call other ↔
      Taken graph steps call other := by
    intro call other
    apply taken_concat_of_idle
    intro _ _ _ harrived
    cases houtput.symm.trans harrived
  constructor
  case wires_eq => rw [hwires, hcopies, htraced.wires_eq]
  case sent =>
    apply htraced.sent_concat
    intro first second other hother
    exact Or.inl ⟨first, second, hcopies ▸ hother⟩
  case taken_lt => exact htraced.taken_lt_concat
  case spreading =>
    intro call origin query hcalls
    rw [hcopies]
    rcases calls_concat.mp hcalls with hold | ⟨_, hasked⟩
    · exact (htraced.spreading call origin query hold).congr fun other _ => htaken call other
    · cases houtput.symm.trans hasked

end Traced

end Invariant

/-! ## Every run -/

section Runs

variable {graph : Graph} {digest : Data α → δ} {steps : List (NetStep α δ)} {state : NetState α δ}

/-- The oldest message of a wire is that of the oldest copy. -/
theorem Traced.head_copies (htraced : Traced graph steps state) {sender receiver : String}
    {data : Data α} {rest : List (Data α)} (hhead : state.wires sender receiver = data :: rest) :
    ∃ number later, copies graph steps sender receiver = (data, number) :: later := by
  rw [htraced.wires_eq] at hhead
  obtain ⟨⟨_, number⟩, later, hcopies, rfl, _⟩ := List.map_eq_cons_iff.mp hhead
  exact ⟨number, later, hcopies⟩

theorem KnownFromItsCall.of_isPrefix (hknown : KnownFromItsCall graph digest steps)
    {earlier : List (NetStep α δ)} (hinitial : earlier <+: steps) :
    KnownFromItsCall graph digest earlier := by
  obtain ⟨rest, rfl⟩ := hinitial
  rintro before now later rfl
  exact hknown before now (later ++ rest) (by simp)

variable [DecidableEq δ]

/-- What is on a wire is flooded, over a link. -/
theorem spreads_of_run (hrun : NetRun graph digest steps state) :
    ∀ sender receiver, ∀ data ∈ state.wires sender receiver,
      data.Spreads ∧ graph.Linked sender receiver := by
  apply hrun.invariant (P := fun state => ∀ sender receiver, ∀ data ∈ state.wires sender receiver,
    data.Spreads ∧ graph.Linked sender receiver)
  · exact fun _ _ _ hdata => absurd hdata List.not_mem_nil
  · intro state event next output hwires hok sender receiver data hdata
    have hspreads : ∀ sender receiver, ∀ data ∈ state.wires sender receiver, data.Spreads :=
      fun sender receiver data hdata => (hwires sender receiver data hdata).1
    cases carries_of_step hspreads hok with
    | sends node sent _ hsent _ hafter =>
        simp only at hafter
        rw [hafter, mem_send] at hdata
        rcases hdata with hold | ⟨rfl, hlink, rfl⟩
        · exact hwires sender receiver data hold
        · exact ⟨hsent, hlink⟩
    | drops origin node _ _ _ _ _ _ _ _ _ _ hafter =>
        simp only at hafter
        rw [hafter] at hdata
        exact hwires sender receiver data (mem_of_mem_take hdata)
    | relays origin node _ _ relayed rest _ _ _ _ _ hhead hafter =>
        simp only at hhead hafter
        rw [hafter, mem_send] at hdata
        rcases hdata with hold | ⟨rfl, hlink, rfl⟩
        · exact hwires sender receiver data (mem_of_mem_take hold)
        · exact ⟨hspreads origin sender data (hhead ▸ List.mem_cons_self),
            (List.mem_filter.mp hlink).1⟩
    | rests _ hafter =>
        simp only at hafter
        rw [hafter] at hdata
        exact hwires sender receiver data hdata

theorem traced_of_run (hrun : NetRun graph digest steps state)
    (hknown : KnownFromItsCall graph digest steps) : Traced graph steps state := by
  induction hrun with
  | start =>
      constructor
      case wires_eq => rfl
      case sent => exact fun _ _ _ hcopy => absurd hcopy List.not_mem_nil
      case taken_lt =>
        rintro _ _ ⟨earlier, now, later, hsteps, _⟩
        simp at hsteps
      case spreading =>
        intro call node query hcalls
        exact absurd hcalls.lt (Nat.not_lt_zero call)
  | @extend steps state next event output prior hok ih =>
      have htraced := ih (hknown.of_isPrefix (List.prefix_append _ _))
      rcases carries_of_step (fun sender receiver data hdata =>
          (spreads_of_run prior sender receiver data hdata).1) hok with
        ⟨node, data, _, _, houtput, hwires⟩ |
        ⟨sender, receiver, exportable, now, data, rest, received, hinput, houtput, hhandled, hhead,
          hremembers, hwires⟩ |
        ⟨sender, receiver, exportable, now, data, rest, received, hinput, houtput, hhandled, _,
          hhead, hwires⟩ |
        ⟨houtput, hwires⟩
      · exact htraced.sends houtput hwires
      · obtain ⟨number, later, hcopies⟩ := htraced.head_copies hhead
        apply htraced.drops hinput houtput hhandled hwires hcopies
        rintro query rfl
        exact hknown steps _ [] rfl sender receiver exportable now query number later hinput hcopies
          hremembers
      · obtain ⟨number, later, hcopies⟩ := htraced.head_copies hhead
        exact htraced.relays hinput houtput hhandled hwires hcopies
      · exact htraced.rests houtput hwires

/-- A signpost that takes a copy of a question to it asks its solver. -/
theorem executes_of_takes (hrun : NetRun graph digest steps state)
    (hknown : KnownFromItsCall graph digest steps) {earlier : List (NetStep α δ)}
    {now : NetStep α δ} (hinitial : earlier ++ [now] <+: steps) {call : ℕ} {node : String}
    {query : ResolveQuery} (hcalls : Calls earlier call node query)
    (htakes : Takes graph earlier now call query.signpost) : Executes now query := by
  obtain ⟨hbefore, hok⟩ := hrun.of_isPrefix hinitial
  have htraced := traced_of_run hbefore
    (hknown.of_isPrefix ((List.prefix_append _ _).trans hinitial))
  obtain ⟨sender, exportable, time, data, rest, received, hinput, houtput, hhandled, hhead⟩ :=
    htakes
  obtain rfl := htraced.data_eq hcalls (hhead ▸ List.mem_cons_self)
  refine ⟨_, received, houtput, ?_⟩
  cases carries_of_step (fun sender receiver data hdata =>
    (spreads_of_run hbefore sender receiver data hdata).1) hok with
  | sends _ _ _ _ hother => cases houtput.symm.trans hother
  | drops _ _ _ _ _ _ _ _ hother hdropped =>
      cases houtput.symm.trans hother
      cases hhandled.symm.trans hdropped
  | relays _ _ _ _ _ _ _ _ hother _ hquestions =>
      cases houtput.symm.trans hother
      rw [hquestions]
      simp
  | rests hother => cases houtput.symm.trans hother

/-- No remote resolution is swallowed in the runs in which a signpost that finds a
question in its cache has it from the same call. -/
theorem resolved_of_run (hconnected : graph.Connected) (hrun : NetRun graph digest steps state)
    (hothers : CallsOthers steps) (hknown : KnownFromItsCall graph digest steps) :
    Resolved graph steps state := by
  rintro hquiet earlier now later rfl node query time hinput hsignpost
  have hmem : now ∈ earlier ++ now :: later := by simp
  have hok := hrun.step_eq hmem
  rw [hinput] at hok
  obtain ⟨hnode, _, houtput⟩ := step_remoteResolve hok
  have htraced := traced_of_run hrun hknown
  have hcalls : Calls (earlier ++ now :: later) earlier.length node query :=
    ⟨now, by simp, houtput⟩
  have hsilent : (copies graph (earlier ++ now :: later)).Quiet := by
    intro sender receiver
    have hwire := hquiet sender receiver
    rw [htraced.wires_eq] at hwire
    exact List.map_eq_nil_iff.mp hwire
  rcases (htraced.spreading _ _ _ hcalls).complete hsilent
    (hconnected node hnode query.signpost hsignpost) with hself | htaken
  · exact absurd hself (hothers now hmem node query time hinput)
  · obtain ⟨before, taking, after, hsteps, htakes⟩ := htaken
    have hinitial : before ++ [taking] <+: earlier ++ now :: later := ⟨after, by simp [hsteps]⟩
    have hbefore : before <+: earlier ++ now :: later := (List.prefix_append _ _).trans hinitial
    obtain ⟨sender, data, hcopy⟩ := htakes.exists_mem
    -- the copy that is taken was sent by the call
    have hlater : earlier.length < before.length :=
      (traced_of_run (hrun.of_isPrefix hinitial).1 (hknown.of_isPrefix hbefore)).lt_of_mem hcopy
    refine ⟨taking, ?_, ?_⟩
    · rcases List.append_eq_append_iff.mp hsteps with ⟨middle, rfl, hrest⟩ | ⟨middle, rfl, _⟩
      · cases middle with
        | nil => simp at hlater
        | cons first middle =>
            rw [List.cons_append, List.cons.injEq] at hrest
            rw [hrest.2]
            simp
      · rw [List.length_append] at hlater
        omega
    · have hcalled : Calls before earlier.length node query := by
        refine ⟨now, ?_, houtput⟩
        rw [← List.getElem?_append_left hlater, ← hsteps]
        simp
      exact executes_of_takes hrun hknown hinitial hcalled htakes

end Runs

/-! ## The same question again -/

def repeatedQuery : ResolveQuery := ⟨"ip_for_domain@kle.io", "carol", "gamma"⟩

/-- Beta and gamma get a copy from alpha, and one from each other. -/
def onceEvents : List (NetEvent String) :=
  [.remoteResolve "alpha" repeatedQuery 10,
    .deliver "alpha" "beta" [] 11,
    .deliver "alpha" "gamma" [] 12,
    .deliver "beta" "gamma" [] 13,
    .deliver "gamma" "beta" [] 14]

def onceSteps : List (NetStep String (Data String)) :=
  record (step Graph.triangle id) initial onceEvents

/-- Alpha asks twice within the time that the others remember. -/
def repeatedEvents : List (NetEvent String) :=
  onceEvents ++
    [.remoteResolve "alpha" repeatedQuery 20,
      .deliver "alpha" "beta" [] 21,
      .deliver "alpha" "gamma" [] 22]

def repeatedSteps : List (NetStep String (Data String)) :=
  record (step Graph.triangle id) initial repeatedEvents

theorem callsOthers_record {events : List (NetEvent String)}
    (hasks : ∀ node query now, .remoteResolve node query now ∈ events →
      node = "alpha" ∧ query = repeatedQuery) :
    CallsOthers (record (step Graph.triangle (id : Data String → Data String)) initial events) := by
  intro step hstep node query now hinput
  obtain ⟨rfl, rfl⟩ := hasks node query now (hinput ▸ input_mem_of_record hstep)
  decide

theorem knownFromItsCall_once : KnownFromItsCall Graph.triangle id onceSteps := by
  intro earlier now later hsteps sender receiver exportable time query call rest hinput hcopies
    hremembers
  have hinitial : earlier ++ [now] <+: onceSteps := ⟨later, by simp [hsteps]⟩
  obtain ⟨index, hindex, rfl, rfl⟩ := exists_getElem_of_isPrefix hinitial
  have hlength : index < 5 := hindex
  interval_cases index
  · cases hinput
  · cases hinput
    exact absurd rfl hremembers
  · cases hinput
    exact absurd rfl hremembers
  · -- gamma has taken the copy from alpha
    cases hinput
    cases hcopies
    exact Or.inr ⟨onceSteps.take 2, _, [], rfl, _, _, _, _, _, _, rfl, rfl, rfl, rfl⟩
  · -- and so has beta
    cases hinput
    cases hcopies
    exact Or.inr ⟨onceSteps.take 1, _, _, rfl, _, _, _, _, _, _, rfl, rfl, rfl, rfl⟩

theorem resolved_of_run_once : onceSteps.length = 5 ∧
    Resolved Graph.triangle onceSteps
      (final (step Graph.triangle (id : Data String → Data String)) initial onceEvents) := by
  refine ⟨by decide, resolved_of_run (Graph.connected_complete _ _) (run_record _ _ _)
    (callsOthers_record ?_) knownFromItsCall_once⟩
  simp +contextual [onceEvents]

theorem not_resolved_repeated :
    ¬ ∀ (steps : List (NetStep String (Data String))) (state : NetState String (Data String)),
      NetRun Graph.triangle id steps state → CallsOthers steps →
        Resolved Graph.triangle steps state := by
  intro hclaim
  have hrun := run_record (step Graph.triangle (id : Data String → Data String)) initial
    repeatedEvents
  have hquiet : (final (step Graph.triangle (id : Data String → Data String)) initial
      repeatedEvents).wires.Quiet := by
    intro sender receiver
    apply List.eq_nil_iff_forall_not_mem.mpr
    intro data hmem
    obtain ⟨hsender, hreceiver, _⟩ :=
      Graph.mem_completeChannels.mp (spreads_of_run hrun sender receiver data hmem).2
    have hempty : ∀ sender ∈ ["alpha", "beta", "gamma"], ∀ receiver ∈ ["alpha", "beta", "gamma"],
        (final (step Graph.triangle (id : Data String → Data String)) initial
          repeatedEvents).wires sender receiver = [] := by decide
    rw [hempty sender hsender receiver hreceiver] at hmem
    cases hmem
  have hothers : CallsOthers repeatedSteps := by
    apply callsOthers_record
    simp +contextual [repeatedEvents, onceEvents, or_imp]
  obtain ⟨now, hnow, data, received, houtput, hquestion⟩ := hclaim repeatedSteps _ hrun hothers
    hquiet (repeatedSteps.take 5) _ (repeatedSteps.drop 6) rfl "alpha" repeatedQuery 20 rfl
    (by decide)
  have hsilent : ∀ step ∈ repeatedSteps.drop 6, ∃ node data,
      step.output = .arrived node data {} := by
    have hlast : repeatedSteps.drop 6 =
        [repeatedSteps.get ⟨6, by decide⟩, repeatedSteps.get ⟨7, by decide⟩] := rfl
    rw [hlast, List.forall_mem_cons, List.forall_mem_singleton]
    exact ⟨⟨_, _, rfl⟩, ⟨_, _, rfl⟩⟩
  obtain ⟨node, other, hnone⟩ := hsilent now hnow
  cases houtput.symm.trans hnone
  cases hquestion

end Signpost.Network

import Signpost.Domain.System
import Signpost.Solver.TruthTable

/-! # Authority over one's own truths

A signpost distributes its own truths without recording their messages, so a
relayed copy may come back and pass its duplicate check. The copy is then
stored like any external truth and replaces the row of its key.
-/

namespace Signpost.Domain

open Bloom Machine Solver

variable {α δ : Type}

/-! ## The history of a signpost -/

/-- What the signpost is provided with by its own tactics, and when. -/
def Event.localProvisions (node : String) : Event α → List (Provided α)
  | .solve other batch => if other = node then batch.provideTruth.map (·, batch.now) else []
  | _ => []

/-- The time that the signpost reads in a timestep of its solver. -/
def Event.reading (node : String) : Event α → Option Int
  | .solve other batch => if other = node then some batch.now else none
  | .external other _ now => if other = node then some now else none
  | _ => none

def localProvisions (node : String) (steps : List (DomainStep α δ)) : List (Provided α) :=
  steps.flatMap fun step => step.input.localProvisions node

def clock (node : String) (steps : List (DomainStep α δ)) : List Int :=
  steps.filterMap fun step => step.input.reading node

/-- The latest local provision of the key with a positive TTL has this value,
and it expires after all times read so far. -/
structure Current (node : String) (k : TruthKey) (steps : List (DomainStep α δ)) (value : α)
    (expires : Int) : Prop where
  provided : ∃ row ttl, latestStored (localProvisions node steps) k = some row ∧
    row.truth = value ∧ row.ttlState = .cacheable ttl expires
  unexpired : ∀ reading ∈ clock node steps, reading < expires

/-- The table has a row of the key with the value, which is valid at least until
the given time. -/
def Carries (solver : Solver.State α) (k : TruthKey) (value : α) (expires : Int) : Prop :=
  ∃ row ∈ solver.truths, row.key = k ∧ row.truth = value ∧
    ∀ now < expires, ttlIsValid now row = true

/-- In every state reached, the signpost's own table carries the value of its
latest local provision of the key until that expires. -/
def Authoritative (node : String) (k : TruthKey) (steps : List (DomainStep α δ)) : Prop :=
  ∀ before step, before ++ [step] <+: steps → ∀ value expires,
    Current node k (before ++ [step]) value expires →
      Carries (step.after.solvers node) k value expires

/-- Whenever the signpost processes a received truth of the key with a positive
TTL, before its latest local provision has expired, the received truth has the
value of that provision and does not expire before it. -/
def EchoesCurrent (node : String) (k : TruthKey) (steps : List (DomainStep α δ)) : Prop :=
  ∀ before step, before ++ [step] <+: steps → ∀ timer now, step.input = .external node timer now →
    ∀ copy rest, step.before.inboxes node = copy :: rest → copy.key = k →
      ∀ ttl, copy.ttl = some ttl → 0 < ttl → ∀ value expires, Current node k before value expires →
        now < expires → copy.truth = value ∧ expires ≤ now + ttl

theorem EchoesCurrent.of_isPrefix {node : String} {k : TruthKey}
    {earlier steps : List (DomainStep α δ)} (hechoes : EchoesCurrent node k steps)
    (hinitial : earlier <+: steps) : EchoesCurrent node k earlier :=
  fun before now hbefore => hechoes before now (hbefore.trans hinitial)

section Histories

variable {node : String} {k : TruthKey} {before : List (DomainStep α δ)} {step : DomainStep α δ}
  {value : α} {expires : Int}

theorem localProvisions_append : localProvisions node (before ++ [step]) =
    localProvisions node before ++ step.input.localProvisions node := by
  simp [localProvisions]

theorem clock_append :
    clock node (before ++ [step]) = clock node before ++ (step.input.reading node).toList := by
  rw [clock, List.filterMap_append, clock]
  congr 1

/-- An event without local provisions does not change what is current, but for
the time. -/
theorem current_append (hnone : step.input.localProvisions node = []) :
    Current node k (before ++ [step]) value expires ↔
      Current node k before value expires ∧ ∀ now, step.input.reading node = some now →
        now < expires := by
  constructor
  · rintro ⟨hprovided, hunexpired⟩
    rw [localProvisions_append, hnone, List.append_nil] at hprovided
    rw [clock_append] at hunexpired
    refine ⟨⟨hprovided, fun reading hreading => ?_⟩, fun now hnow => ?_⟩
    · exact hunexpired reading (List.mem_append_left _ hreading)
    · exact hunexpired now (List.mem_append_right _ (by rw [hnow]; exact List.mem_cons_self))
  · rintro ⟨⟨hprovided, hunexpired⟩, hnow⟩
    refine ⟨?_, ?_⟩
    · rwa [localProvisions_append, hnone, List.append_nil]
    · intro reading hreading
      rw [clock_append, List.mem_append, Option.mem_toList] at hreading
      exact hreading.elim (hunexpired reading) (hnow reading)

end Histories

/-! ## One timestep -/

section Timestep

variable {node : String} {solver next : Solver.State α} {batch : Batch α}
  {solved : Solver.Output α} {k : TruthKey} {value : α} {expires : Int}

theorem valid_of_ttlState {row : TruthRow α} {ttl : Int}
    (hstate : row.ttlState = .cacheable ttl expires) {now : Int} (hnow : now < expires) :
    ttlIsValid now row = true := by
  simpa [ttlIsValid, hstate] using hnow

/-- The row stays when nothing of its key is stored before it expires. -/
theorem carries_of_carries (hfires : Fires node solver batch next solved)
    (hnow : batch.now < expires) (hother : ∀ update ∈ batch.stored, update.key ≠ k)
    (hcarries : Carries solver k value expires) : Carries next k value expires := by
  obtain ⟨row, hrow, hkey, hvalue, hvalid⟩ := hcarries
  refine ⟨row, hfires.mem_truths_of_mem (hvalid batch.now hnow) ?_ hrow, hkey, hvalue, hvalid⟩
  rw [hkey]
  exact hother

theorem carries_of_stored (hfires : Fires node solver batch next solved) {row : TruthRow α}
    (hstored : row ∈ batch.stored) {ttl : Int} (hstate : row.ttlState = .cacheable ttl expires)
    {due : Int} (hdue : due ≤ expires) : Carries next row.key row.truth due := by
  refine ⟨row, (hfires.mem_truths row).mpr (Or.inl hstored), rfl, rfl, fun now hnow => ?_⟩
  exact valid_of_ttlState hstate (by omega)

end Timestep

/-! ## Every run -/

variable [DecidableEq α] [DecidableEq δ] {graph : Graph} {digest : Data α → δ}
  {signpostDomain : String} {ofString : String → α} {start : Int}
  {steps : List (DomainStep α δ)} {state : State α δ} {node : String} {k : TruthKey}

/-- A timestep on local messages keeps what is current in the table. -/
theorem carries_solve {before : List (DomainStep α δ)} {now : DomainStep α δ} {batch : Batch α}
    (hok : step graph digest now.before now.input = .ok (now.after, now.output))
    (hinput : now.input = .solve node batch)
    (hbefore : ∀ value expires, Current node k before value expires →
      Carries (now.before.solvers node) k value expires)
    {value : α} {expires : Int} (hcurrent : Current node k (before ++ [now]) value expires) :
    Carries (now.after.solvers node) k value expires := by
  rw [hinput] at hok
  obtain ⟨_, hexternal, hsolved⟩ := step_solve hok
  obtain ⟨solver, solved, hfires, hnext, _⟩ := solve_eq_ok hsolved
  have hstored : storedRows (batch.provideTruth.map (·, batch.now)) = batch.stored := by
    rw [Batch.stored, Batch.provided, hexternal, List.nil_append, storedRows, List.filterMap_map]
    rfl
  have hlocal : localProvisions node (before ++ [now]) =
      localProvisions node before ++ batch.provideTruth.map (·, batch.now) := by
    rw [localProvisions_append, hinput, Event.localProvisions, if_pos rfl]
  have hclock : clock node (before ++ [now]) = clock node before ++ [batch.now] := by
    rw [clock_append, hinput, Event.reading, if_pos rfl]
    rfl
  obtain ⟨⟨row, ttl, hlatest, rfl, hstate⟩, hunexpired⟩ := hcurrent
  rw [hclock] at hunexpired
  rw [hlocal, latestStored, storedRows, List.filterMap_append, latest_append] at hlatest
  change (latest TruthRow.key (storedRows _) k).or (latestStored _ k) = _ at hlatest
  rw [hstored] at hlatest
  rw [hnext]
  simp only [State.setSolver, Function.update_self]
  -- the batch provides the key anew, or what was current before stays so
  cases hnew : latest TruthRow.key batch.stored k with
  | some provided =>
      rw [hnew, Option.some_or] at hlatest
      obtain rfl := Option.some.inj hlatest
      obtain ⟨hmem, rfl⟩ := mem_of_latest hnew
      exact carries_of_stored hfires hmem hstate (Int.le_refl expires)
  | none =>
      rw [hnew, Option.none_or] at hlatest
      apply carries_of_carries hfires (hunexpired _ (by simp)) (latest_eq_none_iff.mp hnew)
      refine hbefore row.truth expires
        ⟨⟨row, ttl, hlatest, rfl, hstate⟩, fun reading hreading => ?_⟩
      exact hunexpired reading (List.mem_append_left _ hreading)

/-- A received truth that is current, or not stored under the key, keeps what is
current in the table. -/
theorem carries_external {before : List (DomainStep α δ)} {now : DomainStep α δ} {timer : Bool}
    {time : Int} (hok : step graph digest now.before now.input = .ok (now.after, now.output))
    (hinput : now.input = .external node timer time)
    (hbefore : ∀ value expires, Current node k before value expires →
      Carries (now.before.solvers node) k value expires)
    (hechoes : ∀ copy rest, now.before.inboxes node = copy :: rest → copy.key = k →
      ∀ ttl, copy.ttl = some ttl → 0 < ttl → ∀ value expires, Current node k before value expires →
        time < expires → copy.truth = value ∧ expires ≤ time + ttl)
    {value : α} {expires : Int} (hcurrent : Current node k (before ++ [now]) value expires) :
    Carries (now.after.solvers node) k value expires := by
  have hold := (current_append (by rw [hinput]; rfl)).mp hcurrent
  have htime : time < expires := hold.2 time (by rw [hinput, Event.reading, if_pos rfl])
  rw [hinput] at hok
  obtain ⟨copy, rest, hinbox, hsolved⟩ := step_external hok
  obtain ⟨solver, solved, hfires, hnext, _⟩ := solve_eq_ok hsolved
  rw [hnext]
  simp only [State.setSolver, State.setInbox, Function.update_self] at hfires ⊢
  have hstored : ∀ update ∈ (externalBatch copy timer time).stored,
      storedRow time copy = some update := by
    intro update hupdate
    obtain ⟨provided, hprovided, hstored⟩ := List.mem_filterMap.mp hupdate
    obtain rfl := List.mem_singleton.mp hprovided
    exact hstored
  -- either the copy replaces the row by an equal one, or it leaves the key alone
  by_cases hupdate : ∃ update ∈ (externalBatch copy timer time).stored, update.key = k
  · obtain ⟨update, hmem, rfl⟩ := hupdate
    have hrow := hstored update hmem
    obtain ⟨hfact, ttl, hpos, httl, hstate⟩ := storedRow_eq_some_iff.mp hrow
    obtain ⟨hvalue, hexpires⟩ := hechoes copy rest hinbox (key_of_storedRow hrow).symm ttl httl hpos
      value expires hold.1 htime
    have htruth : update.truth = value := (congrArg Fact.truth hfact).trans hvalue
    exact htruth ▸ carries_of_stored hfires hmem hstate hexpires
  · refine carries_of_carries hfires htime ?_ (hbefore value expires hold.1)
    exact fun update hmem hkey => hupdate ⟨update, hmem, hkey⟩

/-- Every other event leaves the table alone. -/
theorem carries_other {before : List (DomainStep α δ)} {now : DomainStep α δ}
    (hok : step graph digest now.before now.input = .ok (now.after, now.output))
    (hsolve : ∀ batch, now.input ≠ .solve node batch)
    (hexternal : ∀ timer time, now.input ≠ .external node timer time)
    (hbefore : ∀ value expires, Current node k before value expires →
      Carries (now.before.solvers node) k value expires)
    {value : α} {expires : Int} (hcurrent : Current node k (before ++ [now]) value expires) :
    Carries (now.after.solvers node) k value expires := by
  rw [solver_unchanged hok hsolve hexternal]
  refine hbefore value expires ((current_append ?_).mp hcurrent).1
  cases hinput : now.input with
  | solve other batch =>
      apply if_neg
      rintro rfl
      exact hsolve batch hinput
  | external other timer time => rfl
  | deliver sender receiver time => rfl
  | pruneBroadcastCache other time => rfl

/-- A run that processes no superseded copy keeps what is current in the table. -/
theorem carries_of_echoesCurrent
    (hrun : DomainRun graph digest signpostDomain ofString start steps state)
    (hechoes : EchoesCurrent node k steps) :
    ∀ value expires, Current node k steps value expires →
      Carries (state.solvers node) k value expires := by
  induction hrun with
  | start =>
      rintro value expires ⟨⟨row, ttl, hlatest, _⟩, _⟩
      cases hlatest
  | @extend before state next event output prior hok ih =>
      intro value expires hcurrent
      have hbefore := ih (hechoes.of_isPrefix (List.prefix_append _ _))
      have hinitial := List.prefix_refl (before ++ [⟨state, event, output, next⟩])
      by_cases hsolve : ∃ batch, event = .solve node batch
      · obtain ⟨batch, hinput⟩ := hsolve
        exact carries_solve hok hinput hbefore hcurrent
      by_cases hexternal : ∃ timer time, event = .external node timer time
      · obtain ⟨timer, time, hinput⟩ := hexternal
        exact carries_external hok hinput hbefore (hechoes before _ hinitial timer time hinput)
          hcurrent
      · exact carries_other hok (fun batch heq => hsolve ⟨batch, heq⟩)
          (fun timer time heq => hexternal ⟨timer, time, heq⟩) hbefore hcurrent

/-- A copy that is processed while a truth is current, and leaves it in the
table, says the same and lives as long. -/
theorem current_of_carries_external {now : DomainStep α δ} {timer : Bool} {time : Int}
    (hok : step graph digest now.before now.input = .ok (now.after, now.output))
    (hinput : now.input = .external node timer time) {copy : Provision α}
    {rest : List (Provision α)} (hinbox : now.before.inboxes node = copy :: rest)
    (hkey : copy.key = k) {ttl : Int} (httl : copy.ttl = some ttl) (hpos : 0 < ttl) {value : α}
    {expires : Int} (hcarries : Carries (now.after.solvers node) k value expires) :
    copy.truth = value ∧ expires ≤ time + ttl := by
  rw [hinput] at hok
  obtain ⟨other, later, hother, hsolved⟩ := step_external hok
  rw [hinbox] at hother
  obtain ⟨rfl, rfl⟩ := List.cons.inj hother
  obtain ⟨solver, solved, hfires, hnext, _⟩ := solve_eq_ok hsolved
  rw [hnext] at hcarries
  simp only [State.setSolver, State.setInbox, Function.update_self] at hfires hcarries
  obtain ⟨row, hrow, hrowKey, rfl, hvalid⟩ := hcarries
  -- the copy has replaced whatever the table held under the key
  obtain ⟨update, hupdate⟩ : ∃ update, storedRow time copy = some update := by
    simp [storedRow, httl, hpos]
  have hstored : update ∈ solver.truths := (hfires.mem_truths update).mpr
    (Or.inl (List.mem_filterMap.mpr ⟨copy, List.mem_singleton_self copy, hupdate⟩))
  obtain rfl := Collection.eq_of_key hrow hstored
    (hrowKey.trans (hkey.symm.trans (key_of_storedRow hupdate).symm))
  obtain ⟨hfact, later, _, hlater, hstate⟩ := storedRow_eq_some_iff.mp hupdate
  obtain rfl := Option.some.inj (httl.symm.trans hlater)
  refine ⟨(congrArg Fact.truth hfact).symm, ?_⟩
  have hlast := hvalid (expires - 1) (by omega)
  simp only [ttlIsValid, hstate, gt_iff_lt, decide_eq_true_eq] at hlast
  omega

/-- A signpost stays authoritative for its own truth exactly in the runs in
which it processes no superseded copy of it. -/
theorem authoritative_iff
    (hrun : DomainRun graph digest signpostDomain ofString start steps state) :
    Authoritative node k steps ↔ EchoesCurrent node k steps := by
  constructor
  · intro hauthoritative before now hinitial timer time hinput copy rest hinbox hkey ttl httl hpos
      value expires hcurrent htime
    obtain ⟨_, hok⟩ := Run.of_isPrefix hrun hinitial
    have hafter : Current node k (before ++ [now]) value expires := by
      apply (current_append (by rw [hinput]; rfl)).mpr
      refine ⟨hcurrent, fun reading hreading => ?_⟩
      rw [hinput, Event.reading, if_pos rfl] at hreading
      exact Option.some.inj hreading ▸ htime
    exact current_of_carries_external hok hinput hinbox hkey httl hpos
      (hauthoritative before now hinitial value expires hafter)
  · intro hechoes before now hinitial
    obtain ⟨hbefore, hok⟩ := Run.of_isPrefix hrun hinitial
    exact carries_of_echoesCurrent (.extend hbefore hok) (hechoes.of_isPrefix hinitial)

/-! ## A copy that comes back late -/

/-- The first value of alpha's truth reaches gamma over beta, and comes back
after alpha has provided the second. -/
def echoEvents : List (Event String) :=
  [.solve "alpha"
      { provideTruth := [⟨"port@alpha", "sip", "GLOBAL", "alpha", "5060", some 300⟩], now := 10 },
    .deliver "alpha" "beta" 11,
    .deliver "beta" "gamma" 12,
    .solve "alpha"
      { provideTruth := [⟨"port@alpha", "sip", "GLOBAL", "alpha", "5061", some 300⟩], now := 13 },
    .deliver "gamma" "alpha" 14,
    .external "alpha" false 15]

def echoSteps : List (DomainStep String (Data String)) :=
  record (step Graph.triangle id) (initial "probsteide.com" id 0) echoEvents

theorem authoritative_iff_echo : echoSteps.length = 6 ∧
    (Authoritative "alpha" ⟨"port@alpha", "sip", "GLOBAL", "alpha"⟩ echoSteps ↔
      EchoesCurrent "alpha" ⟨"port@alpha", "sip", "GLOBAL", "alpha"⟩ echoSteps) :=
  ⟨by decide, authoritative_iff (run_record _ (initial "probsteide.com" id 0) echoEvents)⟩

theorem not_authoritative_echo :
    ¬ ∀ (steps : List (DomainStep String (Data String))) (state : State String (Data String))
      (k : TruthKey), DomainRun Graph.triangle id "probsteide.com" id 0 steps state →
        k.signpost = "alpha" → Authoritative "alpha" k steps := by
  intro hclaim
  have hauthoritative := hclaim echoSteps _ ⟨"port@alpha", "sip", "GLOBAL", "alpha"⟩
    (run_record _ _ echoEvents) rfl
  have hinitial : echoSteps.take 5 ++ [echoSteps.get ⟨5, by decide⟩] <+: echoSteps :=
    List.take_succ_eq_append_getElem (show 5 < echoSteps.length by decide) ▸ List.take_prefix 6 _
  obtain ⟨row, hrow, hkey, hvalue, _⟩ := hauthoritative _ _ hinitial "5061" 313
    ⟨⟨_, 300, rfl, rfl, rfl⟩, by decide⟩
  have hstale : ∀ row ∈ ((echoSteps.get ⟨5, by decide⟩).after.solvers "alpha").truths.rows,
      row.key = ⟨"port@alpha", "sip", "GLOBAL", "alpha"⟩ → row.truth ≠ "5061" := by decide
  exact hstale row hrow hkey hvalue

end Signpost.Domain

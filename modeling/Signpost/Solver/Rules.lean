import Signpost.Solver.Protocol

/-! # Rules of the solver

Each definition is the body of one Bloom rule of the solver, as a function from
the rows of its source collections to the rows it derives. The clock is read
once for a timestep.
-/

namespace Signpost.Solver

open Bloom

variable {α : Type}

/-- The keyed collections of the solver, as they are named when a key conflict
is raised. -/
inductive KeyedCollection
  | needTruthScratch
  | observeTruthScratch
  | provideTruthScratch
  | redistributableTruths
  | adaptedProvidedTruths
  | satisfiableTruthNeeds
  | storableTruths
  | truths
  | truthSubscribers
deriving DecidableEq, Repr

/-- What can abort a timestep: two rows with one key, or arithmetic on a
missing TTL. -/
inductive SolverError
  | keyConflict (collection : KeyedCollection)
  | typeError
deriving DecidableEq, Repr

/-! ## Validity of cached truths -/

def ttlIsValid (now : Int) (row : TruthRow α) : Bool :=
  match row.ttlState with
  | .nonCacheable => false
  | .cacheable _ expires => expires > now

/-- `nil == 0` is false, so a missing TTL reaches `Time.now.to_i + nil`. -/
def createTtlState (now : Int) : Option Int → Except SolverError TtlState
  | none => .error .typeError
  | some ttl => .ok (if ttl = 0 then .nonCacheable else .cacheable ttl (now + ttl))

/-! ## Answers from the cache -/

/-- The user may see the truth. -/
def Visible (owner user : String) : Prop := owner = "GLOBAL" ∨ owner = user

instance (owner user : String) : Decidable (Visible owner user) :=
  inferInstanceAs (Decidable (_ ∨ _))

/-- The truth was generated in the right place. -/
def AcceptsSignpost (wanted signpost : String) : Prop := wanted = "ANY" ∨ wanted = signpost

instance (wanted signpost : String) : Decidable (AcceptsSignpost wanted signpost) :=
  inferInstanceAs (Decidable (_ ∨ _))

/-- The cached row answers the need. -/
def Answers (now : Int) (row : TruthRow α) (need : Subscription) : Prop :=
  row.what = need.what ∧ (Visible row.userInfo need.userInfo ∧ ttlIsValid now row) ∧
    AcceptsSignpost need.signpost row.signpost

instance (now : Int) (row : TruthRow α) (need : Subscription) : Decidable (Answers now row need) :=
  inferInstanceAs (Decidable (_ ∧ _))

def satisfiableTruthNeed (row : TruthRow α) (need : Subscription) : SatisfiableNeed α :=
  ⟨need.who, row.what, need.userInfo, row.signpost, row.fact⟩

def satisfiableTruthNeeds (now : Int) (truths : List (TruthRow α)) (needs : List Subscription) :
    List (SatisfiableNeed α) :=
  truths.flatMap fun row => needs.filterMap fun need =>
    if Answers now row need then some (satisfiableTruthNeed row need) else none

/-! ## Needs that the cache cannot answer -/

/-- The call that makes somebody generate a truth. -/
inductive Exploration
  | exploreTruthSpaceFor (what userInfo : String)
  | remoteResolve (what userInfo signpost : String)
deriving DecidableEq, Repr

/-- The test by which a need finds an answer among the answers to all needs of
the timestep. -/
def IsAnswerFor (satisfiable : SatisfiableNeed α) (need : Subscription) : Prop :=
  satisfiable.what = need.what ∧
    (satisfiable.userInfo = need.userInfo ∨ satisfiable.userInfo = "GLOBAL") ∧
    (need.signpost = "ANY" ∨ satisfiable.signpost = need.signpost)

instance (satisfiable : SatisfiableNeed α) (need : Subscription) :
    Decidable (IsAnswerFor satisfiable need) :=
  inferInstanceAs (Decidable (_ ∧ _))

/-- Generate the truth locally, or have a remote signpost evaluate it. -/
def explorationFor (name : String) (need : Subscription) : Exploration :=
  if need.signpost = name ∨ need.signpost = "ANY" then
    .exploreTruthSpaceFor need.what need.userInfo
  else
    .remoteResolve need.what need.userInfo need.signpost

/-- The body of rule `dev_null_1` for one need, with the need whose tuple makes
the call. -/
def devNull1Call (name : String) (satisfiable : List (SatisfiableNeed α)) (need : Subscription) :
    Option (Subscription × Exploration) :=
  if ∃ answer ∈ satisfiable, IsAnswerFor answer need then none
  else some (need, explorationFor name need)

def devNull1 (name : String) (satisfiable : List (SatisfiableNeed α)) (needs : List Subscription) :
    List (Subscription × Exploration) :=
  needs.filterMap (devNull1Call name satisfiable)

/-! ## Storing provided truths -/

/-- Only a positive TTL makes a truth storable, but the TTL state is created
before that is tested. -/
def storableTruth (now : Int) (row : Provision α) : Except SolverError (Option (TruthRow α)) := do
  let ttlState ← createTtlState now row.ttl
  pure (if row.ttl.getD 0 > 0 then
    some ⟨row.what, row.provider, row.userInfo, row.signpost, row.truth, ttlState⟩ else none)

def storableTruths (now : Int) : List (Provision α) → Except SolverError (List (TruthRow α))
  | [] => .ok []
  | row :: rest => do
      let stored ← storableTruth now row
      let others ← storableTruths now rest
      pure (stored.toList ++ others)

/-- Rows collected at a tick of the garbage collection timer. -/
def garbageCollected (now : Int) (timer : Bool) (truths : List (TruthRow α)) :
    List (TruthRow α) :=
  if timer then truths.filter (fun row => ¬ ttlIsValid now row) else []

/-! ## Pushing provided truths -/

/-- A character of the class `[[:graph:]]` of Ruby 1.8. -/
def isGraph (c : Char) : Bool := 33 ≤ c.toNat ∧ c.toNat ≤ 126

/-- The group of `([[:graph:]]*)@.*` when the match starts at the first
character: greedy, so up to the last `@` of the visible run. -/
def matchResource : List Char → Option (List Char)
  | [] => none
  | c :: rest =>
      if isGraph c then
        match matchResource rest with
        | some group => some (c :: group)
        | none => if c = '@' then some [] else none
      else none

/-- The group of the leftmost match. -/
def searchResource : List Char → Option (List Char)
  | [] => none
  | c :: rest => (matchResource (c :: rest)).or (searchResource rest)

/-- `"#{$1}@ANY"`. Without a match `$1` is `nil`, which prints as nothing. -/
def alternativeWhat (what : String) : String :=
  String.ofList ((searchResource what.toList).getD []) ++ "@ANY"

def adaptedProvidedTruth (row : Provision α) : AdaptedTruth α :=
  ⟨alternativeWhat row.what, row.what, row.provider, row.userInfo, row.signpost, row.truth⟩

/-- Push to the subscribers of the exact name. -/
def pushToSubscribers (provided : List (Provision α)) (subscribers : List Subscription) :
    List (String × Fact α) :=
  provided.flatMap fun row => subscribers.filterMap fun subscriber =>
    if row.what = subscriber.what ∧ Visible row.userInfo subscriber.userInfo then
      some (subscriber.who, row.fact) else none

/-- Push to the subscribers of `RESOURCE@ANY`. The rule does not read the user
of either side. -/
def pushToAnySubscribers (adapted : List (AdaptedTruth α)) (subscribers : List Subscription) :
    List (String × Fact α) :=
  adapted.flatMap fun row => subscribers.filterMap fun subscriber =>
    if row.what = subscriber.what ∧
        (row.signpost = subscriber.signpost ∨ subscriber.signpost = "ANY") then
      some (subscriber.who, row.fact) else none

/-! ## What the rules derive -/

theorem mem_satisfiableTruthNeeds {now : Int} {truths : List (TruthRow α)}
    {needs : List Subscription} {answer : SatisfiableNeed α} :
    answer ∈ satisfiableTruthNeeds now truths needs ↔
      ∃ row ∈ truths, ∃ need ∈ needs, Answers now row need ∧
        answer = satisfiableTruthNeed row need := by
  simp only [satisfiableTruthNeeds, List.mem_flatMap, List.mem_filterMap]
  constructor
  · rintro ⟨row, hrow, need, hneed, h⟩
    split at h
    next hanswers => exact ⟨row, hrow, need, hneed, hanswers, (Option.some.inj h).symm⟩
    next => cases h
  · rintro ⟨row, hrow, need, hneed, hanswers, rfl⟩
    exact ⟨row, hrow, need, hneed, by rw [if_pos hanswers]⟩

theorem mem_pushToSubscribers {provided : List (Provision α)} {subscribers : List Subscription}
    {who : String} {fact : Fact α} :
    (who, fact) ∈ pushToSubscribers provided subscribers ↔
      ∃ row ∈ provided, ∃ subscriber ∈ subscribers, row.what = subscriber.what ∧
        Visible row.userInfo subscriber.userInfo ∧ who = subscriber.who ∧ fact = row.fact := by
  simp only [pushToSubscribers, List.mem_flatMap, List.mem_filterMap]
  constructor
  · rintro ⟨row, hrow, subscriber, hsubscriber, h⟩
    split at h
    next hmatch =>
      obtain ⟨hwho, hfact⟩ := Prod.mk.inj (Option.some.inj h)
      exact ⟨row, hrow, subscriber, hsubscriber, hmatch.1, hmatch.2, hwho.symm, hfact.symm⟩
    next => cases h
  · rintro ⟨row, hrow, subscriber, hsubscriber, hwhat, hvisible, rfl, rfl⟩
    exact ⟨row, hrow, subscriber, hsubscriber, by rw [if_pos ⟨hwhat, hvisible⟩]⟩

theorem mem_pushToAnySubscribers {provided : List (Provision α)} {subscribers : List Subscription}
    {who : String} {fact : Fact α} :
    (who, fact) ∈ pushToAnySubscribers (provided.map adaptedProvidedTruth) subscribers ↔
      ∃ row ∈ provided, ∃ subscriber ∈ subscribers, subscriber.what = alternativeWhat row.what ∧
        AcceptsSignpost subscriber.signpost row.signpost ∧ who = subscriber.who ∧
        fact = row.fact := by
  simp only [pushToAnySubscribers, List.mem_flatMap, List.mem_filterMap, List.mem_map]
  constructor
  · rintro ⟨_, ⟨row, hrow, rfl⟩, subscriber, hsubscriber, h⟩
    split at h
    next hmatch =>
      obtain ⟨hwho, hfact⟩ := Prod.mk.inj (Option.some.inj h)
      exact ⟨row, hrow, subscriber, hsubscriber, hmatch.1.symm,
        hmatch.2.symm.imp_right Eq.symm, hwho.symm, hfact.symm⟩
    next => cases h
  · rintro ⟨row, hrow, subscriber, hsubscriber, hwhat, haccepts, rfl, rfl⟩
    refine ⟨_, ⟨row, hrow, rfl⟩, subscriber, hsubscriber, ?_⟩
    rw [if_pos ⟨hwhat.symm, haccepts.symm.imp_left Eq.symm⟩]
    rfl

/-- The row that a provision leaves in the truth table: none unless its TTL is
positive. -/
def storedRow (now : Int) (row : Provision α) : Option (TruthRow α) :=
  match row.ttl with
  | none => none
  | some ttl =>
      if 0 < ttl then
        some ⟨row.what, row.provider, row.userInfo, row.signpost, row.truth,
          .cacheable ttl (now + ttl)⟩
      else none

theorem storedRow_eq_some_iff {now : Int} {row : Provision α} {truth : TruthRow α} :
    storedRow now row = some truth ↔
      truth.fact = row.fact ∧
        ∃ ttl, 0 < ttl ∧ row.ttl = some ttl ∧ truth.ttlState = .cacheable ttl (now + ttl) := by
  unfold storedRow
  cases httl : row.ttl with
  | none => simp
  | some ttl =>
      by_cases hpos : 0 < ttl
      · simp only [hpos, if_true, Option.some.injEq]
        constructor
        · rintro rfl
          exact ⟨rfl, ttl, hpos, rfl, rfl⟩
        · rintro ⟨hfact, _, _, rfl, hstate⟩
          cases truth
          simp_all [TruthRow.fact, Provision.fact]
      · simp only [hpos, if_false, reduceCtorEq, Option.some.injEq, false_iff, not_and]
        rintro _ ⟨_, hother, rfl, _⟩
        exact hpos hother

theorem key_of_storedRow {now : Int} {row : Provision α} {truth : TruthRow α}
    (hstored : storedRow now row = some truth) : truth.key = row.key :=
  congrArg Fact.key (storedRow_eq_some_iff.mp hstored).1

theorem storableTruth_eq {now : Int} {row : Provision α} (httl : row.ttl ≠ none) :
    storableTruth now row = .ok (storedRow now row) := by
  obtain ⟨ttl, httl⟩ := Option.ne_none_iff_exists'.mp httl
  rw [storableTruth, storedRow, httl]
  by_cases hpos : 0 < ttl
  · have hzero : ttl ≠ 0 := by omega
    simp [createTtlState, hpos, hzero, bind, Except.bind, pure, Except.pure]
  · simp [createTtlState, hpos, bind, Except.bind, pure, Except.pure]

theorem storableTruth_eq_error {now : Int} {row : Provision α} (httl : row.ttl = none) :
    storableTruth now row = .error .typeError := by
  rw [storableTruth, httl]
  rfl

/-- Storing fails exactly on a missing TTL, and otherwise stores the provisions
with a positive TTL. -/
theorem storableTruths_eq (now : Int) (rows : List (Provision α)) :
    storableTruths now rows =
      if ∃ row ∈ rows, row.ttl = none then .error .typeError
      else .ok (rows.filterMap (storedRow now)) := by
  induction rows with
  | nil => rfl
  | cons row rest ih =>
      by_cases httl : row.ttl = none
      · rw [storableTruths, storableTruth_eq_error httl, if_pos ⟨row, List.mem_cons_self, httl⟩]
        rfl
      · rw [storableTruths, storableTruth_eq httl, ih]
        by_cases hrest : ∃ other ∈ rest, other.ttl = none
        · rw [if_pos hrest, if_pos (by simpa using Or.inr hrest)]
          rfl
        · rw [if_neg hrest, if_neg (by simpa [httl] using hrest), List.filterMap_cons]
          cases storedRow now row <;> rfl

theorem mem_garbageCollected {now : Int} {timer : Bool} {truths : List (TruthRow α)}
    {row : TruthRow α} :
    row ∈ garbageCollected now timer truths ↔
      timer = true ∧ row ∈ truths ∧ ttlIsValid now row = false := by
  cases timer <;> simp [garbageCollected]

/-- Storing keeps the keys of provisions apart. -/
theorem storedRow_functional {now : Int} {rows : List (Provision α)}
    (hrows : KeyFunctional Provision.key rows) :
    KeyFunctional TruthRow.key (rows.filterMap (storedRow now)) := by
  intro left hleft right hright heq
  obtain ⟨row, hrow, hleft⟩ := List.mem_filterMap.mp hleft
  obtain ⟨other, hother, hright⟩ := List.mem_filterMap.mp hright
  have hsame : row = other := hrows row hrow other hother
    ((key_of_storedRow hleft).symm.trans (heq.trans (key_of_storedRow hright)))
  subst hsame
  exact Option.some.inj (hleft.symm.trans hright)

end Signpost.Solver

import Signpost.Tactic.Answers
import Signpost.Tactic.Blocks

/-! # Helpers that are used again

A block that asks to be recycled resets the helper while the helper is still
going through its blocks. Afterwards the helper waits for the message that
starts a tactic, as a new one does.
-/

namespace Signpost.Helper

open Machine
open Pool (Literals)

variable {α : Type}

/-! ## The state after recycling -/

/-- The blocks as they are registered, without the versions they were executed
with. -/
def registered (state : State α) : List (Todo α) :=
  state.todos.map fun todo => { todo with reqVersions := [] }

theorem removeExistingFromPending_none (pending : List String) :
    removeExistingFromPending (fun _ => none : Data α) pending = pending := by
  simp [removeExistingFromPending]

theorem recycle_eq (state : State α) :
    recycle state = ⟨registered state, fun _ => none, [], some tacticFacts, true⟩ := by
  simp only [recycle, setPendingTacticState, removeExistingFromPending_none]
  rfl

theorem recycle_congr {state other : State α} (hsame : registered state = registered other) :
    recycle state = recycle other := by
  rw [recycle_eq, recycle_eq, hsame]

theorem registered_recycle (state : State α) : registered (recycle state) = registered state := by
  simp [registered, recycle_eq]

theorem registered_setVersions (state : State α) (index : ℕ) (versions : List (String × ℕ)) :
    registered (setVersions state index versions) = registered state := by
  apply List.ext_getElem?
  intro i
  simp only [registered, setVersions, List.getElem?_map, List.getElem?_modify]
  cases state.todos[i]? with
  | none => rfl
  | some todo => by_cases heq : index = i <;> simp [heq]

theorem recycle_runCall (state : State α) (call : Call α) :
    recycle (runCall state call) = recycle state := by
  cases call with
  | recycleTactic => rw [runCall, recycle_eq, registered_recycle, ← recycle_eq]
  | log msg => rfl
  | needTruth need => rfl
  | observeTruth observe => rfl
  | provideTruth truth => rfl

/-- Whatever a block asks for besides, recycling resets the helper. -/
theorem runCalls_of_mem {state : State α} {calls : List (Call α)}
    (hmem : .recycleTactic ∈ calls) : (runCalls state calls).1 = recycle state := by
  induction calls generalizing state with
  | nil => cases hmem
  | cons call rest ih =>
      by_cases hrest : .recycleTactic ∈ rest
      · have hlater : (runCalls (runCall state call) rest).1 = recycle (runCall state call) :=
          ih hrest
        rw [recycle_runCall] at hlater
        exact hlater
      · obtain rfl := (List.mem_cons.mp hmem).resolve_right hrest
        have hlater : (runCalls (recycle state) rest).1 = recycle state :=
          runCalls_of_notMem hrest
        exact hlater

theorem registered_runCalls (state : State α) (calls : List (Call α)) :
    registered (runCalls state calls).1 = registered state := by
  by_cases hmem : .recycleTactic ∈ calls
  · rw [runCalls_of_mem hmem, registered_recycle]
  · rw [runCalls_of_notMem hmem]

theorem registered_executeUserBlock {state next : State α} {index : ℕ}
    {messages : List (Message α)} (hblock : executeUserBlock state index = .ok (next, messages)) :
    registered next = registered state := by
  rcases executeUserBlock_cases hblock with ⟨_, rfl, _⟩ | ⟨todo, _, _, _, hcalls⟩
  · rfl
  · have hnext : next = _ := congrArg Prod.fst hcalls
    rw [hnext, registered_runCalls, registered_setVersions]

theorem registered_executeUserBlocks {indices : List ℕ} {state next : State α}
    {messages : List (Message α)}
    (hblocks : executeUserBlocks state indices = .ok (next, messages)) :
    registered next = registered state := by
  induction indices generalizing state messages with
  | nil =>
      cases hblocks
      rfl
  | cons index rest ih =>
      obtain ⟨⟨middle, own⟩, hblock, hmiddle⟩ := bind_eq_ok.mp hblocks
      obtain ⟨⟨last, others⟩, hothers, hok⟩ := bind_eq_ok.mp hmiddle
      cases hok
      exact (ih hothers).trans (registered_executeUserBlock hblock)

/-! ## The rest of the loop -/

theorem getElem_recycle {state : State α} {blocks : List (Block α)}
    (hblocks : registered state = blocks.map when) (index : ℕ) :
    (recycle state).todos[index]? = blocks[index]?.map when := by
  rw [recycle_eq, hblocks, List.getElem?_map]

/-- The block has no requirements. -/
def isFree (blocks : List (Block α)) (index : ℕ) : Bool :=
  blocks[index]?.any fun block => block.requirements.isEmpty

/-- After recycling, a block with requirements is passed over, and one without
looks for the name of the node, which is gone. -/
theorem executeUserBlock_recycle {state : State α} {blocks : List (Block α)}
    (hblocks : registered state = blocks.map when) (index : ℕ) :
    executeUserBlock (recycle state) index =
      if isFree blocks index then .error .noMethodError else .ok (recycle state, []) := by
  unfold isFree
  have hindex := getElem_recycle hblocks index
  cases hblock : blocks[index]? with
  | none =>
      rw [hblock, Option.map_none] at hindex
      simp [executeUserBlock_of_none hindex]
  | some block =>
      rw [hblock, Option.map_some] at hindex
      have hnone : ∀ key, (recycle state).data key = none := fun key => by rw [recycle_eq]
      cases hreqs : block.requirements with
      | nil =>
          have hall : (when block).requirements.all
              fun req => ((recycle state).data (.symbol req)).isSome := by
            simp [when, hreqs]
          rcases executeUserBlock_of_satisfied hindex hall with ⟨-, herror⟩ | ⟨hexecutable, -⟩
          · simp [herror, hreqs]
          · exact absurd (hexecutable.1 rfl) (by simp [hnone])
      | cons req rest =>
          have hunsatisfied : ¬ (when block).requirements.all
              fun req => ((recycle state).data (.symbol req)).isSome := by
            simp [when, hreqs, hnone]
          simp [executeUserBlock_of_unsatisfied hindex hunsatisfied, hreqs]

theorem executeUserBlocks_recycle {state : State α} {blocks : List (Block α)}
    (hblocks : registered state = blocks.map when) (indices : List ℕ) :
    executeUserBlocks (recycle state) indices =
      if indices.any (isFree blocks) then .error .noMethodError else .ok (recycle state, []) := by
  induction indices with
  | nil => rfl
  | cons index rest ih =>
      rw [executeUserBlocks, executeUserBlock_recycle hblocks, List.any_cons]
      cases hfree : isFree blocks index with
      | true => simp [bind, Except.bind]
      | false =>
          simp only [Bool.false_eq_true, if_false, bind, Except.bind, ih, Bool.false_or]
          cases rest.any (isFree blocks) <;> rfl

theorem executions_recycle {state : State α} {blocks : List (Block α)}
    (hblocks : registered state = blocks.map when) (indices : List ℕ) :
    executions (recycle state) indices = [] := by
  induction indices with
  | nil => rfl
  | cons index rest ih =>
      rw [executions, executeUserBlock_recycle hblocks]
      split
      next next messages hok =>
        split at hok
        next => cases hok
        next hany =>
          cases hok
          have hdue : dueAt (recycle state) index = false := by
            rw [dueAt, getElem_recycle hblocks]
            unfold isFree at hany
            cases hblock : blocks[index]? with
            | none => rfl
            | some block =>
                cases hreqs : block.requirements with
                | nil => simp [hblock, hreqs] at hany
                | cons req others => simp [when, isDue, hreqs, recycle_eq]
          simp [hdue, ih]
      next => rfl

/-! ## The message in which a block recycles -/

section Message

variable [DecidableEq α] {literals : Literals α}

theorem registered_dealWithTruth {state next : State α} {truth : Fact α} {message : Message α}
    (htruth : dealWithTruth literals state truth = .ok (next, message)) :
    registered next = registered state := by
  obtain ⟨told, hrole, hname⟩ := bind_eq_ok.mp htruth
  obtain ⟨shortForm, _, hpending⟩ := bind_eq_ok.mp hname
  have htold : registered told = registered state := by
    unfold toldRole at hrole
    split at hrole
    next =>
      split at hrole
      next =>
        obtain rfl := Except.ok.inj hrole
        unfold registered
        split <;> rfl
      next => cases hrole
    next =>
      obtain rfl := Except.ok.inj hrole
      rfl
  split at hpending
  next => cases hpending
  next =>
    cases hpending
    exact htold

theorem registered_dealWithInput {truths : List (Fact α)} {state next : State α}
    {messages : List (Message α)}
    (hinput : dealWithInput literals state truths = .ok (next, messages)) :
    registered next = registered state := by
  induction truths generalizing state messages with
  | nil =>
      cases hinput
      rfl
  | cons truth rest ih =>
      obtain ⟨⟨middle, own⟩, htruth, hmiddle⟩ := bind_eq_ok.mp hinput
      obtain ⟨⟨last, others⟩, hothers, hok⟩ := bind_eq_ok.mp hmiddle
      cases hok
      exact (ih hothers).trans (registered_dealWithTruth htruth)

theorem registered_react {state next : State α} {truths : List (Fact α)} {reaction : Reaction α}
    (hreact : react literals state truths = .ok (next, reaction)) :
    registered next = registered state := by
  obtain ⟨⟨last, sent⟩, hhandle, hok⟩ := bind_eq_ok.mp hreact
  cases hok
  obtain ⟨⟨told, logs⟩, htold, hrest⟩ := bind_eq_ok.mp hhandle
  dsimp only at hrest
  split at hrest
  next =>
    obtain ⟨⟨final, messages⟩, hblocks, hend⟩ := bind_eq_ok.mp hrest
    cases hend
    exact (registered_executeUserBlocks hblocks).trans (registered_dealWithInput htold)
  next =>
    cases hrest
    exact registered_dealWithInput htold

/-- The message is dealt with up to the block of this index, which is executed
and asks to be recycled. -/
structure RecyclesAt (literals : Literals α) (state : State α) (truths : List (Fact α))
    (index : ℕ) : Prop where
  reached : ∃ told logs middle sent, dealWithInput literals state truths = .ok (told, logs) ∧
    (told.ready ∧ told.pending = some []) ∧
    executeUserBlocks told (List.range index) = .ok (middle, sent) ∧
    ∃ todo, middle.todos[index]? = some todo ∧ isDue middle.data todo ∧
      Executable middle.data todo ∧ .recycleTactic ∈ todo.block middle.data

omit [DecidableEq α] in
theorem any_isFree_iff {blocks : List (Block α)} {index : ℕ} {rest : List ℕ}
    (hrest : ∀ later, later ∈ rest ↔ index < later ∧ later < blocks.length) :
    rest.any (isFree blocks) = true ↔ ∃ later > index, isFree blocks later = true := by
  rw [List.any_eq_true]
  constructor
  · rintro ⟨later, hlater, hfree⟩
    exact ⟨later, ((hrest later).mp hlater).1, hfree⟩
  · rintro ⟨later, hgt, hfree⟩
    refine ⟨later, (hrest later).mpr ⟨hgt, ?_⟩, hfree⟩
    rw [isFree, Option.any_eq_true] at hfree
    obtain ⟨block, hblock, -⟩ := hfree
    exact (List.getElem?_eq_some_iff.mp hblock).1

omit [DecidableEq α] in
/-- A block that recycles is executed, and the rest of the loop finds the helper
reset. -/
theorem executeUserBlocks_of_recycles {state : State α} {blocks : List (Block α)}
    (hblocks : registered state = blocks.map when) {index : ℕ} {todo : Todo α}
    (htodo : state.todos[index]? = some todo) (hdue : isDue state.data todo)
    (hexecutable : Executable state.data todo)
    (hcalls : .recycleTactic ∈ todo.block state.data) (rest : List ℕ) :
    executions state (index :: rest) = [(index, state.data)] ∧
      ∃ messages, executeUserBlocks state (index :: rest) =
        if rest.any (isFree blocks) then .error .noMethodError
        else .ok (recycle state, messages) := by
  have hblock := executeUserBlock_of_due htodo hdue hexecutable
  have hreset : (runCalls (setVersions state index (executedVersions state.data todo))
      (todo.block state.data)).1 = recycle state := by
    rw [runCalls_of_mem hcalls]
    exact recycle_congr (registered_setVersions state index _)
  constructor
  · simp only [executions, hblock, hreset, dueAt_of_some htodo, hdue, if_true,
      executions_recycle hblocks]
  · refine ⟨(runCalls (setVersions state index (executedVersions state.data todo))
      (todo.block state.data)).2, ?_⟩
    rw [executeUserBlocks, hblock]
    simp only [bind, Except.bind, hreset, executeUserBlocks_recycle hblocks]
    cases rest.any (isFree blocks) <;> simp [pure, Except.pure]

/-- The message is dealt with exactly when the later blocks all have
requirements. -/
theorem react_of_recyclesAt {state : State α} {truths : List (Fact α)} {index : ℕ}
    {blocks : List (Block α)} (hblocks : registered state = blocks.map when)
    (hrecycles : RecyclesAt literals state truths index) :
    (∀ later > index, isFree blocks later = false) ∧
        (∃ reaction earlier data, react literals state truths = .ok (recycle state, reaction) ∧
          reaction.blocks = earlier ++ [(index, data)]) ∨
      (∃ later > index, isFree blocks later = true) ∧
        react literals state truths = .error .noMethodError := by
  obtain ⟨told, logs, middle, sent, htold, hready, hmiddle, todo, htodo, hdue, hexecutable,
    hcalls⟩ := hrecycles.reached
  have hregistered : registered middle = registered state :=
    (registered_executeUserBlocks hmiddle).trans (registered_dealWithInput htold)
  have hlength : told.todos.length = blocks.length := by
    have htodos := congrArg List.length ((registered_dealWithInput htold).trans hblocks)
    simpa [registered] using htodos
  have hlt : index < told.todos.length := by
    have hsame := congrArg List.length (registered_executeUserBlocks hmiddle)
    rw [registered, registered, List.length_map, List.length_map] at hsame
    exact hsame ▸ (List.getElem?_eq_some_iff.mp htodo).1
  obtain ⟨rest, hrange, hrest⟩ := range_eq_append hlt
  obtain ⟨hexecutions, messages, hloop⟩ := executeUserBlocks_of_recycles
    (hregistered.trans hblocks) htodo hdue hexecutable hcalls rest
  have hfree := any_isFree_iff (hlength ▸ hrest)
  rw [react_of_told htold hready, hrange, executeUserBlocks_append, hmiddle,
    executions_append hmiddle, hexecutions, ← recycle_congr hregistered]
  simp only [bind, Except.bind, hloop]
  cases hany : rest.any (isFree blocks) with
  | true => exact .inr ⟨hfree.mp hany, by simp [Except.map]⟩
  | false =>
      left
      constructor
      · intro later hgt
        by_contra hnot
        rw [Bool.not_eq_false] at hnot
        rw [hfree.mpr ⟨later, hgt, hnot⟩] at hany
        cases hany
      · exact ⟨_, _, _, rfl, rfl⟩

/-! ## Starting again -/

/-- What a helper does with one message after another, until one of them makes it
fail. -/
def reactions (literals : Literals α) :
    State α → List (List (Fact α)) → List (Except HelperError (Reaction α))
  | _, [] => []
  | state, truths :: rest =>
      match react literals state truths with
      | .ok (next, reaction) => .ok reaction :: reactions literals next rest
      | .error error => [.error error]

/-- Being told whether it is a daemon sets all of the state that is not the data
and the blocks. -/
theorem dealWithTruth_isDaemon {state other : State α} (htodos : state.todos = other.todos)
    (hdata : state.data = other.data) (hkeys : state.keys = other.keys) {truth : Fact α}
    (hwhat : truth.what = "is_daemon") :
    dealWithTruth literals state truth = dealWithTruth literals other truth := by
  obtain ⟨todos, data, keys, pending, ready⟩ := state
  obtain ⟨todos', data', keys', pending', ready'⟩ := other
  obtain rfl : todos = todos' := htodos
  obtain rfl : data = data' := hdata
  obtain rfl : keys = keys' := hkeys
  simp only [dealWithTruth, toldRole, hwhat, if_true, setPendingDaemonState,
    setPendingTacticState]

theorem react_isDaemon {state other : State α} (htodos : state.todos = other.todos)
    (hdata : state.data = other.data) (hkeys : state.keys = other.keys) {truth : Fact α}
    {rest : List (Fact α)} (hwhat : truth.what = "is_daemon") :
    react literals state (truth :: rest) = react literals other (truth :: rest) := by
  have hinput : dealWithInput literals state (truth :: rest) =
      dealWithInput literals other (truth :: rest) := by
    rw [dealWithInput, dealWithInput, dealWithTruth_isDaemon htodos hdata hkeys hwhat]
  unfold react handleInput executedBlocks
  rw [hinput]

/-- A helper that has been recycled reacts like a new one. -/
theorem reactions_recycle {config : Pool.PoolConfig α} {state : State α}
    {blocks : List (Block α)} (hblocks : registered state = blocks.map when)
    {messages : List (List (Fact α))} (hanew : StartsAnew config messages) :
    reactions literals (recycle state) messages =
      reactions literals (newHelper blocks) messages := by
  obtain ⟨first, rest, rfl, hinitial⟩ := hanew
  obtain ⟨truth, others, rfl, hwhat⟩ := isDaemon_of_isInitialMessage hinitial
  have hsame : react literals (recycle state) (truth :: others) =
      react literals (newHelper blocks) (truth :: others) := by
    apply react_isDaemon _ _ _ hwhat
    · rw [recycle_eq, hblocks]
      rfl
    · rw [recycle_eq]
      rfl
    · rw [recycle_eq]
      rfl
  rw [reactions, reactions, hsame]

/-- The message in which the block recycles is completed, no further block is
executed for it, and after it the helper is as good as new. -/
def AsGoodAsNew (config : Pool.PoolConfig α) (blocks : List (Block α)) (state : State α)
    (truths : List (Fact α)) (index : ℕ) : Prop :=
  ∃ next reaction, react config.literals state truths = .ok (next, reaction) ∧
    (∃ earlier data, reaction.blocks = earlier ++ [(index, data)]) ∧
    ∀ messages, StartsAnew config messages →
      reactions config.literals next messages =
        reactions config.literals (newHelper blocks) messages

/-- Recycling gives a helper as good as new exactly when all blocks after the one
that recycles have requirements. -/
theorem asGoodAsNew_iff {config : Pool.PoolConfig α} {blocks : List (Block α)}
    {steps : List (Transition (State α) (List (Fact α)) (Reaction α))} {state : State α}
    (hrun : Run (react config.literals) (newHelper blocks) steps state) {truths : List (Fact α)}
    {index : ℕ} (hrecycles : RecyclesAt config.literals state truths index) :
    AsGoodAsNew config blocks state truths index ↔
      ∀ later > index, ∀ block, blocks[later]? = some block → block.requirements ≠ [] := by
  have hblocks : registered state = blocks.map when := by
    refine hrun.invariant (P := fun state => registered state = blocks.map when) ?_ ?_
    · simp [registered, newHelper, initial, when]
    · intro state truths next reaction hstate hreact
      exact (registered_react hreact).trans hstate
  have hfree : (∀ later > index, isFree blocks later = false) ↔
      ∀ later > index, ∀ block, blocks[later]? = some block → block.requirements ≠ [] := by
    refine forall₂_congr fun later _ => ?_
    cases hblock : blocks[later]? <;> simp [isFree, hblock]
  rw [← hfree]
  rcases react_of_recyclesAt hblocks hrecycles with
    ⟨hall, reaction, earlier, data, hreact, hexecuted⟩ | ⟨⟨later, hgt, hlater⟩, herror⟩
  · refine iff_of_true ?_ hall
    exact ⟨_, reaction, hreact, ⟨earlier, data, hexecuted⟩,
      fun messages hanew => reactions_recycle hblocks hanew⟩
  · refine iff_of_false ?_ fun hall => by simp [hall later hgt] at hlater
    rintro ⟨next, reaction, hreact, -⟩
    rw [herror] at hreact
    cases hreact

end Message

/-! ## Two blocks without requirements -/

open Pool (echoConfig echoThread)

/-- A block that answers and asks to be recycled. -/
def answerBlock : Block (String ⊕ (Bool ⊕ Option ℕ)) :=
  ⟨[], fun _ => [.provideTruth ⟨"ip@kle.io", .inl "10.0.0.1", some 60, true⟩, .recycleTactic]⟩

def logBlock : Block (String ⊕ (Bool ⊕ Option ℕ)) := ⟨[], fun _ => [.log "executed"]⟩

/-- A block that waits for an address to answer with. -/
def addressBlock : Block (String ⊕ (Bool ⊕ Option ℕ)) := ⟨["ip"], fun _ => [.log "address"]⟩

/-- The initial message of a request. -/
def kleFacts : List (Fact (String ⊕ (Bool ⊕ Option ℕ))) :=
  let fact := Pool.initialValue "carol" "alpha"
  [fact "is_daemon" (.inr (.inl false)), fact "what" (.inl "ip@kle.io"),
    fact "port" (.inr (.inr none)), fact "destination" (.inl "kle.io"),
    fact "domain" (.inl "kle.io"), fact "resource" (.inl "ip"), fact "user" (.inl "carol"),
    fact "node_name" (.inl "alpha")]

example : Pool.execute echoConfig echoThread "carol" "ip@kle.io" = .ok kleFacts := by rfl

theorem recyclesAt_answerBlock (blocks : List (Block (String ⊕ (Bool ⊕ Option ℕ)))) :
    RecyclesAt echoConfig.literals (newHelper (answerBlock :: blocks)) kleFacts 0 := by
  refine ⟨_, _, _, _, rfl, ⟨rfl, rfl⟩, rfl, _, rfl, rfl, ⟨fun _ => rfl, ?_⟩, ?_⟩
  · exact fun _ hentry => absurd hentry List.not_mem_nil
  · exact List.mem_cons_of_mem _ (List.mem_singleton_self _)

theorem asGoodAsNew_iff_of_answerBlock :
    AsGoodAsNew echoConfig [answerBlock, addressBlock] (newHelper [answerBlock, addressBlock])
        kleFacts 0 ↔
      ∀ later > 0, ∀ block, [answerBlock, addressBlock][later]? = some block →
        block.requirements ≠ [] :=
  asGoodAsNew_iff .start (recyclesAt_answerBlock [addressBlock])

/-- The second block is still executed, for the name of the node. -/
theorem not_asGoodAsNew_of_logBlock :
    ¬ ∀ (config : Pool.PoolConfig (String ⊕ (Bool ⊕ Option ℕ)))
      (blocks : List (Block (String ⊕ (Bool ⊕ Option ℕ))))
      (steps : List (Transition (State (String ⊕ (Bool ⊕ Option ℕ)))
        (List (Fact (String ⊕ (Bool ⊕ Option ℕ)))) (Reaction (String ⊕ (Bool ⊕ Option ℕ)))))
      (state : State (String ⊕ (Bool ⊕ Option ℕ)))
      (truths : List (Fact (String ⊕ (Bool ⊕ Option ℕ)))) (index : ℕ),
      Run (react config.literals) (newHelper blocks) steps state →
        RecyclesAt config.literals state truths index →
          AsGoodAsNew config blocks state truths index := by
  intro hclaim
  obtain ⟨next, reaction, hreact, -⟩ := hclaim echoConfig [answerBlock, logBlock] [] _ kleFacts 0
    .start (recyclesAt_answerBlock [logBlock])
  have herror : react echoConfig.literals (newHelper [answerBlock, logBlock]) kleFacts =
      .error .noMethodError := by
    rfl
  rw [herror] at hreact
  cases hreact

end Signpost.Helper

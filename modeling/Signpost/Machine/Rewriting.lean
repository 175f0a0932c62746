import Mathlib.Data.List.Basic
import Mathlib.Data.List.Infix
import Mathlib.Data.Nat.Find
import Mathlib.Logic.Relation

/-! # Replacing a word until it is gone

A loop replaces the last occurrence of a word in a text for as long as there is
one. The word begins with a mark that it contains only there. A text is then a
row of blocks, one after each mark, and the word occurs where a block begins with
the rest of the word.
-/

namespace Machine.Rewriting

universe u v

variable {σ : Type u}

/-! ## Loops -/

/-- Takes steps until there is none left. -/
def loop (step : σ → Option σ) : ℕ → σ → Option σ
  | 0, _ => none
  | fuel + 1, state =>
      match step state with
      | none => some state
      | some next => loop step fuel next

def Halts (step : σ → Option σ) (state : σ) : Prop :=
  ∃ fuel final, loop step fuel state = some final

def Reaches (step : σ → Option σ) : σ → σ → Prop :=
  Relation.ReflTransGen fun state next => step state = some next

section Loops

variable {step : σ → Option σ} {state next final : σ}

theorem reaches_refl : Reaches step state state := .refl

theorem reaches_of_some (hstep : step state = some next) (hreaches : Reaches step next final) :
    Reaches step state final :=
  .head hstep hreaches

theorem Reaches.trans (hreaches : Reaches step state next) (hlater : Reaches step next final) :
    Reaches step state final :=
  Relation.ReflTransGen.trans hreaches hlater

theorem loop_succ_of_none (hstep : step state = none) (fuel : ℕ) :
    loop step (fuel + 1) state = some state := by
  rw [loop, hstep]

theorem loop_succ_of_some (hstep : step state = some next) (fuel : ℕ) :
    loop step (fuel + 1) state = loop step fuel next := by
  rw [loop, hstep]

theorem loop_mono {fuel more : ℕ} (hle : fuel ≤ more) (hloop : loop step fuel state = some final) :
    loop step more state = some final := by
  induction fuel generalizing state more with
  | zero => cases hloop
  | succ fuel ih =>
      obtain ⟨more, rfl⟩ := Nat.exists_eq_add_of_le' (Nat.le_of_add_left_le hle)
      cases hstep : step state with
      | none =>
          rw [loop_succ_of_none hstep] at hloop ⊢
          exact hloop
      | some next =>
          rw [loop_succ_of_some hstep] at hloop ⊢
          exact ih (Nat.le_of_succ_le_succ hle) hloop

/-- Where a loop ends, there is no further step. -/
theorem step_eq_none_of_loop {fuel : ℕ} (hloop : loop step fuel state = some final) :
    step final = none := by
  induction fuel generalizing state with
  | zero => cases hloop
  | succ fuel ih =>
      cases hstep : step state with
      | none =>
          rw [loop_succ_of_none hstep] at hloop
          exact Option.some.inj hloop ▸ hstep
      | some next => exact ih (loop_succ_of_some hstep fuel ▸ hloop)

/-- What every step keeps holds where a loop ends. -/
theorem loop_invariant {P : σ → Prop} (hkeeps : ∀ state next, P state → step state = some next →
    P next) {fuel : ℕ} (hstate : P state) (hloop : loop step fuel state = some final) :
    P final := by
  induction fuel generalizing state with
  | zero => cases hloop
  | succ fuel ih =>
      cases hstep : step state with
      | none =>
          rw [loop_succ_of_none hstep] at hloop
          exact Option.some.inj hloop ▸ hstate
      | some next =>
          exact ih (hkeeps state next hstate hstep) (loop_succ_of_some hstep fuel ▸ hloop)

theorem halts_of_none (hstep : step state = none) : Halts step state :=
  ⟨1, state, loop_succ_of_none hstep 0⟩

theorem halts_of_some (hstep : step state = some next) (hnext : Halts step next) :
    Halts step state := by
  obtain ⟨fuel, final, hloop⟩ := hnext
  exact ⟨fuel + 1, final, by rw [loop_succ_of_some hstep, hloop]⟩

theorem halts_of_reaches (hreaches : Reaches step state next) (hnext : Halts step next) :
    Halts step state := by
  induction hreaches using Relation.ReflTransGen.head_induction_on with
  | refl => exact hnext
  | head hstep _ ih => exact halts_of_some hstep ih

/-- A loop halts when each step makes some measure of its state smaller. -/
theorem halts_of_measure {P : σ → Prop} (measure : σ → ℕ)
    (hkeeps : ∀ state next, P state → step state = some next →
      P next ∧ measure next < measure state) (hstate : P state) : Halts step state := by
  induction hsize : measure state using Nat.strongRecOn generalizing state with
  | ind size ih =>
      cases hstep : step state with
      | none => exact halts_of_none hstep
      | some next =>
          obtain ⟨hnext, hless⟩ := hkeeps state next hstate hstep
          exact halts_of_some hstep (ih _ (hsize ▸ hless) hnext rfl)

/-- The loop goes through whatever it reaches. -/
theorem loop_of_reaches (hreaches : Reaches step state next) {fuel : ℕ}
    (hloop : loop step fuel state = some final) :
    ∃ left ≤ fuel, loop step left next = some final := by
  induction hreaches using Relation.ReflTransGen.head_induction_on generalizing fuel with
  | refl => exact ⟨fuel, le_rfl, hloop⟩
  | head hstep _ ih =>
      cases fuel with
      | zero => cases hloop
      | succ fuel =>
          rw [loop_succ_of_some hstep] at hloop
          obtain ⟨left, hle, hleft⟩ := ih hloop
          exact ⟨left, Nat.le_succ_of_le hle, hleft⟩

/-- A loop does not halt when from each of some states it comes to another one of
them. -/
theorem not_halts_of_progress {P : σ → Prop}
    (hprogress : ∀ state, P state → ∃ next later, step state = some next ∧
      Reaches step next later ∧ P later) (hstate : P state) : ¬ Halts step state := by
  rintro ⟨fuel, final, hloop⟩
  induction fuel using Nat.strongRecOn generalizing state with
  | ind fuel ih =>
      obtain ⟨next, later, hstep, hreaches, hlater⟩ := hprogress state hstate
      cases fuel with
      | zero => cases hloop
      | succ fuel =>
          rw [loop_succ_of_some hstep] at hloop
          obtain ⟨left, hle, hleft⟩ := loop_of_reaches hreaches hloop
          exact ih left (Nat.lt_succ_of_le hle) hlater hleft

end Loops

/-! ## The last occurrence -/

variable {α : Type v}

section LastOccurrence

variable [DecidableEq α]

/-- What stands before and after the last occurrence of a word. -/
def lastSplit (word : List α) : List α → Option (List α × List α)
  | [] => none
  | c :: rest =>
      match lastSplit word rest with
      | some (before, after) => some (c :: before, after)
      | none =>
          if word.isPrefixOf (c :: rest) then some ([], (c :: rest).drop word.length) else none

def replaceLast (word value text : List α) : Option (List α) :=
  (lastSplit word text).map fun (before, after) => before ++ value ++ after

variable {word text before after : List α}

theorem lastSplit_eq_none_iff (hword : word ≠ []) :
    lastSplit word text = none ↔ ¬ word <:+: text := by
  induction text with
  | nil => simp [lastSplit, hword]
  | cons c rest ih =>
      rw [lastSplit, List.infix_cons_iff]
      cases hrest : lastSplit word rest with
      | some split =>
          have hoccurs : word <:+: rest := by
            rw [← not_not (a := word <:+: rest), ← ih, hrest]
            simp
          simp [hoccurs]
      | none =>
          rw [ih] at hrest
          by_cases hstart : word <+: c :: rest <;> simp [hstart, hrest]

theorem append_of_lastSplit (hsplit : lastSplit word text = some (before, after)) :
    text = before ++ word ++ after := by
  induction text generalizing before with
  | nil => cases hsplit
  | cons c rest ih =>
      rw [lastSplit] at hsplit
      split at hsplit
      next front back hrest =>
        cases hsplit
        rw [ih hrest, List.cons_append, List.cons_append]
      next hrest =>
        split at hsplit
        next hstart =>
          cases hsplit
          exact (List.prefix_iff_eq_append.mp (List.isPrefixOf_iff_prefix.mp hstart)).symm
        next => cases hsplit

/-- There is no further occurrence behind the last one. -/
theorem not_infix_of_lastSplit (hsplit : lastSplit word text = some (before, after))
    (hword : word ≠ []) : ¬ word <:+: after := by
  induction text generalizing before with
  | nil => cases hsplit
  | cons c rest ih =>
      rw [lastSplit] at hsplit
      split at hsplit
      next front back hrest =>
        cases hsplit
        exact ih hrest
      next hrest =>
        split at hsplit
        next hstart =>
          cases hsplit
          obtain ⟨d, word, rfl⟩ := List.exists_cons_of_ne_nil hword
          intro hoccurs
          rw [List.length_cons, List.drop_succ_cons] at hoccurs
          rw [lastSplit_eq_none_iff (List.cons_ne_nil _ _)] at hrest
          exact hrest (hoccurs.trans (List.drop_suffix _ _).isInfix)
        next => cases hsplit

end LastOccurrence

/-! ## Blocks -/

section Blocks

variable {mark : α} {tail block before after : List α}

/-- The blocks, each after a mark. -/
def spell (mark : α) (row : List (List α)) : List α := row.flatMap (mark :: ·)

/-- Nothing to replace, and nothing before the first mark. -/
def Settled (mark : α) (tail text : List α) : Prop :=
  (∀ c ∈ text.head?, c = mark) ∧ ¬ mark :: tail <:+: text

@[simp]
theorem spell_nil : spell mark [] = [] := rfl

@[simp]
theorem spell_cons (row : List (List α)) :
    spell mark (block :: row) = mark :: (block ++ spell mark row) := rfl

@[simp]
theorem spell_append (row others : List (List α)) :
    spell mark (row ++ others) = spell mark row ++ spell mark others := List.flatMap_append

theorem settled_nil : Settled mark tail [] := by simp [Settled]

/-- A word cannot begin before the first mark. -/
theorem infix_append_iff_of_not_mem (hbefore : mark ∉ before) :
    mark :: tail <:+: before ++ after ↔ mark :: tail <:+: after := by
  induction before with
  | nil => rfl
  | cons c before ih =>
      rw [List.mem_cons, not_or] at hbefore
      rw [List.cons_append, List.infix_cons_iff, ih hbefore.2, List.cons_prefix_cons]
      simp [hbefore.1]

/-- The rest of a word does not go beyond its block. -/
theorem prefix_append_iff_of_head (htail : mark ∉ tail) (hafter : ∀ c ∈ after.head?, c = mark) :
    tail <+: block ++ after ↔ tail <+: block := by
  refine ⟨fun hbegin => ?_, fun hbegin => hbegin.trans (List.prefix_append block after)⟩
  obtain ⟨rest, heq⟩ := hbegin
  rcases List.append_eq_append_iff.mp heq with ⟨others, rfl, _⟩ | ⟨others, rfl, rfl⟩
  · exact List.prefix_append tail others
  · cases others with
    | nil => simp
    | cons c others =>
        obtain rfl := hafter c (by simp)
        simp at htail

theorem Settled.cons (htail : mark ∉ tail) (hblock : mark ∉ block) (hstart : ¬ tail <+: block)
    (hafter : Settled mark tail after) : Settled mark tail (mark :: (block ++ after)) := by
  refine ⟨by simp, ?_⟩
  rw [List.infix_cons_iff, infix_append_iff_of_not_mem hblock, List.cons_prefix_cons,
    prefix_append_iff_of_head htail hafter.1]
  simp [hstart, hafter.2]

theorem Settled.spell (htail : mark ∉ tail) {row : List (List α)}
    (hrow : ∀ block ∈ row, mark ∉ block ∧ ¬ tail <+: block) (hafter : Settled mark tail after) :
    Settled mark tail (spell mark row ++ after) := by
  induction row with
  | nil => exact hafter
  | cons block row ih =>
      have hblock := hrow block List.mem_cons_self
      have hrest := ih fun other hother => hrow other (List.mem_cons_of_mem _ hother)
      rw [spell_cons, List.cons_append, List.append_assoc]
      exact hrest.cons htail hblock.1 hblock.2

/-- The last element with a property. -/
theorem exists_last_of_exists {P : α → Prop} {row : List α} (hexists : ∃ c ∈ row, P c) :
    ∃ front c back, row = front ++ c :: back ∧ P c ∧ ∀ other ∈ back, ¬ P other := by
  induction row with
  | nil => simp at hexists
  | cons c row ih =>
      by_cases hrow : ∃ other ∈ row, P other
      · obtain ⟨front, other, back, rfl, hother⟩ := ih hrow
        exact ⟨c :: front, other, back, rfl, hother⟩
      · have hc : P c := by simpa [hrow] using hexists
        exact ⟨[], c, row, rfl, hc, by simpa using hrow⟩

theorem exists_last_block (hmem : mark ∈ before) :
    ∃ front block, before = front ++ mark :: block ∧ mark ∉ block := by
  obtain ⟨front, c, block, hbefore, hc, hblock⟩ :=
    exists_last_of_exists (P := (· = mark)) ⟨mark, hmem, rfl⟩
  exact ⟨front, block, hc ▸ hbefore, fun hmark => hblock mark hmark rfl⟩

end Blocks

/-! ## Replacing the last occurrence -/

section Replace

variable [DecidableEq α] {mark : α} {tail value block before after rest : List α}

/-- An occurrence with none behind it. -/
theorem lastSplit_append (hrest : ¬ mark :: tail <:+: tail ++ rest) :
    lastSplit (mark :: tail) (before ++ mark :: (tail ++ rest)) = some (before, rest) := by
  induction before with
  | nil =>
      rw [List.nil_append, lastSplit, (lastSplit_eq_none_iff (List.cons_ne_nil _ _)).mpr hrest]
      simp
  | cons c before ih => rw [List.cons_append, lastSplit, ih]

theorem lastSplit_block (htail : mark ∉ tail) (hrest : mark ∉ rest)
    (hafter : Settled mark tail after) :
    lastSplit (mark :: tail) (before ++ mark :: (tail ++ rest ++ after)) =
      some (before, rest ++ after) := by
  rw [List.append_assoc]
  apply lastSplit_append
  rw [← List.append_assoc, infix_append_iff_of_not_mem (by simp [htail, hrest])]
  exact hafter.2

theorem replaceLast_block (htail : mark ∉ tail) (hrest : mark ∉ rest)
    (hafter : Settled mark tail after) :
    replaceLast (mark :: tail) value (before ++ mark :: (tail ++ rest ++ after)) =
      some (before ++ value ++ (rest ++ after)) := by
  rw [replaceLast, lastSplit_block htail hrest hafter, Option.map_some]

theorem replaceLast_eq_none_iff {word text : List α} (hword : word ≠ []) :
    replaceLast word value text = none ↔ ¬ word <:+: text := by
  rw [replaceLast, Option.map_eq_none_iff, lastSplit_eq_none_iff hword]

omit [DecidableEq α] in
/-- A value that contains the word keeps a loop going. -/
theorem not_halts_of_isInfix {step : List α → Option (List α)} {word text : List α}
    (hnone : ∀ text, step text = none → ¬ word <:+: text)
    (hsome : ∀ text next, step text = some next → value <:+: next) (hvalue : word <:+: value)
    (htext : word <:+: text) : ¬ Halts step text := by
  apply not_halts_of_progress (P := (word <:+: ·)) ?_ htext
  intro state hstate
  cases hstep : step state with
  | none => exact absurd hstate (hnone state hstep)
  | some next => exact ⟨next, next, rfl, reaches_refl, hvalue.trans (hsome state next hstep)⟩

end Replace

/-! ## Rounds

When the block `tail ++ rest` is replaced by the value `first ++ inner ++ last`,
the block before it gets `first` at its end, the blocks `inner` are new, and
`last ++ rest` is left, which may begin with `tail` again.
-/

def repeated (n : ℕ) (text : List α) : List α := (List.replicate n text).flatten

/-- The block is replaced that many times in a row. -/
def Fires (tail last : List α) : ℕ → List α → Prop
  | 0, _ => True
  | n + 1, block => ∃ rest, block = tail ++ rest ∧ Fires tail last n (last ++ rest)

section Repeated

variable {text : List α}

@[simp]
theorem repeated_zero : repeated 0 text = [] := rfl

theorem repeated_succ (n : ℕ) : repeated (n + 1) text = text ++ repeated n text := rfl

theorem repeated_add (m n : ℕ) : repeated (m + n) text = repeated m text ++ repeated n text := by
  rw [repeated, List.replicate_add, List.flatten_append, repeated, repeated]

theorem mem_of_mem_repeated {c : α} {n : ℕ} (hmem : c ∈ repeated n text) : c ∈ text := by
  obtain ⟨copy, hcopy, hc⟩ := List.mem_flatten.mp hmem
  exact List.eq_of_mem_replicate hcopy ▸ hc

theorem not_mem_repeated {mark : α} (hmark : mark ∉ text) (n : ℕ) : mark ∉ repeated n text :=
  fun hmem => hmark (mem_of_mem_repeated hmem)

end Repeated

section Fires

variable {tail last block : List α} {m n : ℕ}

@[simp]
theorem fires_zero : Fires tail last 0 block := trivial

theorem fires_succ_append (rest : List α) :
    Fires tail last (n + 1) (tail ++ rest) ↔ Fires tail last n (last ++ rest) := by
  simp [Fires]

theorem Fires.isPrefix (hfires : Fires tail last (n + 1) block) : tail <+: block := by
  obtain ⟨rest, rfl, _⟩ := hfires
  exact List.prefix_append tail rest

theorem Fires.mono (hfires : Fires tail last n block) (hle : m ≤ n) : Fires tail last m block := by
  induction m generalizing n block with
  | zero => exact fires_zero
  | succ m ih =>
      obtain ⟨n, rfl⟩ := Nat.exists_eq_add_of_le' (Nat.le_of_add_left_le hle)
      obtain ⟨rest, rfl, hrest⟩ := hfires
      exact (fires_succ_append rest).mpr (ih hrest (Nat.le_of_succ_le_succ hle))

theorem lt_of_fires_of_not_fires (hfires : Fires tail last m block)
    (hnot : ¬ Fires tail last n block) : m < n :=
  lt_of_not_ge fun hle => hnot (hfires.mono hle)

end Fires

section Rounds

variable [DecidableEq α] {mark : α} {tail first last : List α} {inner : List (List α)}

/-- A value with at least one mark. -/
def valueOf (mark : α) (first : List α) (inner : List (List α)) (last : List α) : List α :=
  first ++ spell mark (inner ++ [last])

/-- The word does not occur in the value, part by part. -/
structure Separate (mark : α) (tail first : List α) (inner : List (List α)) (last : List α) :
    Prop where
  unmarked_tail : mark ∉ tail
  unmarked_first : mark ∉ first
  inner_block : ∀ block ∈ inner, mark ∉ block ∧ ¬ tail <+: block
  last_block : mark ∉ last ∧ ¬ tail <+: last

/-- What a replacement puts before the last mark of the value. -/
def round (mark : α) (first : List α) (inner : List (List α)) : List α :=
  first ++ spell mark inner

/-- Each of the blocks of a round fires `n` times once it has `first` `n` times at
its end. -/
def Full (tail first : List α) (inner : List (List α)) (last : List α) (n : ℕ) : Prop :=
  ∀ block ∈ inner, Fires tail last n (block ++ repeated n first)

/-- A block of a round fires once more than it has got `first` at its end, and
those behind it as often as that. -/
def GainsAt (tail first : List α) (inner : List (List α)) (last : List α) (n : ℕ) : Prop :=
  ∃ front block back, inner = front ++ block :: back ∧
    (∀ other ∈ back, Fires tail last n (other ++ repeated n first)) ∧
    Fires tail last (n + 1) (block ++ repeated n first)

/-- A gain after rounds that are full. -/
def Gains (tail first : List α) (inner : List (List α)) (last : List α) : Prop :=
  ∃ n, (∀ k < n, Full tail first inner last k) ∧ GainsAt tail first inner last n

variable (hvalue : Separate mark tail first inner last)

include hvalue

/-- A block is replaced as often as it fires. -/
theorem exists_fires {block : List α} (hblock : mark ∉ block) :
    ∃ n, Fires tail last n block ∧ ¬ Fires tail last (n + 1) block ∧
      ∀ before after, Settled mark tail after → ∃ after', Settled mark tail after' ∧
        Reaches (replaceLast (mark :: tail) (valueOf mark first inner last))
          (before ++ mark :: (block ++ after))
          (before ++ repeated n (round mark first inner) ++ after') := by
  induction hsize : block.length using Nat.strongRecOn generalizing block with
  | ind size ih =>
      by_cases hstart : tail <+: block
      · obtain ⟨rest, rfl⟩ := hstart
        have hrest : mark ∉ last ++ rest := by
          simp only [List.mem_append, not_or] at hblock ⊢
          exact ⟨hvalue.last_block.1, hblock.2⟩
        have hstep : ∀ before after, Settled mark tail after →
            replaceLast (mark :: tail) (valueOf mark first inner last)
              (before ++ mark :: (tail ++ rest ++ after)) =
            some (before ++ round mark first inner ++ mark :: (last ++ rest ++ after)) := by
          intro before after hafter
          rw [replaceLast_block hvalue.unmarked_tail (by simp_all) hafter]
          simp [valueOf, round]
        by_cases hless : last.length < tail.length
        · obtain ⟨n, hfires, hnot, hreaches⟩ := ih (last ++ rest).length
            (by simp only [List.length_append] at hsize ⊢; omega) hrest rfl
          refine ⟨n + 1, (fires_succ_append rest).mpr hfires,
            fun hmore => hnot ((fires_succ_append rest).mp hmore), ?_⟩
          intro before after hafter
          obtain ⟨after', hafter', hlater⟩ :=
            hreaches (before ++ round mark first inner) after hafter
          refine ⟨after', hafter', reaches_of_some (hstep before after hafter) ?_⟩
          simpa [repeated_succ] using hlater
        · have hnot : ¬ tail <+: last ++ rest := fun hbegin => hvalue.last_block.2
            (List.prefix_of_prefix_length_le hbegin (List.prefix_append last rest) (by omega))
          refine ⟨1, (fires_succ_append rest).mpr fires_zero,
            fun hmore => hnot ((fires_succ_append rest).mp hmore).isPrefix, ?_⟩
          intro before after hafter
          refine ⟨_, hafter.cons hvalue.unmarked_tail hrest hnot, ?_⟩
          refine reaches_of_some (hstep before after hafter) ?_
          simpa [repeated_succ] using reaches_refl
      · refine ⟨0, fires_zero, fun hfires => hstart hfires.isPrefix, ?_⟩
        intro before after hafter
        refine ⟨_, hafter.cons hvalue.unmarked_tail hblock hstart, ?_⟩
        simpa using reaches_refl

/-- What is left of `n` rounds at the end of a text is `first`, `left` times. -/
def Leaves (mark : α) (tail first : List α) (inner : List (List α)) (last : List α) (n left : ℕ) :
    Prop :=
  ∀ before after, Settled mark tail after → ∃ after', Settled mark tail after' ∧
    Reaches (replaceLast (mark :: tail) (valueOf mark first inner last))
      (before ++ repeated n (round mark first inner) ++ after)
      (before ++ repeated left first ++ after')

/-- From the last block of a round to its first one, `first` at the end of a block
never becomes more. -/
theorem leaves_row (hgains : ¬ Gains tail first inner last) {most : ℕ}
    (hleaves : ∀ n ≤ most, ∃ left ≤ n, (∀ k < left, Full tail first inner last k) ∧
      Leaves mark tail first inner last n left)
    (row done : List (List α)) (hinner : inner = row ++ done) {n : ℕ} (hmost : n ≤ most)
    (hfull : ∀ k < n, Full tail first inner last k)
    (hdone : ∀ block ∈ done, Fires tail last n (block ++ repeated n first)) :
    ∃ left ≤ n, (∀ k ≤ left, Full tail first inner last k) ∧
      ∀ before after, Settled mark tail after → ∃ after', Settled mark tail after' ∧
        Reaches (replaceLast (mark :: tail) (valueOf mark first inner last))
          (before ++ spell mark row ++ repeated n first ++ after)
          (before ++ repeated left first ++ after') := by
  induction row using List.reverseRecOn generalizing n done with
  | nil =>
      refine ⟨n, le_rfl, ?_, fun before after hafter => ⟨after, hafter, ?_⟩⟩
      · intro k hk
        rcases Nat.lt_or_eq_of_le hk with hless | rfl
        · exact hfull k hless
        · rwa [Full, hinner]
      · simpa using reaches_refl
  | append_singleton row block ih =>
      rw [List.append_assoc, List.singleton_append] at hinner
      have hblock : mark ∉ block ++ repeated n first := by
        have := (hvalue.inner_block block (by simp [hinner])).1
        simp [this, not_mem_repeated hvalue.unmarked_first]
      obtain ⟨times, hfires, hnot, hreaches⟩ := exists_fires hvalue hblock
      have htimes : times ≤ n := by
        by_contra hmore
        exact hgains ⟨n, hfull, row, block, done, hinner, hdone, hfires.mono (by omega)⟩
      obtain ⟨left, hleft, hfullLeft, hround⟩ := hleaves times (htimes.trans hmost)
      have hnext : ∀ other ∈ block :: done,
          Fires tail last left (other ++ repeated left first) := by
        rcases Nat.lt_or_eq_of_le (hleft.trans htimes) with hless | rfl
        · intro other hother
          exact hfull left hless other (hinner ▸ List.mem_append_right row hother)
        · intro other hother
          rcases List.mem_cons.mp hother with rfl | hother
          · exact hfires.mono hleft
          · exact hdone other hother
      obtain ⟨least, hleast, hfullLeast, hrow⟩ := ih (block :: done) hinner
        (hleft.trans (htimes.trans hmost)) hfullLeft hnext
      refine ⟨least, hleast.trans (hleft.trans htimes), hfullLeast, ?_⟩
      intro before after hafter
      obtain ⟨after₁, hafter₁, hreaches₁⟩ := hreaches (before ++ spell mark row) after hafter
      obtain ⟨after₂, hafter₂, hreaches₂⟩ := hround (before ++ spell mark row) after₁ hafter₁
      obtain ⟨after₃, hafter₃, hreaches₃⟩ := hrow before after₂ hafter₂
      refine ⟨after₃, hafter₃, ?_⟩
      simpa using (hreaches₁.trans hreaches₂).trans hreaches₃

theorem exists_leaves (hgains : ¬ Gains tail first inner last) (n : ℕ) :
    ∃ left ≤ n, (∀ k < left, Full tail first inner last k) ∧
      Leaves mark tail first inner last n left := by
  induction n using Nat.strongRecOn with
  | ind n ih =>
      cases n with
      | zero =>
          refine ⟨0, le_rfl, by simp, fun before after hafter => ⟨after, hafter, ?_⟩⟩
          simpa using reaches_refl
      | succ n =>
          obtain ⟨left, hleft, hfull, hrounds⟩ := ih n (Nat.lt_succ_self n)
          obtain ⟨least, hleast, hfullLeast, hrow⟩ := leaves_row hvalue hgains
            (fun m hm => ih m (Nat.lt_succ_of_le hm)) inner [] (by simp) hleft hfull (by simp)
          refine ⟨least + 1, by omega, fun k hk => hfullLeast k (Nat.le_of_lt_succ hk), ?_⟩
          intro before after hafter
          obtain ⟨after₁, hafter₁, hreaches₁⟩ :=
            hrounds (before ++ round mark first inner) after hafter
          obtain ⟨after₂, hafter₂, hreaches₂⟩ := hrow (before ++ first) after₁ hafter₁
          refine ⟨after₂, hafter₂, ?_⟩
          rw [repeated_succ, repeated_succ]
          simp only [round, List.append_assoc] at hreaches₁ hreaches₂ ⊢
          exact hreaches₁.trans hreaches₂

/-- Block after block becomes settled, from the last one to the first. -/
theorem halts_of_not_gains (hgains : ¬ Gains tail first inner last) (before after : List α)
    (hafter : Settled mark tail after) :
    Halts (replaceLast (mark :: tail) (valueOf mark first inner last)) (before ++ after) := by
  induction hcount : before.count mark using Nat.strongRecOn generalizing before after with
  | ind count ih =>
      by_cases hmem : mark ∈ before
      · obtain ⟨front, block, rfl, hblock⟩ := exists_last_block hmem
        obtain ⟨n, _, _, hreaches⟩ := exists_fires hvalue hblock
        obtain ⟨left, _, _, hrounds⟩ := exists_leaves hvalue hgains n
        obtain ⟨after₁, hafter₁, hreaches₁⟩ := hreaches front after hafter
        obtain ⟨after₂, hafter₂, hreaches₂⟩ := hrounds front after₁ hafter₁
        have hless : (front ++ repeated left first).count mark < count := by
          have hnone := List.count_eq_zero.mpr (not_mem_repeated hvalue.unmarked_first left)
          rw [← hcount, List.count_append, List.count_append, List.count_cons_self, hnone]
          omega
        have hlater := ih _ hless (front ++ repeated left first) after₂ hafter₂ rfl
        refine halts_of_reaches ?_ hlater
        simpa using hreaches₁.trans hreaches₂
      · apply halts_of_none
        rw [replaceLast_eq_none_iff (List.cons_ne_nil _ _), infix_append_iff_of_not_mem hmem]
        exact hafter.2

/-- Blocks that each fire as often as they have got `first` at their end pass it
on unchanged. -/
theorem reaches_of_fires_exactly {n : ℕ} (hleaves : Leaves mark tail first inner last n n)
    (row : List (List α)) (hrow : ∀ block ∈ row, mark ∉ block ∧
      Fires tail last n (block ++ repeated n first) ∧
        ¬ Fires tail last (n + 1) (block ++ repeated n first))
    (before after : List α) (hafter : Settled mark tail after) :
    ∃ after', Settled mark tail after' ∧
      Reaches (replaceLast (mark :: tail) (valueOf mark first inner last))
        (before ++ spell mark row ++ repeated n first ++ after)
        (before ++ repeated n first ++ after') := by
  induction row using List.reverseRecOn generalizing after with
  | nil => exact ⟨after, hafter, by simpa using reaches_refl⟩
  | append_singleton row block ih =>
      obtain ⟨hblock, hfires, hnot⟩ := hrow block (by simp)
      have hunmarked : mark ∉ block ++ repeated n first := by
        simp [hblock, not_mem_repeated hvalue.unmarked_first]
      obtain ⟨times, htimes, hno, hreaches⟩ := exists_fires hvalue hunmarked
      obtain rfl : times = n := by
        have := lt_of_fires_of_not_fires htimes hnot
        have := lt_of_fires_of_not_fires hfires hno
        omega
      obtain ⟨after₁, hafter₁, hreaches₁⟩ := hreaches (before ++ spell mark row) after hafter
      obtain ⟨after₂, hafter₂, hreaches₂⟩ := hleaves (before ++ spell mark row) after₁ hafter₁
      obtain ⟨after₃, hafter₃, hreaches₃⟩ := ih
        (fun other hother => hrow other (List.mem_append_left _ hother)) after₂ hafter₂
      refine ⟨after₃, hafter₃, ?_⟩
      simpa using (hreaches₁.trans hreaches₂).trans hreaches₃

/-- Full rounds without a gain leave as many `first` as there are rounds. -/
theorem leaves_self {n : ℕ} (hfull : ∀ k < n, Full tail first inner last k)
    (hgains : ∀ k < n, ¬ GainsAt tail first inner last k) :
    Leaves mark tail first inner last n n := by
  induction n with
  | zero => exact fun before after hafter => ⟨after, hafter, by simpa using reaches_refl⟩
  | succ n ih =>
      have hleaves := ih (fun k hk => hfull k (Nat.lt_succ_of_lt hk))
        fun k hk => hgains k (Nat.lt_succ_of_lt hk)
      have hrow : ∀ block ∈ inner, mark ∉ block ∧
          Fires tail last n (block ++ repeated n first) ∧
            ¬ Fires tail last (n + 1) (block ++ repeated n first) := by
        intro block hblock
        have hn := hfull n (Nat.lt_succ_self n)
        refine ⟨(hvalue.inner_block block hblock).1, hn block hblock, fun hmore => ?_⟩
        obtain ⟨front, back, hinner⟩ := List.append_of_mem hblock
        refine hgains n (Nat.lt_succ_self n) ⟨front, block, back, hinner, ?_, hmore⟩
        exact fun other hother => hn other (by simp [hinner, hother])
      intro before after hafter
      obtain ⟨after₁, hafter₁, hreaches₁⟩ :=
        hleaves (before ++ round mark first inner) after hafter
      obtain ⟨after₂, hafter₂, hreaches₂⟩ :=
        reaches_of_fires_exactly hvalue hleaves inner hrow (before ++ first) after₁ hafter₁
      refine ⟨after₂, hafter₂, ?_⟩
      rw [repeated_succ, repeated_succ]
      simp only [round, List.append_assoc] at hreaches₁ hreaches₂ ⊢
      exact hreaches₁.trans hreaches₂

/-- The first gain, in the last block that has it. -/
theorem exists_first_gain (hgains : Gains tail first inner last) :
    ∃ n front block back, inner = front ++ block :: back ∧ Leaves mark tail first inner last n n ∧
      Fires tail last (n + 1) (block ++ repeated n first) ∧
      ∀ other ∈ back, mark ∉ other ∧ Fires tail last n (other ++ repeated n first) ∧
        ¬ Fires tail last (n + 1) (other ++ repeated n first) := by
  classical
  have hfound := Nat.find_spec hgains
  have hmin := fun k (hk : k < Nat.find hgains) => Nat.find_min hgains hk
  generalize Nat.find hgains = n at hfound hmin
  obtain ⟨hfull, front, block, back, hinner, hback, hblock⟩ := hfound
  obtain ⟨front', block', back', hsplit, hblock', hback'⟩ := exists_last_of_exists
    (P := fun other => Fires tail last (n + 1) (other ++ repeated n first))
    ⟨block, List.mem_cons_self (l := back), hblock⟩
  refine ⟨n, front ++ front', block', back', by simp [hinner, hsplit], ?_, hblock', ?_⟩
  · refine leaves_self hvalue hfull fun k hk hgain => hmin k hk ⟨?_, hgain⟩
    exact fun j hj => hfull j (hj.trans hk)
  · intro other hother
    have hmem : other ∈ back := by
      cases front' with
      | nil => exact (List.cons.inj hsplit).2 ▸ hother
      | cons c front' => exact (List.cons.inj hsplit).2 ▸ by simp [hother]
    exact ⟨(hvalue.inner_block other (by simp [hinner, hmem])).1, hback other hmem,
      hback' other hother⟩

/-- A block that fires more often than once a round makes `first` end up at the
same block again. -/
theorem reaches_of_gain {n : ℕ} {front back : List (List α)} {block : List α}
    (hinner : inner = front ++ block :: back) (hleaves : Leaves mark tail first inner last n n)
    (hback : ∀ other ∈ back, mark ∉ other ∧ Fires tail last n (other ++ repeated n first) ∧
      ¬ Fires tail last (n + 1) (other ++ repeated n first))
    {rest : List α} (hrest : mark ∉ rest) (hfires : Fires tail last n (last ++ rest))
    (before after : List α) (hafter : Settled mark tail after) :
    ∃ before' after', Settled mark tail after' ∧
      Reaches (replaceLast (mark :: tail) (valueOf mark first inner last))
        (before ++ valueOf mark first inner last ++ (rest ++ after))
        (before' ++ mark :: (block ++ repeated n first ++ after')) := by
  have hlast : mark ∉ last ++ rest := by simp [hvalue.last_block.1, hrest]
  obtain ⟨times, _, hno, hreaches⟩ := exists_fires hvalue hlast
  obtain ⟨extra, rfl⟩ :=
    Nat.exists_eq_add_of_le' (Nat.le_of_lt_succ (lt_of_fires_of_not_fires hfires hno))
  obtain ⟨after₁, hafter₁, hreaches₁⟩ := hreaches (before ++ round mark first inner) after hafter
  -- The last `n` of the rounds leave `first` for the one before them.
  have hrounds : before ++ round mark first inner ++ repeated (extra + n) (round mark first inner) =
      before ++ repeated extra (round mark first inner) ++ round mark first inner ++
        repeated n (round mark first inner) := by
    simp only [List.append_assoc, ← repeated_succ]
    rw [← repeated_add]
    congr 2
  obtain ⟨after₂, hafter₂, hreaches₂⟩ := hleaves
    (before ++ repeated extra (round mark first inner) ++ round mark first inner) after₁ hafter₁
  obtain ⟨after₃, hafter₃, hreaches₃⟩ := reaches_of_fires_exactly hvalue hleaves back hback
    (before ++ repeated extra (round mark first inner) ++ first ++ spell mark front ++
      mark :: block) after₂ hafter₂
  have hround : round mark first inner =
      first ++ spell mark front ++ mark :: block ++ spell mark back := by
    simp [round, hinner]
  have hvalueOf : before ++ valueOf mark first inner last ++ (rest ++ after) =
      before ++ round mark first inner ++ mark :: (last ++ rest ++ after) := by
    simp [valueOf, round]
  refine ⟨before ++ repeated extra (round mark first inner) ++ first ++ spell mark front,
    after₃, hafter₃, ?_⟩
  rw [hvalueOf]
  rw [hrounds] at hreaches₁
  refine (hreaches₁.trans hreaches₂).trans ?_
  nth_rewrite 2 [hround]
  simpa using hreaches₃

theorem not_halts_of_gains (hgains : Gains tail first inner last) :
    ∃ text, (∀ c ∈ text, c ∈ valueOf mark first inner last) ∧
      ¬ Halts (replaceLast (mark :: tail) (valueOf mark first inner last)) text := by
  obtain ⟨n, front, block, back, hinner, hleaves, hblock, hback⟩ := exists_first_gain hvalue hgains
  have hunmarked : mark ∉ block ++ repeated n first := by
    have := (hvalue.inner_block block (by simp [hinner])).1
    simp [this, not_mem_repeated hvalue.unmarked_first]
  have hletters : ∀ c ∈ mark :: (block ++ repeated n first ++ []),
      c ∈ valueOf mark first inner last := by
    intro c hc
    simp only [List.append_nil, List.mem_cons, List.mem_append] at hc
    rcases hc with rfl | hc | hc
    · simp [valueOf]
    · simp [valueOf, hinner, hc]
    · simp [valueOf, mem_of_mem_repeated hc]
  refine ⟨[] ++ mark :: (block ++ repeated n first ++ []), hletters, not_halts_of_progress
    (P := fun text => ∃ before after,
      text = before ++ mark :: (block ++ repeated n first ++ after) ∧ Settled mark tail after) ?_
    ⟨[], [], rfl, settled_nil⟩⟩
  rintro _ ⟨before, after, rfl, hafter⟩
  obtain ⟨rest, heq, hfires⟩ := hblock
  have hrest : mark ∉ rest := fun hmem => hunmarked (heq ▸ List.mem_append_right tail hmem)
  obtain ⟨before', after', hafter', hreaches⟩ :=
    reaches_of_gain hvalue hinner hleaves hback hrest hfires before after hafter
  refine ⟨_, _, ?_, hreaches, before', after', rfl, hafter'⟩
  rw [heq]
  exact replaceLast_block hvalue.unmarked_tail hrest hafter

end Rounds

/-! ## Which values let every loop end -/

section Values

variable [DecidableEq α] {mark : α} {tail value : List α}

/-- The value makes more and more of itself, although the word is not in it. -/
def Grows (mark : α) (tail value : List α) : Prop :=
  ∃ first inner last, value = valueOf mark first inner last ∧
    Separate mark tail first inner last ∧ Gains tail first inner last

theorem exists_spell (mark : α) (text : List α) :
    ∃ first row, text = first ++ spell mark row ∧ mark ∉ first ∧ ∀ block ∈ row, mark ∉ block := by
  induction text with
  | nil => exact ⟨[], [], rfl, List.not_mem_nil, by simp⟩
  | cons c text ih =>
      obtain ⟨first, row, rfl, hfirst, hrow⟩ := ih
      by_cases hc : c = mark
      · exact ⟨[], first :: row, by simp [hc], List.not_mem_nil, by simpa [hfirst] using hrow⟩
      · exact ⟨c :: first, row, rfl, by simp [Ne.symm hc, hfirst], hrow⟩

/-- A value with a mark, but without the word. -/
theorem exists_valueOf (htail : mark ∉ tail) (hmark : mark ∈ value)
    (hword : ¬ mark :: tail <:+: value) :
    ∃ first inner last, value = valueOf mark first inner last ∧
      Separate mark tail first inner last := by
  obtain ⟨first, row, rfl, hfirst, hrow⟩ := exists_spell mark value
  have hstart : ∀ block ∈ row, ¬ tail <+: block := by
    rintro block hblock ⟨rest, rfl⟩
    obtain ⟨front, back, rfl⟩ := List.append_of_mem hblock
    exact hword ⟨first ++ spell mark front, rest ++ spell mark back, by simp⟩
  cases row using List.reverseRecOn with
  | nil => simp [hfirst] at hmark
  | append_singleton inner last =>
      exact ⟨first, inner, last, rfl, htail, hfirst,
        fun block hblock => ⟨hrow block (by simp [hblock]), hstart block (by simp [hblock])⟩,
        hrow last (by simp), hstart last (by simp)⟩

/-- A value without a mark leaves fewer marks in the text. -/
theorem halts_of_not_mem (hmark : mark ∉ value) (text : List α) :
    Halts (replaceLast (mark :: tail) value) text := by
  apply halts_of_measure (P := fun _ => True) (List.count mark) ?_ trivial
  intro state next _ hstep
  obtain ⟨⟨before, after⟩, hsplit, rfl⟩ := Option.map_eq_some_iff.mp hstep
  rw [append_of_lastSplit hsplit]
  simp only [List.count_append, List.count_cons_self, List.count_eq_zero.mpr hmark]
  exact ⟨trivial, by omega⟩

/-- On texts over some letters, those of the word and of the value among them. -/
theorem forall_halts_iff {P : α → Prop} (htail : mark ∉ tail) (hword : ∀ c ∈ mark :: tail, P c)
    (hletters : ∀ c ∈ value, P c) :
    (∀ text, (∀ c ∈ text, P c) → Halts (replaceLast (mark :: tail) value) text) ↔
      ¬ mark :: tail <:+: value ∧ ¬ Grows mark tail value := by
  constructor
  · intro hall
    refine ⟨fun hoccurs => ?_, ?_⟩
    · refine not_halts_of_isInfix (fun text => (replaceLast_eq_none_iff (List.cons_ne_nil _ _)).mp)
        (fun text next hstep => ?_) hoccurs List.infix_rfl (hall _ hword)
      obtain ⟨⟨before, after⟩, _, rfl⟩ := Option.map_eq_some_iff.mp hstep
      exact ⟨before, after, rfl⟩
    · rintro ⟨first, inner, last, rfl, hvalue, hgains⟩
      obtain ⟨text, htext, hnot⟩ := not_halts_of_gains hvalue hgains
      exact hnot (hall text fun c hc => hletters c (htext c hc))
  · rintro ⟨hoccurs, hgrows⟩ text _
    by_cases hmark : mark ∈ value
    · obtain ⟨first, inner, last, rfl, hvalue⟩ := exists_valueOf htail hmark hoccurs
      have hgains : ¬ Gains tail first inner last := fun hgains =>
        hgrows ⟨first, inner, last, rfl, hvalue, hgains⟩
      have hhalts := halts_of_not_gains hvalue hgains text [] settled_nil
      rwa [List.append_nil] at hhalts
    · exact halts_of_not_mem hmark text

end Values

end Machine.Rewriting

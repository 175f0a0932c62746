import Mathlib.Data.List.TakeWhile
import Signpost.Machine.Rewriting

/-! # Replacing a word inside a run

A text is made of runs of some letters, with separators between them. A loop
replaces the last occurrence of a word in the first run that has one, and keeps
nothing of the text outside that run.
-/

namespace Machine.Rewriting

universe u v

section Transfer

variable {σ : Type u} {τ : Type v} {step : σ → Option σ} {state : σ}

/-- Two loops that take the same steps. -/
theorem halts_congr {other : σ → Option σ} {P : σ → Prop}
    (hsame : ∀ state, P state → step state = other state)
    (hkeeps : ∀ state next, P state → step state = some next → P next) (hstate : P state) :
    Halts step state ↔ Halts other state := by
  have hloop : ∀ fuel state, P state → loop step fuel state = loop other fuel state := by
    intro fuel
    induction fuel with
    | zero => exact fun _ _ => rfl
    | succ fuel ih =>
        intro state hstate
        cases hstep : step state with
        | none => rw [loop_succ_of_none hstep, loop_succ_of_none (hsame state hstate ▸ hstep)]
        | some next =>
            rw [loop_succ_of_some hstep, loop_succ_of_some (hsame state hstate ▸ hstep),
              ih next (hkeeps state next hstate hstep)]
  simp only [Halts, hloop _ state hstate]

/-- A loop on the parts of a state. -/
theorem halts_map_iff {other : τ → Option τ} (whole : τ → σ) {P : τ → Prop}
    (hmap : ∀ parts, P parts → step (whole parts) = (other parts).map whole)
    (hkeeps : ∀ parts next, P parts → other parts = some next → P next) {parts : τ}
    (hparts : P parts) : Halts step (whole parts) ↔ Halts other parts := by
  have hloop : ∀ fuel parts, P parts →
      loop step fuel (whole parts) = (loop other fuel parts).map whole := by
    intro fuel
    induction fuel with
    | zero => exact fun _ _ => rfl
    | succ fuel ih =>
        intro parts hparts
        have hmap := hmap parts hparts
        cases hother : other parts with
        | none =>
            rw [hother, Option.map_none] at hmap
            rw [loop_succ_of_none hmap, loop_succ_of_none hother, Option.map_some]
        | some next =>
            rw [hother, Option.map_some] at hmap
            rw [loop_succ_of_some hmap, loop_succ_of_some hother,
              ih next (hkeeps parts next hparts hother)]
  simp only [Halts, hloop _ parts hparts, Option.map_eq_some_iff]
  constructor
  · rintro ⟨fuel, _, final, hfinal, _⟩
    exact ⟨fuel, final, hfinal⟩
  · rintro ⟨fuel, final, hfinal⟩
    exact ⟨fuel, _, final, hfinal, rfl⟩

end Transfer

variable {α : Type v} [DecidableEq α]

/-! ## Runs -/

/-- What stands before and after the word in its run. -/
def searchRun (inRun : α → Bool) (word : List α) : List α → Option (List α × List α)
  | [] => none
  | c :: rest =>
      (lastSplit word ((c :: rest).takeWhile inRun)).or (searchRun inRun word rest)

def replaceInRun (inRun : α → Bool) (word value text : List α) : Option (List α) :=
  (searchRun inRun word text).map fun (before, after) => before ++ value ++ after

/-- All of the text is in one run. -/
def OneRun (inRun : α → Bool) (text : List α) : Prop := ∀ c ∈ text, inRun c

omit [DecidableEq α] in
instance (inRun : α → Bool) (text : List α) : Decidable (OneRun inRun text) :=
  inferInstanceAs (Decidable (∀ c ∈ text, inRun c))

section Search

variable {inRun : α → Bool} {word text before after : List α}

omit [DecidableEq α] in
theorem oneRun_append {text other : List α} :
    OneRun inRun (text ++ other) ↔ OneRun inRun text ∧ OneRun inRun other := by
  simp only [OneRun, List.mem_append, or_imp, forall_and]

omit [DecidableEq α] in
theorem OneRun.of_isInfix {text other : List α} (htext : OneRun inRun text)
    (hother : other <:+: text) : OneRun inRun other :=
  fun c hc => htext c (hother.subset hc)

omit [DecidableEq α] in
theorem takeWhile_of_oneRun (htext : OneRun inRun text) : text.takeWhile inRun = text :=
  List.takeWhile_eq_self_iff.mpr htext

omit [DecidableEq α] in
theorem oneRun_takeWhile : OneRun inRun (text.takeWhile inRun) :=
  fun _ hc => List.mem_takeWhile_imp hc

omit [DecidableEq α] in
theorem takeWhile_append_separator {separator : α} (hseparator : ¬ inRun separator)
    (rest : List α) :
    (text ++ separator :: rest).takeWhile inRun = text.takeWhile inRun := by
  rw [List.takeWhile_append, List.takeWhile_cons_of_neg hseparator, List.append_nil]
  split
  next heq => rw [List.IsPrefix.eq_of_length (List.takeWhile_prefix inRun) heq]
  next => rfl

theorem oneRun_of_searchRun (hsearch : searchRun inRun word text = some (before, after)) :
    OneRun inRun (before ++ word ++ after) := by
  induction text with
  | nil => cases hsearch
  | cons c rest ih =>
      rw [searchRun, Option.or_eq_some_iff] at hsearch
      rcases hsearch with hfirst | ⟨_, hrest⟩
      · rw [← append_of_lastSplit hfirst]
        exact oneRun_takeWhile
      · exact ih hrest

theorem infix_of_searchRun (hsearch : searchRun inRun word text = some (before, after)) :
    before ++ word ++ after <:+: text := by
  induction text with
  | nil => cases hsearch
  | cons c rest ih =>
      rw [searchRun, Option.or_eq_some_iff] at hsearch
      rcases hsearch with hfirst | ⟨_, hrest⟩
      · rw [← append_of_lastSplit hfirst]
        exact (List.takeWhile_prefix inRun).isInfix
      · exact List.infix_cons (ih hrest)

variable (hne : word ≠ [])

include hne

theorem searchRun_of_oneRun (htext : OneRun inRun text) :
    searchRun inRun word text = lastSplit word text := by
  induction text with
  | nil => rfl
  | cons c rest ih =>
      have hrest := ih (htext.of_isInfix (List.infix_cons List.infix_rfl))
      rw [searchRun, takeWhile_of_oneRun htext, hrest]
      cases hsplit : lastSplit word (c :: rest) with
      | some split => rfl
      | none =>
          rw [lastSplit_eq_none_iff hne] at hsplit
          rw [Option.none_or, lastSplit_eq_none_iff hne]
          exact fun hoccurs => hsplit (List.infix_cons hoccurs)

/-- A part of the text without the word, up to a separator, makes no difference. -/
theorem searchRun_append_separator {part : List α} {separator : α} (hpart : ¬ word <:+: part)
    (hseparator : ¬ inRun separator) (rest : List α) :
    searchRun inRun word (part ++ separator :: rest) = searchRun inRun word rest := by
  induction part with
  | nil =>
      rw [List.nil_append, searchRun, List.takeWhile_cons_of_neg hseparator]
      rfl
  | cons c part ih =>
      have hnone : lastSplit word ((c :: part).takeWhile inRun) = none :=
        (lastSplit_eq_none_iff hne).mpr fun hoccurs =>
          hpart (hoccurs.trans (List.takeWhile_prefix inRun).isInfix)
      rw [List.cons_append, searchRun, ← List.cons_append,
        takeWhile_append_separator hseparator, hnone, Option.none_or]
      exact ih fun hoccurs => hpart (List.infix_cons hoccurs)

/-- The first run is searched before all the rest. -/
theorem searchRun_oneRun_append {run : List α} {separator : α} (hrun : OneRun inRun run)
    (hseparator : ¬ inRun separator) (rest : List α) :
    searchRun inRun word (run ++ separator :: rest) =
      (lastSplit word run).or (searchRun inRun word rest) := by
  cases hsplit : lastSplit word run with
  | none =>
      rw [Option.none_or]
      exact searchRun_append_separator hne ((lastSplit_eq_none_iff hne).mp hsplit) hseparator rest
  | some split =>
      cases run with
      | nil => cases hsplit
      | cons c run =>
          rw [List.cons_append, searchRun, ← List.cons_append,
            takeWhile_append_separator hseparator, takeWhile_of_oneRun hrun, hsplit]
          rfl

theorem searchRun_eq_none_iff (hword : OneRun inRun word) :
    searchRun inRun word text = none ↔ ¬ word <:+: text := by
  induction text with
  | nil => simp [searchRun, hne]
  | cons c rest ih =>
      rw [searchRun, Option.or_eq_none_iff, ih, lastSplit_eq_none_iff hne, List.infix_cons_iff,
        not_or]
      refine and_congr_left fun hrest => not_congr ?_
      constructor
      · intro hoccurs
        have hall := hoccurs.trans (List.takeWhile_prefix inRun).isInfix
        exact (List.infix_cons_iff.mp hall).resolve_right hrest
      · rintro ⟨others, heq⟩
        rw [← heq, List.takeWhile_append_of_pos hword]
        exact (List.prefix_append word _).isInfix

theorem replaceInRun_eq_none_iff (hword : OneRun inRun word) {value : List α} :
    replaceInRun inRun word value text = none ↔ ¬ word <:+: text := by
  rw [replaceInRun, Option.map_eq_none_iff, searchRun_eq_none_iff hne hword]

theorem not_halts_replaceInRun (hword : OneRun inRun word) {value : List α}
    (hvalue : word <:+: value) (htext : word <:+: text) :
    ¬ Halts (replaceInRun inRun word value) text := by
  refine not_halts_of_isInfix (fun text => (replaceInRun_eq_none_iff hne hword).mp)
    (fun text next hstep => ?_) hvalue htext
  obtain ⟨⟨before, after⟩, _, rfl⟩ := Option.map_eq_some_iff.mp hstep
  exact ⟨before, after, rfl⟩

end Search

/-! ## Values inside a run -/

section Values

variable {inRun : α → Bool} {word value : List α}

theorem oneRun_of_replaceInRun (hvalue : OneRun inRun value) {text next : List α}
    (hstep : replaceInRun inRun word value text = some next) : OneRun inRun next := by
  obtain ⟨⟨before, after⟩, hsplit, rfl⟩ := Option.map_eq_some_iff.mp hstep
  have hparts := oneRun_of_searchRun hsplit
  simp only [oneRun_append] at hparts ⊢
  exact ⟨⟨hparts.1.1, hvalue⟩, hparts.2⟩

/-- From the second step on, the separators of the text are gone. -/
theorem forall_halts_iff_of_oneRun (hne : word ≠ []) (hvalue : OneRun inRun value) :
    (∀ text, Halts (replaceInRun inRun word value) text) ↔
      ∀ text, OneRun inRun text → Halts (replaceLast word value) text := by
  have hsame : ∀ text, OneRun inRun text →
      (Halts (replaceInRun inRun word value) text ↔ Halts (replaceLast word value) text) := by
    intro text htext
    refine halts_congr (fun text htext => ?_)
      (fun text next _ hstep => oneRun_of_replaceInRun hvalue hstep) htext
    rw [replaceInRun, searchRun_of_oneRun hne htext]
    rfl
  constructor
  · exact fun hall text htext => (hsame text htext).mp (hall text)
  · intro hall text
    cases hstep : replaceInRun inRun word value text with
    | none => exact halts_of_none hstep
    | some next =>
        have hnext := oneRun_of_replaceInRun hvalue hstep
        exact halts_of_some hstep ((hsame next hnext).mpr (hall next hnext))

end Values

/-! ## Values with separators -/

section Separated

/-- The value is in no run: a part of it belongs to the run before it, and a part
to the run after it. -/
structure Separated (inRun : α → Bool) (left middle right : List α) : Prop where
  left : OneRun inRun left
  right : OneRun inRun right
  opening : ∃ separator others, middle = separator :: others ∧ ¬ inRun separator
  closing : ∃ others separator, middle = others ++ [separator] ∧ ¬ inRun separator

/-- Replaces the word in what stands before or after the value. -/
def replaceBeside (word left right : List α) (sides : List α × List α) :
    Option (List α × List α) :=
  (lastSplit word (sides.1 ++ left)).or (lastSplit word (right ++ sides.2))

variable {inRun : α → Bool} {word left middle right : List α}
  (hne : word ≠ []) (hseparated : Separated inRun left middle right)

include hne hseparated

theorem searchRun_beside (hword : ¬ word <:+: left ++ middle ++ right) {before after : List α}
    (hbefore : OneRun inRun before) (hafter : OneRun inRun after) :
    searchRun inRun word (before ++ (left ++ middle ++ right) ++ after) =
      replaceBeside word left right (before, after) := by
  obtain ⟨separator, others, hopening, hseparator⟩ := hseparated.opening
  obtain ⟨part, closing, hclosing, hclosed⟩ := hseparated.closing
  have hpart : ¬ word <:+: part := fun hoccurs => hword <| hoccurs.trans
    ⟨left, [closing] ++ right, by simp [hclosing]⟩
  have hothers : searchRun inRun word (others ++ (right ++ after)) =
      searchRun inRun word (right ++ after) := by
    have hopen : searchRun inRun word ([] ++ separator :: (others ++ (right ++ after))) =
        searchRun inRun word (others ++ (right ++ after)) :=
      searchRun_append_separator hne (by simp [hne]) hseparator _
    have hclose := searchRun_append_separator hne hpart hclosed (right ++ after)
    rw [← hopen, ← hclose, List.nil_append, ← List.cons_append, ← hopening, hclosing]
    simp
  have htext : before ++ (left ++ middle ++ right) ++ after =
      before ++ left ++ separator :: (others ++ (right ++ after)) := by
    simp [hopening]
  rw [htext, searchRun_oneRun_append hne (oneRun_append.mpr ⟨hbefore, hseparated.left⟩) hseparator,
    hothers, searchRun_of_oneRun hne (oneRun_append.mpr ⟨hseparated.right, hafter⟩)]
  rfl

omit hne in
theorem oneRun_of_replaceBeside {sides next : List α × List α}
    (hsides : OneRun inRun sides.1 ∧ OneRun inRun sides.2)
    (hstep : replaceBeside word left right sides = some next) :
    OneRun inRun next.1 ∧ OneRun inRun next.2 := by
  have hparts : ∀ text, OneRun inRun text → lastSplit word text = some next →
      OneRun inRun next.1 ∧ OneRun inRun next.2 := by
    intro text htext hsplit
    rw [append_of_lastSplit hsplit, oneRun_append, oneRun_append] at htext
    exact ⟨htext.1.1, htext.2⟩
  rcases Option.or_eq_some_iff.mp hstep with hleft | ⟨_, hright⟩
  · exact hparts _ (oneRun_append.mpr ⟨hsides.1, hseparated.left⟩) hleft
  · exact hparts _ (oneRun_append.mpr ⟨hseparated.right, hsides.2⟩) hright

theorem halts_beside_iff (hword : ¬ word <:+: left ++ middle ++ right) {sides : List α × List α}
    (hsides : OneRun inRun sides.1 ∧ OneRun inRun sides.2) :
    Halts (replaceInRun inRun word (left ++ middle ++ right))
        (sides.1 ++ (left ++ middle ++ right) ++ sides.2) ↔
      Halts (replaceBeside word left right) sides := by
  refine halts_map_iff
    (fun sides : List α × List α => sides.1 ++ (left ++ middle ++ right) ++ sides.2)
    (P := fun sides => OneRun inRun sides.1 ∧ OneRun inRun sides.2) ?_ ?_ hsides
  · rintro ⟨before, after⟩ ⟨hbefore, hafter⟩
    rw [replaceInRun, searchRun_beside hne hseparated hword hbefore hafter]
  · exact fun sides next => oneRun_of_replaceBeside hseparated

end Separated

/-! ## What stands beside a value -/

section Beside

variable {mark : α} {tail left first last : List α} {inner : List (List α)}

omit [DecidableEq α] in
/-- Before the last mark there is nothing to replace, and behind it neither. -/
theorem not_infix_row_append {row : List (List α)} {after : List α} (htail : mark ∉ tail)
    (hfirst : mark ∉ first) (hrow : ∀ block ∈ row, mark ∉ block ∧ ¬ tail <+: block)
    (hlast : ∀ block ∈ row.getLast?, ¬ tail <+: block ++ after)
    (hafter : ¬ mark :: tail <:+: after) :
    ¬ mark :: tail <:+: first ++ spell mark row ++ after := by
  rw [List.append_assoc, infix_append_iff_of_not_mem hfirst]
  cases row using List.reverseRecOn with
  | nil => exact hafter
  | append_singleton row block =>
      have hblock := hrow block (by simp)
      have hsettled : Settled mark tail (mark :: (block ++ after)) := by
        refine ⟨by simp, ?_⟩
        rw [List.infix_cons_iff, List.cons_prefix_cons, infix_append_iff_of_not_mem hblock.1]
        simp [hlast block (by simp), hafter]
      have hall : Settled mark tail (spell mark row ++ mark :: (block ++ after)) :=
        hsettled.spell htail fun other hother => hrow other (by simp [hother])
      simpa using hall.2

/-- The word does not occur in `left`, so that it begins before it. -/
theorem length_lt_of_lastSplit {word before : List α} {next : List α × List α}
    (hleft : ¬ word <:+: left) (hsplit : lastSplit word (before ++ left) = some next) :
    next.1.length < before.length := by
  have heq : before ++ left = next.1 ++ word ++ next.2 := append_of_lastSplit hsplit
  by_contra hmore
  have hbegin : before <+: next.1 := by
    refine List.prefix_of_prefix_length_le (List.prefix_append before left) ?_ (by omega)
    exact heq ▸ ⟨word ++ next.2, by simp⟩
  obtain ⟨more, hnext⟩ := hbegin
  rw [← hnext, List.append_assoc, List.append_assoc, List.append_right_inj] at heq
  exact hleft ⟨more, next.2, by rw [heq, List.append_assoc]⟩

/-- What stands before the value becomes shorter until something behind it is
replaced. -/
theorem halts_of_right {right : List α} (hleft : ¬ mark :: tail <:+: left)
    (hright : ∀ before after next, ¬ mark :: tail <:+: before ++ left → ¬ mark :: tail <:+: after →
      replaceBeside (mark :: tail) left right (before, after) = some next →
        Halts (replaceBeside (mark :: tail) left right) next)
    (sides : List α × List α) : Halts (replaceBeside (mark :: tail) left right) sides := by
  have hclean : ∀ before after, ¬ mark :: tail <:+: after →
      Halts (replaceBeside (mark :: tail) left right) (before, after) := by
    intro before
    induction hsize : before.length using Nat.strongRecOn generalizing before with
    | ind size ih =>
        intro after hafter
        cases hstep : replaceBeside (mark :: tail) left right (before, after) with
        | none => exact halts_of_none hstep
        | some next =>
            refine halts_of_some hstep ?_
            rcases Option.or_eq_some_iff.mp hstep with hsplit | ⟨hnone, _⟩
            · have hless := hsize ▸ length_lt_of_lastSplit hleft hsplit
              exact ih _ hless next.1 rfl next.2
                (not_infix_of_lastSplit hsplit (List.cons_ne_nil _ _))
            · rw [lastSplit_eq_none_iff (List.cons_ne_nil _ _)] at hnone
              exact hright before after next hnone hafter hstep
  -- After a first step the word does not occur behind the value.
  cases hstep : replaceBeside (mark :: tail) left right sides with
  | none => exact halts_of_none hstep
  | some next =>
      refine halts_of_some hstep (hclean next.1 next.2 ?_)
      rcases Option.or_eq_some_iff.mp hstep with hsplit | ⟨_, hsplit⟩
      · exact not_infix_of_lastSplit hsplit (List.cons_ne_nil _ _)
      · exact not_infix_of_lastSplit hsplit (List.cons_ne_nil _ _)

theorem halts_of_unmarked_right {right : List α} (hleft : ¬ mark :: tail <:+: left)
    (hright : mark ∉ right) (sides : List α × List α) :
    Halts (replaceBeside (mark :: tail) left right) sides := by
  refine halts_of_right hleft ?_ sides
  intro before after next hbefore hafter hstep
  have hnone : replaceBeside (mark :: tail) left right (before, after) = none := by
    rw [replaceBeside, Option.or_eq_none_iff, lastSplit_eq_none_iff (List.cons_ne_nil _ _),
      lastSplit_eq_none_iff (List.cons_ne_nil _ _), infix_append_iff_of_not_mem hright]
    exact ⟨hbefore, hafter⟩
  cases hnone.symm.trans hstep

/-- A block before the value ends with the word and what is left of the value. -/
theorem replaceBeside_left {right before block rest after : List α}
    (hblock : block ++ left = tail ++ rest) (hrest : ¬ mark :: tail <:+: tail ++ rest) :
    replaceBeside (mark :: tail) left right (before ++ mark :: block, after) =
      some (before, rest) := by
  rw [replaceBeside, List.append_assoc, List.cons_append, hblock, lastSplit_append hrest]
  rfl

/-- Nothing is to be replaced before the value, and behind it at its last mark. -/
theorem replaceBeside_right {before rest after : List α}
    (hbefore : ¬ mark :: tail <:+: before ++ left) (hafter : last ++ after = tail ++ rest)
    (hrest : ¬ mark :: tail <:+: tail ++ rest) :
    replaceBeside (mark :: tail) left (valueOf mark first inner last) (before, after) =
      some (round mark first inner, rest) := by
  have hright : valueOf mark first inner last ++ after =
      round mark first inner ++ mark :: (tail ++ rest) := by
    simp [valueOf, round, ← hafter]
  rw [replaceBeside, (lastSplit_eq_none_iff (List.cons_ne_nil _ _)).mpr hbefore, hright,
    lastSplit_append hrest]
  rfl

/-- Replacing at the end of the value brings about what is replaced before the
value, block by block, and that something to replace at the end of the value. -/
def RecursBeside (tail left : List α) (inner : List (List α)) (last : List α) : Prop :=
  ∃ front block back rest, inner = front ++ block :: back ∧
    (∀ other ∈ back, tail <+: other ++ left) ∧ block ++ left = tail ++ rest ∧
    (∀ other ∈ front.getLast?, ¬ tail <+: other ++ left) ∧ tail <+: last ++ rest

omit [DecidableEq α] in
/-- The blocks of a round that are replaced before the value, and those before
them. -/
theorem exists_replaced_blocks (inner : List (List α)) :
    ∃ front back, inner = front ++ back ∧ (∀ other ∈ back, tail <+: other ++ left) ∧
      ∀ other ∈ front.getLast?, ¬ tail <+: other ++ left := by
  by_cases hall : ∃ other ∈ inner, ¬ tail <+: other ++ left
  · obtain ⟨front, other, back, rfl, hother, hback⟩ := exists_last_of_exists hall
    exact ⟨front ++ [other], back, by simp, fun other hother => not_not.mp (hback other hother),
      by simpa using hother⟩
  · push Not at hall
    exact ⟨[], inner, rfl, hall, by simp⟩

variable (hvalue : Separate mark tail first inner last) (hleft : ¬ mark :: tail <:+: left)

include hleft

omit [DecidableEq α] in
/-- What is left of a block before the value. -/
theorem not_infix_of_block {block rest : List α} (hmem : mark ∉ block)
    (hblock : block ++ left = tail ++ rest) :
    ¬ mark :: tail <:+: tail ++ rest ∧ ¬ mark :: tail <:+: rest := by
  have hall : ¬ mark :: tail <:+: tail ++ rest := by
    rwa [← hblock, infix_append_iff_of_not_mem hmem]
  exact ⟨hall, fun hoccurs => hall (hoccurs.trans (List.suffix_append tail rest).isInfix)⟩

/-- The blocks before the value are replaced one after another. -/
theorem reaches_beside {right : List α} {front back : List (List α)} {block rest : List α}
    (hrow : ∀ other ∈ block :: back, mark ∉ other)
    (hback : ∀ other ∈ back, tail <+: other ++ left) (hblock : block ++ left = tail ++ rest)
    (after : List α) :
    Reaches (replaceBeside (mark :: tail) left right)
      (first ++ spell mark (front ++ block :: back), after) (first ++ spell mark front, rest) := by
  induction back using List.reverseRecOn generalizing after with
  | nil =>
      have hrest := (not_infix_of_block hleft (hrow block (by simp)) hblock).1
      refine reaches_of_some ?_ reaches_refl
      have hstep : replaceBeside (mark :: tail) left right
          (first ++ spell mark front ++ mark :: block, after) =
            some (first ++ spell mark front, rest) := replaceBeside_left hblock hrest
      simpa using hstep
  | append_singleton back other ih =>
      obtain ⟨rest', hother⟩ := hback other (by simp)
      have hrest := (not_infix_of_block hleft (hrow other (by simp)) hother.symm).1
      have hstep : replaceBeside (mark :: tail) left right
          (first ++ spell mark (front ++ block :: back) ++ mark :: other, after) =
            some (first ++ spell mark (front ++ block :: back), rest') :=
        replaceBeside_left hother.symm hrest
      have hreaches := ih (fun other hother => hrow other (by grind))
        (fun other hother => hback other (by simp [hother])) rest'
      refine reaches_of_some ?_ hreaches
      simpa using hstep

include hvalue

omit [DecidableEq α] in
theorem not_infix_row {row : List (List α)} (hrow : ∀ block ∈ row, block ∈ inner)
    (hlast : ∀ block ∈ row.getLast?, ¬ tail <+: block ++ left) :
    ¬ mark :: tail <:+: first ++ spell mark row ++ left :=
  not_infix_row_append hvalue.unmarked_tail hvalue.unmarked_first
    (fun block hblock => hvalue.inner_block block (hrow block hblock)) hlast hleft

omit hleft in
/-- Behind the value there is something to replace at its last mark only. -/
theorem replaceBeside_cases {before after : List α} (hbefore : ¬ mark :: tail <:+: before ++ left)
    (hafter : ¬ mark :: tail <:+: after) :
    (∃ rest, last ++ after = tail ++ rest ∧
      replaceBeside (mark :: tail) left (valueOf mark first inner last) (before, after) =
        some (round mark first inner, rest)) ∨
    ¬ tail <+: last ++ after ∧
      replaceBeside (mark :: tail) left (valueOf mark first inner last) (before, after) = none := by
  by_cases hstart : tail <+: last ++ after
  · obtain ⟨rest, hrest⟩ := hstart
    have hall : ¬ mark :: tail <:+: tail ++ rest := by
      rwa [hrest, infix_append_iff_of_not_mem hvalue.last_block.1]
    exact .inl ⟨rest, hrest.symm, replaceBeside_right hbefore hrest.symm hall⟩
  · have hblocks : ∀ block ∈ inner ++ [last], mark ∉ block ∧ ¬ tail <+: block := by
      intro block hblock
      rcases List.mem_append.mp hblock with hblock | hblock
      · exact hvalue.inner_block block hblock
      · exact List.mem_singleton.mp hblock ▸ hvalue.last_block
    have hright := not_infix_row_append hvalue.unmarked_tail hvalue.unmarked_first hblocks
      (by simpa using hstart) hafter
    refine .inr ⟨hstart, ?_⟩
    rw [replaceBeside, Option.or_eq_none_iff, lastSplit_eq_none_iff (List.cons_ne_nil _ _),
      lastSplit_eq_none_iff (List.cons_ne_nil _ _)]
    exact ⟨hbefore, hright⟩

theorem not_halts_of_recursBeside (hrecurs : RecursBeside tail left inner last) :
    ∃ before after, (∀ c ∈ before, c ∈ valueOf mark first inner last) ∧
      (∀ c ∈ after, c ∈ valueOf mark first inner last ∨ c ∈ left) ∧
      ¬ Halts (replaceBeside (mark :: tail) left (valueOf mark first inner last))
        (before, after) := by
  obtain ⟨front, block, back, rest, hinner, hback, hblock, hfront, hlast⟩ := hrecurs
  have hrow : ∀ other ∈ block :: back, mark ∉ other := fun other hother =>
    (hvalue.inner_block other (by simp [hinner, List.mem_cons.mp hother])).1
  have hrest := (not_infix_of_block hleft (hrow block (by simp)) hblock).2
  refine ⟨first ++ spell mark front, rest, ?_, ?_, not_halts_of_progress
    (P := (· = (first ++ spell mark front, rest))) ?_ rfl⟩
  · intro c hc
    simp only [valueOf, hinner, List.append_assoc, List.mem_append, spell_append] at hc ⊢
    tauto
  · intro c hc
    have hmem : c ∈ block ++ left := hblock ▸ List.mem_append_right tail hc
    rcases List.mem_append.mp hmem with hc | hc
    · exact .inl (by simp [valueOf, hinner, hc])
    · exact .inr hc
  · rintro _ rfl
    have hbefore : ¬ mark :: tail <:+: first ++ spell mark front ++ left :=
      not_infix_row hvalue hleft (fun other hother => by simp [hinner, hother]) hfront
    rcases replaceBeside_cases hvalue hbefore hrest with ⟨rest', _, hstep⟩ | ⟨hnot, _⟩
    · refine ⟨_, _, hstep, ?_, rfl⟩
      rw [round, hinner]
      exact reaches_beside hleft hrow hback hblock rest'
    · exact absurd hlast hnot

omit [DecidableEq α] hleft in
/-- What is left behind the value. -/
theorem not_infix_of_rest {after rest : List α} (hrest : last ++ after = tail ++ rest)
    (hafter : ¬ mark :: tail <:+: after) : ¬ mark :: tail <:+: rest := by
  intro hoccurs
  have hall := hoccurs.trans (List.suffix_append tail rest).isInfix
  rw [← hrest, infix_append_iff_of_not_mem hvalue.last_block.1] at hall
  exact hafter hall

/-- The part behind the value becomes shorter, or a replacement before the value
leaves nothing to replace. -/
theorem halts_round (hrecurs : ¬ RecursBeside tail left inner last) (after : List α)
    (hafter : ¬ mark :: tail <:+: after) :
    Halts (replaceBeside (mark :: tail) left (valueOf mark first inner last))
      (round mark first inner, after) := by
  obtain ⟨front, back, hinner, hback, hfront⟩ : ∃ front back, inner = front ++ back ∧
      (∀ other ∈ back, tail <+: other ++ left) ∧
        ∀ other ∈ front.getLast?, ¬ tail <+: other ++ left := exists_replaced_blocks inner
  cases back with
  | nil =>
      rw [List.append_nil] at hinner
      subst hinner
      induction hsize : after.length using Nat.strongRecOn generalizing after with
      | ind size ih =>
          have hbefore := not_infix_row hvalue hleft (fun _ => id) hfront
          rcases replaceBeside_cases hvalue hbefore hafter
            with ⟨rest, hrest, hstep⟩ | ⟨_, hnone⟩
          · have hless : rest.length < size := by
              by_contra hmore
              have hlengths := congrArg List.length hrest
              simp only [List.length_append] at hlengths
              refine hvalue.last_block.2 (List.prefix_of_prefix_length_le ?_
                (List.prefix_append last after) (by omega))
              exact hrest ▸ List.prefix_append tail rest
            exact halts_of_some hstep
              (ih _ hless rest (not_infix_of_rest hvalue hrest hafter) rfl)
          · exact halts_of_none hnone
  | cons block back =>
      obtain ⟨rest, hblock⟩ := hback block List.mem_cons_self
      have hrow : ∀ other ∈ block :: back, mark ∉ other := fun other hother =>
        (hvalue.inner_block other (by simp [hinner, List.mem_cons.mp hother])).1
      have hrest := (not_infix_of_block hleft (hrow block (by simp)) hblock.symm).2
      have hreaches : Reaches
          (replaceBeside (mark :: tail) left (valueOf mark first inner last))
          (first ++ spell mark (front ++ block :: back), after) (first ++ spell mark front, rest) :=
        reaches_beside hleft hrow (fun other hother => hback other (by simp [hother]))
          hblock.symm after
      have hround : round mark first inner = first ++ spell mark (front ++ block :: back) := by
        rw [round, hinner]
      rw [hround]
      refine halts_of_reaches hreaches ?_
      have hbefore : ¬ mark :: tail <:+: first ++ spell mark front ++ left :=
        not_infix_row hvalue hleft (fun other hother => by simp [hinner, hother]) hfront
      rcases replaceBeside_cases hvalue hbefore hrest with ⟨rest', hrest', _⟩ | ⟨_, hnone⟩
      · refine absurd ⟨front, block, back, rest, hinner, fun other hother =>
          hback other (by simp [hother]), hblock.symm, hfront, ?_⟩ hrecurs
        exact hrest' ▸ List.prefix_append tail rest'
      · exact halts_of_none hnone

theorem halts_replaceBeside (hrecurs : ¬ RecursBeside tail left inner last)
    (sides : List α × List α) :
    Halts (replaceBeside (mark :: tail) left (valueOf mark first inner last)) sides := by
  refine halts_of_right hleft ?_ sides
  intro before after next hbefore hafter hstep
  rcases replaceBeside_cases hvalue hbefore hafter with ⟨rest, hrest, hsome⟩ | ⟨_, hnone⟩
  · obtain rfl := Option.some.inj (hsome.symm.trans hstep)
    exact halts_round hvalue hleft hrecurs rest (not_infix_of_rest hvalue hrest hafter)
  · cases hnone.symm.trans hstep

end Beside

/-! ## Which values let every loop in a run end -/

section Decision

variable {inRun : α → Bool} {mark : α} {tail value : List α}

/-- The value has separators, and replacing at its end goes on for ever. -/
def Recurs (inRun : α → Bool) (mark : α) (tail value : List α) : Prop :=
  ∃ left middle first inner last,
    value = left ++ middle ++ valueOf mark first inner last ∧
      Separated inRun left middle (valueOf mark first inner last) ∧
      Separate mark tail first inner last ∧ RecursBeside tail left inner last

/-- Replacing with the value always comes to an end. -/
structure Tame (inRun : α → Bool) (mark : α) (tail value : List α) : Prop where
  not_occurs : ¬ mark :: tail <:+: value
  not_grows : OneRun inRun value → ¬ Grows mark tail value
  not_recurs : ¬ Recurs inRun mark tail value

omit [DecidableEq α] in
/-- A text that is not in one run has a first and a last separator. -/
theorem exists_separated (hvalue : ¬ OneRun inRun value) :
    ∃ left middle right, value = left ++ middle ++ right ∧
      Separated inRun left middle right := by
  rw [OneRun] at hvalue
  push Not at hvalue
  obtain ⟨front, last, right, rfl, hlast, hright⟩ := exists_last_of_exists hvalue
  have hright : OneRun inRun right := fun c hc => not_not.mp (hright c hc)
  cases hdrop : front.dropWhile inRun with
  | nil =>
      refine ⟨front, [last], right, by simp, List.dropWhile_eq_nil_iff.mp hdrop, hright,
        ⟨last, [], rfl, hlast⟩, ⟨[], last, rfl, hlast⟩⟩
  | cons separator others =>
      have hseparator : ¬ inRun separator := by
        have hhead := List.head?_dropWhile_not inRun front
        rw [hdrop] at hhead
        simpa using hhead
      refine ⟨front.takeWhile inRun, separator :: (others ++ [last]), right, ?_, oneRun_takeWhile,
        hright, ⟨separator, others ++ [last], rfl, hseparator⟩,
        ⟨separator :: others, last, rfl, hlast⟩⟩
      nth_rewrite 1 [← List.takeWhile_append_dropWhile (p := inRun) (l := front)]
      simp [hdrop]

theorem forall_halts_iff_of_oneRun_value (htail : mark ∉ tail)
    (hword : OneRun inRun (mark :: tail)) (hvalue : OneRun inRun value) :
    (∀ text, Halts (replaceInRun inRun (mark :: tail) value) text) ↔
      ¬ mark :: tail <:+: value ∧ ¬ Grows mark tail value :=
  (forall_halts_iff_of_oneRun (List.cons_ne_nil _ _) hvalue).trans
    (forall_halts_iff (P := fun c => inRun c) htail hword hvalue)

/-- A value that recurs does so from what it leaves beside itself. -/
theorem not_halts_of_recurs (hword : ¬ mark :: tail <:+: value)
    (hrecurs : Recurs inRun mark tail value) :
    ∃ text, ¬ Halts (replaceInRun inRun (mark :: tail) value) text := by
  obtain ⟨left, middle, first, inner, last, rfl, hseparated, hvalue, hrecurs⟩ := hrecurs
  have hleft : ¬ mark :: tail <:+: left := fun hoccurs => hword <| hoccurs.trans
    ⟨[], middle ++ valueOf mark first inner last, by simp⟩
  obtain ⟨before, after, hbefore, hafter, hnot⟩ := not_halts_of_recursBeside hvalue hleft hrecurs
  have hsides : OneRun inRun (before, after).1 ∧ OneRun inRun (before, after).2 :=
    ⟨fun c hc => hseparated.right c (hbefore c hc),
      fun c hc => (hafter c hc).elim (hseparated.right c) (hseparated.left c)⟩
  exact ⟨_, fun hhalts => hnot ((halts_beside_iff (List.cons_ne_nil _ _) hseparated hword
    hsides).mp hhalts)⟩

theorem halts_of_separated (hword : ¬ mark :: tail <:+: value) (htail : mark ∉ tail)
    (hvalue : ¬ OneRun inRun value) (hrecurs : ¬ Recurs inRun mark tail value) (text : List α) :
    Halts (replaceInRun inRun (mark :: tail) value) text := by
  obtain ⟨left, middle, right, rfl, hseparated⟩ := exists_separated hvalue
  have hleft : ¬ mark :: tail <:+: left := fun hoccurs => hword <| hoccurs.trans
    ⟨[], middle ++ right, by simp⟩
  have hright : ¬ mark :: tail <:+: right := fun hoccurs => hword <| hoccurs.trans
    ⟨left ++ middle, [], by simp⟩
  have hsides : ∀ sides, Halts (replaceBeside (mark :: tail) left right) sides := by
    by_cases hmark : mark ∈ right
    · obtain ⟨first, inner, last, rfl, hparts⟩ := exists_valueOf htail hmark hright
      exact halts_replaceBeside hparts hleft fun hbeside =>
        hrecurs ⟨left, middle, first, inner, last, rfl, hseparated, hparts, hbeside⟩
    · exact halts_of_unmarked_right hleft hmark
  cases hstep : replaceInRun inRun (mark :: tail) (left ++ middle ++ right) text with
  | none => exact halts_of_none hstep
  | some next =>
      refine halts_of_some hstep ?_
      obtain ⟨⟨before, after⟩, hsplit, rfl⟩ := Option.map_eq_some_iff.mp hstep
      have hrun := oneRun_of_searchRun hsplit
      simp only [oneRun_append] at hrun
      have hboth : OneRun inRun (before, after).1 ∧ OneRun inRun (before, after).2 :=
        ⟨hrun.1.1, hrun.2⟩
      exact (halts_beside_iff (List.cons_ne_nil _ _) hseparated hword hboth).mpr (hsides _)

theorem forall_halts_replaceInRun_iff (htail : mark ∉ tail) (hword : OneRun inRun (mark :: tail)) :
    (∀ text, Halts (replaceInRun inRun (mark :: tail) value) text) ↔
      Tame inRun mark tail value := by
  constructor
  · intro hall
    have hoccurs : ¬ mark :: tail <:+: value := fun hoccurs =>
      not_halts_replaceInRun (List.cons_ne_nil _ _) hword hoccurs List.infix_rfl (hall _)
    refine ⟨hoccurs, fun hvalue => ?_, fun hrecurs => ?_⟩
    · exact ((forall_halts_iff_of_oneRun_value htail hword hvalue).mp hall).2
    · obtain ⟨text, hnot⟩ := not_halts_of_recurs hoccurs hrecurs
      exact hnot (hall text)
  · intro htame text
    by_cases hvalue : OneRun inRun value
    · exact (forall_halts_iff_of_oneRun_value htail hword hvalue).mpr
        ⟨htame.not_occurs, htame.not_grows hvalue⟩ text
    · exact halts_of_separated htame.not_occurs htail hvalue htame.not_recurs text

end Decision

end Machine.Rewriting

import Signpost.Tactic.Requirements

/-! # Literal substitution

What a requirement is meant to become: each magic word in it replaced by its
value, and every other character kept.
-/

namespace Signpost.Requirements

open Machine.Rewriting MagicWord

/-! ## Pieces of a requirement -/

/-- A magic word or any other character. -/
abbrev Piece := MagicWord ⊕ Char

def render (content : MagicWord → List Char) (row : List Piece) : List Char :=
  row.flatMap (Sum.elim content ([·]))

def wordsOf (row : List Piece) : List MagicWord := row.filterMap Sum.getLeft?

/-- `skip` counts the characters of a magic word that are still to be dropped. -/
def pieces : ℕ → List Char → List Piece
  | _, [] => []
  | skip + 1, _ :: rest => pieces skip rest
  | 0, c :: rest =>
      match MagicWord.all.find? fun word => word.letters.isPrefixOf (c :: rest) with
      | some word => .inl word :: pieces (word.letters.length - 1) rest
      | none => .inr c :: pieces 0 rest

/-- All the magic words replaced at once. -/
def literal (values : MagicWord → List Char) (text : List Char) : List Char :=
  render values (pieces 0 text)

section Pieces

variable {content : MagicWord → List Char} {row front back : List Piece}

@[simp]
theorem render_nil : render content [] = [] := rfl

@[simp]
theorem render_cons_word (word : MagicWord) :
    render content (.inl word :: row) = content word ++ render content row := rfl

@[simp]
theorem render_cons_char (c : Char) :
    render content (.inr c :: row) = c :: render content row := rfl

@[simp]
theorem render_append :
    render content (front ++ back) = render content front ++ render content back :=
  List.flatMap_append

@[simp]
theorem render_chars (text : List Char) : render content (text.map .inr) = text := by
  induction text with
  | nil => rfl
  | cons c text ih => rw [List.map_cons, render_cons_char, ih]

@[simp]
theorem wordsOf_cons_word (word : MagicWord) :
    wordsOf (.inl word :: row) = word :: wordsOf row := rfl

@[simp]
theorem wordsOf_cons_char (c : Char) : wordsOf (.inr c :: row) = wordsOf row := rfl

@[simp]
theorem wordsOf_append : wordsOf (front ++ back) = wordsOf front ++ wordsOf back :=
  List.filterMap_append

@[simp]
theorem wordsOf_chars (text : List Char) : wordsOf (text.map .inr) = [] := by
  induction text with
  | nil => rfl
  | cons c text ih => rw [List.map_cons, wordsOf_cons_char, ih]

/-- Without a magic word, what the words stand for does not matter. -/
theorem render_eq_of_wordsOf_eq_nil (other : MagicWord → List Char) (hrow : wordsOf row = []) :
    render content row = render other row := by
  induction row with
  | nil => rfl
  | cons piece row ih =>
      cases piece with
      | inl word => cases hrow
      | inr c => rw [render_cons_char, render_cons_char, ih hrow]

theorem exists_of_mem_wordsOf {word : MagicWord} (hmem : word ∈ wordsOf row) :
    ∃ front back, row = front ++ .inl word :: back := by
  obtain ⟨piece, hpiece, hword⟩ := List.mem_filterMap.mp hmem
  cases piece with
  | inl other =>
      obtain rfl := Option.some.inj hword
      exact List.append_of_mem hpiece
  | inr c => cases hword

theorem render_pieces (skip : ℕ) (text : List Char) :
    render letters (pieces skip text) = text.drop skip := by
  induction text generalizing skip with
  | nil => simp [pieces]
  | cons c rest ih =>
      cases skip with
      | succ skip => rw [pieces, ih, List.drop_succ_cons]
      | zero =>
          rw [pieces]
          split
          next word hfound =>
            have hfirst := List.find?_some hfound
            obtain ⟨others, hothers⟩ := List.isPrefixOf_iff_prefix.mp hfirst
            rw [render_cons_word, ih, ← hothers]
            rw [letters_eq, List.cons_append, List.cons.injEq] at hothers
            rw [List.drop_zero, ← hothers.2, letters_eq, List.length_cons, Nat.add_sub_cancel,
              List.drop_left]
          next => rw [render_cons_char, ih, List.drop_zero, List.drop_zero]

/-- A part of the text without capital letters is not part of a magic word. -/
theorem prefix_render {text : List Char} (htext : ∀ c ∈ text, ¬ c.isUpper)
    (hbegin : text <+: render letters row) (values : MagicWord → List Char) :
    text <+: render values row := by
  induction text generalizing row with
  | nil => exact List.nil_prefix
  | cons c text ih =>
      cases row with
      | nil => simp at hbegin
      | cons piece row =>
          cases piece with
          | inl word =>
              rw [render_cons_word, letters_eq, List.cons_append, List.cons_prefix_cons] at hbegin
              exact absurd (hbegin.1 ▸ isUpper_mark word) (htext c List.mem_cons_self)
          | inr d =>
              rw [render_cons_char, List.cons_prefix_cons] at hbegin ⊢
              exact ⟨hbegin.1, ih (fun c hc => htext c (List.mem_cons_of_mem _ hc)) hbegin.2⟩

/-- A magic word that begins in another one is that word, since there is only one
capital letter in a word. -/
theorem eq_of_overlap {word other : MagicWord} {before inside after rest : List Char}
    (hother : other.letters = before ++ inside) (hinside : word.letters ++ after = inside ++ rest) :
    (before = [] ∧ word = other) ∨ inside = [] := by
  cases before with
  | nil =>
      rw [List.nil_append] at hother
      rw [← hother] at hinside
      have hboth := List.prefix_or_prefix_of_prefix (List.prefix_append word.letters after)
        (hinside ▸ List.prefix_append other.letters rest)
      exact .inl ⟨rfl, hboth.elim (eq_of_letters_isPrefix word)
        fun hbegin => (eq_of_letters_isPrefix other hbegin).symm⟩
  | cons d before =>
      cases inside with
      | nil => exact .inr rfl
      | cons e inside =>
          rw [letters_eq, List.cons_append, List.cons.injEq] at hother
          rw [letters_eq, List.cons_append, List.cons_append, List.cons.injEq] at hinside
          have hmem : word.mark ∈ other.tail := by simp [hother.2, hinside.1]
          exact absurd (isUpper_mark word) (not_isUpper_of_mem_tail other hmem)

/-- A magic word in the text is one of the pieces, unless one comes about in the
result. -/
theorem exists_piece_of_render {values : MagicWord → List Char}
    (hfree : ∀ word : MagicWord, ¬ word.letters <:+: render values row) {word : MagicWord}
    {before after : List Char} (htext : render letters row = before ++ word.letters ++ after) :
    ∃ front back, row = front ++ .inl word :: back ∧ render letters front = before ∧
      render letters back = after := by
  induction row generalizing before with
  | nil =>
      rw [letters_eq] at htext
      simp at htext
  | cons piece row ih =>
      cases piece with
      | inr c =>
          have hrest : ∀ word : MagicWord, ¬ word.letters <:+: render values row :=
            fun word hoccurs => hfree word (List.infix_cons hoccurs)
          cases before with
          | nil =>
              rw [render_cons_char, List.nil_append, letters_eq, List.cons_append,
                List.cons.injEq] at htext
              have htail : word.tail <+: render letters row :=
                htext.2 ▸ List.prefix_append word.tail after
              have hbegin := prefix_render (fun d hd => not_isUpper_of_mem_tail word hd) htail
                values
              refine absurd ?_ (hfree word)
              rw [render_cons_char, letters_eq, htext.1]
              exact (List.cons_prefix_cons.mpr ⟨rfl, hbegin⟩).isInfix
          | cons d before =>
              rw [render_cons_char, List.cons_append, List.cons_append, List.cons.injEq] at htext
              obtain ⟨front, back, rfl, rfl, rfl⟩ := ih hrest htext.2
              exact ⟨.inr c :: front, back, rfl, by rw [render_cons_char, htext.1], rfl⟩
      | inl other =>
          have hrest : ∀ word : MagicWord, ¬ word.letters <:+: render values row :=
            fun word hoccurs => hfree word (hoccurs.trans (List.suffix_append _ _).isInfix)
          rw [render_cons_word, List.append_assoc] at htext
          rcases List.append_eq_append_iff.mp htext with
            ⟨later, rfl, hlater⟩ | ⟨inside, hother, hinside⟩
          · obtain ⟨front, back, rfl, rfl, rfl⟩ := ih hrest (by rw [hlater, List.append_assoc])
            exact ⟨.inl other :: front, back, rfl, rfl, rfl⟩
          · rcases eq_of_overlap hother hinside with ⟨rfl, rfl⟩ | rfl
            · rw [List.nil_append] at hother
              rw [← hother] at hinside
              exact ⟨[], row, rfl, rfl, (List.append_cancel_left hinside).symm⟩
            · rw [List.append_nil] at hother
              have hbegins : render letters row = [] ++ word.letters ++ after := hinside.symm
              obtain ⟨front, back, rfl, hfront, rfl⟩ := ih hrest hbegins
              exact ⟨.inl other :: front, back, rfl, by simp [hother, hfront], rfl⟩

end Pieces

/-! ## Substitution inside one run -/

section InRun

variable {values : MagicWord → List Char} {row : List Piece}

/-- The text is one run, and no value cuts a word off that is still to be
replaced. -/
def StaysInRun (values : MagicWord → List Char) (row : List Piece) : Prop :=
  OneRun isWordChar (render letters row) ∧
    ((wordsOf row).length ≤ 1 ∨ ∀ word ∈ wordsOf row, OneRun isWordChar (values word))

/-- All that is not yet replaced stays where it is. -/
def Kept (values : MagicWord → List Char) (row : List Piece) : Prop :=
  wordsOf row = [] ∨ StaysInRun values row

/-- No magic word comes about in the result. -/
def Free (values : MagicWord → List Char) (row : List Piece) : Prop :=
  ∀ word : MagicWord, ¬ word.letters <:+: render values row

theorem letters_infix_of_mem {word : MagicWord} (hmem : word ∈ wordsOf row) :
    word.letters <:+: render letters row := by
  obtain ⟨front, back, rfl⟩ := exists_of_mem_wordsOf hmem
  exact ⟨render letters front, render letters back, by simp⟩

theorem substituteOnce_eq_none_iff {word : MagicWord} {val text : List Char} :
    substituteOnce word val text = none ↔ ¬ word.letters <:+: text :=
  replaceInRun_eq_none_iff (letters_ne_nil word) (oneRun_letters word)

theorem exists_row_of_substituteOnce (hfree : Free values row)
    (hrun : OneRun isWordChar (render letters row)) {word : MagicWord} {next : List Char}
    (hstep : substituteOnce word (values word) (render letters row) = some next) :
    ∃ front back, row = front ++ .inl word :: back ∧
      next = render letters (front ++ (values word).map .inr ++ back) := by
  obtain ⟨⟨before, after⟩, hsplit, rfl⟩ := Option.map_eq_some_iff.mp hstep
  rw [searchRun_of_oneRun (letters_ne_nil word) hrun] at hsplit
  obtain ⟨front, back, rfl, rfl, rfl⟩ :=
    exists_piece_of_render hfree (append_of_lastSplit hsplit)
  exact ⟨front, back, rfl, by simp⟩

/-- A replacement turns one of the words into its value. -/
theorem kept_of_substituteOnce (hfree : Free values row) (hkept : Kept values row)
    {word : MagicWord} {next : List Char}
    (hstep : substituteOnce word (values word) (render letters row) = some next) :
    ∃ row', next = render letters row' ∧ render values row' = render values row ∧
      Kept values row' ∧ (wordsOf row').Sublist (wordsOf row) ∧
        (wordsOf row').length < (wordsOf row).length := by
  rcases hkept with hnone | ⟨hrun, hvalues⟩
  · have hoccurs : word.letters <:+: render letters row := by
      by_contra hnot
      rw [substituteOnce_eq_none_iff.mpr hnot] at hstep
      cases hstep
    rw [render_eq_of_wordsOf_eq_nil values hnone] at hoccurs
    exact absurd hoccurs (hfree word)
  · obtain ⟨front, back, rfl, rfl⟩ := exists_row_of_substituteOnce hfree hrun hstep
    refine ⟨_, rfl, by simp, ?_, by simp, by simp⟩
    rcases hvalues with hone | hall
    · left
      simp only [wordsOf_append, wordsOf_cons_word, List.length_append, List.length_cons] at hone
      have hfront : wordsOf front = [] := List.eq_nil_of_length_eq_zero (by omega)
      have hback : wordsOf back = [] := List.eq_nil_of_length_eq_zero (by omega)
      simp [hfront, hback]
    · right
      simp only [render_append, render_cons_word, oneRun_append] at hrun
      refine ⟨?_, .inr fun other hother => hall other ?_⟩
      · simp only [render_append, render_chars, oneRun_append]
        exact ⟨⟨hrun.1, hall word (by simp)⟩, hrun.2.2⟩
      · simp only [wordsOf_append, wordsOf_cons_word, wordsOf_chars, List.mem_append,
          List.mem_cons, List.append_nil] at hother ⊢
        tauto

/-- A loop replaces all the occurrences of its word. -/
theorem exists_substitute (word : MagicWord) (hfree : Free values row) (hkept : Kept values row) :
    ∃ fuel row', substitute word (values word) fuel (render letters row) =
        some (render letters row') ∧ render values row' = render values row ∧ Kept values row' ∧
      (wordsOf row').Sublist (wordsOf row) ∧ word ∉ wordsOf row' := by
  induction hsize : (wordsOf row).length using Nat.strongRecOn generalizing row with
  | ind size ih =>
      cases hstep : substituteOnce word (values word) (render letters row) with
      | none =>
          refine ⟨1, row, loop_succ_of_none hstep 0, rfl, hkept, List.Sublist.refl _, ?_⟩
          exact fun hmem => substituteOnce_eq_none_iff.mp hstep (letters_infix_of_mem hmem)
      | some next =>
          obtain ⟨row₁, rfl, hvalues₁, hkept₁, hsub₁, hless⟩ :=
            kept_of_substituteOnce hfree hkept hstep
          have hfree₁ : Free values row₁ := by rwa [Free, hvalues₁]
          obtain ⟨fuel, row₂, hloop, hvalues₂, hkept₂, hsub₂, hnot⟩ :=
            ih _ (hsize ▸ hless) hfree₁ hkept₁ rfl
          refine ⟨fuel + 1, row₂, ?_, hvalues₂.trans hvalues₁, hkept₂, hsub₂.trans hsub₁, hnot⟩
          rw [substitute, loop_succ_of_some hstep]
          exact hloop

theorem exists_adapt_of_kept (order : List MagicWord) (hfree : Free values row)
    (hkept : Kept values row) :
    ∃ fuel row', adapt values fuel order (render letters row) = some (render letters row') ∧
      render values row' = render values row ∧ (wordsOf row').Sublist (wordsOf row) ∧
        ∀ word ∈ order, word ∉ wordsOf row' := by
  induction order generalizing row with
  | nil => exact ⟨0, row, rfl, rfl, List.Sublist.refl _, by simp⟩
  | cons word order ih =>
      obtain ⟨fuel, row₁, hloop, hvalues₁, hkept₁, hsub₁, hnot⟩ :=
        exists_substitute word hfree hkept
      have hfree₁ : Free values row₁ := by rwa [Free, hvalues₁]
      obtain ⟨fuel', row₂, hadapt, hvalues₂, hsub₂, hnone⟩ := ih hfree₁ hkept₁
      refine ⟨max fuel fuel', row₂, ?_, hvalues₂.trans hvalues₁, hsub₂.trans hsub₁, ?_⟩
      · rw [adapt_cons, Option.bind_eq_some_iff]
        exact ⟨_, loop_mono (le_max_left _ _) hloop, adapt_mono (le_max_right _ _) hadapt⟩
      · intro other hother
        rcases List.mem_cons.mp hother with rfl | hother
        · exact fun hmem => hnot (hsub₂.subset hmem)
        · exact hnone other hother

theorem exists_adapt_eq_literal {order : List MagicWord} (horder : IsOrder order)
    (hfree : Free values row) (hkept : Kept values row) :
    ∃ fuel, adapt values fuel order (render letters row) = some (render values row) := by
  obtain ⟨fuel, row', hadapt, hvalues, _, hnone⟩ := exists_adapt_of_kept order hfree hkept
  have hwords : wordsOf row' = [] :=
    List.eq_nil_iff_forall_not_mem.mpr fun word => hnone word (horder.mem word)
  refine ⟨fuel, ?_⟩
  rw [hadapt, ← hvalues, render_eq_of_wordsOf_eq_nil values hwords]

end InRun

/-! ## Text outside a run -/

section Outside

variable {values : MagicWord → List Char} {row : List Piece} {text final : List Char}
  {order : List MagicWord} {fuel : ℕ}

/-- The number of characters that are in no run. -/
def outside (text : List Char) : ℕ := text.countP fun c => !isWordChar c

@[simp]
theorem outside_append (text other : List Char) :
    outside (text ++ other) = outside text + outside other := List.countP_append

theorem outside_eq_zero_iff : outside text = 0 ↔ OneRun isWordChar text := by
  simp [outside, OneRun]

@[simp]
theorem outside_letters (word : MagicWord) : outside word.letters = 0 :=
  outside_eq_zero_iff.mpr (oneRun_letters word)

theorem outside_render_le (row : List Piece) :
    outside (render letters row) ≤ outside (render values row) := by
  induction row with
  | nil => exact le_rfl
  | cons piece row ih =>
      cases piece with
      | inl word =>
          rw [render_cons_word, render_cons_word, outside_append, outside_append, outside_letters]
          omega
      | inr c =>
          rw [render_cons_char, render_cons_char, outside, outside, List.countP_cons,
            List.countP_cons]
          exact Nat.add_le_add_right ih _

/-- Of what is outside the runs, a step keeps only what is in the value. -/
theorem outside_lt_of_substituteOnce (hfree : Free values row)
    (htext : text <:+: render letters row) (hout : 0 < outside (render letters row))
    {word : MagicWord} {next : List Char}
    (hstep : substituteOnce word (values word) text = some next) :
    outside next < outside (render values row) ∧ ∃ row', next <:+: render letters row' ∧
      render values row' = render values row ∧ 0 < outside (render letters row') := by
  obtain ⟨⟨before, after⟩, hsplit, rfl⟩ := Option.map_eq_some_iff.mp hstep
  have hrun := oneRun_of_searchRun hsplit
  simp only [oneRun_append, ← outside_eq_zero_iff] at hrun
  obtain ⟨left, right, hrow⟩ := (infix_of_searchRun hsplit).trans htext
  have hocc : render letters row = left ++ before ++ word.letters ++ (after ++ right) := by
    rw [← hrow]
    simp
  obtain ⟨front, back, rfl, hfront, hback⟩ := exists_piece_of_render hfree hocc
  have hless : outside (render letters front) ≤ outside (render values front) :=
    outside_render_le front
  have hless' : outside (render letters back) ≤ outside (render values back) :=
    outside_render_le back
  simp only [render_append, render_cons_word, outside_append, outside_letters] at hout ⊢
  refine ⟨by omega, front ++ (values word).map .inr ++ back, ?_, by simp, ?_⟩
  · refine ⟨left, right, ?_⟩
    simp [hfront, hback]
  · simp only [render_append, render_chars, outside_append]
    omega

theorem adapt_invariant {P : List Char → Prop} (hkeeps : ∀ word text next, P text →
      substituteOnce word (values word) text = some next → P next) (htext : P text)
    (hadapt : adapt values fuel order text = some final) : P final := by
  induction order generalizing text with
  | nil => exact Option.some.inj hadapt ▸ htext
  | cons word order ih =>
      rw [adapt_cons, Option.bind_eq_some_iff] at hadapt
      obtain ⟨next, hloop, hrest⟩ := hadapt
      exact ih (loop_invariant (hkeeps word) htext hloop) hrest

/-- A text with a word and with characters outside the runs loses some of these. -/
theorem ne_of_outside (hfree : Free values row) (hwords : wordsOf row ≠ [])
    (hout : 0 < outside (render letters row))
    (hadapt : adapt values fuel order (render letters row) = some final) :
    final ≠ render values row := by
  have hfinal : final = render letters row ∨ outside final < outside (render values row) := by
    refine (adapt_invariant (P := fun text =>
      (text = render letters row ∨ outside text < outside (render values row)) ∧
        ∃ row', text <:+: render letters row' ∧ render values row' = render values row ∧
          0 < outside (render letters row')) ?_ ?_ hadapt).1
    · rintro word text next ⟨_, row', htext, hvalues, hout'⟩ hstep
      have hfree' : Free values row' := by rwa [Free, hvalues]
      obtain ⟨hless, row'', hnext, hvalues', hout''⟩ :=
        outside_lt_of_substituteOnce hfree' htext hout' hstep
      exact ⟨.inr (hvalues ▸ hless), row'', hnext, hvalues'.trans hvalues, hout''⟩
    · exact ⟨.inl rfl, row, List.infix_rfl, rfl, hout⟩
  rintro rfl
  rcases hfinal with heq | hless
  · obtain ⟨word, hword⟩ := List.exists_mem_of_ne_nil _ hwords
    exact hfree word (heq ▸ letters_infix_of_mem hword)
  · exact lt_irrefl _ hless

/-- The first step of the first loop. -/
theorem adapt_of_substituteOnce {word : MagicWord} {next : List Char}
    (hstep : substituteOnce word (values word) text = some next)
    (hadapt : adapt values fuel (word :: order) text = some final) :
    adapt values fuel (word :: order) next = some final := by
  rw [adapt_cons, Option.bind_eq_some_iff] at hadapt ⊢
  obtain ⟨middle, hloop, hrest⟩ := hadapt
  refine ⟨middle, ?_, hrest⟩
  cases fuel with
  | zero => cases hloop
  | succ fuel =>
      rw [substitute, loop_succ_of_some hstep] at hloop
      exact loop_mono (Nat.le_succ fuel) hloop

/-- A value with a character outside the runs is put in first, while another word
is left. -/
theorem ne_of_value {word : MagicWord} (hfree : Free values row)
    (hrun : OneRun isWordChar (render letters row)) (hmore : 1 < (wordsOf row).length)
    (hword : word ∈ wordsOf row) (hvalue : ¬ OneRun isWordChar (values word))
    (hadapt : adapt values fuel (word :: order) (render letters row) = some final) :
    final ≠ render values row := by
  cases hstep : substituteOnce word (values word) (render letters row) with
  | none => exact absurd (letters_infix_of_mem hword) (substituteOnce_eq_none_iff.mp hstep)
  | some next =>
      obtain ⟨front, back, rfl, rfl⟩ := exists_row_of_substituteOnce hfree hrun hstep
      have hvalues : render values (front ++ (values word).map .inr ++ back) =
          render values (front ++ .inl word :: back) := by simp
      have hlater := adapt_of_substituteOnce hstep hadapt
      rw [← hvalues]
      refine ne_of_outside (by rwa [Free, hvalues]) (fun hnil => ?_) ?_ hlater
      · have hlength := congrArg List.length hnil
        simp only [wordsOf_append, wordsOf_chars, wordsOf_cons_word, List.length_append,
          List.length_cons, List.length_nil] at hmore hlength
        omega
      · rw [← outside_eq_zero_iff] at hvalue
        simp only [render_append, render_chars, outside_append]
        omega

theorem ne_of_not_kept (hfree : Free values row) (hkept : ¬ Kept values row) :
    ∃ order, IsOrder order ∧ ∀ fuel final,
      adapt values fuel order (render letters row) = some final → final ≠ render values row := by
  rw [Kept, StaysInRun, not_or, not_and_or] at hkept
  obtain ⟨hwords, hstays⟩ := hkept
  by_cases hrun : OneRun isWordChar (render letters row)
  · have hvalues := hstays.resolve_left (not_not.mpr hrun)
    push Not at hvalues
    obtain ⟨hmore, word, hword, hvalue⟩ := hvalues
    obtain ⟨order, horder⟩ := exists_order word
    exact ⟨word :: order, horder, fun fuel final => ne_of_value hfree hrun hmore hword hvalue⟩
  · rw [← outside_eq_zero_iff] at hrun
    exact ⟨MagicWord.all, isOrder_all, fun fuel final =>
      ne_of_outside hfree hwords (Nat.pos_of_ne_zero hrun)⟩

/-- The word whose loop is the last one is not in the result. -/
theorem not_infix_of_adapt {word : MagicWord}
    (hadapt : adapt values fuel (order ++ [word]) text = some final) :
    ¬ word.letters <:+: final := by
  rw [adapt, List.foldlM_append] at hadapt
  obtain ⟨middle, _, hlast⟩ := Option.bind_eq_some_iff.mp hadapt
  obtain ⟨_, hloop, hsome⟩ := Option.bind_eq_some_iff.mp hlast
  obtain rfl := Option.some.inj hsome
  exact substituteOnce_eq_none_iff.mp (step_eq_none_of_loop hloop)

theorem exists_order_last (word : MagicWord) : ∃ order, IsOrder (order ++ [word]) := by
  refine ⟨MagicWord.all.erase word, ?_, fun other => ?_⟩
  · cases word <;> decide
  · cases word <;> cases other <;> decide

end Outside

/-! ## When substitution is literal -/

section Literal

variable {values : MagicWord → List Char} {text : List Char}

/-- Either there is no magic word in the text, or the text is one run, in which
either there is only one magic word or the values do not end the run. No magic
word comes about where values are put next to the text. -/
def SubstitutedWhole (values : MagicWord → List Char) (text : List Char) : Prop :=
  Free values (pieces 0 text) ∧ Kept values (pieces 0 text)

theorem adapt_unique {order : List MagicWord} {fuel fuel' : ℕ} {final final' : List Char}
    (hadapt : adapt values fuel order text = some final)
    (hadapt' : adapt values fuel' order text = some final') : final = final' :=
  Option.some.inj ((adapt_mono (le_max_left fuel fuel') hadapt).symm.trans
    (adapt_mono (le_max_right fuel fuel') hadapt'))

theorem adapt_eq_literal_iff (hends : ∀ order, IsOrder order → ∃ fuel final,
      adapt values fuel order text = some final) :
    (∀ order, IsOrder order → ∀ fuel final, adapt values fuel order text = some final →
      final = literal values text) ↔ SubstitutedWhole values text := by
  have htext : render letters (pieces 0 text) = text := by rw [render_pieces, List.drop_zero]
  constructor
  · intro hall
    have hfree : Free values (pieces 0 text) := by
      intro word
      obtain ⟨order, horder⟩ := exists_order_last word
      obtain ⟨fuel, final, hadapt⟩ := hends _ horder
      have hnot := not_infix_of_adapt hadapt
      rwa [hall _ horder fuel final hadapt] at hnot
    refine ⟨hfree, ?_⟩
    by_contra hkept
    obtain ⟨order, horder, hne⟩ := ne_of_not_kept hfree hkept
    rw [htext] at hne
    obtain ⟨fuel, final, hadapt⟩ := hends order horder
    exact hne fuel final hadapt (hall order horder fuel final hadapt)
  · rintro ⟨hfree, hkept⟩ order horder fuel final hadapt
    obtain ⟨fuel', hliteral⟩ := exists_adapt_eq_literal horder hfree hkept
    rw [htext] at hliteral
    exact adapt_unique hadapt hliteral

variable {vars : MagicVariables} {nodeName : String}

/-- What a requirement is meant to become. -/
def literalRequirement (vars : MagicVariables) (nodeName requirement : String) : String :=
  String.ofList (literal (valueLetters vars nodeName) requirement.toList)

theorem exists_adapt_of_requirements {order : List MagicWord} {fuel : ℕ}
    {requires results : List String}
    (hresults : requirements order vars nodeName fuel requires = some results)
    {requirement : String} (hmem : requirement ∈ requires) :
    ∃ final, adapt (valueLetters vars nodeName) fuel order requirement.toList = some final := by
  induction requires generalizing results with
  | nil => cases hmem
  | cons first requires ih =>
      rw [requirements_cons] at hresults
      simp only [Option.bind_eq_some_iff, Option.map_eq_some_iff] at hresults
      obtain ⟨_, ⟨final, hfinal, _⟩, rest, hrest, _⟩ := hresults
      rcases List.mem_cons.mp hmem with rfl | hmem
      · exact ⟨final, hfinal⟩
      · exact ih hrest hmem

/-- The requirements are adapted one by one. -/
theorem requirements_eq_map_iff {order : List MagicWord} {fuel : ℕ}
    {requires results : List String} (meant : String → String)
    (hresults : requirements order vars nodeName fuel requires = some results) :
    results = requires.map meant ↔ ∀ requirement ∈ requires, ∀ final,
      adapt (valueLetters vars nodeName) fuel order requirement.toList = some final →
        String.ofList final = meant requirement := by
  induction requires generalizing results with
  | nil =>
      obtain rfl := Option.some.inj hresults
      simp
  | cons requirement requires ih =>
      rw [requirements_cons] at hresults
      simp only [Option.bind_eq_some_iff, Option.map_eq_some_iff, Option.some.injEq] at hresults
      obtain ⟨_, ⟨final, hfinal, rfl⟩, rest, hrest, rfl⟩ := hresults
      rw [List.map_cons, List.cons.injEq, ih hrest, List.forall_mem_cons]
      simp [hfinal]

/-- For requirements on which the loops end. -/
theorem requirements_literal_iff {requires : List String}
    (hends : ∀ order, IsOrder order → ∃ fuel results,
      requirements order vars nodeName fuel requires = some results) :
    (∀ order, IsOrder order → ∀ fuel results,
      requirements order vars nodeName fuel requires = some results →
        results = requires.map (literalRequirement vars nodeName)) ↔
    ∀ requirement ∈ requires,
      SubstitutedWhole (valueLetters vars nodeName) requirement.toList := by
  have hadapts : ∀ requirement ∈ requires, ∀ order, IsOrder order → ∃ fuel final,
      adapt (valueLetters vars nodeName) fuel order requirement.toList = some final := by
    intro requirement hmem order horder
    obtain ⟨fuel, results, hresults⟩ := hends order horder
    exact ⟨fuel, exists_adapt_of_requirements hresults hmem⟩
  constructor
  · intro hall requirement hmem
    rw [← adapt_eq_literal_iff (hadapts requirement hmem)]
    intro order horder fuel final hadapt
    obtain ⟨fuel', results, hresults⟩ := hends order horder
    obtain ⟨final', hadapt'⟩ := exists_adapt_of_requirements hresults hmem
    have hliteral := (requirements_eq_map_iff _ hresults).mp
      (hall order horder fuel' results hresults) requirement hmem final' hadapt'
    exact (adapt_unique hadapt hadapt').trans (String.ofList_inj.mp hliteral)
  · intro hwhole order horder fuel results hresults
    refine (requirements_eq_map_iff _ hresults).mpr fun requirement hmem final hadapt => ?_
    exact congrArg String.ofList ((adapt_eq_literal_iff (hadapts requirement hmem)).mpr
      (hwhole requirement hmem) order horder fuel final hadapt)

theorem requirements_literal_iff_of_ports :
    (∀ order, IsOrder order → ∀ fuel results,
      requirements order ⟨"service", "domain:8080", "domain", some 8080⟩ "node_name" fuel
          ["ssh_Destination_Port_Port@Destination"] = some results →
        results = ["ssh_Destination_Port_Port@Destination"].map
          (literalRequirement ⟨"service", "domain:8080", "domain", some 8080⟩ "node_name")) ↔
    ∀ requirement ∈ ["ssh_Destination_Port_Port@Destination"], SubstitutedWhole
      (valueLetters ⟨"service", "domain:8080", "domain", some 8080⟩ "node_name")
        requirement.toList := by
  apply requirements_literal_iff
  intro order horder
  have hfree : Free (valueLetters ⟨"service", "domain:8080", "domain", some 8080⟩ "node_name")
      (pieces 0 "ssh_Destination_Port_Port@Destination".toList) := by
    intro word
    cases word <;> decide
  obtain ⟨fuel, hadapt⟩ :=
    exists_adapt_eq_literal horder hfree (.inr ⟨by decide, .inr (by decide)⟩)
  rw [render_pieces, List.drop_zero] at hadapt
  exact ⟨fuel, _, by rw [requirements_cons, hadapt]; rfl⟩

/-- The text before a space is lost. -/
theorem not_requirements_literal :
    ¬ ∀ what vars nodeName order fuel requirement results, magicVariablesFrom what = some vars →
      (∀ word other : MagicWord, ¬ word.letters <:+: valueLetters vars nodeName other) →
      IsOrder order → requirements order vars nodeName fuel [requirement] = some results →
        results = [literalRequirement vars nodeName requirement] := by
  intro hclaim
  have hresult := hclaim "service@kle.io" ⟨"service", "kle.io", "kle.io", none⟩ "alpha"
    MagicWord.all 2 "tcp out@Domain" ["out@kle.io"] (by decide)
    (by intro word other; cases word <;> cases other <;> decide) isOrder_all (by decide)
  exact absurd hresult (by decide)

end Literal

end Signpost.Requirements

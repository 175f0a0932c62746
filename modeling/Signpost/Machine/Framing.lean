import Mathlib.Data.List.DropRight
import Mathlib.Data.List.Forall2
import Mathlib.Data.Set.Finite.Lemmas

/-! # Texts framed by a separator

Texts are written one after another, each followed by a separator, and read in
chunks that may end anywhere. A reader that splits each chunk by itself sees
pieces of the texts: the texts themselves exactly when the chunks are aligned
with the separators.
-/

namespace Machine

universe u v

variable {α : Type u}

/-- The texts, each followed by a separator. -/
def frame (separator : α) (texts : List (List α)) : List α :=
  texts.flatMap fun text => text ++ [separator]

/-- Every chunk ends next to a separator or at an end of the stream. -/
def Aligned (separator : α) : List (List α) → Prop
  | [] => True
  | chunk :: rest =>
      (chunk = [] ∨ rest.flatten = [] ∨ chunk.getLast? = some separator ∨
        rest.flatten.head? = some separator) ∧ Aligned separator rest

/-- What comes before a separator does not matter for the alignment after it. -/
theorem aligned_cons_separator {separator : α} {text after : List α} {rest : List (List α)} :
    Aligned separator ((text ++ separator :: after) :: rest) ↔
      Aligned separator (after :: rest) := by
  cases after using List.reverseRecOn with
  | nil => simp [Aligned]
  | append_singleton after last =>
      have hlast : (text ++ separator :: (after ++ [last])).getLast? = some last := by
        rw [← List.cons_append, ← List.append_assoc, List.getLast?_concat]
      simp [Aligned, hlast]

/-- A chunk without the separator lies inside the first text. -/
theorem exists_later_of_inside {separator : α} {chunk after text stream : List α}
    (hstream : chunk ++ after = text ++ separator :: stream) (hinside : separator ∉ chunk) :
    ∃ later, text = chunk ++ later ∧ after = later ++ separator :: stream := by
  rcases List.append_eq_append_iff.mp hstream with ⟨later, htext, hrest⟩ | ⟨later, hchunk, hrest⟩
  · exact ⟨later, htext, hrest⟩
  · cases later with
    | nil => exact ⟨[], by simpa using hchunk.symm, hrest.symm⟩
    | cons first later =>
        rw [List.cons_append, List.cons.injEq] at hrest
        exact absurd (hchunk ▸ hrest.1 ▸ by simp) hinside

/-- The separator comes next when nothing is left of the text before it. -/
theorem separator_next_iff {separator : α} {part : List (List α)} {later : List α}
    (hpart : part.flatten = later) (hne : [] ∉ part) (hinside : separator ∉ later)
    (stream : List α) :
    (later ++ separator :: stream).head? = some separator ↔ part = [] := by
  subst hpart
  constructor
  · intro hfirst
    cases part with
    | nil => rfl
    | cons first others =>
        cases first with
        | nil => exact absurd List.mem_cons_self hne
        | cons letter first =>
            obtain rfl := Option.some.inj hfirst
            exact absurd (by simp) hinside
  · rintro rfl
    rfl

section Splitting

variable [DecidableEq α]

/-- The parts of a text between separators, without the empty ones at its end. -/
def split (separator : α) (text : List α) : List (List α) :=
  (text.splitOn separator).rdropWhile List.isEmpty

/-- What is read from the chunks, apart from empty pieces. -/
def pieces (separator : α) (chunks : List (List α)) : List (List α) :=
  chunks.flatMap fun chunk => (split separator chunk).filter (fun piece => ¬ piece.isEmpty)

variable {separator : α}

/-! ### Pieces of one chunk -/

theorem filter_rdropWhile {β : Type v} (p : β → Bool) (list : List β) :
    (list.rdropWhile p).filter (fun x => ¬ p x) = list.filter (fun x => ¬ p x) := by
  induction list using List.reverseRecOn with
  | nil => rfl
  | append_singleton list last ih =>
      by_cases hlast : p last = true
      · rw [List.rdropWhile_concat_pos _ _ _ hlast, ih]
        simp [hlast]
      · rw [List.rdropWhile_concat_neg _ _ _ hlast]

theorem pieces_cons (chunk : List α) (rest : List (List α)) :
    pieces separator (chunk :: rest) =
      (chunk.splitOn separator).filter (fun piece => ¬ piece.isEmpty) ++
        pieces separator rest := by
  rw [pieces, List.flatMap_cons, split, filter_rdropWhile]
  rfl

/-- A chunk inside a text is one piece. -/
theorem pieces_cons_inside {chunk : List α} (hchunk : chunk ≠ []) (hinside : separator ∉ chunk)
    (rest : List (List α)) :
    pieces separator (chunk :: rest) = chunk :: pieces separator rest := by
  rw [pieces_cons, List.splitOn_eq_singleton hinside]
  simp [hchunk]

/-- A separator ends the piece before it. -/
theorem pieces_cons_separator {text : List α} (hinside : separator ∉ text) (after : List α)
    (rest : List (List α)) :
    pieces separator ((text ++ separator :: after) :: rest) =
      [text].filter (fun piece => ¬ piece.isEmpty) ++ pieces separator (after :: rest) := by
  rw [pieces_cons, pieces_cons, List.splitOn_append_cons_self_of_not_mem hinside,
    ← List.append_assoc, ← List.filter_append]
  rfl

theorem pieces_cons_nil (rest : List (List α)) :
    pieces separator ([] :: rest) = pieces separator rest := by
  rw [pieces_cons]
  rfl

/-! ### Pieces of texts -/

/-- The pieces of the first text, and the chunks that are left behind its
separator. -/
theorem exists_pieces_of_text {text stream : List α} {chunks : List (List α)}
    (hstream : chunks.flatten = text ++ separator :: stream) (hinside : separator ∉ text) :
    ∃ part rest, rest.flatten = stream ∧ part.flatten = text ∧ [] ∉ part ∧
      pieces separator chunks = part ++ pieces separator rest ∧
      (Aligned separator chunks ↔ part.length ≤ 1 ∧ Aligned separator rest) := by
  induction chunks generalizing text with
  | nil => simp at hstream
  | cons chunk chunks ih =>
      rw [List.flatten_cons] at hstream
      by_cases hmem : separator ∈ chunk
      · -- the chunk contains the end of the text
        obtain ⟨before, after, rfl, hbefore⟩ := List.eq_append_cons_of_mem hmem
        rw [List.append_assoc, List.cons_append] at hstream
        have hsplit := congrArg (List.splitOn separator) hstream
        rw [List.splitOn_append_cons_self_of_not_mem hbefore,
          List.splitOn_append_cons_self_of_not_mem hinside, List.cons.injEq] at hsplit
        obtain rfl := hsplit.1
        have hafter := (List.cons.inj (List.append_cancel_left hstream)).2
        refine ⟨[before].filter (fun piece => ¬ piece.isEmpty), after :: chunks, ?_, ?_, ?_, ?_, ?_⟩
        · exact hafter
        · cases before <;> simp
        · simp
        · exact pieces_cons_separator hinside after chunks
        · rw [aligned_cons_separator]
          have hlength := List.length_filter_le (fun piece => ¬ piece.isEmpty) [before]
          exact ⟨fun haligned => ⟨hlength, haligned⟩, fun haligned => haligned.2⟩
      · -- the chunk lies inside the text
        obtain ⟨later, rfl, hlater⟩ := exists_later_of_inside hstream hmem
        obtain ⟨part, rest, hrest, hpart, hne, hpieces, haligned⟩ :=
          ih hlater fun h => hinside (List.mem_append_right _ h)
        by_cases hempty : chunk = []
        · subst hempty
          refine ⟨part, rest, hrest, hpart, hne, ?_, ?_⟩
          · rw [pieces_cons_nil, hpieces]
          · simpa [Aligned] using haligned
        · refine ⟨chunk :: part, rest, hrest, ?_, ?_, ?_, ?_⟩
          · rw [List.flatten_cons, hpart]
          · simpa [hne] using Ne.symm hempty
          · rw [pieces_cons_inside hempty hmem, hpieces, List.cons_append]
          · -- the end of the chunk is next to the separator if nothing is left of the text
            have hlast : chunk.getLast? ≠ some separator := fun h =>
              hmem (List.mem_of_getLast? h)
            have hhead : (later ++ separator :: stream).head? = some separator ↔ part = [] :=
              separator_next_iff hpart hne (fun h => hinside (List.mem_append_right _ h)) stream
            simp only [Aligned, hempty, hlater, hlast, hhead, haligned, List.length_cons,
              List.append_eq_nil_iff, reduceCtorEq, and_false, false_or]
            constructor
            · rintro ⟨rfl, _, hrest⟩
              exact ⟨Nat.le_refl 1, hrest⟩
            · rintro ⟨hlength, hrest⟩
              have hnil : part = [] := List.length_eq_zero_iff.mp (by omega)
              exact ⟨hnil, by simp [hnil], hrest⟩

/-- The pieces that are read are parts of the texts, and whole texts exactly if the
chunks are aligned. -/
theorem exists_parts {texts chunks : List (List α)}
    (hstream : chunks.flatten = frame separator texts)
    (hinside : ∀ text ∈ texts, separator ∉ text) :
    ∃ parts, pieces separator chunks = parts.flatten ∧
      List.Forall₂ (fun text part => part.flatten = text ∧ [] ∉ part) texts parts ∧
      (Aligned separator chunks ↔ ∀ part ∈ parts, part.length ≤ 1) := by
  induction texts generalizing chunks with
  | nil =>
      have hempty : ∀ chunk ∈ chunks, chunk = [] := List.flatten_eq_nil_iff.mp hstream
      refine ⟨[], ?_, .nil, by simp, fun _ => ?_⟩
      · simp only [pieces, List.flatten_nil, List.flatMap_eq_nil_iff]
        intro chunk hchunk
        rw [hempty chunk hchunk]
        rfl
      · clear hstream
        induction chunks with
        | nil => trivial
        | cons chunk rest ih =>
            obtain ⟨hchunk, hrest⟩ := List.forall_mem_cons.mp hempty
            exact ⟨Or.inl hchunk, ih hrest⟩
  | cons text texts ih =>
      obtain ⟨htext, htexts⟩ := List.forall_mem_cons.mp hinside
      have hfirst : chunks.flatten = text ++ separator :: frame separator texts := by
        rw [hstream, frame, List.flatMap_cons, List.append_assoc]
        rfl
      obtain ⟨part, rest, hrest, hpart, hne, hpieces, haligned⟩ :=
        exists_pieces_of_text hfirst htext
      obtain ⟨parts, hparts, hforall, hrestAligned⟩ := ih hrest htexts
      refine ⟨part :: parts, ?_, .cons ⟨hpart, hne⟩ hforall, ?_⟩
      · rw [hpieces, hparts, List.flatten_cons]
      · rw [haligned, hrestAligned, List.forall_mem_cons]

end Splitting

/-! ## Reading pieces -/

theorem flatten_of_whole {texts : List (List α)} {parts : List (List (List α))}
    (hparts : List.Forall₂ (fun text part => part.flatten = text ∧ [] ∉ part) texts parts)
    (hwhole : ∀ part ∈ parts, part.length ≤ 1) (hempty : [] ∉ texts) : parts.flatten = texts := by
  induction hparts with
  | nil => rfl
  | @cons text part texts parts hpart hrest ih =>
      obtain ⟨hone, hothers⟩ := List.forall_mem_cons.mp hwhole
      obtain ⟨htext, htexts⟩ := not_or.mp (List.mem_cons.not.mp hempty)
      rw [List.flatten_cons, ih hothers htexts]
      match part, hone with
      | [], _ => exact absurd hpart.1 htext
      | [piece], _ =>
          rw [← hpart.1]
          simp

variable {μ : Type v} [DecidableEq μ] {read : List α → Option μ} {print : μ → List α}

/-- A part that is not the whole text. -/
theorem infix_of_mem_part {part : List (List α)} {piece : List α} (hpiece : piece ∈ part)
    (hne : [] ∉ part) (hcut : 2 ≤ part.length) :
    piece <:+: part.flatten ∧ piece ≠ part.flatten := by
  obtain ⟨before, after, rfl⟩ := List.append_of_mem hpiece
  refine ⟨⟨before.flatten, after.flatten, by simp⟩, fun hwhole => ?_⟩
  have hlength := congrArg List.length hwhole
  simp only [List.flatten_append, List.flatten_cons, List.length_append] at hlength
  have hbefore : before.flatten = [] := List.length_eq_zero_iff.mp (by omega)
  have hafter : after.flatten = [] := List.length_eq_zero_iff.mp (by omega)
  rw [List.flatten_eq_nil_iff] at hbefore hafter
  -- there is another piece, and it is empty
  cases before with
  | cons other before =>
      apply hne
      rw [← hbefore other List.mem_cons_self]
      simp
  | nil =>
      cases after with
      | cons other after =>
          apply hne
          rw [← hafter other List.mem_cons_self]
          simp
      | nil => simp at hcut

/-- One text adds to what is read of a message at most itself, and nothing if it is
cut and no larger than the message. -/
theorem count_part_le {message target : μ} {part : List (List α)} {size : μ → ℕ}
    (hpart : part.flatten = print message) (hne : [] ∉ part)
    (hread : read (print message) = some message) (hempty : read [] = none)
    (hsmaller : ∀ piece inner, piece <:+: print message → piece ≠ print message →
      read piece = some inner → size inner < size message)
    (hmax : 2 ≤ part.length → size message ≤ size target) :
    (part.filterMap read).count target + (if message = target ∧ 2 ≤ part.length then 1 else 0) ≤
      if message = target then 1 else 0 := by
  by_cases hcut : 2 ≤ part.length
  · have hnone : target ∉ part.filterMap read := by
      intro htarget
      obtain ⟨piece, hpiece, hinner⟩ := List.mem_filterMap.mp htarget
      obtain ⟨hinside, hproper⟩ := infix_of_mem_part hpiece hne hcut
      rw [hpart] at hinside hproper
      have hless := hsmaller piece target hinside hproper hinner
      exact absurd (hmax hcut) (Nat.not_le.mpr hless)
    rw [List.count_eq_zero_of_not_mem hnone]
    simp [hcut]
  · match part, hcut with
    | [], _ =>
        rw [← hpart, List.flatten_nil, hempty] at hread
        cases hread
    | [piece], hcut =>
        rw [List.flatten_singleton] at hpart
        rw [hpart]
        simp [hread, List.count_singleton]
    | _ :: _ :: _, hcut => simp at hcut

/-- What is read from parts of texts is less than what is read from the texts, in
any order of sizes in which the inside of a text is smaller than the text. -/
theorem whole_of_read {messages : List μ} {parts : List (List (List α))} {size : μ → ℕ}
    (hparts : List.Forall₂ (fun message part => part.flatten = print message ∧ [] ∉ part)
      messages parts)
    (hread : ∀ message, read (print message) = some message) (hempty : read [] = none)
    (hsmaller : ∀ message piece inner, piece <:+: print message → piece ≠ print message →
      read piece = some inner → size inner < size message)
    (hsub : messages.Sublist (parts.flatten.filterMap read)) :
    ∀ part ∈ parts, part.length ≤ 1 := by
  by_contra hnot
  push Not at hnot
  obtain ⟨cut, hcut, hlength⟩ := hnot
  obtain ⟨hsame, hpairs⟩ := List.forall₂_iff_zip.mp hparts
  -- a largest message whose text is cut
  have hfinite : {message | ∃ part, (message, part) ∈ messages.zip parts ∧
      2 ≤ part.length}.Finite := by
    apply (List.finite_toSet messages).subset
    rintro message ⟨part, hmem, _⟩
    exact (List.of_mem_zip hmem).1
  have hnonempty : {message | ∃ part, (message, part) ∈ messages.zip parts ∧
      2 ≤ part.length}.Nonempty := by
    have hzip : (messages.zip parts).map Prod.snd = parts := List.map_snd_zip (by omega)
    rw [← hzip] at hcut
    obtain ⟨⟨message, part⟩, hmem, rfl⟩ := List.mem_map.mp hcut
    exact ⟨message, part, hmem, hlength⟩
  obtain ⟨target, ⟨part, hmem, hpartCut⟩, hmax⟩ :=
    Set.exists_max_image _ size hfinite hnonempty
  have hcount : ∀ pairs : List (μ × List (List α)), (∀ pair ∈ pairs, pair ∈ messages.zip parts) →
      ((pairs.map Prod.snd).flatten.filterMap read).count target +
        pairs.countP (fun pair => pair.1 = target ∧ 2 ≤ pair.2.length) ≤
      (pairs.map Prod.fst).count target := by
    intro pairs hall
    induction pairs with
    | nil => simp
    | cons pair pairs ih =>
        obtain ⟨hpair, hrest⟩ := List.forall_mem_cons.mp hall
        obtain ⟨hflatten, hne⟩ := hpairs hpair
        have hone : (pair.2.filterMap read).count target +
            (if pair.1 = target ∧ 2 ≤ pair.2.length then 1 else 0) ≤
              if pair.1 = target then 1 else 0 :=
          count_part_le hflatten hne (hread _) hempty (hsmaller pair.1)
            fun hlong => hmax pair.1 ⟨pair.2, hpair, hlong⟩
        have hothers := ih hrest
        simp only [List.map_cons, List.flatten_cons, List.filterMap_append, List.count_append,
          List.countP_cons, List.count_cons, beq_iff_eq, decide_eq_true_eq]
        omega
  have hall := hcount (messages.zip parts) fun pair h => h
  rw [List.map_fst_zip (by omega), List.map_snd_zip (by omega)] at hall
  have hpos : 0 < (messages.zip parts).countP
      (fun pair => pair.1 = target ∧ 2 ≤ pair.2.length) :=
    List.countP_pos_iff.mpr ⟨_, hmem, by simpa using hpartCut⟩
  have hle := hsub.count_le target
  omega

end Machine

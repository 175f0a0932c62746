import Mathlib.Data.List.Nodup
import Mathlib.Logic.Relation

/-! # Depth-first search with an accumulator

A search visits a state and then, move by move, everything that can be reached
from it. What it has visited is threaded through the whole search as one list.
-/

namespace Machine

variable {σ μ : Type*}

/-- What can be tried in a state, and where it leads. A size bounds how long a
search can go on. -/
structure Search (σ μ : Type*) where
  moves : σ → List μ
  next : σ → μ → Option σ
  size : σ → ℕ
  size_lt : ∀ {state later : σ} {move : μ}, move ∈ moves state → next state move = some later →
    size later < size state

/-! ## Folds that collect -/

/-- A fold whose steps each add the elements with some property. -/
theorem mem_foldl_iff {τ ι : Type*} {add : List τ → ι → List τ} {P : ι → τ → Prop}
    {inputs : List ι}
    (hadd : ∀ acc, ∀ input ∈ inputs, ∀ x, x ∈ add acc input ↔ x ∈ acc ∨ P input x)
    (acc : List τ) (x : τ) :
    x ∈ inputs.foldl add acc ↔ x ∈ acc ∨ ∃ input ∈ inputs, P input x := by
  induction inputs generalizing acc with
  | nil => simp
  | cons input rest ih =>
      have hrest := ih fun acc other hother => hadd acc other (List.mem_cons_of_mem _ hother)
      rw [List.foldl_cons, hrest, hadd acc input List.mem_cons_self x]
      simp only [List.mem_cons, exists_eq_or_imp, or_assoc]

/-! ## Folds that may fail -/

/-- What is seen of a fold over a richer accumulator is a fold of its own. -/
theorem foldlM_view {τ υ ι κ : Type*} {f : τ → ι → Option τ} {g : υ → κ → Option υ}
    (view : τ → υ) (image : ι → κ) {inputs : List ι}
    (hstep : ∀ acc, ∀ input ∈ inputs, (f acc input).map view = g (view acc) (image input))
    (acc : τ) : (inputs.foldlM f acc).map view = (inputs.map image).foldlM g (view acc) := by
  induction inputs generalizing acc with
  | nil => rfl
  | cons input rest ih =>
      rw [List.foldlM_cons, List.map_cons, List.foldlM_cons, ← hstep acc input List.mem_cons_self]
      cases f acc input with
      | none => rfl
      | some next =>
          exact ih (fun acc other hother => hstep acc other (List.mem_cons_of_mem _ hother)) next

/-- A fold that never fails follows a fold over a richer accumulator. -/
theorem foldlM_map_eq_some {τ υ ι : Type*} {f : τ → ι → Option τ} {g : υ → ι → υ} (view : υ → τ)
    {inputs : List ι}
    (hstep : ∀ acc, ∀ input ∈ inputs, f (view acc) input = some (view (g acc input))) (acc : υ) :
    inputs.foldlM f (view acc) = some (view (inputs.foldl g acc)) := by
  have hview : (inputs.foldlM (fun acc input => some (g acc input)) acc).map view =
      (inputs.map id).foldlM f (view acc) := by
    apply foldlM_view
    intro acc input hinput
    exact (hstep acc input hinput).symm
  rw [List.map_id] at hview
  rw [← hview]
  exact congrArg (Option.map view) List.foldlM_pure

/-- A fold whose steps keep a law keeps it. -/
theorem law_of_foldlM {τ ι : Type*} {f : τ → ι → Option τ} {P : τ → Prop} {inputs : List ι}
    (hstep : ∀ acc next, ∀ input ∈ inputs, P acc → f acc input = some next → P next)
    {acc last : τ} (hacc : P acc) (hfold : inputs.foldlM f acc = some last) : P last := by
  induction inputs generalizing acc with
  | nil =>
      obtain rfl := Option.some.inj hfold
      exact hacc
  | cons input rest ih =>
      rw [List.foldlM_cons, Option.bind_eq_bind, Option.bind_eq_some_iff] at hfold
      obtain ⟨next, hnext, hrest⟩ := hfold
      exact ih (fun acc next other hother => hstep acc next other (List.mem_cons_of_mem _ hother))
        (hstep acc next input List.mem_cons_self hacc hnext) hrest

namespace Search

variable (search : Search σ μ)

/-- One move further. A state comes with the moves that led to it, the last one
first. -/
def Step (node later : σ × List μ) : Prop :=
  ∃ move ∈ search.moves node.1, search.next node.1 move = some later.1 ∧ later.2 = move :: node.2

def Reaches : σ × List μ → σ × List μ → Prop := Relation.ReflTransGen search.Step

def visit (node : σ × List μ) (visited : List (σ × List μ)) : List (σ × List μ) :=
  (search.moves node.1).attach.foldl (fun acc move =>
    match _hnext : search.next node.1 move.1 with
    | some later => visit (later, move.1 :: node.2) acc
    | none => acc) (node :: visited)
termination_by search.size node.1
decreasing_by exact search.size_lt move.2 _hnext

/-- What one move adds to what has been visited. -/
def visitMove (node : σ × List μ) (acc : List (σ × List μ)) (move : μ) : List (σ × List μ) :=
  match search.next node.1 move with
  | some later => search.visit (later, move :: node.2) acc
  | none => acc

theorem visit_eq (node : σ × List μ) (visited : List (σ × List μ)) :
    search.visit node visited =
      (search.moves node.1).foldl (search.visitMove node) (node :: visited) := by
  rw [visit]
  refine Eq.trans ?_ (List.foldl_attach (f := search.visitMove node))
  congr 1
  funext acc move
  unfold visitMove
  split
  next hnext => rw [hnext]
  next hnext => rw [hnext]

/-- Induction over the states that a search goes through. -/
theorem induction {P : σ × List μ → Prop}
    (hstep : ∀ node, (∀ later, search.Step node later → P later) → P node) (node : σ × List μ) :
    P node := by
  induction hsize : search.size node.1 using Nat.strongRecOn generalizing node with
  | ind size ih =>
      apply hstep
      intro later hlater
      obtain ⟨move, hmove, hnext, _⟩ := hlater
      exact ih _ (hsize ▸ search.size_lt hmove hnext) later rfl

/-- What can be reached is where the search is, or is reached by a first move. -/
theorem reaches_iff (node other : σ × List μ) :
    search.Reaches node other ↔ other = node ∨
      ∃ move ∈ search.moves node.1, ∃ later, search.next node.1 move = some later ∧
        search.Reaches (later, move :: node.2) other := by
  rw [Reaches, Relation.ReflTransGen.cases_head_iff, eq_comm]
  apply or_congr_right
  constructor
  · rintro ⟨⟨later, path⟩, ⟨move, hmove, hnext, hpath⟩, hrest⟩
    obtain rfl : path = move :: node.2 := hpath
    exact ⟨move, hmove, later, hnext, hrest⟩
  · rintro ⟨move, hmove, later, hnext, hrest⟩
    exact ⟨(later, move :: node.2), ⟨move, hmove, hnext, rfl⟩, hrest⟩

/-- A search visits exactly what can be reached. -/
theorem mem_visit (node : σ × List μ) (visited : List (σ × List μ)) (other : σ × List μ) :
    other ∈ search.visit node visited ↔ other ∈ visited ∨ search.Reaches node other := by
  induction node using search.induction generalizing visited other with
  | hstep node ih =>
      have hmove : ∀ acc, ∀ move ∈ search.moves node.1, ∀ other,
          other ∈ search.visitMove node acc move ↔ other ∈ acc ∨
            ∃ later, search.next node.1 move = some later ∧
              search.Reaches (later, move :: node.2) other := by
        intro acc move hmove other
        unfold visitMove
        cases hnext : search.next node.1 move with
        | none => simp
        | some later => simp [ih (later, move :: node.2) ⟨move, hmove, hnext, rfl⟩]
      rw [visit_eq, mem_foldl_iff hmove, List.mem_cons, search.reaches_iff]
      tauto

variable {search}

/-- The moves that led to a state are kept. -/
theorem Reaches.isSuffix {node later : σ × List μ} (hreaches : search.Reaches node later) :
    node.2 <:+ later.2 := by
  induction hreaches with
  | refl => exact List.suffix_rfl
  | tail _ hstep ih =>
      obtain ⟨move, _, _, hpath⟩ := hstep
      rw [hpath]
      exact ih.trans (List.suffix_cons _ _)

/-- Two moves cannot lead to one path. -/
theorem eq_of_cons_isSuffix {left right : μ} {path whole : List μ}
    (hleft : left :: path <:+ whole) (hright : right :: path <:+ whole) : left = right := by
  have hsame := List.suffix_of_suffix_length_le hleft hright (by simp)
  exact (List.cons.inj (hsame.eq_of_length (by simp))).1

/-- The moves of a state are taken one after the other. Those that are still to come lead
to paths that have not been visited. -/
theorem nodup_foldl_visitMove {node : σ × List μ}
    (hvisit : ∀ later, search.Step node later → ∀ {visited : List (σ × List μ)},
      (visited.map Prod.snd).Nodup → (∀ other ∈ visited, ¬ later.2 <:+ other.2) →
        ((search.visit later visited).map Prod.snd).Nodup)
    {moves : List μ} (hnodup : moves.Nodup) (hmem : ∀ move ∈ moves, move ∈ search.moves node.1)
    {acc : List (σ × List μ)} (hacc : (acc.map Prod.snd).Nodup)
    (hfresh : ∀ move ∈ moves, ∀ other ∈ acc, ¬ move :: node.2 <:+ other.2) :
    ((moves.foldl (search.visitMove node) acc).map Prod.snd).Nodup := by
  induction moves generalizing acc with
  | nil => exact hacc
  | cons move rest ih =>
      obtain ⟨hnot, hrest⟩ := List.nodup_cons.mp hnodup
      have hmoves : ∀ other ∈ rest, other ∈ search.moves node.1 :=
        fun other h => hmem other (List.mem_cons_of_mem _ h)
      rw [List.foldl_cons]
      unfold visitMove
      cases hnext : search.next node.1 move with
      | none => exact ih hrest hmoves hacc fun other h => hfresh other (List.mem_cons_of_mem _ h)
      | some later =>
          have hstep : search.Step node (later, move :: node.2) :=
            ⟨move, hmem move List.mem_cons_self, hnext, rfl⟩
          apply ih hrest hmoves
          · exact hvisit _ hstep hacc (hfresh move List.mem_cons_self)
          · intro sibling hsibling other hother hsuffix
            rcases (search.mem_visit _ acc other).mp hother with hold | hnew
            · exact hfresh sibling (List.mem_cons_of_mem _ hsibling) other hold hsuffix
            · exact hnot (eq_of_cons_isSuffix hsuffix hnew.isSuffix ▸ hsibling)

/-- Nothing is visited twice, by whatever path. -/
theorem nodup_visit (node : σ × List μ) {visited : List (σ × List μ)}
    (hmoves : ∀ later, search.Reaches node later → (search.moves later.1).Nodup)
    (hvisited : (visited.map Prod.snd).Nodup)
    (hfresh : ∀ other ∈ visited, ¬ node.2 <:+ other.2) :
    ((search.visit node visited).map Prod.snd).Nodup := by
  induction node using search.induction generalizing visited with
  | hstep node ih =>
      have hvisit : ∀ later, search.Step node later → ∀ {visited : List (σ × List μ)},
          (visited.map Prod.snd).Nodup → (∀ other ∈ visited, ¬ later.2 <:+ other.2) →
            ((search.visit later visited).map Prod.snd).Nodup :=
        fun later hstep => ih later hstep fun last hlast => hmoves last (.head hstep hlast)
      rw [visit_eq]
      apply nodup_foldl_visitMove hvisit (hmoves node .refl) fun move h => h
      · rw [List.map_cons, List.nodup_cons]
        refine ⟨?_, hvisited⟩
        intro hmem
        obtain ⟨other, hother, heq⟩ := List.mem_map.mp hmem
        exact hfresh other hother (heq ▸ List.suffix_rfl)
      · intro move _ other hother hsuffix
        rcases List.mem_cons.mp hother with rfl | hother
        · exact absurd hsuffix.length_le (by simp)
        · exact hfresh other hother ((List.suffix_cons _ _).trans hsuffix)

end Search

end Machine

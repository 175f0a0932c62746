import Signpost.Machine.Runs
import Signpost.Tactic.Names

/-! # Requirements of a tactic

The magic words in a requirement are replaced by values from the name that was
asked for, one word after another. Each replacement keeps only the run of
characters in which the word was found.
-/

namespace Signpost.Requirements

open Machine.Rewriting

inductive MagicWord
  | port
  | destination
  | domain
  | resource
  | localNode
deriving DecidableEq, Repr

namespace MagicWord

def text : MagicWord → String
  | port => "Port"
  | destination => "Destination"
  | domain => "Domain"
  | resource => "Resource"
  | localNode => "Local"

def letters (word : MagicWord) : List Char := word.text.toList

/-- The first letter of a word, which is its only capital one. -/
def mark (word : MagicWord) : Char :=
  match word with
  | port => 'P'
  | destination => 'D'
  | domain => 'D'
  | resource => 'R'
  | localNode => 'L'

def tail (word : MagicWord) : List Char := word.letters.tail

def all : List MagicWord := [port, destination, domain, resource, localNode]

end MagicWord

open MagicWord

/-- A character of the class `[\\w\\d@\\-\\_\\.\\:]` of Ruby 1.8. -/
def isWordChar (c : Char) : Bool :=
  c.isAlphanum ∨ c = '_' ∨ c = '@' ∨ c = '-' ∨ c = '.' ∨ c = ':'

/-- A port that is `nil` prints nothing. -/
def value (vars : MagicVariables) (nodeName : String) : MagicWord → String
  | port => (vars.port.map toString).getD ""
  | destination => vars.destination
  | domain => vars.domain
  | resource => vars.resource
  | localNode => nodeName

def valueLetters (vars : MagicVariables) (nodeName : String) (word : MagicWord) : List Char :=
  (value vars nodeName word).toList

/-- One round of the `while` loop: `#{$1}#{val}#{$2}`, where the first group is
greedy and both groups together with the word are what the match keeps. -/
def substituteOnce (word : MagicWord) (val : List Char) : List Char → Option (List Char) :=
  replaceInRun isWordChar word.letters val

/-- The `while` loop. -/
def substitute (word : MagicWord) (val : List Char) (fuel : ℕ) (text : List Char) :
    Option (List Char) :=
  loop (substituteOnce word val) fuel text

/-- The loops for all the words, in the order in which the hash has them. -/
def adapt (values : MagicWord → List Char) (fuel : ℕ) (order : List MagicWord)
    (text : List Char) : Option (List Char) :=
  order.foldlM (fun text word => substitute word (values word) fuel text) text

def requirements (order : List MagicWord) (vars : MagicVariables) (nodeName : String) (fuel : ℕ)
    (requires : List String) : Option (List String) :=
  requires.mapM fun requirement =>
    (adapt (valueLetters vars nodeName) fuel order requirement.toList).map
      String.ofList

/-- A hash of Ruby 1.8 has its pairs in no particular order. -/
structure IsOrder (order : List MagicWord) : Prop where
  nodup : order.Nodup
  mem : ∀ word, word ∈ order

/-- Repeated words and a port. -/
example : requirements MagicWord.all ⟨"service", "domain:8080", "domain", some 8080⟩ "node_name" 4
    ["ssh_Destination_Port_Port@Destination"] = some ["ssh_domain:8080_8080_8080@domain:8080"] := by
  decide

/-! ## The words -/

section Words

variable (word : MagicWord)

theorem letters_eq : word.letters = word.mark :: word.tail := by
  cases word <;> rfl

theorem letters_ne_nil : word.letters ≠ [] := by
  rw [letters_eq]
  exact List.cons_ne_nil _ _

theorem isUpper_mark : word.mark.isUpper := by
  cases word <;> rfl

theorem not_isUpper_of_mem_tail {c : Char} (hc : c ∈ word.tail) : ¬ c.isUpper := by
  have hall : word.tail.all (fun c => !c.isUpper) = true := by
    cases word <;> rfl
  simpa using List.all_eq_true.mp hall c hc

theorem mark_not_mem_tail : word.mark ∉ word.tail :=
  fun hmem => not_isUpper_of_mem_tail word hmem (isUpper_mark word)

theorem oneRun_letters : OneRun isWordChar word.letters := by
  have hall : word.letters.all isWordChar = true := by
    cases word <;> rfl
  exact List.all_eq_true.mp hall

theorem eq_of_letters_isPrefix {other : MagicWord} (hbegin : word.letters <+: other.letters) :
    word = other := by
  revert hbegin
  cases word <;> cases other <;> decide

theorem isOrder_all : IsOrder MagicWord.all :=
  ⟨by decide, fun word => by cases word <;> decide⟩

end Words

/-! ## Fuel -/

section Fuel

variable {values : MagicWord → List Char} {order : List MagicWord} {text final : List Char}
  {fuel more : ℕ}

theorem adapt_cons (word : MagicWord) :
    adapt values fuel (word :: order) text =
      (substitute word (values word) fuel text).bind (adapt values fuel order) := by
  rw [adapt, List.foldlM_cons]
  rfl

theorem adapt_mono (hle : fuel ≤ more) (hadapt : adapt values fuel order text = some final) :
    adapt values more order text = some final := by
  induction order generalizing text with
  | nil => exact hadapt
  | cons word order ih =>
      rw [adapt_cons, Option.bind_eq_some_iff] at hadapt ⊢
      obtain ⟨next, hnext, hrest⟩ := hadapt
      exact ⟨next, loop_mono hle hnext, ih hrest⟩

theorem requirements_cons {vars : MagicVariables} {nodeName requirement : String}
    {requires : List String} :
    requirements order vars nodeName fuel (requirement :: requires) =
      ((adapt (valueLetters vars nodeName) fuel order requirement.toList).map
        String.ofList).bind fun adapted =>
          (requirements order vars nodeName fuel requires).bind fun rest => adapted :: rest := by
  rw [requirements, List.mapM_cons]
  rfl

theorem requirements_mono {vars : MagicVariables} {nodeName : String}
    {requires results : List String} (hle : fuel ≤ more)
    (hresults : requirements order vars nodeName fuel requires = some results) :
    requirements order vars nodeName more requires = some results := by
  induction requires generalizing results with
  | nil => exact hresults
  | cons requirement requires ih =>
      rw [requirements_cons] at hresults ⊢
      simp only [Option.bind_eq_some_iff, Option.map_eq_some_iff, Option.some.injEq] at hresults ⊢
      obtain ⟨_, ⟨adapted, hadapted, rfl⟩, rest, hrest, rfl⟩ := hresults
      exact ⟨_, ⟨adapted, adapt_mono hle hadapted, rfl⟩, rest, ih hrest, rfl⟩

end Fuel

/-! ## Termination -/

section Termination

variable {vars : MagicVariables} {nodeName : String}

theorem forall_halts_substituteOnce_iff (word : MagicWord) (val : List Char) :
    (∀ text, Halts (substituteOnce word val) text) ↔
      Tame isWordChar word.mark word.tail val := by
  have hword := oneRun_letters word
  unfold substituteOnce
  rw [letters_eq] at hword ⊢
  exact forall_halts_replaceInRun_iff (mark_not_mem_tail word) hword

theorem exists_adapt {values : MagicWord → List Char}
    (hhalts : ∀ word text, Halts (substituteOnce word (values word)) text)
    (order : List MagicWord) (text : List Char) :
    ∃ fuel final, adapt values fuel order text = some final := by
  induction order generalizing text with
  | nil => exact ⟨0, text, rfl⟩
  | cons word order ih =>
      obtain ⟨fuel, next, hnext⟩ := hhalts word text
      obtain ⟨fuel', final, hfinal⟩ := ih next
      refine ⟨max fuel fuel', final, ?_⟩
      rw [adapt_cons, Option.bind_eq_some_iff]
      exact ⟨next, loop_mono (le_max_left _ _) hnext, adapt_mono (le_max_right _ _) hfinal⟩

theorem exists_requirements {order : List MagicWord} (hadapt : ∀ text, ∃ fuel final,
      adapt (valueLetters vars nodeName) fuel order text = some final)
    (requires : List String) :
    ∃ fuel results, requirements order vars nodeName fuel requires = some results := by
  induction requires with
  | nil => exact ⟨0, [], rfl⟩
  | cons requirement requires ih =>
      obtain ⟨fuel, final, hfinal⟩ := hadapt requirement.toList
      obtain ⟨fuel', results, hresults⟩ := ih
      refine ⟨max fuel fuel', String.ofList final :: results, ?_⟩
      rw [requirements_cons, adapt_mono (le_max_left _ _) hfinal,
        requirements_mono (le_max_right _ _) hresults]
      rfl

/-- The word that is first in the hash is replaced in the requirement itself. -/
theorem halts_of_requirements {word : MagicWord} {order : List MagicWord} {fuel : ℕ}
    {requirement : String} {results : List String}
    (hresults : requirements (word :: order) vars nodeName fuel [requirement] = some results) :
    Halts (substituteOnce word (valueLetters vars nodeName word)) requirement.toList := by
  rw [requirements_cons, adapt_cons] at hresults
  simp only [Option.bind_eq_some_iff, Option.map_eq_some_iff] at hresults
  obtain ⟨_, ⟨_, ⟨next, hnext, _⟩, _⟩, _⟩ := hresults
  exact ⟨fuel, next, hnext⟩

theorem exists_order (word : MagicWord) : ∃ order, IsOrder (word :: order) := by
  refine ⟨MagicWord.all.erase word, ?_, fun other => ?_⟩
  · cases word <;> decide
  · cases word <;> cases other <;> decide

/-- The loops end on all requirements exactly if each word has a value with which
replacing it comes to an end. -/
theorem requirements_end_iff (vars : MagicVariables) (nodeName : String) :
    (∀ order, IsOrder order → ∀ requires, ∃ fuel results,
      requirements order vars nodeName fuel requires = some results) ↔
    ∀ word, Tame isWordChar word.mark word.tail (valueLetters vars nodeName word) := by
  constructor
  · intro hall word
    rw [← forall_halts_substituteOnce_iff]
    intro text
    obtain ⟨order, horder⟩ := exists_order word
    obtain ⟨fuel, results, hresults⟩ := hall _ horder [String.ofList text]
    have hhalts := halts_of_requirements hresults
    rwa [String.toList_ofList] at hhalts
  · intro htame order _ requires
    exact exists_requirements (exists_adapt (fun word =>
      (forall_halts_substituteOnce_iff word _).mpr (htame word)) order) requires

/-- A name whose resource is a magic word. -/
theorem not_requirements_end :
    ¬ ∀ what vars nodeName order requires, magicVariablesFrom what = some vars → IsOrder order →
      ∃ fuel results, requirements order vars nodeName fuel requires = some results := by
  intro hclaim
  obtain ⟨order, horder⟩ := exists_order .resource
  obtain ⟨fuel, results, hresults⟩ := hclaim "Resource@kle.io"
    ⟨"Resource", "kle.io", "kle.io", none⟩ "alpha" _ ["Resource@Local"] (by decide) horder
  exact not_halts_replaceInRun (letters_ne_nil _) (oneRun_letters _) (by decide) (by decide)
    (halts_of_requirements hresults)

end Termination

end Signpost.Requirements

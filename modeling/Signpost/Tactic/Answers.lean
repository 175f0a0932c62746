import Signpost.Tactic.Pool

/-! # Names of answers

A tactic provides its answer under the name that it found in its initial data.
On the way to the solver the magic word `Local` is substituted in that name
once more.
-/

namespace Signpost

/-! ## Substitution -/

section Gsub

variable {pattern replacement : List Char}

theorem gsub_skip (skip : ℕ) (text : List Char) :
    gsub pattern replacement skip text = gsub pattern replacement 0 (text.drop skip) := by
  induction text generalizing skip with
  | nil => simp [gsub]
  | cons c rest ih =>
      cases skip with
      | zero => rfl
      | succ skip => rw [gsub, ih, List.drop_succ_cons]

variable (hpattern : pattern ≠ [])

include hpattern

theorem gsub_append (rest : List Char) :
    gsub pattern replacement 0 (pattern ++ rest) =
      replacement ++ gsub pattern replacement 0 rest := by
  obtain ⟨c, others, rfl⟩ := List.exists_cons_of_ne_nil hpattern
  rw [List.cons_append, gsub, if_pos (by simp), gsub_skip]
  simp

omit hpattern in
theorem gsub_cons {c : Char} {rest : List Char} (hnot : ¬ pattern <+: c :: rest) :
    gsub pattern replacement 0 (c :: rest) = c :: gsub pattern replacement 0 rest := by
  rw [gsub, if_neg (by simpa using hnot)]

/-- A text begins with an occurrence or with a character that is kept. -/
theorem gsub_induction {P : List Char → Prop} (hnil : P [])
    (hmatch : ∀ rest, P rest → P (pattern ++ rest))
    (hkeep : ∀ c rest, ¬ pattern <+: c :: rest → P rest → P (c :: rest)) (text : List Char) :
    P text := by
  induction hlength : text.length using Nat.strongRecOn generalizing text with
  | ind n ih =>
      cases text with
      | nil => exact hnil
      | cons c rest =>
          by_cases hstart : pattern <+: c :: rest
          · obtain ⟨others, heq⟩ := hstart
            rw [← heq]
            apply hmatch
            have hlengths := congrArg List.length heq
            have hpos := List.length_pos_iff.mpr hpattern
            rw [List.length_append, hlength] at hlengths
            exact ih others.length (by omega) others rfl
          · apply hkeep c rest hstart
            exact ih rest.length (by rw [← hlength, List.length_cons]; omega) rest rfl

theorem length_le_length_gsub (hlength : pattern.length ≤ replacement.length)
    (text : List Char) : text.length ≤ (gsub pattern replacement 0 text).length := by
  induction text using gsub_induction hpattern with
  | hnil => simp
  | hmatch rest ih =>
      rw [gsub_append hpattern, List.length_append, List.length_append]
      omega
  | hkeep c rest hnot ih =>
      rw [gsub_cons hnot, List.length_cons, List.length_cons]
      omega

theorem length_gsub_le_length (hlength : replacement.length ≤ pattern.length)
    (text : List Char) : (gsub pattern replacement 0 text).length ≤ text.length := by
  induction text using gsub_induction hpattern with
  | hnil => simp [gsub]
  | hmatch rest ih =>
      rw [gsub_append hpattern, List.length_append, List.length_append]
      omega
  | hkeep c rest hnot ih =>
      rw [gsub_cons hnot, List.length_cons, List.length_cons]
      omega

/-- Replacing an occurrence by something else changes the text, since a shorter
replacement shortens it and a longer one makes it longer. -/
theorem replacement_eq_of_gsub_append {rest : List Char}
    (heq : gsub pattern replacement 0 (pattern ++ rest) = pattern ++ rest) :
    replacement = pattern := by
  rw [gsub_append hpattern] at heq
  have hlengths := congrArg List.length heq
  rw [List.length_append, List.length_append] at hlengths
  have hlength : replacement.length = pattern.length := by
    rcases Nat.le_total pattern.length replacement.length with hle | hle
    · have := length_le_length_gsub hpattern hle rest
      omega
    · have := length_gsub_le_length hpattern hle rest
      omega
  exact (List.append_inj heq hlength).1

theorem gsub_eq_self_iff (text : List Char) :
    gsub pattern replacement 0 text = text ↔ replacement = pattern ∨ ¬ pattern <:+: text := by
  induction text using gsub_induction hpattern with
  | hnil => simp [gsub, hpattern]
  | hmatch rest ih =>
      have hoccurs : pattern <:+: pattern ++ rest := (List.prefix_append pattern rest).isInfix
      simp only [hoccurs, not_true_eq_false, or_false]
      refine ⟨replacement_eq_of_gsub_append hpattern, ?_⟩
      rintro rfl
      rw [gsub_append hpattern, ih.mpr (.inl rfl)]
  | hkeep c rest hnot ih =>
      rw [gsub_cons hnot, List.cons.injEq, List.infix_cons_iff]
      simp only [true_and, ih, hnot, false_or]

end Gsub

theorem dealWithMagic_eq_self_iff (provision nodeName : String) :
    dealWithMagic provision nodeName = provision ↔
      nodeName = "Local" ∨ ¬ "Local".toList <:+: provision.toList := by
  have hword : "Local".toList ≠ [] := by decide
  rw [← String.toList_inj, dealWithMagic, String.toList_ofList, gsub_eq_self_iff hword,
    String.toList_inj]

namespace Pool

variable {α : Type}

/-! ## From the need to the answer -/

/-- The initial data names what is needed, in its fact `what` and in no other
fact of that name. -/
theorem truth_of_execute {config : PoolConfig α} {tactic : TacticConfig} {userInfo what : String}
    {facts : List (Fact α)} (hexecute : execute config tactic userInfo what = .ok facts)
    {fact : Fact α} (hfact : fact ∈ facts) (hname : fact.what = "what") :
    fact.truth = config.literals.ofString what := by
  unfold execute at hexecute
  split at hexecute
  next => cases hexecute
  split at hexecute
  next => cases hexecute
  next vars hvars =>
    obtain rfl := Except.ok.inj hexecute
    simp only [List.mem_cons, List.not_mem_nil, or_false] at hfact
    rcases hfact with rfl | rfl | rfl | rfl | rfl | rfl | rfl | rfl
    · simp [initialValue] at hname
    · rfl
    all_goals simp [initialValue] at hname

/-- A tactic has been started for what is needed, and its script answers with
truths under the name that it finds in its own fact `what`. -/
structure Answers (config : PoolConfig α) (thread : TacticConfig) (tactic : Tactic)
    (what : String) (data : ScriptData α) : Prop where
  nodeName : tactic.nodeName = config.nodeName
  executed : ∃ facts, execute config thread tactic.userInfo what = .ok facts ∧
    ∀ truth ∈ data.provideTruths, ∃ fact ∈ facts, fact.what = "what" ∧
      fact.truth = config.literals.ofString truth.what
  nonempty : data.provideTruths ≠ []

theorem mem_dealWith_provideTruth {tactic : Tactic} {data : ScriptData α} {row : Provision α} :
    .provideTruth row ∈ tactic.dealWith data ↔
      ∃ truth ∈ data.provideTruths,
        tactic.addTruth (dealWithMagic truth.what tactic.nodeName) truth.value
          (if truth.isGlobal then "GLOBAL" else tactic.userInfo) truth.ttl = .provideTruth row := by
  simp [Tactic.dealWith, Tactic.addRequirement, Tactic.addObserver]

/-- How the literals of the initial data read as text. -/
def textLiterals : Literals (String ⊕ (Bool ⊕ Option ℕ)) where
  ofString := .inl
  ofBool b := .inr (.inl b)
  ofNat n := .inr (.inr (some n))
  null := .inr (.inr none)

def echoConfig : PoolConfig (String ⊕ (Bool ⊕ Option ℕ)) := ⟨"alpha", [], textLiterals⟩

def echoThread : TacticConfig := ⟨"echo", [fun _ => true], "echo", false⟩

def echo : Tactic := { name := "echo", userInfo := "carol", nodeName := "alpha", ipPort := "" }

def echoData (what : String) : ScriptData (String ⊕ (Bool ⊕ Option ℕ)) where
  provideTruths := [⟨what, .inl "172.16.11.1", some 60, false⟩]

theorem answers_echo {what : String} (vars : MagicVariables)
    (hvars : magicVariablesFrom what = some vars) :
    Answers echoConfig echoThread echo what (echoData what) := by
  refine ⟨rfl, ⟨_, by rw [execute, hvars]; rfl, ?_⟩, List.cons_ne_nil _ _⟩
  intro truth htruth
  obtain rfl := List.mem_singleton.mp htruth
  exact ⟨_, by simp; exact .inr (.inl rfl), rfl, rfl⟩

end Pool

end Signpost

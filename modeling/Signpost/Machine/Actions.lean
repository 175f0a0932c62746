import Mathlib.Data.List.Basic

/-! # Actions with a log

An action runs in a world, returns or raises, and adds entries to a log. What has
happened before an exception stays in the world and in the log.
-/

namespace Machine

variable {ω τ ε ι : Type*}

/-- The result of an action, the world after it, and what it adds to the log. -/
structure Effect (ω τ ε α : Type*) where
  result : Except ε α
  world : ω
  entries : List τ

def Action (ω τ ε α : Type*) := ω → Effect ω τ ε α

namespace Action

variable {α β : Type*}

def done (value : α) : Action ω τ ε α := fun world => ⟨.ok value, world, []⟩

def raise (e : ε) : Action ω τ ε α := fun world => ⟨.error e, world, []⟩

def write (entry : τ) : Action ω τ ε Unit := fun world => ⟨.ok (), world, [entry]⟩

def gets {α : Type*} (f : ω → α) : Action ω τ ε α := fun world => ⟨.ok (f world), world, []⟩

def modify (f : ω → ω) : Action ω τ ε Unit := fun world => ⟨.ok (), f world, []⟩

/-- An action, and what comes after it unless it raises. -/
def andThen (first : Action ω τ ε α) (next : α → Action ω τ ε β) : Action ω τ ε β := fun world =>
  match (first world).result with
  | .error e => ⟨.error e, (first world).world, (first world).entries⟩
  | .ok value =>
      let last := next value (first world).world
      ⟨last.result, last.world, (first world).entries ++ last.entries⟩

/-- The body on one element after the other, until it raises. -/
def iter (body : ι → Action ω τ ε Unit) : List ι → Action ω τ ε Unit
  | [] => done ()
  | input :: rest => (body input).andThen fun _ => iter body rest

/-- An exception that is caught leaves nothing to be done. -/
def handle (catches : ε → Bool) (action : Action ω τ ε Unit) : Action ω τ ε Unit := fun world =>
  match (action world).result with
  | .ok () => action world
  | .error e => if catches e then { action world with result := .ok () } else action world

/-- The handler runs after an exception that is caught. -/
def rescue (catches : ε → Bool) (action handler : Action ω τ ε α) : Action ω τ ε α := fun world =>
  match (action world).result with
  | .ok _ => action world
  | .error e =>
      if catches e then
        let handled := handler (action world).world
        ⟨handled.result, handled.world, (action world).entries ++ handled.entries⟩
      else action world

/-! ## One step and the rest -/

theorem andThen_of_ok {first : Action ω τ ε α} {next : α → Action ω τ ε β} {world : ω} {value : α}
    (hfirst : (first world).result = .ok value) :
    first.andThen next world =
      ⟨(next value (first world).world).result, (next value (first world).world).world,
        (first world).entries ++ (next value (first world).world).entries⟩ := by
  simp only [andThen, hfirst]

theorem andThen_of_error {first : Action ω τ ε α} {next : α → Action ω τ ε β} {world : ω} {e : ε}
    (hfirst : (first world).result = .error e) :
    first.andThen next world = ⟨.error e, (first world).world, (first world).entries⟩ := by
  simp only [andThen, hfirst]

@[simp] theorem done_andThen (value : α) (next : α → Action ω τ ε β) :
    (done value).andThen next = next value := rfl

@[simp] theorem gets_andThen (f : ω → α) (next : α → Action ω τ ε β) (world : ω) :
    (gets f).andThen next world = next (f world) world := rfl

@[simp] theorem modify_andThen (f : ω → ω) (next : Unit → Action ω τ ε β) (world : ω) :
    (modify f).andThen next world = next () (f world) := rfl

theorem andThen_assoc {γ : Type*} (first : Action ω τ ε α) (second : α → Action ω τ ε β)
    (third : β → Action ω τ ε γ) :
    (first.andThen second).andThen third =
      first.andThen fun value => (second value).andThen third := by
  funext world
  cases hfirst : (first world).result with
  | error e =>
      rw [andThen_of_error hfirst]
      exact (andThen_of_error (by rw [andThen_of_error hfirst])).trans
        (by rw [andThen_of_error hfirst])
  | ok value =>
      rw [andThen_of_ok hfirst]
      cases hsecond : (second value (first world).world).result with
      | error e =>
          rw [andThen_of_error hsecond]
          rw [andThen_of_error (by rw [andThen_of_ok hfirst]; exact hsecond), andThen_of_ok hfirst]
      | ok other =>
          rw [andThen_of_ok hsecond]
          rw [andThen_of_ok (by rw [andThen_of_ok hfirst]; exact hsecond), andThen_of_ok hfirst]
          simp only [List.append_assoc]

theorem rescue_congr {catches : ε → Bool} {action other handler : Action ω τ ε α} {world : ω}
    (heq : action world = other world) :
    action.rescue catches handler world = other.rescue catches handler world := by
  simp only [rescue, heq]

theorem rescue_of_ok {catches : ε → Bool} {action handler : Action ω τ ε α} {world : ω} {value : α}
    (hok : (action world).result = .ok value) :
    action.rescue catches handler world = action world := by
  simp only [rescue, hok]

theorem rescue_of_caught {catches : ε → Bool} {action handler : Action ω τ ε α} {world : ω} {e : ε}
    (hraised : (action world).result = .error e) (hcatches : catches e = true) :
    action.rescue catches handler world =
      ⟨(handler (action world).world).result, (handler (action world).world).world,
        (action world).entries ++ (handler (action world).world).entries⟩ := by
  simp only [rescue, hraised, hcatches, if_true]

theorem rescue_of_passed {catches : ε → Bool} {action handler : Action ω τ ε α} {world : ω} {e : ε}
    (hraised : (action world).result = .error e) (hpasses : catches e = false) :
    action.rescue catches handler world = action world := by
  simp only [rescue, hraised, hpasses, Bool.false_eq_true, if_false]

theorem handle_of_ok {catches : ε → Bool} {action : Action ω τ ε Unit} {world : ω}
    (hok : (action world).result = .ok ()) : action.handle catches world = action world := by
  simp only [handle, hok]

theorem handle_of_caught {catches : ε → Bool} {action : Action ω τ ε Unit} {world : ω} {e : ε}
    (hraised : (action world).result = .error e) (hcatches : catches e = true) :
    action.handle catches world = { action world with result := .ok () } := by
  simp only [handle, hraised, hcatches, if_true]

@[simp] theorem entries_handle (catches : ε → Bool) (action : Action ω τ ε Unit) (world : ω) :
    (action.handle catches world).entries = (action world).entries := by
  unfold handle
  split
  · rfl
  · split <;> rfl

@[simp] theorem world_handle (catches : ε → Bool) (action : Action ω τ ε Unit) (world : ω) :
    (action.handle catches world).world = (action world).world := by
  unfold handle
  split
  · rfl
  · split <;> rfl

theorem result_handle_eq_error_iff {catches : ε → Bool} {action : Action ω τ ε Unit} {world : ω}
    {e : ε} :
    (action.handle catches world).result = .error e ↔
      (action world).result = .error e ∧ catches e = false := by
  unfold handle
  split
  next hok => simp [hok]
  next raised hraised =>
    by_cases hcaught : catches raised = true
    · simp only [hcaught, if_true, reduceCtorEq, false_iff, not_and, hraised]
      intro heq
      rw [← Except.error.inj heq, hcaught]
      decide
    · simp only [hcaught, if_false, hraised, Except.error.injEq, Bool.false_eq_true]
      constructor
      · rintro rfl
        exact ⟨rfl, by simpa using hcaught⟩
      · exact fun heq => heq.1

/-! ## Laws of the log -/

/-- Whatever an action writes satisfies `P`, and whatever it raises satisfies
`Q`. -/
structure Keeps (P : τ → Prop) (Q : ε → Prop) (action : Action ω τ ε α) : Prop where
  writes : ∀ world, ∀ entry ∈ (action world).entries, P entry
  raises : ∀ world e, (action world).result = .error e → Q e

variable {P : τ → Prop} {Q : ε → Prop}

theorem Keeps.done (value : α) : Keeps P Q (done value : Action ω τ ε α) where
  writes _ _ hentry := absurd hentry List.not_mem_nil
  raises _ _ hraised := by cases hraised

theorem Keeps.raise {e : ε} (he : Q e) : Keeps P Q (raise e : Action ω τ ε α) where
  writes _ _ hentry := absurd hentry List.not_mem_nil
  raises _ _ hraised := Except.error.inj hraised ▸ he

theorem Keeps.write {entry : τ} (hentry : P entry) :
    Keeps P Q (write entry : Action ω τ ε Unit) where
  writes _ other hother := List.mem_singleton.mp hother ▸ hentry
  raises _ _ hraised := by cases hraised

theorem Keeps.andThen {first : Action ω τ ε α} {next : α → Action ω τ ε β}
    (hfirst : Keeps P Q first) (hnext : ∀ value, Keeps P Q (next value)) :
    Keeps P Q (first.andThen next) := by
  constructor
  · intro world entry hentry
    cases hresult : (first world).result with
    | error e =>
        rw [andThen_of_error hresult] at hentry
        exact hfirst.writes world entry hentry
    | ok value =>
        rw [andThen_of_ok hresult] at hentry
        rcases List.mem_append.mp hentry with hown | hrest
        · exact hfirst.writes world entry hown
        · exact (hnext value).writes _ entry hrest
  · intro world e hraised
    cases hresult : (first world).result with
    | error raised =>
        rw [andThen_of_error hresult] at hraised
        obtain rfl := Except.error.inj hraised
        exact hfirst.raises world raised hresult
    | ok value =>
        rw [andThen_of_ok hresult] at hraised
        exact (hnext value).raises _ e hraised

theorem Keeps.iter {body : ι → Action ω τ ε Unit} {inputs : List ι}
    (hbody : ∀ input ∈ inputs, Keeps P Q (body input)) : Keeps P Q (iter body inputs) := by
  induction inputs with
  | nil => exact .done ()
  | cons input rest ih =>
      rw [List.forall_mem_cons] at hbody
      exact hbody.1.andThen fun _ => ih hbody.2

theorem Keeps.handle {catches : ε → Bool} {raised : ε → Prop} {action : Action ω τ ε Unit}
    (haction : Keeps P raised action) (hcaught : ∀ e, raised e → catches e = false → Q e) :
    Keeps P Q (action.handle catches) where
  writes world entry hentry := haction.writes world entry (by rwa [entries_handle] at hentry)
  raises world e hraised := by
    obtain ⟨hown, hnot⟩ := result_handle_eq_error_iff.mp hraised
    exact hcaught e (haction.raises world e hown) hnot

/-! ## What an iteration goes through -/

/-- The inputs that an iteration gets to, each with the world that its body
begins in. -/
def visits (body : ι → Action ω τ ε Unit) : List ι → ω → List (ι × ω)
  | [], _ => []
  | input :: rest, world =>
      (input, world) :: match (body input world).result with
        | .ok () => visits body rest (body input world).world
        | .error _ => []

theorem iter_congr {body other : ι → Action ω τ ε Unit} {inputs : List ι}
    (hbody : ∀ input ∈ inputs, body input = other input) :
    iter body inputs = iter other inputs := by
  induction inputs with
  | nil => rfl
  | cons input rest ih =>
      rw [List.forall_mem_cons] at hbody
      rw [iter, iter, hbody.1, ih hbody.2]

theorem iter_map {κ : Type*} (body : ι → Action ω τ ε Unit) (image : κ → ι) (inputs : List κ) :
    iter body (inputs.map image) = iter (fun input => body (image input)) inputs := by
  induction inputs with
  | nil => rfl
  | cons input rest ih => rw [List.map_cons, iter, iter, ih]

/-- The log of an iteration is made up of those of its bodies. -/
theorem entries_iter (body : ι → Action ω τ ε Unit) (inputs : List ι) (world : ω) :
    (iter body inputs world).entries =
      (visits body inputs world).flatMap fun visit => (body visit.1 visit.2).entries := by
  induction inputs generalizing world with
  | nil => rfl
  | cons input rest ih =>
      unfold iter visits
      cases hresult : (body input world).result with
      | error e => simp [andThen_of_error hresult]
      | ok value => simp [andThen_of_ok hresult, ih]

theorem visits_isPrefix (body : ι → Action ω τ ε Unit) (inputs : List ι) (world : ω) :
    (visits body inputs world).map Prod.fst <+: inputs := by
  induction inputs generalizing world with
  | nil => exact List.prefix_rfl
  | cons input rest ih =>
      unfold visits
      cases (body input world).result with
      | error e => simp
      | ok value => simpa using ih (body input world).world

/-- An iteration that returns has gone through all of its inputs. -/
theorem visits_of_ok {body : ι → Action ω τ ε Unit} {inputs : List ι} {world : ω}
    (hok : (iter body inputs world).result = .ok ()) :
    (visits body inputs world).map Prod.fst = inputs := by
  induction inputs generalizing world with
  | nil => rfl
  | cons input rest ih =>
      unfold iter at hok
      unfold visits
      cases hresult : (body input world).result with
      | error e =>
          rw [andThen_of_error hresult] at hok
          cases hok
      | ok value =>
          rw [andThen_of_ok hresult] at hok
          simp [ih hok]

/-- An exception of an iteration was raised by a body. -/
theorem raised_of_iter {body : ι → Action ω τ ε Unit} {inputs : List ι} {world : ω} {e : ε}
    (hraised : (iter body inputs world).result = .error e) :
    ∃ visit ∈ visits body inputs world, (body visit.1 visit.2).result = .error e := by
  induction inputs generalizing world with
  | nil => cases hraised
  | cons input rest ih =>
      unfold iter at hraised
      unfold visits
      cases hresult : (body input world).result with
      | error raised =>
          rw [andThen_of_error hresult] at hraised
          exact ⟨(input, world), List.mem_cons_self, hresult.trans hraised⟩
      | ok value =>
          rw [andThen_of_ok hresult] at hraised
          obtain ⟨visit, hvisit, hown⟩ := ih hraised
          exact ⟨visit, List.mem_cons_of_mem _ hvisit, hown⟩

end Action

end Machine

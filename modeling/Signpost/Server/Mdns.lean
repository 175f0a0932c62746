import Mathlib.Data.List.Chain
import Signpost.Machine.Run

/-! # Signposts on the local network

A service that is resolved is kept by its name and its interface, and whoever has
registered for it is told that it joins. When a service is removed they are told
that it leaves, whether it was kept or not.
-/

namespace Signpost.Mdns

open Machine

variable {α : Type*}

/-! ## The services that are kept -/

structure Service where
  port : ℕ
  address : String
deriving DecidableEq, Repr

/-- Services by name and interface. -/
abbrev LocalPsp (α : Type*) := α → Option (α → Option Service)

def LocalPsp.empty : LocalPsp α := fun _ => none

def Known (localPsp : LocalPsp α) (name interface : α) : Prop :=
  ((localPsp name).bind fun services => services interface).isSome

instance (localPsp : LocalPsp α) (name interface : α) : Decidable (Known localPsp name interface) :=
  inferInstanceAs (Decidable (_ = true))

/-! ## Events -/

inductive Kind
  | join
  | leave
deriving DecidableEq, Repr

/-- The callbacks of one kind are called, with a name and an interface. -/
structure Notification (α : Type*) where
  kind : Kind
  name : α
  interface : α
deriving DecidableEq, Repr

inductive Event (α : Type*)
  | resolved (interface name : α) (service : Service)
  | removed (interface name : α)

variable [DecidableEq α]

namespace LocalPsp

variable (localPsp : LocalPsp α)

/-- A name gets an entry before its interface is looked for. -/
def openName (name : α) : LocalPsp α :=
  if (localPsp name).isNone then Function.update localPsp name (some fun _ => none) else localPsp

def store (name interface : α) (service : Service) : LocalPsp α :=
  Function.update localPsp name
    ((localPsp name).map fun services => Function.update services interface (some service))

def delete (name interface : α) : LocalPsp α :=
  Function.update localPsp name
    ((localPsp name).map fun services => Function.update services interface none)

end LocalPsp

/-- The interface is looked for among the names. -/
def serviceResolved (localPsp : LocalPsp α) (interface name : α) (service : Service) :
    LocalPsp α × Option (Notification α) :=
  let opened := localPsp.openName name
  if (opened interface).isNone then
    (opened.store name interface service, some ⟨.join, name, interface⟩)
  else (opened, none)

/-- The callbacks are called outside of the test. -/
def removeSignpost (localPsp : LocalPsp α) (interface name : α) :
    LocalPsp α × Option (Notification α) :=
  (if Known localPsp name interface then localPsp.delete name interface else localPsp,
    some ⟨.leave, name, interface⟩)

def step (localPsp : LocalPsp α) : Event α → Except Empty (LocalPsp α × Option (Notification α))
  | .resolved interface name service => .ok (serviceResolved localPsp interface name service)
  | .removed interface name => .ok (removeSignpost localPsp interface name)

/-! ## Alternation -/

/-- One event with the services before and after it, and what is told of it. -/
abbrev Change (α : Type*) := Transition (LocalPsp α) (Event α) (Option (Notification α))

/-- A join is told when a pair becomes known, and a leave when it becomes
unknown. -/
structure Exact (now : Change α) : Prop where
  join : ∀ name interface, now.output = some ⟨.join, name, interface⟩ ↔
    ¬ Known now.before name interface ∧ Known now.after name interface
  leave : ∀ name interface, now.output = some ⟨.leave, name, interface⟩ ↔
    Known now.before name interface ∧ ¬ Known now.after name interface

/-- What is told of one pair. -/
def told (changes : List (Change α)) (name interface : α) : List Kind :=
  ((changes.filterMap fun now => now.output).filter fun notification =>
    notification.name = name ∧ notification.interface = interface).map Notification.kind

/-- Joins and leaves are told as pairs become known and unknown, and those of each
pair alternate: no two that follow each other are the same, and the first is not
a leave. -/
structure Alternate (changes : List (Change α)) : Prop where
  exact : ∀ now ∈ changes, Exact now
  chain : ∀ name interface, (Kind.leave :: told changes name interface).IsChain (· ≠ ·)

/-- The pair of a removed service is known. That of a resolved service is not,
unless its interface is also a name. -/
def Expected (localPsp : LocalPsp α) : Event α → Prop
  | .resolved interface name _ => Known localPsp name interface → (localPsp interface).isSome
  | .removed interface name => Known localPsp name interface

/-! ## What a step does -/

section Known

variable {localPsp : LocalPsp α} {name interface : α}

theorem known_openName (other otherInterface : α) :
    Known (localPsp.openName name) other otherInterface ↔ Known localPsp other otherInterface := by
  unfold LocalPsp.openName
  split
  next hnone =>
    by_cases hname : other = name
    · subst hname
      simp [Known, Option.isNone_iff_eq_none.mp hnone]
    · simp [Known, Function.update_of_ne hname]
  next => exact Iff.rfl

theorem isSome_openName (other : α) :
    (localPsp.openName name other).isSome ↔ other = name ∨ (localPsp other).isSome := by
  unfold LocalPsp.openName
  split
  next hnone =>
    by_cases hname : other = name
    · simp [hname]
    · simp [hname]
  next hsome =>
    refine ⟨Or.inr, ?_⟩
    rintro (rfl | hother)
    · exact Option.isSome_iff_ne_none.mpr (by simpa using hsome)
    · exact hother

theorem known_store (hname : (localPsp name).isSome) (service : Service)
    (other otherInterface : α) :
    Known (localPsp.store name interface service) other otherInterface ↔
      other = name ∧ otherInterface = interface ∨ Known localPsp other otherInterface := by
  obtain ⟨services, hservices⟩ := Option.isSome_iff_exists.mp hname
  by_cases hother : other = name
  · subst hother
    by_cases hinterface : otherInterface = interface
    · simp [Known, LocalPsp.store, hservices, hinterface]
    · simp [Known, LocalPsp.store, hservices, hinterface]
  · simp [Known, LocalPsp.store, hother]

theorem known_delete (other otherInterface : α) :
    Known (localPsp.delete name interface) other otherInterface ↔
      ¬ (other = name ∧ otherInterface = interface) ∧ Known localPsp other otherInterface := by
  by_cases hother : other = name
  · subst hother
    cases hservices : localPsp other with
    | none => simp [Known, LocalPsp.delete, hservices]
    | some services =>
        by_cases hinterface : otherInterface = interface
        · simp [Known, LocalPsp.delete, hservices, hinterface]
        · simp [Known, LocalPsp.delete, hservices, hinterface]
  · simp [Known, LocalPsp.delete, hother]

omit [DecidableEq α] in
/-- The name of a known pair has an entry. -/
theorem isSome_of_known (hknown : Known localPsp name interface) : (localPsp name).isSome := by
  unfold Known at hknown
  cases hservices : localPsp name with
  | none => simp [hservices] at hknown
  | some services => rfl

/-- A resolved service is stored and told of, unless its interface is a name by
then. -/
theorem serviceResolved_cases {after : LocalPsp α} {output : Option (Notification α)}
    {service : Service}
    (hresult : serviceResolved localPsp interface name service = (after, output)) :
    (¬ (interface = name ∨ (localPsp interface).isSome) ∧
      output = some ⟨.join, name, interface⟩ ∧
      ∀ other otherInterface, Known after other otherInterface ↔
        other = name ∧ otherInterface = interface ∨ Known localPsp other otherInterface) ∨
    ((interface = name ∨ (localPsp interface).isSome) ∧ output = none ∧
      ∀ other otherInterface,
        Known after other otherInterface ↔ Known localPsp other otherInterface) := by
  unfold serviceResolved at hresult
  rw [← isSome_openName]
  by_cases hnone : (localPsp.openName name interface).isNone
  · rw [if_pos hnone] at hresult
    obtain ⟨rfl, rfl⟩ := Prod.mk.inj hresult
    refine .inl ⟨by simpa using hnone, rfl, fun other otherInterface => ?_⟩
    rw [known_store ((isSome_openName name).mpr (.inl rfl)), known_openName]
  · rw [if_neg hnone] at hresult
    obtain ⟨rfl, rfl⟩ := Prod.mk.inj hresult
    refine .inr ⟨?_, rfl, known_openName⟩
    exact Option.isSome_iff_ne_none.mpr (by simpa using hnone)

theorem known_removeSignpost (other otherInterface : α) :
    Known (removeSignpost localPsp interface name).1 other otherInterface ↔
      ¬ (other = name ∧ otherInterface = interface) ∧ Known localPsp other otherInterface := by
  unfold removeSignpost
  by_cases hknown : Known localPsp name interface
  · rw [if_pos hknown, known_delete]
  · rw [if_neg hknown]
    refine ⟨fun hother => ⟨?_, hother⟩, And.right⟩
    rintro ⟨rfl, rfl⟩
    exact hknown hother

end Known

/-! ## Exact notifications -/

section Exact

variable {now : Change α} {name interface : α}

omit [DecidableEq α] in
theorem exact_iff_of_join (houtput : now.output = some ⟨.join, name, interface⟩)
    (hknown : ∀ other otherInterface, Known now.after other otherInterface ↔
      other = name ∧ otherInterface = interface ∨ Known now.before other otherInterface) :
    Exact now ↔ ¬ Known now.before name interface := by
  refine ⟨fun hexact => ((hexact.join name interface).mp houtput).1, fun hbefore => ?_⟩
  refine ⟨fun other otherInterface => ?_, fun other otherInterface => ?_⟩
  · rw [houtput, hknown]
    constructor
    · intro heq
      cases heq
      exact ⟨hbefore, .inl ⟨rfl, rfl⟩⟩
    · rintro ⟨hunknown, ⟨rfl, rfl⟩ | hother⟩
      · rfl
      · exact absurd hother hunknown
  · rw [houtput, hknown]
    refine iff_of_false (by simp) ?_
    rintro ⟨hother, hgone⟩
    exact hgone (.inr hother)

omit [DecidableEq α] in
theorem exact_of_none (houtput : now.output = none)
    (hknown : ∀ other otherInterface,
      Known now.after other otherInterface ↔ Known now.before other otherInterface) :
    Exact now := by
  refine ⟨fun other otherInterface => ?_, fun other otherInterface => ?_⟩
  · rw [houtput, hknown]
    simp
  · rw [houtput, hknown]
    simp

omit [DecidableEq α] in
theorem exact_iff_of_leave (houtput : now.output = some ⟨.leave, name, interface⟩)
    (hknown : ∀ other otherInterface, Known now.after other otherInterface ↔
      ¬ (other = name ∧ otherInterface = interface) ∧ Known now.before other otherInterface) :
    Exact now ↔ Known now.before name interface := by
  refine ⟨fun hexact => ((hexact.leave name interface).mp houtput).1, fun hbefore => ?_⟩
  refine ⟨fun other otherInterface => ?_, fun other otherInterface => ?_⟩
  · rw [houtput, hknown]
    refine iff_of_false (by simp) ?_
    rintro ⟨hunknown, _, hother⟩
    exact hunknown hother
  · rw [houtput, hknown]
    constructor
    · intro heq
      cases heq
      exact ⟨hbefore, fun hleft => hleft.1 ⟨rfl, rfl⟩⟩
    · rintro ⟨hother, hgone⟩
      by_cases hpair : other = name ∧ otherInterface = interface
      · obtain ⟨rfl, rfl⟩ := hpair
        rfl
      · exact absurd ⟨hpair, hother⟩ hgone

/-- What is told of an event is exact if and only if the event is expected. -/
theorem exact_iff (hstep : step now.before now.input = .ok (now.after, now.output)) :
    Exact now ↔ Expected now.before now.input := by
  cases hinput : now.input with
  | resolved interface name service =>
      rw [hinput] at hstep
      rcases serviceResolved_cases (Except.ok.inj hstep) with
        ⟨hnew, houtput, hknown⟩ | ⟨hname, houtput, hknown⟩
      · rw [exact_iff_of_join houtput hknown]
        exact ⟨fun hunknown hbefore => absurd hbefore hunknown,
          fun hexpected hbefore => hnew (.inr (hexpected hbefore))⟩
      · refine iff_of_true (exact_of_none houtput hknown) fun hbefore => ?_
        rcases hname with rfl | hname
        · exact isSome_of_known hbefore
        · exact hname
  | removed interface name =>
      rw [hinput] at hstep
      obtain ⟨hafter, houtput⟩ := Prod.mk.inj (Except.ok.inj hstep)
      apply exact_iff_of_leave houtput.symm
      intro other otherInterface
      rw [← hafter]
      exact known_removeSignpost other otherInterface

end Exact

/-! ## What is told of a pair -/

theorem told_concat (changes : List (Change α)) (now : Change α) (name interface : α) :
    told (changes ++ [now]) name interface =
      told changes name interface ++ told [now] name interface := by
  simp [told]

theorem told_singleton (now : Change α) (name interface : α) :
    told [now] name interface = (now.output.toList.filter fun notification =>
      notification.name = name ∧ notification.interface = interface).map Notification.kind := by
  cases houtput : now.output with
  | none => simp [told, houtput]
  | some notification => simp [told, houtput]

/-- The last notification that a pair gets in its state. -/
def heard (localPsp : LocalPsp α) (name interface : α) : Kind :=
  if Known localPsp name interface then .join else .leave

namespace Exact

variable {now : Change α} {name interface : α}

omit [DecidableEq α] in
theorem heard_of_output (hexact : Exact now) {kind : Kind}
    (houtput : now.output = some ⟨kind, name, interface⟩) :
    heard now.before name interface ≠ kind ∧ heard now.after name interface = kind := by
  cases kind with
  | join =>
      obtain ⟨hbefore, hafter⟩ := (hexact.join name interface).mp houtput
      simp [heard, hbefore, hafter]
  | leave =>
      obtain ⟨hbefore, hafter⟩ := (hexact.leave name interface).mp houtput
      simp [heard, hbefore, hafter]

omit [DecidableEq α] in
theorem heard_of_output_ne (hexact : Exact now)
    (hnone : ∀ kind, now.output ≠ some ⟨kind, name, interface⟩) :
    heard now.after name interface = heard now.before name interface := by
  have hjoin := mt (hexact.join name interface).mpr (hnone .join)
  have hleave := mt (hexact.leave name interface).mpr (hnone .leave)
  have hknown : Known now.after name interface ↔ Known now.before name interface := by tauto
  simp only [heard, hknown]

/-- A pair is told of its change, if there is one. -/
theorem told_cases (hexact : Exact now) (name interface : α) :
    (told [now] name interface = [] ∧
      heard now.after name interface = heard now.before name interface) ∨
    (told [now] name interface = [heard now.after name interface] ∧
      heard now.before name interface ≠ heard now.after name interface) := by
  rw [told_singleton]
  by_cases hpair : ∃ kind, now.output = some ⟨kind, name, interface⟩
  · obtain ⟨kind, houtput⟩ := hpair
    obtain ⟨hbefore, hafter⟩ := hexact.heard_of_output houtput
    rw [hafter]
    exact .inr ⟨by simp [houtput], hbefore⟩
  · have hnone : ∀ kind, now.output ≠ some ⟨kind, name, interface⟩ := by
      simpa using hpair
    refine .inl ⟨?_, hexact.heard_of_output_ne hnone⟩
    cases houtput : now.output with
    | none => rfl
    | some notification =>
        obtain ⟨kind, other, otherInterface⟩ := notification
        have hother : ¬ (other = name ∧ otherInterface = interface) := by
          rintro ⟨rfl, rfl⟩
          exact hnone kind houtput
        simp [hother]

end Exact

/-- What is told of a pair alternates, and its last notification is the one for
the state of the pair. -/
theorem chain_of_exact {changes : List (Change α)} {localPsp : LocalPsp α}
    (hrun : Run step LocalPsp.empty changes localPsp) (hexact : ∀ now ∈ changes, Exact now)
    (name interface : α) :
    (Kind.leave :: told changes name interface).IsChain (· ≠ ·) ∧
      (Kind.leave :: told changes name interface).getLast? =
        some (heard localPsp name interface) := by
  induction hrun with
  | start => simp [told, heard, Known, LocalPsp.empty]
  | @extend changes before after event output prior hstep ih =>
      obtain ⟨hchain, hlast⟩ := ih fun now hnow => hexact now (List.mem_append_left _ hnow)
      have hnow := hexact ⟨before, event, output, after⟩ (by simp)
      rw [told_concat, ← List.cons_append]
      rcases hnow.told_cases name interface with ⟨htold, hheard⟩ | ⟨htold, hheard⟩
      · rw [htold, List.append_nil]
        exact ⟨hchain, hlast.trans (congrArg some hheard.symm)⟩
      · rw [htold]
        refine ⟨hchain.append (List.isChain_singleton _) ?_, List.getLast?_concat⟩
        simpa [hlast] using hheard

/-- Joins and leaves are exact and alternate if and only if all events are
expected. -/
theorem alternate_iff (events : List (Event α)) :
    Alternate (record step LocalPsp.empty events) ↔
      ∀ now ∈ record step LocalPsp.empty events, Expected now.before now.input := by
  have hrun := run_record step LocalPsp.empty events
  constructor
  · intro halternate now hnow
    exact (exact_iff (hrun.step_eq hnow)).mp (halternate.exact now hnow)
  · intro hexpected
    have hexact : ∀ now ∈ record step LocalPsp.empty events, Exact now := fun now hnow =>
      (exact_iff (hrun.step_eq hnow)).mpr (hexpected now hnow)
    exact ⟨hexact, fun name interface => (chain_of_exact hrun hexact name interface).1⟩

/-! ## A service that is reported again -/

/-- The service laptop is resolved twice on the same interface. -/
def reportedAgain : List (Event (ℤ ⊕ String)) :=
  [.resolved (.inl 2) (.inr "laptop") ⟨8080, "10.0.0.1"⟩,
    .resolved (.inl 2) (.inr "laptop") ⟨8080, "10.0.0.1"⟩]

theorem told_reportedAgain :
    told (record step LocalPsp.empty reportedAgain) (.inr "laptop") (.inl 2) = [.join, .join] := by
  decide

theorem not_alternate_reportedAgain :
    ¬ ∀ events : List (Event (ℤ ⊕ String)), Alternate (record step LocalPsp.empty events) := by
  intro hclaim
  have hchain := (hclaim reportedAgain).chain (.inr "laptop") (.inl 2)
  rw [told_reportedAgain] at hchain
  exact absurd hchain (by decide)

end Signpost.Mdns

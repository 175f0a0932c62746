import Signpost.Machine.Framing
import Signpost.Solver.Protocol

/-! # Finding a signpost in the DNS

A tactic looks up the SRV records of a domain and of the domains above it. The
value that it provides is one flat list, and the communication centre tells a
host from a port by the place in it.
-/

namespace Signpost.SignpostFinder

open Machine (split)

/-! ## The tactic -/

/-- An element of the value. -/
inductive Value
  | nil
  | int (n : Int)
  | text (s : String)
deriving DecidableEq, Repr

/-- A resource record in the answer to a question for SRV records. -/
inductive Record
  | srv (host : String) (port : ℕ)
  | other
deriving DecidableEq, Repr

def removeTrailingDot (host : String) : String :=
  if host.toList.getLast? = some '.' then String.ofList host.toList.dropLast else host

def endpointOf : Record → Option (String × ℕ)
  | .srv host port => some (removeTrailingDot host, port)
  | .other => none

/-- What `resolve` returns. The rescue branch has the value of its last
expression. -/
inductive Found
  | answers (endpoints : List (String × ℕ))
  | logged (sent : Int)
deriving DecidableEq, Repr

def Found.flatten : Found → List Value
  | .answers endpoints => endpoints.flatMap fun (host, port) => [.text host, .int port]
  | .logged sent => [.int sent]

/-- The truth that a tactic hands to its engine. -/
structure Provided where
  what : String
  value : List Value
  ttl : Int
  isGlobal : Bool
deriving DecidableEq, Repr

/-- The question for a suffix of the domain. -/
def reqStr (domain : List String) : String := "_signpost._tcp." ++ ".".intercalate domain

/-- The suffixes with at least two parts, the most specific one first. -/
def suffixes (domain : String) : List (List String) :=
  let domainParts := (split '.' domain.toList).map String.ofList
  (List.range (domainParts.length - 1)).map domainParts.drop

-- The resolver either answers or raises an exception with a text. What `log`
-- returns comes from `send_data` of EventMachine, a number of bytes.
variable (send : String → Except String (List Record)) (log : String → Int)

def resolve (domain : List String) : Found :=
  match send (reqStr domain) with
  | .ok records => .answers (records.filterMap endpointOf)
  | .error e => .logged (log ("Got exception: " ++ e))

def signposts (domain : String) : List Found := (suffixes domain).map (resolve send log)

/-- The block of the tactic. -/
def provide (what domain : String) : Provided where
  what := what
  value := (signposts send log domain).flatMap Found.flatten
  ttl := 24 * 60 * 60
  isGlobal := true

/-! ## The communication centre -/

/-- What the block of the question of `connect_to_signpost` holds, and what that
question asks for. -/
structure Attempt where
  host : Value
  port : Value
  what : String
deriving DecidableEq, Repr

inductive FinderError
  | runtimeError
deriving DecidableEq, Repr

section Centre

variable (name ownDomain : String)

/-- A signpost does not connect to itself. -/
def connectToSignpost (domain port : Value) : Option Attempt :=
  if domain = .text name then none else some ⟨domain, port, "connectable_ip@" ++ ownDomain⟩

/-- The block of the question. Missing elements of the value are `nil`. -/
def findSignpostFromDns : List (Fact (List Value)) → Except FinderError (Option Attempt)
  | [] => .error .runtimeError
  | first :: _ =>
      .ok (connectToSignpost name ownDomain (first.truth.getD 0 .nil) (first.truth.getD 1 .nil))

/-! ## What the centre should connect to -/

/-- The SRV records of a suffix. -/
def srvRecords (domain : List String) : List (String × ℕ) :=
  match send (reqStr domain) with
  | .ok records => records.filterMap endpointOf
  | .error _ => []

/-- The first record of the most specific suffix that has one. -/
def endpoint (suffixes : List (List String)) : Option (String × ℕ) :=
  suffixes.findSome? fun suffix => (srvRecords send suffix).head?

/-- The centre connects to the endpoint, or to nothing when there is none. -/
def HandsOver : Prop :=
  ∀ first rest, first.truth = (provide send log "signpost_for_client" ownDomain).value →
    match endpoint send (suffixes ownDomain) with
    | some (host, port) => findSignpostFromDns name ownDomain (first :: rest) =
        .ok (connectToSignpost name ownDomain (.text host) (.int port))
    | none => first.truth = [] ∧ findSignpostFromDns name ownDomain (first :: rest) = .ok none

/-- A suffix has a record, and no lookup of a more specific one fails. -/
def Leads (suffixes : List (List String)) : Prop :=
  ∃ before suffix after, suffixes = before ++ suffix :: after ∧ srvRecords send suffix ≠ [] ∧
    ∀ earlier ∈ before, ∃ records, send (reqStr earlier) = .ok records

end Centre

/-! ## One suffix after another -/

variable {send} {log}

theorem not_leads_nil : ¬ Leads send [] := by
  rintro ⟨before, suffix, after, heq, -⟩
  simp at heq

theorem leads_cons (suffix : List String) (rest : List (List String)) :
    Leads send (suffix :: rest) ↔ srvRecords send suffix ≠ [] ∨
      (∃ records, send (reqStr suffix) = .ok records) ∧ Leads send rest := by
  constructor
  · rintro ⟨before, found, after, heq, hfound, hearlier⟩
    cases before with
    | nil =>
        obtain ⟨rfl, rfl⟩ := List.cons.inj heq
        exact .inl hfound
    | cons first before =>
        obtain ⟨rfl, rfl⟩ := List.cons.inj heq
        rw [List.forall_mem_cons] at hearlier
        exact .inr ⟨hearlier.1, before, found, after, rfl, hfound, hearlier.2⟩
  · rintro (hfound | ⟨hfirst, before, found, after, rfl, hfound, hearlier⟩)
    · exact ⟨[], suffix, rest, rfl, hfound, fun _ hmem => absurd hmem List.not_mem_nil⟩
    · exact ⟨suffix :: before, found, after, rfl, hfound,
        List.forall_mem_cons.mpr ⟨hfirst, hearlier⟩⟩

/-- The value with the contribution of each of the suffixes. -/
def valueOf (send : String → Except String (List Record)) (log : String → Int)
    (suffixes : List (List String)) : List Value :=
  (suffixes.map (resolve send log)).flatMap Found.flatten

section Attempts

variable {name ownDomain : String}

/-- What the centre does with a value. -/
def attempt (name ownDomain : String) (value : List Value) : Option Attempt :=
  connectToSignpost name ownDomain (value.getD 0 .nil) (value.getD 1 .nil)

/-- The law of the value for some of the suffixes. -/
def Usable (send : String → Except String (List Record)) (log : String → Int)
    (name ownDomain : String) (suffixes : List (List String)) : Prop :=
  match endpoint send suffixes with
  | some (host, port) => attempt name ownDomain (valueOf send log suffixes) =
      connectToSignpost name ownDomain (.text host) (.int port)
  | none =>
      valueOf send log suffixes = [] ∧ attempt name ownDomain (valueOf send log suffixes) = none

theorem connectToSignpost_ne_none {domain : Value} (hdomain : ∀ s, domain ≠ .text s)
    (port : Value) :
    connectToSignpost name ownDomain domain port =
      some ⟨domain, port, "connectable_ip@" ++ ownDomain⟩ := by
  rw [connectToSignpost, if_neg (hdomain name)]

/-- An empty value makes the centre connect to `nil`. -/
theorem not_usable_nil : ¬ Usable send log name ownDomain [] := by
  rintro ⟨-, hattempt⟩
  rw [attempt, connectToSignpost_ne_none (by simp [valueOf])] at hattempt
  cases hattempt

theorem usable_cons_of_found {suffix : List String} {host : String} {port : ℕ}
    {others : List (String × ℕ)} (hfound : srvRecords send suffix = (host, port) :: others)
    (rest : List (List String)) : Usable send log name ownDomain (suffix :: rest) := by
  have hendpoint : endpoint send (suffix :: rest) = some (host, port) := by
    simp [endpoint, hfound]
  have hresolve : resolve send log suffix = .answers ((host, port) :: others) := by
    unfold srvRecords at hfound
    unfold resolve
    split at hfound <;> simp_all
  simp [Usable, hendpoint, attempt, valueOf, hresolve, Found.flatten]

/-- A lookup without records leaves no trace in the value. -/
theorem usable_cons_of_empty {suffix : List String} {records : List Record}
    (hsend : send (reqStr suffix) = .ok records) (hempty : srvRecords send suffix = [])
    (rest : List (List String)) :
    Usable send log name ownDomain (suffix :: rest) ↔ Usable send log name ownDomain rest := by
  have hendpoint : endpoint send (suffix :: rest) = endpoint send rest := by
    simp [endpoint, hempty]
  have hvalue : valueOf send log (suffix :: rest) = valueOf send log rest := by
    rw [srvRecords, hsend] at hempty
    simp only at hempty
    simp [valueOf, resolve, hsend, hempty, Found.flatten]
  rw [Usable, Usable, hendpoint, hvalue]

/-- A failing lookup stands in the place of the host. -/
theorem not_usable_cons_of_error {suffix : List String} {e : String}
    (hsend : send (reqStr suffix) = .error e) (rest : List (List String)) :
    ¬ Usable send log name ownDomain (suffix :: rest) := by
  have hvalue : valueOf send log (suffix :: rest) =
      .int (log ("Got exception: " ++ e)) :: valueOf send log rest := by
    simp [valueOf, resolve, hsend, Found.flatten]
  have hattempt : attempt name ownDomain (valueOf send log (suffix :: rest)) =
      some ⟨.int (log ("Got exception: " ++ e)), (valueOf send log rest).getD 0 .nil,
        "connectable_ip@" ++ ownDomain⟩ := by
    rw [attempt, hvalue, connectToSignpost_ne_none (by simp)]
    rfl
  unfold Usable
  rw [hattempt]
  split
  next host port _ =>
    rw [connectToSignpost]
    split <;> simp
  next => simp

theorem usable_iff (suffixes : List (List String)) :
    Usable send log name ownDomain suffixes ↔ Leads send suffixes := by
  induction suffixes with
  | nil => exact iff_of_false not_usable_nil not_leads_nil
  | cons suffix rest ih =>
      rw [leads_cons]
      cases hsend : send (reqStr suffix) with
      | error e =>
          have hnone : srvRecords send suffix = [] := by rw [srvRecords, hsend]
          exact iff_of_false (not_usable_cons_of_error hsend rest) (by simp [hnone])
      | ok records =>
          cases hfound : srvRecords send suffix with
          | nil =>
              rw [usable_cons_of_empty hsend hfound, ih]
              simp
          | cons first others => exact iff_of_true (usable_cons_of_found hfound rest) (by simp)

theorem handsOver_iff_usable :
    HandsOver send log name ownDomain ↔ Usable send log name ownDomain (suffixes ownDomain) := by
  have hvalue : (provide send log "signpost_for_client" ownDomain).value =
      valueOf send log (suffixes ownDomain) := by
    rw [provide, signposts, valueOf]
  unfold HandsOver Usable
  rw [hvalue]
  generalize valueOf send log (suffixes ownDomain) = value
  cases endpoint send (suffixes ownDomain) with
  | none =>
      constructor
      · intro hhands
        have hempty := hhands ⟨"signpost_for_client", "", "", "", value⟩ [] rfl
        exact ⟨hempty.1, Except.ok.inj hempty.2⟩
      · rintro ⟨hempty, hattempt⟩ first rest hfirst
        refine ⟨hfirst.trans hempty, ?_⟩
        rw [findSignpostFromDns, hfirst]
        exact congrArg Except.ok hattempt
  | some found =>
      obtain ⟨host, port⟩ := found
      constructor
      · intro hhands
        have hfirst := hhands ⟨"signpost_for_client", "", "", "", value⟩ [] rfl
        exact Except.ok.inj hfirst
      · intro hattempt first rest hfirst
        rw [findSignpostFromDns, hfirst]
        exact congrArg Except.ok hattempt

end Attempts

/-- The centre gets the endpoint exactly when there is one and no failure stands
before it. -/
theorem handsOver_iff (send : String → Except String (List Record)) (log : String → Int)
    (name ownDomain : String) :
    HandsOver send log name ownDomain ↔ Leads send (suffixes ownDomain) := by
  rw [handsOver_iff_usable, usable_iff]

/-! ## A lookup that times out -/

/-- The question for the domain itself fails, the one above it has a signpost. -/
def timingOut : String → Except String (List Record)
  | "_signpost._tcp.home.kle.io" => .error "execution expired"
  | "_signpost._tcp.kle.io" => .ok [.srv "sp.kle.io." 8987]
  | _ => .ok []

theorem suffixes_home : suffixes "home.kle.io" = [["home", "kle", "io"], ["kle", "io"]] := by
  decide

/-- The host arrives as the port. -/
example : findSignpostFromDns "tablet" "home.kle.io"
    [⟨"signpost_for_client", "", "", "",
      valueOf timingOut (fun _ => 46) (suffixes "home.kle.io")⟩] =
      .ok (some ⟨.int 46, .text "sp.kle.io", "connectable_ip@home.kle.io"⟩) := by
  decide

theorem not_handsOver_of_timingOut :
    ¬ ∀ (send : String → Except String (List Record)) (log : String → Int)
      (name ownDomain : String), HandsOver send log name ownDomain := by
  intro hclaim
  have hfails : timingOut (reqStr ["home", "kle", "io"]) = .error "execution expired" := rfl
  have husable := hclaim timingOut (fun _ => 46) "tablet" "home.kle.io"
  rw [handsOver_iff_usable, suffixes_home] at husable
  exact not_usable_cons_of_error hfails [["kle", "io"]] husable

end Signpost.SignpostFinder

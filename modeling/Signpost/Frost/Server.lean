import Mathlib.Data.List.Induction
import Signpost.Bloom.History
import Signpost.Frost.Nodes
import Signpost.Frost.Rpc

/-! # Registrations and answers of the DNS

Nodes say hello to the signalling server, under the names they write. The DNS
server of the same process answers a question for `dst.src.domain` with the
address of the destination.
-/

namespace Signpost.Frost

open Bloom

variable {τ : Type}

/-! ## The signalling server -/

/-- Responses and calls that clients do not handle are only printed. -/
def handleRpc (nodes : Nodes) : Option Rpc → Nodes
  | some (.hello node ip port) => nodes.updateSigChannel node ip port
  | some (.request _ _ _) => nodes
  | some (.notification _ _) => nodes
  | some (.response _ _ _) => nodes
  | none => nodes

def me : Text := "me".toList

/-- The entry that is made when the program starts. -/
def initialNodes : Nodes :=
  Nodes.update (fun _ => none) me ⟨.signallingChannel "127.0.0.1".toList 4444, me⟩

def nodesAfter (rpcs : List (Option Rpc)) : Nodes := rpcs.foldl handleRpc initialNodes

/-! ## Connecting -/

/-- What comes from libraries. -/
structure Runtime (τ α : Type) where
  /-- `Unix.inet_addr_of_string` takes the text for an address. -/
  inetAddrOfString : Text → Bool
  /-- `Lwt_list.iter_p` passes on what its function raises. -/
  iterPRaises : Bool
  /-- `Dns.Query.answer_query` on the zone that is loaded. -/
  answerQuery : List Text → τ → α

inductive ConnectExn
  | failure (message : Text)
deriving DecidableEq

section

variable {α : Type} (runtime : Runtime τ α) (nodes : Nodes)

/-- What the tactic raises at once. Whether a message arrives is in its promise,
and nobody waits for that. -/
def directConnection (_a b : Text) : Except ConnectExn Unit :=
  match nodes.signallingChannel b with
  | none => .ok ()
  | some (ip, _) =>
      if runtime.inetAddrOfString ip then .ok ()
      else .error (.failure "inet_addr_of_string".toList)

/-- The only tactic is the direct connection. -/
def engineConnect (a b : Text) : Except ConnectExn Unit :=
  match directConnection runtime nodes a b with
  | .ok () => .ok ()
  | .error exn => if runtime.iterPRaises then .error exn else .ok ()

def findConnection (a b : Text) : Except ConnectExn (BitVec 32) := do
  engineConnect runtime nodes a b
  return nodes.getNodeIp b

end

/-! ## The DNS server -/

/-- The capital letters of Latin-1. -/
def Capital (c : Char) : Prop :=
  ('A' ≤ c ∧ c ≤ 'Z') ∨ ('À' ≤ c ∧ c ≤ 'Ö') ∨ ('Ø' ≤ c ∧ c ≤ 'Þ')

instance : DecidablePred Capital := fun c =>
  inferInstanceAs (Decidable (('A' ≤ c ∧ c ≤ 'Z') ∨ ('À' ≤ c ∧ c ≤ 'Ö') ∨ ('Ø' ≤ c ∧ c ≤ 'Þ')))

/-- `Char.lowercase`. -/
def lowercaseChar (c : Char) : Char := if Capital c then Char.ofNat (c.toNat + 32) else c

def lowercase (s : Text) : Text := s.map lowercaseChar

inductive Rdata
  | a (ip : BitVec 32)
  | other (data : Text)
deriving DecidableEq

inductive RRClass
  | internet
  | other (code : ℕ)
deriving DecidableEq

structure RR where
  rrName : List Text
  rrClass : RRClass
  rrTtl : Int32
  rrRdata : Rdata
deriving DecidableEq

inductive Rcode
  | noError
  | other (code : ℕ)
deriving DecidableEq

structure Answer where
  rcode : Rcode
  aa : Bool
  answer : List RR
  authority : List RR
  additional : List RR
deriving DecidableEq

structure Question (τ : Type) where
  qName : List Text
  qType : τ

def signpostNumber : ℕ := 1

/-- The domain of the configuration. -/
def configDomain : String := "signpo.st"

def ourDomain : Text := ("d" ++ toString signpostNumber ++ "." ++ configDomain).toList

section

variable (runtime : Runtime τ Answer) (nodes : Nodes)

def ipResp (dst src : Text) (domain : List Text) : Except ConnectExn Answer := do
  let nodeIp ← findConnection runtime nodes src dst
  let node : RR := ⟨dst :: src :: domain, .internet, 0, .a nodeIp⟩
  return ⟨.noError, true, [node], [], []⟩

def getResponse (q : Question τ) : Except ConnectExn Answer :=
  let fromTrie := runtime.answerQuery q.qName q.qType
  match q.qName.map lowercase with
  | dst :: src :: domain =>
      if List.intercalate ['.'] domain = ourDomain then ipResp runtime nodes dst src domain
      else .ok fromTrie
  | _ => .ok fromTrie

/-- The answer to a packet with exactly one question. -/
def dnsfn : List (Question τ) → Except ConnectExn (Option Answer)
  | [] => .ok none
  | [q] => (getResponse runtime nodes q).map some
  | _ => .ok none

end

/-! ## What is registered -/

/-- A name and the address that it was registered with. -/
structure Registration where
  name : Text
  ip : Text
deriving DecidableEq

def registrationOf : Option Rpc → Option Registration
  | some (.hello node ip _) => some ⟨node, ip⟩
  | _ => none

def registrations (rpcs : List (Option Rpc)) : List Registration :=
  ⟨me, "127.0.0.1".toList⟩ :: rpcs.filterMap registrationOf

/-- The address of a registration, and zero without one. -/
def addressOf : Option Registration → BitVec 32
  | some registration => ipv4AddrOfString registration.ip
  | none => 0

/-- A question for the server's own domain, in any letter case. -/
structure OwnQuery (τ : Type) where
  dst : Text
  src : Text
  domain : List Text
  qType : τ
  own : List.intercalate ['.'] (domain.map lowercase) = ourDomain

def OwnQuery.question (query : OwnQuery τ) : Question τ :=
  ⟨query.dst :: query.src :: query.domain, query.qType⟩

def Registration.lowerName (registration : Registration) : Text := lowercase registration.name

/-- The answer carries the address of the latest registration whose name is the
destination up to letter case. -/
def AnswersLatest (runtime : Runtime τ Answer) (rpcs : List (Option Rpc)) (query : OwnQuery τ) :
    Prop :=
  ∃ answer, dnsfn runtime (nodesAfter rpcs) [query.question] = .ok (some answer) ∧
    answer.answer.map RR.rrRdata =
      [.a (addressOf (latest Registration.lowerName (registrations rpcs) (lowercase query.dst)))]

/-! ## Registration and lookup -/

section

variable (nodes : Nodes) (rpcs : List (Option Rpc))

theorem getIp_updateSigChannel (name other ip : Text) (port : Int64) :
    (nodes.updateSigChannel name ip port).getIp other =
      if name = other then some ip else nodes.getIp other := by
  simp only [Nodes.getIp, Nodes.get, Nodes.updateSigChannel, Nodes.update, Function.update_apply]
  by_cases heq : name = other
  · simp [heq]
  · simp [heq, Ne.symm heq]

theorem getIp_handleRpc (rpc : Option Rpc) (name : Text) :
    (handleRpc nodes rpc).getIp name =
      ((latest Registration.name (registrationOf rpc).toList name).map Registration.ip).or
        (nodes.getIp name) := by
  unfold handleRpc registrationOf
  split
  next node ip port =>
    rw [getIp_updateSigChannel]
    by_cases heq : node = name
    · simp [latest, heq]
    · simp [latest, heq]
  all_goals simp [latest]

/-- The table holds the latest address of each name, as the name was written. -/
theorem getIp_nodesAfter (name : Text) :
    (nodesAfter rpcs).getIp name =
      (latest Registration.name (registrations rpcs) name).map Registration.ip := by
  induction rpcs using List.reverseRecOn with
  | nil =>
      simp only [nodesAfter, List.foldl_nil, initialNodes, Nodes.getIp, Nodes.get, Nodes.update,
        Function.update_apply, registrations, List.filterMap_nil]
      by_cases heq : me = name
      · simp [latest, heq]
      · simp [latest, heq, Ne.symm heq, newNodeWithName]
  | append_singleton older rpc ih =>
      have hnodes : nodesAfter (older ++ [rpc]) = handleRpc (nodesAfter older) rpc := by
        rw [nodesAfter, List.foldl_concat, nodesAfter]
      have hregistrations :
          registrations (older ++ [rpc]) = registrations older ++ (registrationOf rpc).toList := by
        simp only [registrations, List.filterMap_append, List.filterMap_cons, List.filterMap_nil,
          List.cons_append]
        cases registrationOf rpc with
        | none => rfl
        | some registration => rfl
      rw [hnodes, getIp_handleRpc, ih, hregistrations, latest_append, Option.map_or]

theorem getNodeIp_nodesAfter (name : Text) :
    (nodesAfter rpcs).getNodeIp name =
      addressOf (latest Registration.name (registrations rpcs) name) := by
  rw [Nodes.getNodeIp, getIp_nodesAfter]
  cases latest Registration.name (registrations rpcs) name with
  | none => rfl
  | some registration => rfl

theorem signallingChannel_map_fst (name : Text) :
    (nodes.signallingChannel name).map Prod.fst = nodes.getIp name := by
  unfold Nodes.signallingChannel Nodes.getIp
  split
  next => rfl
  next => rfl

end

/-! ## Letter case -/

theorem capital_iff_toNat (c : Char) :
    Capital c ↔ (65 ≤ c.toNat ∧ c.toNat ≤ 90) ∨ (192 ≤ c.toNat ∧ c.toNat ≤ 214) ∨
      (216 ≤ c.toNat ∧ c.toNat ≤ 222) :=
  Iff.rfl

theorem not_capital_lowercaseChar (c : Char) : ¬ Capital (lowercaseChar c) := by
  unfold lowercaseChar
  split
  next hcapital =>
    rw [capital_iff_toNat] at hcapital ⊢
    have hvalid : (c.toNat + 32).isValidChar := by
      left
      omega
    have htoNat : (Char.ofNat (c.toNat + 32)).toNat = c.toNat + 32 := by
      rw [Char.ofNat, dif_pos hvalid]
      rfl
    omega
  next hother => exact hother

theorem lowercaseChar_lowercaseChar (c : Char) :
    lowercaseChar (lowercaseChar c) = lowercaseChar c :=
  if_neg (not_capital_lowercaseChar c)

theorem lowercase_lowercase (s : Text) : lowercase (lowercase s) = lowercase s := by
  simp only [lowercase, List.map_map]
  exact List.map_congr_left fun c _ => lowercaseChar_lowercaseChar c

/-! ## Answers -/

section

variable {runtime : Runtime τ Answer} {nodes : Nodes} {rpcs : List (Option Rpc)}
  {query : OwnQuery τ}

/-- Connecting fails only if an exception gets through. -/
theorem engineConnect_eq_ok_iff (a b : Text) :
    engineConnect runtime nodes a b = .ok () ↔
      (runtime.iterPRaises → ∀ ip, nodes.getIp b = some ip → runtime.inetAddrOfString ip) := by
  rw [engineConnect, directConnection, ← signallingChannel_map_fst]
  cases nodes.signallingChannel b with
  | none => simp
  | some channel =>
      by_cases haddress : runtime.inetAddrOfString channel.1
      · simp [haddress]
      · by_cases hraises : runtime.iterPRaises
        · simp [haddress, hraises]
        · simp [haddress, hraises]

theorem dnsfn_question (query : OwnQuery τ) :
    dnsfn runtime nodes [query.question] =
      (ipResp runtime nodes (lowercase query.dst) (lowercase query.src)
        (query.domain.map lowercase)).map some := by
  simp only [dnsfn, getResponse, OwnQuery.question, List.map_cons, if_pos query.own]

theorem answersLatest_iff_addresses :
    AnswersLatest runtime rpcs query ↔
      engineConnect runtime (nodesAfter rpcs) (lowercase query.src) (lowercase query.dst) = .ok () ∧
      addressOf (latest Registration.name (registrations rpcs) (lowercase query.dst)) =
        addressOf
          (latest Registration.lowerName (registrations rpcs) (lowercase query.dst)) := by
  rw [AnswersLatest, dnsfn_question, ipResp, findConnection, ← getNodeIp_nodesAfter]
  cases engineConnect runtime (nodesAfter rpcs) (lowercase query.src) (lowercase query.dst) with
  | error exn => simp [bind, Except.bind, Except.map]
  | ok value => simp [bind, Except.bind, Except.map, pure, Except.pure]

/-- Answers agree with registrations exactly when connecting raises nothing, and
the latest registration up to letter case is written in lower case or has the
address that the lower-case name has. -/
theorem answersLatest_iff (runtime : Runtime τ Answer) (rpcs : List (Option Rpc))
    (query : OwnQuery τ) :
    AnswersLatest runtime rpcs query ↔
      (∀ registration,
        latest Registration.name (registrations rpcs) (lowercase query.dst) = some registration →
          runtime.iterPRaises → runtime.inetAddrOfString registration.ip) ∧
      ∀ registration,
        latest Registration.lowerName (registrations rpcs) (lowercase query.dst) =
            some registration →
          registration.name = lowercase query.dst ∨
            ipv4AddrOfString registration.ip = addressOf
              (latest Registration.name (registrations rpcs) (lowercase query.dst)) := by
  have hfiner : ∀ registration : Registration, registration.name = lowercase query.dst →
      registration.lowerName = lowercase query.dst := by
    intro registration hname
    rw [Registration.lowerName, hname, lowercase_lowercase]
  rw [answersLatest_iff_addresses, engineConnect_eq_ok_iff, getIp_nodesAfter]
  refine and_congr ?_ ?_
  · simp only [Option.map_eq_some_iff]
    constructor
    · exact fun hip registration hlatest hraises => hip hraises _ ⟨registration, hlatest, rfl⟩
    · rintro hip hraises _ ⟨registration, hlatest, rfl⟩
      exact hip registration hlatest hraises
  · cases hlower : latest Registration.lowerName (registrations rpcs) (lowercase query.dst) with
    | none =>
        have hnone :
            latest Registration.name (registrations rpcs) (lowercase query.dst) = none := by
          rw [latest_eq_none_iff] at hlower ⊢
          exact fun registration hmem hname => hlower registration hmem (hfiner registration hname)
        simp [hnone]
    | some registration =>
        constructor
        · rintro heq other hother
          obtain rfl := Option.some.inj hother
          exact .inr heq.symm
        · intro hcondition
          rcases hcondition registration rfl with hname | heq
          · rw [latest_of_finer hfiner hlower hname]
          · exact heq.symm

end

/-! ## A name with a capital letter -/

/-- Every text is an address, and every question of the zone has an empty answer. -/
def lenient : Runtime Unit Answer where
  inetAddrOfString _ := true
  iterPRaises := true
  answerQuery _ _ := ⟨.noError, true, [], [], []⟩

def laptopHello : Option Rpc := some (.hello "Laptop".toList "10.0.0.1".toList 4444)

def laptopQuery : OwnQuery Unit :=
  ⟨"Laptop".toList, "src".toList, ["D1".toList, "signpo".toList, "st".toList], (), by decide⟩

theorem not_answersLatest_laptop :
    ¬ ∀ (runtime : Runtime Unit Answer) (rpcs : List (Option Rpc)) (query : OwnQuery Unit),
      AnswersLatest runtime rpcs query := by
  intro hclaim
  obtain ⟨answer, hanswer, hrdata⟩ := hclaim lenient [laptopHello] laptopQuery
  have hcode : dnsfn lenient (nodesAfter [laptopHello]) [laptopQuery.question] =
      .ok (some ⟨.noError, true,
        [⟨["laptop".toList, "src".toList, "d1".toList, "signpo".toList, "st".toList], .internet, 0,
          .a 0⟩], [], []⟩) := by decide
  have haddress :
      addressOf (latest Registration.lowerName (registrations [laptopHello])
        (lowercase laptopQuery.dst)) = 0x0A000001 := by decide
  obtain rfl := Option.some.inj (Except.ok.inj (hcode.symm.trans hanswer))
  rw [haddress] at hrdata
  exact absurd hrdata (by decide)

end Signpost.Frost

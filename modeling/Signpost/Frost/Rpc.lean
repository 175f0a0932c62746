import Signpost.Frost.Printing

/-! # Remote calls of the signalling channel

Calls travel as JSON texts, one in a datagram. What a server receives on its
socket may come from anybody.
-/

namespace Signpost.Frost

open Machine

variable {φ : Type} {floats : Floats φ}

/-! ## Calls -/

inductive Result
  | result (r : Text)
  | noResult
deriving DecidableEq, Repr

inductive RpcError
  | error (e : Text)
  | noError
deriving DecidableEq, Repr

inductive Rpc
  | hello (nodeName ip : Text) (port : Int64)
  | request (command : Text) (args : List Text) (id : Int64)
  | notification (command : Text) (args : List Text)
  | response (result : Result) (error : RpcError) (id : Int64)
deriving DecidableEq

/-- A response without result and without error has no JSON. -/
def rpcToJson : Rpc → Except Exn (Json φ)
  | .hello n i p =>
      .ok (.object [("hello".toList, .array [.string n, .string i, .int p])])
  | .request c stringArgs id =>
      .ok (.object [("request".toList, .object [
        ("method".toList, .string c),
        ("params".toList, .array (stringArgs.map .string)),
        ("id".toList, .int id)])])
  | .notification c stringArgs =>
      .ok (.object [("notification".toList, .object [
        ("method".toList, .string c),
        ("params".toList, .array (stringArgs.map .string)),
        ("id".toList, .null)])])
  | .response _ (.error e) id =>
      .ok (.object [("response".toList, .object [
        ("result".toList, .null),
        ("error".toList, .string e),
        ("id".toList, .int id)])])
  | .response (.result r) .noError id =>
      .ok (.object [("response".toList, .object [
        ("result".toList, .string r),
        ("error".toList, .null),
        ("id".toList, .int id)])])
  | .response .noResult .noError _ => .error .matchFailure

/-- `List.map (fun (String s) -> s)`. -/
def stringArgs : List (Json φ) → Except Exn (List Text)
  | [] => .ok []
  | .string s :: rest => do
      let others ← stringArgs rest
      pure (s :: others)
  | _ :: _ => .error .matchFailure

/-- The shapes of a call are told apart by the kinds of their fields before any
key is compared. -/
def rpcOfJson : Json φ → Except Exn (Option Rpc)
  | .object [(kind, .array [.string n, .string i, .int p])] =>
      .ok (if kind = "hello".toList then some (.hello n i p) else none)
  | .object [(kind, .object [(first, .string c), (second, .array args), (third, .int id)])] =>
      if kind = "request".toList ∧ first = "method".toList ∧ second = "params".toList ∧
          third = "id".toList then do
        let strings ← stringArgs args
        pure (some (.request c strings id))
      else .ok none
  | .object [(kind, .object [(first, .string c), (second, .array args), (third, .null)])] =>
      if kind = "notification".toList ∧ first = "method".toList ∧ second = "params".toList ∧
          third = "id".toList then do
        let strings ← stringArgs args
        pure (some (.notification c strings))
      else .ok none
  | .object [(kind, .object [(first, .string r), (second, .null), (third, .int id)])] =>
      .ok (if kind = "response".toList ∧ first = "result".toList ∧ second = "error".toList ∧
          third = "id".toList then some (.response (.result r) .noError id) else none)
  | .object [(kind, .object [(first, .null), (second, .string e), (third, .int id)])] =>
      .ok (if kind = "response".toList ∧ first = "result".toList ∧ second = "error".toList ∧
          third = "id".toList then some (.response .noResult (.error e) id) else none)
  | _ => .ok none

def rpcToString (floats : Floats φ) (rpc : Rpc) : Except Exn Text :=
  (rpcToJson rpc).map (toText floats)

/-- Every exception of the parser is caught, but none of the conversion. -/
def rpcOfString (floats : Floats φ) (s : Text) : Except Exn (Option Rpc) :=
  match ofString floats s with
  | .error _ => .ok none
  | .ok x => rpcOfJson x

/-- The `int` of OCaml, which wraps around. -/
abbrev Int63 := BitVec 63

/-- The next identifier, with the counter that it leaves. -/
def freshId (rpcIdCounter : Int63) : Int64 × Int63 :=
  (Int64.ofInt (rpcIdCounter + 1).toInt, rpcIdCounter + 1)

def createRpc (methodName : Text) (args : List Text) (rpcIdCounter : Int63) : Rpc × Int63 :=
  let (id, next) := freshId rpcIdCounter
  (.request methodName args id, next)

def createNotification (methodName : Text) (args : List Text) : Rpc :=
  .notification methodName args

def createResponseOk (result : Text) (id : Int64) : Rpc := .response (.result result) .noError id

def createResponseError (error : Text) (id : Int64) : Rpc := .response .noResult (.error error) id

/-! ## The round trip -/

/-- The calls that are sent. The identifier of a request may be any. -/
inductive Created : Rpc → Prop
  | hello (nodeName ip : Text) (port : Int64) : Created (.hello nodeName ip port)
  | rpc (methodName : Text) (args : List Text) (id : Int64) : Created (.request methodName args id)
  | notification (methodName : Text) (args : List Text) :
      Created (createNotification methodName args)
  | responseOk (result : Text) (id : Int64) : Created (createResponseOk result id)
  | responseError (error : Text) (id : Int64) : Created (createResponseError error id)

/-- Whatever the counter is. -/
theorem created_createRpc (methodName : Text) (args : List Text) (rpcIdCounter : Int63) :
    Created (createRpc methodName args rpcIdCounter).1 :=
  .rpc methodName args (freshId rpcIdCounter).1

@[simp] theorem stringArgs_map (args : List Text) :
    stringArgs (args.map Json.string : List (Json φ)) = .ok args := by
  induction args with
  | nil => rfl
  | cons s rest ih =>
      rw [List.map_cons, stringArgs, ih]
      rfl

theorem elementsReadable_map_string (floats : Floats φ) (args : List Text) :
    ElementsReadable floats (args.map Json.string) := by
  induction args with
  | nil => trivial
  | cons s rest ih => exact ⟨trivial, ih⟩

/-- A created call has a JSON object without floating point numbers, which is
converted back into the call. -/
theorem rpcToJson_of_created (floats : Floats φ) {rpc : Rpc} (hcreated : Created rpc) :
    ∃ fields : List (Text × Json φ), rpcToJson rpc = .ok (.object fields) ∧
      FieldsReadable floats fields ∧ rpcOfJson (.object fields) = .ok (some rpc) := by
  cases hcreated with
  | hello n i p =>
      exact ⟨_, rfl, ⟨⟨trivial, trivial, trivial, trivial⟩, trivial⟩, by simp [rpcOfJson]⟩
  | rpc c args id =>
      have hargs := elementsReadable_map_string floats args
      refine ⟨_, rfl, ⟨⟨trivial, hargs, trivial, trivial⟩, trivial⟩, ?_⟩
      simp [rpcOfJson, bind, Except.bind, pure, Except.pure]
  | notification c args =>
      have hargs := elementsReadable_map_string floats args
      refine ⟨_, rfl, ⟨⟨trivial, hargs, trivial, trivial⟩, trivial⟩, ?_⟩
      simp [rpcOfJson, bind, Except.bind, pure, Except.pure, createNotification]
  | responseOk r id =>
      exact ⟨_, rfl, ⟨⟨trivial, trivial, trivial, trivial⟩, trivial⟩,
        by simp [rpcOfJson, createResponseOk]⟩
  | responseError e id =>
      exact ⟨_, rfl, ⟨⟨trivial, trivial, trivial, trivial⟩, trivial⟩,
        by simp [rpcOfJson, createResponseError]⟩

/-- What is read back is what was sent. -/
theorem rpcOfString_rpcToString (floats : Floats φ) {rpc : Rpc} (hcreated : Created rpc) :
    rpcToString floats rpc >>= rpcOfString floats = .ok (some rpc) := by
  obtain ⟨fields, hjson, hreadable, hrpc⟩ := rpcToJson_of_created floats hcreated
  have htext : rpcToString floats rpc = .ok (toText floats (.object fields)) := by
    rw [rpcToString, hjson]
    rfl
  rw [htext]
  change rpcOfString floats (toText floats (.object fields)) = _
  rw [rpcOfString, ofString_toText hreadable]
  exact hrpc

/-- A runtime for texts without floating point numbers. -/
def noFloats : Floats Empty := ⟨fun _ => none, fun r => nomatch r⟩

/-- Quotes, slashes, backslashes, control bytes and the least integer. -/
def oddRequest : Rpc :=
  .request "setup \"iodine\"".toList ["10/8".toList, ['\\', '\n', '\x01', 'ÿ']] Int64.minValue

theorem rpcOfString_rpcToString_oddRequest :
    rpcToString noFloats oddRequest >>= rpcOfString noFloats = .ok (some oddRequest) :=
  rpcOfString_rpcToString noFloats (.rpc _ _ _)

/-! ## The receiving thread -/

/-- What `recvfrom` leaves of a datagram in the buffer. -/
def received (datagram : Text) : Text := datagram.take 4096

/-- The calls of the handler, and the exception that ended the thread. -/
def thread (floats : Floats φ) : List Text → List (Option Rpc) × Option Exn
  | [] => ([], none)
  | datagram :: later =>
      match rpcOfString floats (received datagram) with
      | .error exn => ([], some exn)
      | .ok rpc => (rpc :: (thread floats later).1, (thread floats later).2)

/-- A datagram is handled: it is turned into a call or into nothing, and the
thread goes on with the handler called on that. -/
def Handled (floats : Floats φ) (datagram : Text) : Prop :=
  ∃ rpc, rpcOfString floats (received datagram) = .ok rpc ∧
    ∀ later, thread floats (datagram :: later) =
      (rpc :: (thread floats later).1, (thread floats later).2)

/-- The JSON of a request or of a notification, with its parameters. -/
inductive Call : Json φ → List (Json φ) → Prop
  | request (c : Text) (args : List (Json φ)) (id : Int64) :
      Call (.object [("request".toList, .object [("method".toList, .string c),
        ("params".toList, .array args), ("id".toList, .int id)])]) args
  | notification (c : Text) (args : List (Json φ)) :
      Call (.object [("notification".toList, .object [("method".toList, .string c),
        ("params".toList, .array args), ("id".toList, .null)])]) args

/-- If the text is that of a request or of a notification, then its parameters
are strings. -/
def ParamsAreStrings (floats : Floats φ) (s : Text) : Prop :=
  ∀ json args, ofString floats s = .ok json → Call json args →
    ∀ arg ∈ args, ∃ text, arg = .string text

theorem stringArgs_cases (args : List (Json φ)) :
    (∃ strings, stringArgs args = .ok strings ∧ args = strings.map .string) ∨
      stringArgs args = .error .matchFailure ∧ ∃ arg ∈ args, ∀ text, arg ≠ .string text := by
  induction args with
  | nil => exact .inl ⟨[], rfl, rfl⟩
  | cons arg rest ih =>
      cases arg with
      | string s =>
          rcases ih with ⟨strings, hok, rfl⟩ | ⟨hraise, other, hother, hnot⟩
          · exact .inl ⟨s :: strings, by rw [stringArgs, hok]; rfl, rfl⟩
          · refine .inr ⟨by rw [stringArgs, hraise]; rfl, other, ?_, hnot⟩
            exact List.mem_cons_of_mem _ hother
      | int | bool | float | array | object | null =>
          exact .inr ⟨rfl, _, List.mem_cons_self, fun _ heq => by cases heq⟩

theorem map_stringArgs_eq_ok_iff {args : List (Json φ)} {f : List Text → Option Rpc} :
    (∃ rpc, (stringArgs args >>= fun strings => pure (f strings)) = .ok rpc) ↔
      ∀ arg ∈ args, ∃ text, arg = Json.string text := by
  rcases stringArgs_cases args with ⟨strings, hok, rfl⟩ | ⟨hraise, arg, harg, hnot⟩
  · simp [hok, bind, Except.bind, pure, Except.pure]
  · rw [hraise]
    constructor
    · rintro ⟨rpc, hrpc⟩
      cases hrpc
    · intro hall
      obtain ⟨text, rfl⟩ := hall arg harg
      exact absurd rfl (hnot text)

theorem call_request_iff {kind first c second third : Text} {args others : List (Json φ)}
    {id : Int64} :
    Call (.object [(kind, .object [(first, .string c), (second, .array args),
        (third, .int id)])]) others ↔
      (kind = "request".toList ∧ first = "method".toList ∧ second = "params".toList ∧
        third = "id".toList) ∧ others = args := by
  constructor
  · intro hcall
    cases hcall
    exact ⟨⟨rfl, rfl, rfl, rfl⟩, rfl⟩
  · rintro ⟨⟨rfl, rfl, rfl, rfl⟩, rfl⟩
    exact .request c others id

theorem call_notification_iff {kind first c second third : Text} {args others : List (Json φ)} :
    Call (.object [(kind, .object [(first, .string c), (second, .array args),
        (third, .null)])]) others ↔
      (kind = "notification".toList ∧ first = "method".toList ∧ second = "params".toList ∧
        third = "id".toList) ∧ others = args := by
  constructor
  · intro hcall
    cases hcall
    exact ⟨⟨rfl, rfl, rfl, rfl⟩, rfl⟩
  · rintro ⟨⟨rfl, rfl, rfl, rfl⟩, rfl⟩
    exact .notification c others

/-- A JSON that is a call exactly when its keys are those of a call. The
parameters are looked at only then. -/
theorem keyed_eq_ok_iff {json : Json φ} {keys : Prop} [Decidable keys] {args : List (Json φ)}
    {f : List Text → Option Rpc} (hcall : ∀ others, Call json others ↔ keys ∧ others = args) :
    (∃ rpc, (if keys then stringArgs args >>= fun strings => pure (f strings)
        else Except.ok none) = .ok rpc) ↔
      ∀ others, Call json others → ∀ arg ∈ others, ∃ text, arg = .string text := by
  by_cases hkeys : keys
  · rw [if_pos hkeys, map_stringArgs_eq_ok_iff]
    constructor
    · intro hall others hother
      obtain ⟨_, rfl⟩ := (hcall others).mp hother
      exact hall
    · exact fun hall => hall args ((hcall args).mpr ⟨hkeys, rfl⟩)
  · rw [if_neg hkeys]
    exact iff_of_true ⟨none, rfl⟩ fun others hother => absurd ((hcall others).mp hother).1 hkeys

/-- The conversion raises exactly on a call with a parameter that is no string. -/
theorem rpcOfJson_eq_ok_iff (json : Json φ) :
    (∃ rpc, rpcOfJson json = .ok rpc) ↔
      ∀ args, Call json args → ∀ arg ∈ args, ∃ text, arg = .string text := by
  unfold rpcOfJson
  split
  case h_2 => exact keyed_eq_ok_iff fun _ => call_request_iff
  case h_3 => exact keyed_eq_ok_iff fun _ => call_notification_iff
  case h_6 _ hrequest hnotification _ _ =>
    refine iff_of_true ⟨none, rfl⟩ fun _ hcall => ?_
    cases hcall with
    | request c args id => exact (hrequest _ _ c _ _ _ id rfl).elim
    | notification c args => exact (hnotification _ _ c _ _ _ rfl).elim
  all_goals
    refine iff_of_true ⟨_, rfl⟩ fun args hcall => ?_
    cases hcall

/-- A datagram is handled exactly when it is no call with a parameter that is
not a string. -/
theorem handled_iff (floats : Floats φ) (datagram : Text) :
    Handled floats datagram ↔ ParamsAreStrings floats (received datagram) := by
  have hthread : Handled floats datagram ↔
      ∃ rpc, rpcOfString floats (received datagram) = .ok rpc := by
    refine ⟨fun ⟨rpc, hrpc, _⟩ => ⟨rpc, hrpc⟩, fun ⟨rpc, hrpc⟩ => ⟨rpc, hrpc, fun later => ?_⟩⟩
    rw [thread, hrpc]
  rw [hthread, rpcOfString, ParamsAreStrings]
  cases hjson : ofString floats (received datagram) with
  | error exn => exact iff_of_true ⟨none, rfl⟩ fun _ _ heq => by cases heq
  | ok json =>
      rw [rpcOfJson_eq_ok_iff]
      refine ⟨fun hall other args heq => ?_, fun hall args => hall json args rfl⟩
      obtain rfl := Except.ok.inj heq
      exact hall args

/-- A request whose parameter is a number. -/
def numericRequest : List (Text × Json φ) :=
  [("request".toList, .object [("method".toList, .string ['x']),
    ("params".toList, .array [.int 1]), ("id".toList, .int 1)])]

def numericDatagram : Text :=
  "\x7b\"request\": \x7b\"method\": \"x\", \"params\": [1], \"id\": 1\x7d\x7d".toList

theorem not_handled_numericDatagram :
    ¬ ∃ (φ : Type) (floats : Floats φ), ∀ datagram, Handled floats datagram := by
  rintro ⟨φ, floats, hclaim⟩
  have htext : toText floats (.object numericRequest) = received numericDatagram := rfl
  have hjson : ofString floats (received numericDatagram) = .ok (.object numericRequest) :=
    htext ▸ ofString_toText ⟨⟨trivial, ⟨trivial, trivial⟩, trivial, trivial⟩, trivial⟩
  obtain ⟨rpc, hrpc, _⟩ := hclaim numericDatagram
  rw [rpcOfString, hjson] at hrpc
  cases hrpc

end Signpost.Frost

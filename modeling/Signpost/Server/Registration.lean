import Mathlib.Data.List.Induction
import Mathlib.Data.List.Nodup
import Mathlib.Logic.Function.Basic

/-! # The signpost server

A web server with which signposts register under their addresses, and from
which the registered ones can be listed.
-/

namespace Signpost.Server

variable {ν : Type} [DecidableEq ν]

/-! ## The data of the server -/

/-- A record of a resource list. A field that is missing is `none`. -/
structure Resource (ν : Type) where
  ip : Option ν
  port : Option ν
  processName : Option ν
deriving DecidableEq

/-- The field `ip`, which is to be a list. A text is given by its characters, and a
dictionary by its keys. -/
inductive Addresses (ν : Type)
  | list (ips : List ν)
  | text (characters : List ν)
  | dict (keys : List ν)
  | scalar (value : ν)

/-- What a `for` loop goes through. -/
def Addresses.iterate : Addresses ν → Option (List ν)
  | .list values | .text values | .dict values => some values
  | .scalar _ => none

/-- JSON data as far as the server takes it apart. A dictionary may have the
fields that the server asks for, and an entry of a list may be a dictionary. -/
inductive Data (ν : Type)
  | dict (ip : Option (Addresses ν)) (port data : Option ν)
  | list (records : List (Option (Resource ν)))
  | text (value : ν) (isAscii : Bool)
  | scalar (value : ν)

/-- The first `content` argument of a request, as `json.loads` takes it. -/
inductive Content (ν : Type)
  | json (data : Data ν)
  | invalid

/-- An entry of the list of servers. -/
structure Entry (ν : Type) where
  ip : ν
  port : ν
deriving DecidableEq

/-- The services are kept by device, address and port. -/
structure SignpostData (ν : Type) where
  servers : List (Entry ν)
  service : String → ν → ν → Option ν

def SignpostData.initial : SignpostData ν := ⟨[], fun _ _ _ => none⟩

def addServer (servers : List (Entry ν)) (server : Entry ν) : List (Entry ν) :=
  if server ∈ servers then servers else servers ++ [server]

def addJsonServerList (state : SignpostData ν) (ips : List ν) (port : ν) : SignpostData ν :=
  { state with servers := ips.foldl (fun servers ip => addServer servers ⟨ip, port⟩) state.servers }

/-- The records of a list in which every entry is a dictionary with all fields. -/
def validateResourceList : Data ν → Option (List (ν × ν × ν))
  | .list records => records.mapM fun record => do
      let record ← record
      let ip ← record.ip
      let port ← record.port
      let processName ← record.processName
      pure (ip, port, processName)
  | _ => none

def addJsonResourceList (state : SignpostData ν) (device : String) (services : List (ν × ν × ν)) :
    SignpostData ν :=
  { state with
    service := services.foldl (fun service record =>
      Function.update service device (Function.update (service device) record.1
        (Function.update (service device record.1) record.2.1 (some record.2.2)))) state.service }

/-! ## Requests -/

/-- `str.lower`. -/
def lower (s : String) : String := String.ofList (s.toList.map Char.toLower)

/-- The path below the server, and the content if there is one. -/
structure Request (ν : Type) where
  postpath : List String
  content : Option (Content ν)

/-- Without content the data is an empty dictionary. There is none when `json.loads`
raises. -/
def Request.data (request : Request ν) : Option (Data ν) :=
  match request.content with
  | none => some (.dict none none none)
  | some (.json data) => some data
  | some .invalid => none

inductive Response (ν : Type)
  | notFound (message : String)
  | result
  | servers (servers : List (Entry ν))
  | html (path : List String)
  | none
  | typeError
  | valueError

/-- The test for `signpost` is nested in the branch of `register`, after both
of its returns. -/
def respond (state : SignpostData ν) (postpath : List String) (data : Data ν) :
    SignpostData ν × Response ν :=
  match postpath with
  | version :: service :: rest =>
      if lower version ≠ "v1" then (state, .notFound "Invalid url")
      else if lower service = "register" then
        match data with
        | .dict (some ip) (some port) _ =>
            match ip.iterate with
            | some ips => (addJsonServerList state ips port, .result)
            | none => (state, .typeError)
        -- the log message asks for `str` of the data, which encodes it
        | .text _ false => (state, .valueError)
        | _ => (state, .notFound "Cannot parse data section")
      else if lower service = "resources" ∧ rest ≠ [] then
        match rest with
        | _ :: device :: _ =>
            match data, validateResourceList data with
            | .scalar _, _ => (state, .typeError)
            | _, some (record :: records) =>
                -- the log message has fewer arguments than its format
                (addJsonResourceList state device (record :: records), .typeError)
            | _, _ => (state, .none)
        | _ => (state, .none)
      else (state, .html postpath)
  | _ => (state, .notFound "Invalid url")

def processRequest (state : SignpostData ν) (request : Request ν) :
    SignpostData ν × Response ν :=
  match request.data with
  | some data => respond state request.postpath data
  | none => (state, .valueError)

def processRequests (state : SignpostData ν) (requests : List (Request ν)) : SignpostData ν :=
  requests.foldl (fun state request => (processRequest state request).1) state

/-! ## Registration -/

/-- A request to register with these addresses and this port. -/
inductive Registers : Request ν → List ν → ν → Prop
  | intro {version service : String} {rest : List String} {ips : List ν} {port : ν}
      {data : Option ν} (hversion : lower version = "v1")
      (hservice : lower service = "register") :
      Registers ⟨version :: service :: rest,
        some (.json (.dict (some (.list ips)) (some port) data))⟩ ips port

/-- A request for the signposts, with a data field. -/
inductive AsksForSignposts : Request ν → Prop
  | intro {version service : String} {rest : List String} {ip : Option (Addresses ν)}
      {port : Option ν} {data : ν} (hversion : lower version = "v1")
      (hservice : lower service = "signpost") :
      AsksForSignposts ⟨version :: service :: rest, some (.json (.dict ip port (some data)))⟩

/-- The signpost was registered by one of the requests. -/
def Registered (requests : List (Request ν)) (server : Entry ν) : Prop :=
  ∃ request ∈ requests, ∃ ips port, Registers request ips port ∧ server.ip ∈ ips ∧
    server.port = port

/-- The response is a list of the registered signposts, each of them once. -/
def ListsRegistered (requests : List (Request ν)) (response : Response ν) : Prop :=
  ∃ servers, response = .servers servers ∧ servers.Nodup ∧
    ∀ server, server ∈ servers ↔ Registered requests server

theorem mem_addServer {servers : List (Entry ν)} {server other : Entry ν} :
    other ∈ addServer servers server ↔ other ∈ servers ∨ other = server := by
  unfold addServer
  split
  next hold => simpa using fun heq : other = server => heq ▸ hold
  next => simp

theorem nodup_addServer {servers : List (Entry ν)} (hservers : servers.Nodup)
    (server : Entry ν) : (addServer servers server).Nodup := by
  unfold addServer
  split
  next => exact hservers
  next hnew => exact List.nodup_append.mpr ⟨hservers, List.nodup_singleton _, by grind⟩

/-- The addresses of one request, with the port of the request. -/
theorem mem_foldl_addServer {servers : List (Entry ν)} {ips : List ν} {port : ν}
    {server : Entry ν} :
    server ∈ ips.foldl (fun servers ip => addServer servers ⟨ip, port⟩) servers ↔
      server ∈ servers ∨ server.ip ∈ ips ∧ server.port = port := by
  obtain ⟨ip, other⟩ := server
  induction ips generalizing servers with
  | nil => simp
  | cons first rest ih =>
      rw [List.foldl_cons, ih, mem_addServer, Entry.mk.injEq, List.mem_cons]
      tauto

theorem nodup_foldl_addServer {servers : List (Entry ν)} (hservers : servers.Nodup)
    (ips : List ν) (port : ν) :
    (ips.foldl (fun servers ip => addServer servers ⟨ip, port⟩) servers).Nodup := by
  induction ips generalizing servers with
  | nil => exact hservers
  | cons first rest ih => exact ih (nodup_addServer hservers _)

/-! ## Asking for the signposts -/

theorem processRequest_of_asks {state : SignpostData ν} {request : Request ν}
    (hasks : AsksForSignposts request) :
    processRequest state request = (state, .html request.postpath) := by
  obtain @⟨version, service, rest, _, _, _, hversion, hservice⟩ := hasks
  have hregister : lower service ≠ "register" := by
    rw [hservice]
    decide
  have hresources : ¬ (lower service = "resources" ∧ rest ≠ []) := by
    rintro ⟨heq, _⟩
    rw [hservice] at heq
    exact absurd heq (by decide)
  change (if lower version ≠ "v1" then _ else if lower service = "register" then _
    else if lower service = "resources" ∧ rest ≠ [] then _
    else (state, Response.html (version :: service :: rest))) = _
  rw [if_neg (not_not_intro hversion), if_neg hregister, if_neg hresources]

/-- No request lists the signposts, whatever has been registered. -/
theorem not_listsRegistered {requests : List (Request ν)} {request : Request ν}
    (hasks : AsksForSignposts request) :
    ¬ ListsRegistered requests
      (processRequest (processRequests .initial requests) request).2 := by
  rintro ⟨servers, hresponse, _⟩
  rw [processRequest_of_asks hasks] at hresponse
  cases hresponse

/-- The request of the usage comment, and the one that should list it. -/
def registration : Request String :=
  ⟨["v1", "register"], some (.json (.dict (some (.list ["10.10.0.3"])) (some "8080") none))⟩

def listing : Request String := ⟨["v1", "signpost"], some (.json (.dict none none (some "")))⟩

theorem registers_registration : Registers registration ["10.10.0.3"] "8080" :=
  .intro (by decide) (by decide)

theorem asksForSignposts_listing : AsksForSignposts listing := .intro (by decide) (by decide)

theorem not_listsRegistered_listing :
    ¬ ListsRegistered [registration]
      (processRequest (processRequests .initial [registration]) listing).2 :=
  not_listsRegistered asksForSignposts_listing

theorem not_forall_listsRegistered :
    ¬ ∀ (requests : List (Request String)) (request : Request String),
      (∀ other ∈ requests, ∃ ips port, Registers other ips port) → AsksForSignposts request →
        ListsRegistered requests
          (processRequest (processRequests .initial requests) request).2 := by
  intro hclaim
  obtain ⟨servers, hresponse, _⟩ := hclaim [registration] listing
    (by simpa using ⟨_, _, registers_registration⟩) asksForSignposts_listing
  rw [processRequest_of_asks asksForSignposts_listing] at hresponse
  cases hresponse

end Signpost.Server

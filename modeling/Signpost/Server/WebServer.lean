import Signpost.Machine.Run
import Signpost.Server.Resources

/-! # The web server over many requests

One object of the server keeps both the list of signposts and the table of services, for all
requests. What is kept says what has been sent, and no response says what is kept.
-/

namespace Signpost.WebServer

open Bloom Machine
open Server (Addresses Content Data Entry addServer lower validateResourceList)
open Resources (PyError Record Row Scalar Table Touches Value addJsonResourceList storable)

/-! ## The server -/

structure SignpostData where
  servers : List (Entry Value)
  service : Table

def SignpostData.initial : SignpostData := ⟨[], .empty⟩

abbrev Request := Server.Request Value

inductive Response
  | notFound (message : String)
  | result
  | html (path : List String)
  | none
  | json (service : Table)
  | raised (e : PyError)

/-- What is returned or raised for a path with a domain and a device. -/
def Response.ofResources : Resources.Response → Response
  | .json service => .json service
  | .none => .none
  | .raised e => .raised e

def addJsonServerList (servers : List (Entry Value)) (ips : List Value) (port : Value) :
    List (Entry Value) :=
  ips.foldl (fun servers ip => addServer servers ⟨ip, port⟩) servers

def respond (state : SignpostData) (postpath : List String) (data : Data Value) :
    SignpostData × Response :=
  match postpath with
  | version :: service :: rest =>
      if lower version ≠ "v1" then (state, .notFound "Invalid url")
      else if lower service = "register" then
        match data with
        | .dict (some ip) (some port) _ =>
            match ip.iterate with
            | some ips =>
                ({ state with servers := addJsonServerList state.servers ips port }, .result)
            | none => (state, .raised .typeError)
        -- the log message asks for `str` of the data, which encodes it
        | .text _ false => (state, .raised .valueError)
        | _ => (state, .notFound "Cannot parse data section")
      else if lower service = "resources" ∧ rest ≠ [] then
        match rest with
        | _ :: device :: _ =>
            let (service, response) := Resources.processRequest state.service device data
            ({ state with service }, .ofResources response)
        | _ => (state, .none)
      else (state, .html postpath)
  | _ => (state, .notFound "Invalid url")

def processRequest (state : SignpostData) (request : Request) : SignpostData × Response :=
  match request.data with
  | some data => respond state request.postpath data
  | none => (state, .raised .valueError)

def step (state : SignpostData) (request : Request) : Except Empty (SignpostData × Response) :=
  .ok (processRequest state request)

/-! ## What is sent -/

/-- A request to register what a loop over its addresses goes through. -/
inductive Registers : Request → List Value → Value → Prop
  | intro {version service : String} {rest : List String} {ip : Addresses Value}
      {ips : List Value} {port : Value} {data : Option Value} (hversion : lower version = "v1")
      (hservice : lower service = "register") (hips : ip.iterate = some ips) :
      Registers ⟨version :: service :: rest,
        some (.json (.dict (some ip) (some port) data))⟩ ips port

/-- The address and the port were registered by one of the requests. -/
def Registered (requests : List Request) (server : Entry Value) : Prop :=
  ∃ request ∈ requests, ∃ ips port, Registers request ips port ∧ server.ip ∈ ips ∧
    server.port = port

/-- A request to add records to a device. -/
inductive Posts : Request → String → List Record → Prop
  | intro {version service domain device : String} {rest : List String} {data : Data Value}
      {records : List Record} (hversion : lower version = "v1")
      (hservice : lower service = "resources") (hvalid : validateResourceList data = some records) :
      Posts ⟨version :: service :: domain :: device :: rest, some (.json data)⟩ device records

/-- The device of a request with its records. -/
def posted (request : Request) : Option (String × List Record) :=
  match request.postpath, request.content with
  | version :: service :: _ :: device :: _, some (.json data) =>
      if lower version = "v1" ∧ lower service = "resources" then
        (validateResourceList data).map fun records => (device, records)
      else none
  | _, _ => none

/-- A process name that a request stores. -/
structure Posting where
  device : String
  row : Row

def Posting.key (posting : Posting) : String × Scalar × Scalar := (posting.device, posting.row.key)

/-- The records of a request up to the first one that cannot be stored. -/
def postings (request : Request) : List Posting :=
  match posted request with
  | some (device, records) => (storable records).map (Posting.mk device)
  | none => []

def allPostings (requests : List Request) : List Posting := requests.flatMap postings

/-- The data holds what the requests have sent, and nothing else. -/
structure Holds (requests : List Request) (state : SignpostData) : Prop where
  nodup : state.servers.Nodup
  servers : ∀ server, server ∈ state.servers ↔ Registered requests server
  devices : ∀ device, (state.service device).isSome ↔
    ∃ request ∈ requests, ∃ records, Posts request device records ∧ Touches records
  addresses : ∀ device ip, (state.service.addresses device ip).isSome ↔
    ∃ posting ∈ allPostings requests, posting.device = device ∧ posting.row.ip = ip
  /-- For an address and a port the last process name counts. -/
  lookup : ∀ device ip port, state.service.lookup device ip port =
    (latest Posting.key (allPostings requests) (device, ip, port)).map
      fun posting => posting.row.processName

/-! ## What a request does -/

inductive Processed (state : SignpostData) (request : Request) : SignpostData → Response → Prop
  | registered {ips : List Value} {port : Value} (hregisters : Registers request ips port) :
      Processed state request
        { state with servers := addJsonServerList state.servers ips port } .result
  | posted {device : String} {records : List Record} {e : PyError}
      (hposts : Posts request device records) (hne : records ≠ []) :
      Processed state request
        { state with service := (addJsonResourceList device state.service records).1 } (.raised e)
  | other {response : Response} (hregisters : ∀ ips port, ¬ Registers request ips port)
      (hposts : ∀ device records, Posts request device records → records = []) :
      Processed state request state response

/-- Nothing is added without records. -/
theorem fst_processRequest_of_not_records {data : Data Value} (service : Table) (device : String)
    (hnone : ∀ records, validateResourceList data = some records → records = []) :
    (Resources.processRequest service device data).1 = service := by
  unfold Resources.processRequest
  split
  next => rfl
  next record records hvalid => exact absurd (hnone _ hvalid) (List.cons_ne_nil _ _)
  next => rfl

/-- The data is what has been sent, or nothing has been sent. -/
theorem content_of_data {request : Request} {data : Data Value}
    (hdata : request.data = some data) :
    request.content = some (.json data) ∨
      request.content = none ∧ data = .dict none none none := by
  unfold Server.Request.data at hdata
  split at hdata
  next hnone => exact .inr ⟨hnone, (Option.some.inj hdata).symm⟩
  next sent hsent =>
    obtain rfl := Option.some.inj hdata
    exact .inl hsent
  next => cases hdata

section

variable {version service : String} {rest : List String} {content : Option (Content Value)}
  {state : SignpostData} {data : Data Value}

/-- A path that is neither for registering nor for resources. -/
theorem Processed.of_path {response : Response}
    (hregister : lower version = "v1" → lower service ≠ "register")
    (hresources : lower version = "v1" → lower service ≠ "resources") :
    Processed state ⟨version :: service :: rest, content⟩ state response := by
  refine .other ?_ ?_
  · rintro ips port ⟨hversion, hservice, -⟩
    exact hregister hversion hservice
  · rintro device records ⟨hversion, hservice, -⟩
    exact absurd hservice (hresources hversion)

theorem processed_register (hversion : lower version = "v1")
    (hservice : lower service = "register") (state : SignpostData)
    (hdata : Server.Request.data ⟨version :: service :: rest, content⟩ = some data) :
    Processed state ⟨version :: service :: rest, content⟩
      (respond state (version :: service :: rest) data).1
      (respond state (version :: service :: rest) data).2 := by
  have hposts : ∀ device records,
      Posts ⟨version :: service :: rest, content⟩ device records → records = [] := by
    rintro device records ⟨-, hresources, -⟩
    rw [hservice] at hresources
    exact absurd hresources (by decide)
  simp only [respond, hversion, hservice, ne_eq, not_true_eq_false, if_false, if_true]
  split
  next ip port other =>
    obtain rfl : content = some (.json (.dict (some ip) (some port) other)) :=
      (content_of_data hdata).resolve_right fun hnone => by cases hnone.2
    split
    next ips hips => exact .registered (.intro hversion hservice hips)
    -- a number, a truth value or null is not gone through
    next hscalar =>
      refine .other ?_ hposts
      rintro ips port ⟨-, -, hips⟩
      rw [hscalar] at hips
      cases hips
  next value =>
    refine .other ?_ hposts
    rintro ips port ⟨-, -, -⟩
    cases hdata
  -- no addresses or no port, and nothing is registered
  next hother _ =>
    refine .other ?_ hposts
    rintro ips port ⟨-, -, -⟩
    exact hother _ _ _ (Option.some.inj hdata).symm

theorem processed_resources (hversion : lower version = "v1")
    (hservice : lower service = "resources") (state : SignpostData) (domain device : String)
    (hdata : Server.Request.data ⟨version :: service :: domain :: device :: rest, content⟩ =
      some data) :
    Processed state ⟨version :: service :: domain :: device :: rest, content⟩
      (respond state (version :: service :: domain :: device :: rest) data).1
      (respond state (version :: service :: domain :: device :: rest) data).2 := by
  have hregister : lower service ≠ "register" := by
    rw [hservice]
    decide
  have hregisters : ∀ ips port, ¬ Registers
      (⟨version :: service :: domain :: device :: rest, content⟩ : Request) ips port := by
    rintro ips port ⟨-, hother, -⟩
    exact hregister hother
  simp only [respond, hversion, hservice, ne_eq, not_true_eq_false, if_false,
    reduceCtorEq, not_false_eq_true, and_self, if_true]
  by_cases hnone : ∀ records, validateResourceList data = some records → records = []
  · rw [fst_processRequest_of_not_records state.service device hnone]
    refine .other hregisters ?_
    rintro other records ⟨-, -, hvalid⟩
    obtain rfl := Option.some.inj hdata
    exact hnone records hvalid
  -- a list of records is added, and then the response cannot be made
  · simp only [not_forall] at hnone
    obtain ⟨records, hvalid, hne⟩ := hnone
    obtain rfl : content = some (.json data) := by
      refine (content_of_data hdata).resolve_right fun hempty => ?_
      rw [hempty.2] at hvalid
      cases hvalid
    obtain ⟨⟨e, hraised⟩, htable⟩ :=
      Resources.processRequest_of_records hvalid hne state.service device
    rw [hraised, htable]
    exact .posted (.intro hversion hservice hvalid) hne

end

theorem processed_respond (state : SignpostData) {request : Request} {data : Data Value}
    (hdata : request.data = some data) :
    Processed state request (respond state request.postpath data).1
      (respond state request.postpath data).2 := by
  obtain ⟨_ | ⟨version, _ | ⟨service, rest⟩⟩, content⟩ := request
  · exact .other (by rintro ips port ⟨⟩) (by rintro device records ⟨⟩)
  · exact .other (by rintro ips port ⟨⟩) (by rintro device records ⟨⟩)
  by_cases hversion : lower version = "v1"
  · by_cases hregister : lower service = "register"
    · exact processed_register hversion hregister state hdata
    by_cases hresources : lower service = "resources"
    · have hregisters : ∀ ips port,
          ¬ Registers (⟨version :: service :: rest, content⟩ : Request) ips port := by
        rintro ips port ⟨-, hother, -⟩
        exact hregister hother
      rcases rest with _ | ⟨domain, _ | ⟨device, rest⟩⟩
      · simp only [respond, hversion, hregister, ne_eq, not_true_eq_false, if_false,
          and_false]
        exact .other hregisters (by rintro device records ⟨⟩)
      · simp only [respond, hversion, hresources, ne_eq, not_true_eq_false, if_false,
          reduceCtorEq, not_false_eq_true, and_self, if_true]
        exact .other hregisters (by rintro device records ⟨⟩)
      · exact processed_resources hversion hresources state domain device hdata
    · simp only [respond, hversion, hregister, hresources, ne_eq, not_true_eq_false,
        if_false, false_and]
      exact .of_path (fun _ => hregister) fun _ => hresources
  · simp only [respond, hversion, ne_eq, not_false_eq_true, if_true]
    exact .of_path (fun heq => absurd heq hversion) fun heq => absurd heq hversion

theorem processed_processRequest (state : SignpostData) (request : Request) :
    Processed state request (processRequest state request).1 (processRequest state request).2 := by
  unfold processRequest
  cases hdata : request.data with
  | some data => exact processed_respond state hdata
  | none =>
      -- what is no JSON neither registers nor posts
      refine .other ?_ ?_
      · rintro ips port ⟨-, -, -⟩
        cases hdata
      · rintro device records ⟨-, -, -⟩
        cases hdata

/-- No path is for registering and for resources. -/
theorem Posts.not_registers {request : Request} {device : String} {records : List Record}
    (hposts : Posts request device records) (ips : List Value) (port : Value) :
    ¬ Registers request ips port := by
  rintro ⟨-, hregister, -⟩
  obtain ⟨-, hservice, -⟩ := hposts
  rw [hservice] at hregister
  exact absurd hregister (by decide)

/-! ## What is kept -/

theorem posted_eq_some_iff {request : Request} {device : String} {records : List Record} :
    posted request = some (device, records) ↔ Posts request device records := by
  unfold posted
  constructor
  · intro hposted
    split at hposted
    next version service domain other rest data hpath hcontent =>
      split at hposted
      next hboth =>
        obtain ⟨valid, hvalid, heq⟩ := Option.map_eq_some_iff.mp hposted
        cases heq
        obtain ⟨path, content⟩ := request
        cases hpath
        cases hcontent
        exact .intro hboth.1 hboth.2 hvalid
      next => cases hposted
    next => cases hposted
  · rintro ⟨hversion, hservice, hvalid⟩
    simp [hversion, hservice, hvalid]

theorem postings_of_posts {request : Request} {device : String} {records : List Record}
    (hposts : Posts request device records) :
    postings request = (storable records).map (Posting.mk device) := by
  rw [postings, posted_eq_some_iff.mpr hposts]

theorem postings_eq_nil {request : Request}
    (hposts : ∀ device records, Posts request device records → records = []) :
    postings request = [] := by
  unfold postings
  split
  next device records hposted =>
    rw [hposts device records (posted_eq_some_iff.mp hposted)]
    rfl
  next => rfl

theorem allPostings_concat (requests : List Request) (request : Request) :
    allPostings (requests ++ [request]) = allPostings requests ++ postings request := by
  simp [allPostings]

theorem registered_concat {requests : List Request} {request : Request} {server : Entry Value} :
    Registered (requests ++ [request]) server ↔ Registered requests server ∨
      ∃ ips port, Registers request ips port ∧ server.ip ∈ ips ∧ server.port = port := by
  simp only [Registered, List.mem_append, List.mem_singleton, or_and_right, exists_or,
    exists_eq_left]

section

variable {table : Table} {device : String}

theorem addresses_openDevice (other : String) (ip : Scalar) :
    (table.openDevice device).addresses other ip = table.addresses other ip := by
  unfold Table.addresses Table.openDevice
  by_cases hother : other = device
  · subst hother
    cases hdevice : table other with
    | none => simp
    | some addresses => simp
  · rw [Function.update_of_ne hother]

theorem lookup_openDevice (other : String) (ip port : Scalar) :
    (table.openDevice device).lookup other ip port = table.lookup other ip port := by
  rw [Table.lookup, addresses_openDevice, Table.lookup]

theorem isSome_openDevice_iff (other : String) :
    (table.openDevice device other).isSome ↔ other = device ∨ (table other).isSome := by
  unfold Table.openDevice
  by_cases hother : other = device
  · simp [hother]
  · simp [hother]

theorem latest_map_posting (rows : List Row) (other : String) (ip port : Scalar) :
    latest Posting.key (rows.map (Posting.mk device)) (other, ip, port) =
      if other = device then (latest Row.key rows (ip, port)).map (Posting.mk device)
      else none := by
  rw [latest_map]
  split
  next heq =>
    subst heq
    simp [latest, Posting.key]
  next hne =>
    rw [Option.map_eq_none_iff, latest_eq_none_iff]
    intro row hrow hkey
    exact hne (Prod.mk.inj hkey).1.symm

variable (table) (records : List Record)

/-- The device is there as soon as the port of the first record can be formatted. -/
theorem isSome_addJsonResourceList (other : String) :
    ((addJsonResourceList device table records).1 other).isSome ↔
      (other = device ∧ Touches records) ∨ (table other).isSome := by
  obtain ⟨htouched, huntouched⟩ := Resources.addJsonResourceList_table device table records
  by_cases htouches : Touches records
  · rw [htouched htouches, isSome_openDevice_iff, Resources.isSome_storeRows]
    tauto
  · rw [huntouched htouches]
    tauto

theorem isSome_addresses_addJsonResourceList (other : String) (ip : Scalar) :
    ((addJsonResourceList device table records).1.addresses other ip).isSome ↔
      (other = device ∧ ∃ row ∈ storable records, row.ip = ip) ∨
        (table.addresses other ip).isSome := by
  obtain ⟨htouched, huntouched⟩ := Resources.addJsonResourceList_table device table records
  by_cases htouches : Touches records
  · rw [htouched htouches, addresses_openDevice, Resources.isSome_addresses_storeRows]
  · rw [huntouched htouches, Resources.storable_of_not_touches htouches]
    simp

theorem lookup_addJsonResourceList (other : String) (ip port : Scalar) :
    (addJsonResourceList device table records).1.lookup other ip port =
      if other = device then
        ((latest Row.key (storable records) (ip, port)).map Row.processName).or
          (table.lookup other ip port)
      else table.lookup other ip port := by
  obtain ⟨htouched, huntouched⟩ := Resources.addJsonResourceList_table device table records
  by_cases htouches : Touches records
  · rw [htouched htouches, lookup_openDevice, Resources.lookup_storeRows]
  · rw [huntouched htouches, Resources.storable_of_not_touches htouches]
    simp [latest]

end

section

variable {requests : List Request} {request : Request} {state : SignpostData}

theorem Holds.register {ips : List Value} {port : Value} (hholds : Holds requests state)
    (hregisters : Registers request ips port) :
    Holds (requests ++ [request])
      { state with servers := addJsonServerList state.servers ips port } := by
  have hposts : ∀ device records, ¬ Posts request device records :=
    fun device records hposted => hposted.not_registers ips port hregisters
  have hpostings : allPostings (requests ++ [request]) = allPostings requests := by
    rw [allPostings_concat, postings_eq_nil fun device records h => absurd h (hposts _ _),
      List.append_nil]
  refine ⟨?_, fun server => ?_, fun device => ?_, ?_, ?_⟩
  · exact Server.nodup_foldl_addServer hholds.nodup ips port
  · have hmem : server ∈ addJsonServerList state.servers ips port ↔ _ := Server.mem_foldl_addServer
    rw [registered_concat, ← hholds.servers]
    refine hmem.trans (or_congr_right ⟨fun h => ⟨ips, port, hregisters, h⟩, ?_⟩)
    rintro ⟨_, _, hother, hserver⟩
    obtain ⟨-, -, hips⟩ := hregisters
    obtain ⟨-, -, hips'⟩ := hother
    obtain rfl := Option.some.inj (hips'.symm.trans hips)
    exact hserver
  · rw [hholds.devices]
    simp [hposts]
  · rw [hpostings]
    exact hholds.addresses
  · rw [hpostings]
    exact hholds.lookup

theorem Holds.other (hholds : Holds requests state)
    (hregisters : ∀ ips port, ¬ Registers request ips port)
    (hposts : ∀ device records, Posts request device records → records = []) :
    Holds (requests ++ [request]) state := by
  have hpostings : allPostings (requests ++ [request]) = allPostings requests := by
    rw [allPostings_concat, postings_eq_nil hposts, List.append_nil]
  refine ⟨hholds.nodup, fun server => ?_, fun device => ?_, ?_, ?_⟩
  · rw [registered_concat, hholds.servers]
    simp [hregisters]
  · have hnone : ∀ records, Posts request device records → ¬ Touches records := by
      rintro records hrecords ⟨ip, port, processName, hhead⟩
      rw [hposts device records hrecords] at hhead
      cases hhead
    rw [hholds.devices]
    simp only [List.mem_append, List.mem_singleton, or_and_right, exists_or, exists_eq_left]
    refine (or_iff_left ?_).symm
    rintro ⟨records, hrecords, htouches⟩
    exact hnone records hrecords htouches
  · rw [hpostings]
    exact hholds.addresses
  · rw [hpostings]
    exact hholds.lookup

theorem Holds.post {device : String} {records : List Record} (hholds : Holds requests state)
    (hposts : Posts request device records) :
    Holds (requests ++ [request])
      { state with service := (addJsonResourceList device state.service records).1 } := by
  have hregisters := hposts.not_registers
  -- a request is for one device
  have honly : ∀ other others, Posts request other others → other = device ∧ others = records := by
    intro other others hother
    exact Prod.mk.inj (Option.some.inj
      ((posted_eq_some_iff.mpr hother).symm.trans (posted_eq_some_iff.mpr hposts)))
  have hpostings : allPostings (requests ++ [request]) =
      allPostings requests ++ (storable records).map (Posting.mk device) := by
    rw [allPostings_concat, postings_of_posts hposts]
  refine ⟨hholds.nodup, fun server => ?_, fun other => ?_, fun other ip => ?_,
    fun other ip port => ?_⟩
  · rw [registered_concat, hholds.servers]
    simp [hregisters]
  · rw [isSome_addJsonResourceList, hholds.devices]
    simp only [List.mem_append, List.mem_singleton, or_and_right, exists_or, exists_eq_left]
    rw [or_comm]
    refine or_congr_right ⟨?_, ?_⟩
    · rintro ⟨rfl, htouches⟩
      exact ⟨records, hposts, htouches⟩
    · rintro ⟨others, hother, htouches⟩
      obtain ⟨rfl, rfl⟩ := honly other others hother
      exact ⟨rfl, htouches⟩
  · rw [isSome_addresses_addJsonResourceList, hholds.addresses, hpostings]
    simp only [List.mem_append, or_and_right, exists_or]
    rw [or_comm]
    refine or_congr_right ⟨?_, ?_⟩
    · rintro ⟨rfl, row, hrow, hip⟩
      exact ⟨_, List.mem_map_of_mem hrow, rfl, hip⟩
    · rintro ⟨posting, hposting, rfl, hip⟩
      obtain ⟨row, hrow, rfl⟩ := List.mem_map.mp hposting
      exact ⟨rfl, row, hrow, hip⟩
  · rw [lookup_addJsonResourceList, hholds.lookup, hpostings, latest_append, latest_map_posting]
    by_cases hdevice : other = device
    · rw [if_pos hdevice, if_pos hdevice, Option.map_or, Option.map_map]
      rfl
    · rw [if_neg hdevice, if_neg hdevice, Option.none_or]

end

/-! ## What is answered -/

theorem snd_addJsonResourceList (device : String) (table other : Table) (records : List Record) :
    (addJsonResourceList device table records).2 =
      (addJsonResourceList device other records).2 := by
  fun_induction addJsonResourceList device table records generalizing other with
  | case1 table => rfl
  | case2 table ip port processName rest ih => exact ih _
  | case3 table text port processName rest => rfl
  | case4 table ip negative processName rest => cases ip <;> rfl
  | case5 table record rest hstored hcontainer hinfinity =>
      rw [addJsonResourceList]
      · exact hstored
      · exact hcontainer
      · exact hinfinity

/-- The table would be in a response that no list of records gets. -/
theorem snd_processRequest_resources (device : String) (data : Data Value) (table other : Table) :
    (Resources.processRequest table device data).2 =
      (Resources.processRequest other device data).2 := by
  unfold Resources.processRequest
  split
  next => rfl
  next record records _ hvalid =>
    have hsame := snd_addJsonResourceList device table other (record :: records)
    generalize addJsonResourceList device table (record :: records) = added at hsame ⊢
    generalize addJsonResourceList device other (record :: records) = others at hsame ⊢
    obtain ⟨_, e⟩ := added
    obtain ⟨_, e'⟩ := others
    obtain rfl : e = e' := hsame
    cases e with
    | none => rfl
    | some e => rfl
  next => rfl

theorem snd_respond (state other : SignpostData) (postpath : List String) (data : Data Value) :
    (respond state postpath data).2 = (respond other postpath data).2 := by
  simp only [respond]
  split
  next version service rest =>
    split
    next => rfl
    next =>
      split
      next =>
        split
        next =>
          split
          next => rfl
          next => rfl
        next => rfl
        next => rfl
      next =>
        split
        next =>
          split
          next => exact congrArg Response.ofResources (snd_processRequest_resources ..)
          next => rfl
        next => rfl
  next => rfl

/-- The response to a request is the same whatever is kept. -/
theorem snd_processRequest (state other : SignpostData) (request : Request) :
    (processRequest state request).2 = (processRequest other request).2 := by
  unfold processRequest
  split
  next => exact snd_respond ..
  next => rfl

/-! ## Every run -/

theorem holds_step {requests : List Request} {state next : SignpostData} {request : Request}
    {response : Response} (hholds : Holds requests state)
    (hstep : step state request = .ok (next, response)) : Holds (requests ++ [request]) next := by
  have hprocessed := processed_processRequest state request
  rw [Except.ok.inj hstep] at hprocessed
  cases hprocessed with
  | registered hregisters => exact hholds.register hregisters
  | posted hposts _ => exact hholds.post hposts
  | other hregisters hposts => exact hholds.other hregisters hposts

def registering (ip : Addresses Value) : Request :=
  ⟨["v1", "register"], some (.json (.dict (some ip) (some (.scalar (.number 8080))) none))⟩

def posting : Request :=
  ⟨["v1", "resources", "haris.sp", "laptop"], some (.json Resources.posted)⟩

/-- An address in a list, a text and a number for addresses, what is no JSON, and records. -/
def requests : List Request :=
  [registering (.list [.scalar (.text "10.10.0.3")]),
    registering (.text [.scalar (.text "h"), .scalar (.text "i")]),
    registering (.scalar (.scalar (.number 1))), ⟨["v1", "register"], some .invalid⟩, posting]

end Signpost.WebServer

import Mathlib.Data.Rat.Defs
import Signpost.Bloom.History
import Signpost.Server.Registration

/-! # Adding resources

The server stores the records of a resource list one by one, and asks Python to
format and to hash their fields on the way. A record can fail after others have
been stored.
-/

namespace Signpost.Resources

open Bloom
open Server (Data validateResourceList)

/-! ## The service table -/

/-- A JSON value that can be a key. Python takes `true`, `1` and `1.0` for the
same key, and reads a number that is too large as an infinity. -/
inductive Scalar
  | null
  | number (value : ℚ)
  | infinity (negative : Bool)
  | text (s : String)
deriving DecidableEq

/-- A field of a record. A list or a dictionary cannot be a key, and is known by a
text that it shares with those that are equal to it. -/
inductive Value
  | scalar (value : Scalar)
  | container (text : String)
deriving DecidableEq

/-- Process names by device, address and port. -/
abbrev Table := String → Option (Scalar → Option (Scalar → Option Value))

def Table.empty : Table := fun _ => none

namespace Table

variable (table : Table)

def addresses (device : String) (ip : Scalar) : Option (Scalar → Option Value) :=
  (table device).bind fun addresses => addresses ip

def lookup (device : String) (ip port : Scalar) : Option Value :=
  (table.addresses device ip).bind fun ports => ports port

/-- A device gets an entry before its first address is looked for. -/
def openDevice (device : String) : Table :=
  Function.update table device (some ((table device).getD fun _ => none))

def store (device : String) (ip port : Scalar) (processName : Value) : Table :=
  let addresses := (table device).getD fun _ => none
  let ports := (addresses ip).getD fun _ => none
  Function.update table device
    (some (Function.update addresses ip (some (Function.update ports port (some processName)))))

end Table

/-! ## The request -/

inductive PyError
  | typeError
  | valueError
  | overflowError
deriving DecidableEq, Repr

/-- The address, the port and the process name of a record. -/
abbrev Record := Value × Value × Value

/-- A record is formatted with `%d` for its port. After that its device gets an
entry, and its address is hashed. -/
def addJsonResourceList (device : String) : Table → List Record → Table × Option PyError
  | table, [] => (table, none)
  | table, (.scalar ip, .scalar (.number port), processName) :: rest =>
      addJsonResourceList device (table.store device ip (.number port) processName) rest
  | table, (.container _, .scalar (.number _), _) :: _ =>
      (table.openDevice device, some .typeError)
  | table, (_, .scalar (.infinity _), _) :: _ => (table, some .overflowError)
  | table, _ :: _ => (table, some .typeError)

/-- The operator `%` of strings, which needs an argument for each of its
conversions. -/
def percent (conversions arguments : ℕ) : Option PyError :=
  if arguments = conversions then none else some .typeError

inductive Response
  | json (service : Table)
  | none
  | raised (e : PyError)

/-- `process_request` for a path `v1/resources` with a domain and a device. The
message of its log has two conversions and one argument. -/
def processRequest (service : Table) (device : String) (data : Data Value) : Table × Response :=
  match data, validateResourceList data with
  | .scalar _, _ => (service, .raised .typeError)
  | _, some (record :: records) =>
      match addJsonResourceList device service (record :: records) with
      | (service, some e) => (service, .raised e)
      | (service, none) =>
          match percent 2 1 with
          | some e => (service, .raised e)
          | none => (service, .json service)
  | _, _ => (service, .none)

/-- The request fails and leaves the table as it was, or it returns a table with
all of its records. -/
def AllOrNothing (service : Table) (device : String) (data : Data Value)
    (records : List Record) : Prop :=
  ((∃ e, (processRequest service device data).2 = .raised e) ∧
    (processRequest service device data).1 = service) ∨
  ∃ shown, (processRequest service device data).2 = .json shown ∧
    (processRequest service device data).1 = shown ∧
    ∀ ip port processName, (ip, port, processName) ∈ records →
      ∃ ipKey portKey, ip = .scalar ipKey ∧ port = .scalar portKey ∧
        shown.lookup device ipKey portKey = some processName

/-! ## Records that are stored -/

structure Row where
  ip : Scalar
  port : Scalar
  processName : Value
deriving DecidableEq

def Row.key (row : Row) : Scalar × Scalar := (row.ip, row.port)

/-- The records before the first one that fails. -/
def storable : List Record → List Row
  | (.scalar ip, .scalar (.number port), processName) :: rest =>
      ⟨ip, .number port, processName⟩ :: storable rest
  | _ => []

/-- The first record has a port that can be formatted. -/
def Touches (records : List Record) : Prop :=
  ∃ ip port processName, records.head? = some (ip, .scalar (.number port), processName)

/-- The records leave the table as it is: the device is there if one of them gets
so far, and what the last of them stores for an address and a port is there. -/
structure AlreadyStored (service : Table) (device : String) (records : List Record) : Prop where
  ne_nil : records ≠ []
  known : Touches records → (service device).isSome
  stored : ∀ row, latest Row.key (storable records) row.key = some row →
    service.lookup device row.ip row.port = some row.processName

def storeRows (device : String) (table : Table) (rows : List Row) : Table :=
  rows.foldl (fun table row => table.store device row.ip row.port row.processName) table

namespace Table

variable {table other : Table} {device : String}

/-- Two tables with the same devices, addresses and process names. -/
theorem ext (hdevices : ∀ device, (table device).isSome = (other device).isSome)
    (haddresses : ∀ device ip,
      (table.addresses device ip).isSome = (other.addresses device ip).isSome)
    (hlookup : ∀ device ip port, table.lookup device ip port = other.lookup device ip port) :
    table = other := by
  funext device
  have hdevice := hdevices device
  cases hleft : table device with
  | none => cases hright : other device <;> simp_all
  | some left =>
      cases hright : other device with
      | none => simp_all
      | some right =>
          congr 1
          funext ip
          have haddress := haddresses device ip
          have hports := hlookup device ip
          simp only [lookup, addresses, hleft, hright, Option.bind_some] at haddress hports
          cases hone : left ip with
          | none => cases hother : right ip <;> simp_all
          | some ports =>
              cases hother : right ip with
              | none => simp_all
              | some others =>
                  congr 1
                  funext port
                  simpa [hone, hother] using hports port

theorem isSome_store (e : String) (ip port : Scalar) (processName : Value) :
    ((table.store device ip port processName) e).isSome = (e = device || (table e).isSome) := by
  by_cases hsame : e = device
  · subst hsame
    simp [store]
  · simp [store, hsame]

theorem addresses_store_of_ne {e : String} {i : Scalar} {ip : Scalar}
    (hne : ¬ (e = device ∧ i = ip)) (port : Scalar) (processName : Value) :
    (table.store device ip port processName).addresses e i = table.addresses e i := by
  by_cases hdevice : e = device
  · subst hdevice
    have hip : i ≠ ip := fun heq => hne ⟨rfl, heq⟩
    simp only [addresses, store, Function.update_self, Option.bind_some,
      Function.update_of_ne hip]
    cases table e <;> rfl
  · simp [addresses, store, Function.update_of_ne hdevice]

theorem addresses_store_self (ip port : Scalar) (processName : Value) :
    (table.store device ip port processName).addresses device ip =
      some (Function.update ((table.addresses device ip).getD fun _ => none) port
        (some processName)) := by
  simp only [addresses, store, Function.update_self, Option.bind_some]
  cases table device <;> rfl

theorem isSome_addresses_store (e : String) (i ip port : Scalar) (processName : Value) :
    ((table.store device ip port processName).addresses e i).isSome =
      ((e = device && i = ip) || (table.addresses e i).isSome) := by
  by_cases hsame : e = device ∧ i = ip
  · obtain ⟨rfl, rfl⟩ := hsame
    simp [addresses_store_self]
  · rw [addresses_store_of_ne hsame]
    simp [← Bool.decide_and, hsame]

theorem lookup_store (e : String) (i p ip port : Scalar) (processName : Value) :
    (table.store device ip port processName).lookup e i p =
      if e = device ∧ (i, p) = (ip, port) then some processName else table.lookup e i p := by
  unfold lookup
  by_cases hsame : e = device ∧ i = ip
  · obtain ⟨rfl, rfl⟩ := hsame
    rw [addresses_store_self, Option.bind_some]
    by_cases hport : p = port
    · subst hport
      simp
    · rw [Function.update_of_ne hport]
      cases table.addresses e i <;> simp [hport]
  · rw [addresses_store_of_ne hsame, if_neg]
    rintro ⟨rfl, hkey⟩
    exact hsame ⟨rfl, (Prod.mk.inj hkey).1⟩

theorem openDevice_of_isSome (hdevice : (table device).isSome) :
    table.openDevice device = table := by
  obtain ⟨addresses, haddresses⟩ := Option.isSome_iff_exists.mp hdevice
  rw [openDevice, haddresses, Option.getD_some, ← haddresses, Function.update_eq_self]

theorem isSome_openDevice : ((table.openDevice device) device).isSome := by
  simp [openDevice]

end Table

/-! ## What a list of rows leaves -/

section Rows

variable {service table : Table} {device : String}

theorem storeRows_concat (table : Table) (rows : List Row) (last : Row) :
    storeRows device table (rows ++ [last]) =
      (storeRows device table rows).store device last.ip last.port last.processName := by
  rw [storeRows, List.foldl_append]
  rfl

theorem isSome_storeRows (rows : List Row) (e : String) :
    (storeRows device table rows e).isSome ↔ (e = device ∧ rows ≠ []) ∨ (table e).isSome := by
  induction rows using List.reverseRecOn with
  | nil => simp [storeRows]
  | append_singleton rows last ih =>
      rw [storeRows_concat, Table.isSome_store, Bool.or_eq_true, ih]
      simp only [decide_eq_true_eq, ne_eq, List.append_eq_nil_iff, List.cons_ne_nil, and_false,
        not_false_eq_true, and_true]
      tauto

theorem isSome_addresses_storeRows (rows : List Row) (e : String) (i : Scalar) :
    ((storeRows device table rows).addresses e i).isSome ↔
      (e = device ∧ ∃ row ∈ rows, row.ip = i) ∨ (table.addresses e i).isSome := by
  induction rows using List.reverseRecOn with
  | nil => simp [storeRows]
  | append_singleton rows last ih =>
      rw [storeRows_concat, Table.isSome_addresses_store, Bool.or_eq_true, ih]
      simp only [Bool.and_eq_true, decide_eq_true_eq, List.mem_append, List.mem_singleton]
      grind

theorem lookup_storeRows (rows : List Row) (e : String) (i p : Scalar) :
    (storeRows device table rows).lookup e i p =
      if e = device then
        ((latest Row.key rows (i, p)).map Row.processName).or (table.lookup e i p)
      else table.lookup e i p := by
  induction rows using List.reverseRecOn with
  | nil => simp [storeRows, latest]
  | append_singleton rows last ih =>
      have hkey : (i, p) = (last.ip, last.port) ↔ Row.key last = (i, p) := eq_comm
      rw [storeRows_concat, Table.lookup_store, latest_concat, ih]
      by_cases hdevice : e = device
      · by_cases hlast : Row.key last = (i, p)
        · simp [hdevice, hkey, hlast]
        · simp [hdevice, hkey, hlast]
      · simp [hdevice]

theorem isSome_of_addresses {ip : Scalar} (haddress : (service.addresses device ip).isSome) :
    (service device).isSome := by
  obtain ⟨ports, hports⟩ := Option.isSome_iff_exists.mp haddress
  obtain ⟨addresses, haddresses, -⟩ := Option.bind_eq_some_iff.mp hports
  exact Option.isSome_of_eq_some haddresses

theorem isSome_addresses_of_lookup {ip port : Scalar} {processName : Value}
    (hlookup : service.lookup device ip port = some processName) :
    (service.addresses device ip).isSome := by
  obtain ⟨ports, hports, -⟩ := Option.bind_eq_some_iff.mp hlookup
  exact Option.isSome_of_eq_some hports

/-- Storing rows changes nothing when what the last of them stores for each
address and port is there. -/
theorem storeRows_of_stored {rows : List Row}
    (hstored : ∀ row, latest Row.key rows row.key = some row →
      service.lookup device row.ip row.port = some row.processName) :
    storeRows device service rows = service := by
  have hlookup : ∀ ip port last, latest Row.key rows (ip, port) = some last →
      service.lookup device ip port = some last.processName := by
    intro ip port last hlatest
    have hkey := (mem_of_latest hlatest).2
    obtain ⟨rfl, rfl⟩ := Prod.mk.inj hkey
    exact hstored last hlatest
  have hthere : ∀ row ∈ rows, (service.addresses device row.ip).isSome := by
    intro row hmem
    obtain ⟨last, hlast⟩ := exists_latest Row.key hmem
    exact isSome_addresses_of_lookup (hlookup row.ip row.port last hlast)
  apply Table.ext
  · intro e
    rw [Bool.eq_iff_iff, isSome_storeRows]
    refine or_iff_right_of_imp ?_
    rintro ⟨rfl, hne⟩
    obtain ⟨row, hmem⟩ := List.exists_mem_of_ne_nil _ hne
    exact isSome_of_addresses (hthere row hmem)
  · intro e i
    rw [Bool.eq_iff_iff, isSome_addresses_storeRows]
    refine or_iff_right_of_imp ?_
    rintro ⟨rfl, row, hmem, rfl⟩
    exact hthere row hmem
  · intro e i p
    rw [lookup_storeRows]
    split
    next hdevice =>
      subst hdevice
      cases hlatest : latest Row.key rows (i, p) with
      | none => rfl
      | some last => exact (hlookup i p last hlatest).symm
    next => rfl

theorem storeRows_eq_iff (rows : List Row) :
    storeRows device service rows = service ↔
      ∀ row, latest Row.key rows row.key = some row →
        service.lookup device row.ip row.port = some row.processName := by
  refine ⟨fun hsame row hlatest => ?_, storeRows_of_stored⟩
  rw [← hsame, lookup_storeRows, if_pos rfl]
  change latest Row.key rows (row.ip, row.port) = some row at hlatest
  rw [hlatest]
  rfl

/-! ## What a request leaves -/

theorem storable_of_not_touches {records : List Record} (htouches : ¬ Touches records) :
    storable records = [] := by
  unfold storable
  split
  next ip port processName rest =>
    exact absurd ⟨.scalar ip, port, processName, rfl⟩ htouches
  next => rfl

/-- The records that can be stored are, and the device has an entry as soon as
the port of the first record can be formatted. -/
theorem addJsonResourceList_table (device : String) (table : Table) (records : List Record) :
    (Touches records → (addJsonResourceList device table records).1 =
      (storeRows device table (storable records)).openDevice device) ∧
    (¬ Touches records → (addJsonResourceList device table records).1 = table) := by
  fun_induction addJsonResourceList device table records with
  | case1 table => exact ⟨fun htouches => by simp [Touches] at htouches, fun _ => rfl⟩
  | case2 table ip port processName rest ih =>
      refine ⟨fun _ => ?_, fun hnot => absurd ⟨_, _, _, rfl⟩ hnot⟩
      have hrows : storeRows device table
          (storable ((.scalar ip, .scalar (.number port), processName) :: rest)) =
            storeRows device (table.store device ip (.number port) processName)
              (storable rest) := rfl
      rw [hrows]
      by_cases htouches : Touches rest
      · exact ih.1 htouches
      · rw [ih.2 htouches, storable_of_not_touches htouches]
        refine (Table.openDevice_of_isSome ?_).symm
        simp [Table.isSome_store]
  | case3 table text port processName rest =>
      exact ⟨fun _ => rfl, fun hnot => absurd ⟨_, _, _, rfl⟩ hnot⟩
  | case4 table ip negative processName rest =>
      exact ⟨fun htouches => by simp [Touches] at htouches, fun _ => rfl⟩
  | case5 table record rest hstored hcontainer _ =>
      refine ⟨fun htouches => ?_, fun _ => rfl⟩
      obtain ⟨ip, port, processName, hrecord⟩ := htouches
      obtain rfl := Option.some.inj hrecord
      cases ip with
      | scalar ip => exact (hstored ip port processName rfl).elim
      | container text => exact (hcontainer text port processName rfl).elim

theorem isSome_openDevice_storeRows {rows : List Row}
    (hsame : (storeRows device service rows).openDevice device = service) :
    (service device).isSome := by
  rw [← hsame]
  exact Table.isSome_openDevice

/-- Adding the records leaves the table as it was exactly when they are stored. -/
theorem addJsonResourceList_eq_iff {records : List Record} (hne : records ≠ []) :
    (addJsonResourceList device service records).1 = service ↔
      AlreadyStored service device records := by
  obtain ⟨htouched, huntouched⟩ := addJsonResourceList_table device service records
  by_cases htouches : Touches records
  · rw [htouched htouches]
    constructor
    · intro hsame
      have hdevice := isSome_openDevice_storeRows hsame
      refine ⟨hne, fun _ => hdevice, (storeRows_eq_iff _).mp ?_⟩
      rwa [Table.openDevice_of_isSome ((isSome_storeRows _ _).mpr (.inr hdevice))] at hsame
    · intro hstored
      rw [(storeRows_eq_iff _).mpr hstored.stored,
        Table.openDevice_of_isSome (hstored.known htouches)]
  · rw [huntouched htouches]
    refine iff_of_true rfl ⟨hne, fun htouching => absurd htouching htouches, fun row hlatest => ?_⟩
    rw [storable_of_not_touches htouches] at hlatest
    cases hlatest

end Rows

/-- A request with records raises an exception, whatever it has stored. -/
theorem processRequest_of_records {data : Data Value} {records : List Record}
    (hvalid : validateResourceList data = some records) (hne : records ≠ []) (service : Table)
    (device : String) :
    (∃ e, (processRequest service device data).2 = .raised e) ∧
      (processRequest service device data).1 = (addJsonResourceList device service records).1 := by
  obtain ⟨record, rest, rfl⟩ := List.exists_cons_of_ne_nil hne
  cases data with
  | list entries =>
      rcases hadd : addJsonResourceList device service (record :: rest) with ⟨table, _ | e⟩
      · simp [processRequest, hvalid, hadd, percent]
      · simp [processRequest, hvalid, hadd]
  | dict ip port data => cases hvalid
  | text value isAscii => cases hvalid
  | scalar value => cases hvalid

/-- A request without records is answered with nothing. -/
theorem processRequest_of_empty {data : Data Value}
    (hvalid : validateResourceList data = some []) (service : Table) (device : String) :
    (processRequest service device data).2 = .none := by
  cases data with
  | list entries => simp only [processRequest, hvalid]
  | dict ip port data => cases hvalid
  | text value isAscii => cases hvalid
  | scalar value => cases hvalid

/-- The table is all or nothing only for records that are there already. -/
theorem allOrNothing_iff {data : Data Value} {records : List Record}
    (hvalid : validateResourceList data = some records) (service : Table) (device : String) :
    AllOrNothing service device data records ↔ AlreadyStored service device records := by
  by_cases hne : records = []
  · subst hne
    have hnone := processRequest_of_empty hvalid service device
    refine iff_of_false ?_ fun hstored => hstored.ne_nil rfl
    rintro (⟨⟨e, hraised⟩, -⟩ | ⟨shown, hjson, -⟩)
    · rw [hnone] at hraised
      cases hraised
    · rw [hnone] at hjson
      cases hjson
  · obtain ⟨⟨e, hraised⟩, htable⟩ := processRequest_of_records hvalid hne service device
    rw [← addJsonResourceList_eq_iff hne, ← htable]
    constructor
    · rintro (⟨-, hsame⟩ | ⟨shown, hjson, -⟩)
      · exact hsame
      · rw [hraised] at hjson
        cases hjson
    · exact fun hsame => .inl ⟨⟨e, hraised⟩, hsame⟩

/-! ## A first resource -/

def webServer : Record :=
  (.scalar (.text "10.0.0.1"), .scalar (.number 80), .scalar (.text "httpd"))

def posted : Data Value := .list [some ⟨some webServer.1, some webServer.2.1, some webServer.2.2⟩]

theorem validateResourceList_posted : validateResourceList posted = some [webServer] := rfl

theorem allOrNothing_iff_posted :
    AllOrNothing .empty "laptop" posted [webServer] ↔
      AlreadyStored .empty "laptop" [webServer] :=
  allOrNothing_iff validateResourceList_posted .empty "laptop"

theorem not_allOrNothing_posted :
    ¬ ∀ (data : Data Value) (records : List Record), validateResourceList data = some records →
      ∀ (service : Table) (device : String), AllOrNothing service device data records := by
  intro hclaim
  have hnothing := hclaim posted [webServer] validateResourceList_posted .empty "laptop"
  obtain ⟨⟨e, hraised⟩, htable⟩ := processRequest_of_records validateResourceList_posted
    (List.cons_ne_nil webServer []) .empty "laptop"
  rcases hnothing with ⟨-, hsame⟩ | ⟨shown, hjson, -⟩
  · rw [htable] at hsame
    -- the device has an entry now
    have hentry : ((addJsonResourceList "laptop" .empty [webServer]).1 "laptop").isSome := by
      rw [(addJsonResourceList_table "laptop" .empty [webServer]).1 ⟨_, _, _, rfl⟩]
      exact Table.isSome_openDevice
    rw [hsame] at hentry
    cases hentry
  · rw [hraised] at hjson
    cases hjson

end Signpost.Resources

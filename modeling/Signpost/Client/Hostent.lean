import Mathlib.Data.List.Count
import Signpost.Machine.Memory

/-! # Host entries in a caller's buffer

The resolver of the C library gives a buffer to the name service, which lays a
host entry out in it: the name, the aliases, the addresses and an array of
pointers to them.
-/

namespace Signpost.Hostent

open Machine

/-! ## Addresses and pointers -/

def afUnspec : ℕ := 0
def afInet : ℕ := 2
def afInet6 : ℕ := 10

/-- The families that can be requested. -/
inductive Family
  | inet
  | inet6
deriving DecidableEq

def Family.number : Family → ℕ
  | .inet => afInet
  | .inet6 => afInet6

/-- The fields of an address that are used. -/
structure Address where
  family : UInt8
  address : Vector UInt8 16
deriving DecidableEq

structure Abi where
  pointerSize : ℕ
  pos : 0 < pointerSize

/-- A byte, or a part of a pointer into the buffer or of the null pointer. -/
inductive Cell
  | byte (value : UInt8)
  | pointer (target : Option ℕ) (part : ℕ)
deriving DecidableEq

def bytes (values : List UInt8) : List Cell := values.map .byte

namespace Abi

variable (abi : Abi)

/-- The macro `ALIGN`. -/
def align (a : ℕ) : ℕ := (a + abi.pointerSize - 1) / abi.pointerSize * abi.pointerSize

def pointerCells (target : Option ℕ) : List Cell :=
  (List.range abi.pointerSize).map (.pointer target)

end Abi

/-! ## Replies -/

inductive NssStatus
  | tryAgain
  | unavail
  | notFound
  | success
deriving DecidableEq

inductive Errno
  | enomem
  | eafnosupport
  | other (number : ℕ)
deriving DecidableEq

inductive HErrno
  | noRecovery
  | noData
deriving DecidableEq

/-- Pointers into the buffer are offsets. -/
structure Host where
  hName : ℕ
  hAliases : ℕ
  hAddrtype : ℕ
  hLength : ℕ
  hAddrList : ℕ
deriving DecidableEq

/-- The status, and what is written through the pointers of the caller. -/
structure Reply where
  status : NssStatus
  errno : Option Errno := none
  hErrno : Option HErrno := none
  result : Option Host := none
  ttl : Option Int32 := none
  canon : Option ℕ := none
deriving DecidableEq

/-- A failed assertion aborts the process. -/
inductive Outcome
  | aborted
  | returned (reply : Reply)
deriving DecidableEq

def outOfMemory (status : NssStatus) : Outcome :=
  .returned { status := status, errno := some .enomem, hErrno := some .noRecovery }

/-! ## The layout -/

/-- `PROTO_ADDRESS_SIZE`, or a failed assertion. -/
def protoAddressSize (proto : ℕ) : Option ℕ :=
  if proto = afInet ∨ proto = afInet6 then some (if proto = afInet6 then 16 else 4) else none

/-- A loop over the addresses of one family, with the number of the next store. -/
def forMatching (af : ℕ) (body : ℕ → Address → Store Cell) :
    ℕ → List Address → List (Store Cell) × ℕ
  | i, [] => ([], i)
  | i, a :: rest =>
      if af ≠ a.family.toNat then forMatching af body i rest
      else
        let (stores, last) := forMatching af body (i + 1) rest
        (body i a :: stores, last)

def countMatching (af : ℕ) (addresses : List Address) : ℕ :=
  addresses.countP fun a => af = a.family.toNat

section

variable (abi : Abi) (hn : List UInt8) (af : ℕ) (addresses : List Address)

/-- The size that is asked for. The name and the addresses are in memory, so
that no sum overflows. -/
def requiredSize (alen : ℕ) : ℕ :=
  let c := countMatching af addresses
  abi.align (hn.length + 1) +
    abi.pointerSize +
    (if c > 0 then c else 1) * abi.align alen +
    (if c > 0 then c + 1 else 2) * abi.pointerSize

/-- The copy of the address that is number `i`. -/
def copyAddress (rAddr alen : ℕ) (i : ℕ) (a : Address) : Store Cell :=
  ⟨rAddr + i * abi.align alen, bytes (a.address.toList.take alen)⟩

/-- The pointer to the copy of the address that is number `i`. -/
def pointToAddress (rAddr alen rAddrList : ℕ) (i : ℕ) (_a : Address) : Store Cell :=
  ⟨rAddrList + i * abi.pointerSize, abi.pointerCells (some (rAddr + i * abi.align alen))⟩

/-- The stores into the buffer, in order, and the outcome. The pointers `ttlp`
and `canonp` may be null. -/
def fillInHostent (buflen : ℕ) (ttlp canonp : Bool) : List (Store Cell) × Outcome :=
  match protoAddressSize af with
  | none => ([], .aborted)
  | some alen =>
      let c := countMatching af addresses
      let ms := requiredSize abi hn af addresses alen
      if buflen < ms then ([], outOfMemory .tryAgain)
      else
        let name : Store Cell := ⟨0, bytes (hn ++ [0])⟩
        let idx := abi.align (hn.length + 1)
        let rAliases := idx
        let aliases : Store Cell := ⟨rAliases, abi.pointerCells none⟩
        let idx := idx + abi.pointerSize
        let rAddr := idx
        if c > 0 then
          let (copies, i) := forMatching af (copyAddress abi rAddr alen) 0 addresses
          if i ≠ c then (name :: aliases :: copies, .aborted)
          else
            let idx := idx + c * abi.align alen
            let rAddrList := idx
            -- here c is tested again, and is still positive
            let (pointers, i) :=
              forMatching af (pointToAddress abi rAddr alen rAddrList) 0 addresses
            if i ≠ c then (name :: aliases :: (copies ++ pointers), .aborted)
            else
              let null : Store Cell :=
                ⟨rAddrList + c * abi.pointerSize, abi.pointerCells none⟩
              let stores := name :: aliases :: (copies ++ pointers ++ [null])
              let idx := idx + (c + 1) * abi.pointerSize
              if idx ≠ ms then (stores, .aborted)
              else
                (stores, .returned
                  { status := .success,
                    result := some ⟨0, rAliases, af, alen, rAddrList⟩,
                    ttl := if ttlp then some 0 else none,
                    canon := if canonp then some 0 else none })
        else ([name, aliases], outOfMemory .tryAgain)

/-- The errno of `gethostname`, if that fails, is a parameter. -/
def gethostbyname3R (hostnameErrno : Option ℕ) (buflen : ℕ) (ttlp canonp : Bool) :
    List (Store Cell) × Outcome :=
  let af := if af = afUnspec then afInet else af
  if af ≠ afInet ∧ af ≠ afInet6 then
    ([], .returned
      { status := .unavail, errno := some .eafnosupport, hErrno := some .noData })
  else
    match hostnameErrno with
    | some number =>
        ([], .returned
          { status := .unavail, errno := some (.other number), hErrno := some .noRecovery })
    | none => fillInHostent abi hn af addresses buflen ttlp canonp

end

/-! ## What a host entry is to be -/

section

variable (abi : Abi) (memory : Memory Cell)

/-- A pointer is in the memory. -/
def PointsTo (offset : ℕ) (target : Option ℕ) : Prop :=
  memory.read offset abi.pointerSize = abi.pointerCells target

/-- An array of pointers to byte strings, with a null pointer at its end. -/
def AddressArray : ℕ → List (List UInt8) → Prop
  | offset, [] => PointsTo abi memory offset none
  | offset, values :: rest =>
      (∃ target, PointsTo abi memory offset (some target) ∧
        memory.read target values.length = bytes values) ∧
      AddressArray (offset + abi.pointerSize) rest

end

def Family.addressSize : Family → ℕ
  | .inet => 4
  | .inet6 => 16

/-- The addresses of a family, in the order of the list. -/
def requested (family : Family) (addresses : List Address) : List (List UInt8) :=
  (addresses.filter fun a => family.number = a.family.toNat).map fun a =>
    a.address.toList.take family.addressSize

/-- The host entry has the name, no aliases, and exactly these addresses. -/
structure HasLayout (abi : Abi) (hn : List UInt8) (family : Family) (addresses : List Address)
    (memory : Memory Cell) (host : Host) : Prop where
  name : memory.read host.hName (hn.length + 1) = bytes (hn ++ [0])
  aliases : PointsTo abi memory host.hAliases none
  addrtype : host.hAddrtype = family.number
  length : host.hLength = family.addressSize
  addrList : AddressArray abi memory host.hAddrList (requested family addresses)

/-- One call keeps to its buffer and to its status, and calls with buffers that
are large enough do not ask for more. -/
structure Lawful (abi : Abi) (hn : List UInt8) (family : Family) (addresses : List Address)
    (buflen : ℕ) (ttlp canonp : Bool) : Prop where
  inside : ∀ store ∈ (fillInHostent abi hn family.number addresses buflen ttlp canonp).1,
    store.stop ≤ buflen
  asserts : (fillInHostent abi hn family.number addresses buflen ttlp canonp).2 ≠ .aborted
  layout : ∀ stores reply,
    fillInHostent abi hn family.number addresses buflen ttlp canonp = (stores, .returned reply) →
      reply.status = .success → ∃ host, reply.result = some host ∧
        ∀ memory : Memory Cell, HasLayout abi hn family addresses (memory.writeAll stores) host
  tryAgain : ∀ stores reply,
    fillInHostent abi hn family.number addresses buflen ttlp canonp = (stores, .returned reply) →
      reply.status = .tryAgain →
        buflen < requiredSize abi hn family.number addresses family.addressSize
  final : ∃ size, ∀ larger, size ≤ larger → ∀ hostnameErrno stores reply,
    gethostbyname3R abi hn family.number addresses hostnameErrno larger ttlp canonp =
      (stores, .returned reply) → reply.status ≠ .tryAgain

/-! ## The loops over the addresses -/

section

variable {af : ℕ} {body : ℕ → Address → Store Cell}

@[simp] theorem countMatching_nil : countMatching af [] = 0 := rfl

theorem countMatching_cons (a : Address) (rest : List Address) :
    countMatching af (a :: rest) =
      if af = a.family.toNat then countMatching af rest + 1 else countMatching af rest := by
  unfold countMatching
  split
  next heq => simp [heq]
  next hne => simp [hne]

theorem forMatching_cons_of_eq {a : Address} (heq : af = a.family.toNat) (i : ℕ)
    (rest : List Address) :
    forMatching af body i (a :: rest) =
      (body i a :: (forMatching af body (i + 1) rest).1, (forMatching af body (i + 1) rest).2) := by
  rw [forMatching, if_neg (not_not.mpr heq)]

theorem forMatching_cons_of_ne {a : Address} (hne : af ≠ a.family.toNat) (i : ℕ)
    (rest : List Address) : forMatching af body i (a :: rest) = forMatching af body i rest := by
  rw [forMatching, if_pos hne]

/-- The assertions on the counters of the loops hold. -/
theorem forMatching_snd (i : ℕ) (addresses : List Address) :
    (forMatching af body i addresses).2 = i + countMatching af addresses := by
  induction addresses generalizing i with
  | nil => rfl
  | cons a rest ih =>
      rw [countMatching_cons]
      split
      next heq =>
        rw [forMatching_cons_of_eq heq, ih]
        omega
      next hne => rw [forMatching_cons_of_ne hne, ih]

/-- Stores at equal distances that do not reach each other. -/
theorem within_forMatching (af : ℕ) (body : ℕ → Address → Store Cell) {start stride : ℕ} (i : ℕ)
    (addresses : List Address)
    (hoffset : ∀ i a, (body i a).offset = start + i * stride)
    (hlength : ∀ i a, (body i a).cells.length ≤ stride) :
    Within (start + i * stride) (start + (i + countMatching af addresses) * stride)
      (forMatching af body i addresses).1 := by
  induction addresses generalizing i with
  | nil => exact Nat.le_refl _
  | cons a rest ih =>
      rw [countMatching_cons]
      split
      next heq =>
        rw [forMatching_cons_of_eq heq]
        have hrest := ih (i + 1)
        rw [Nat.add_right_comm] at hrest
        refine ⟨Nat.le_of_eq (hoffset i a).symm, hrest.mono_left ?_⟩
        rw [Store.stop, hoffset, Nat.add_mul]
        have hle := hlength i a
        omega
      next hne =>
        rw [forMatching_cons_of_ne hne]
        exact ih i

end

/-! ## The layout in memory -/

section

variable {abi : Abi} {memory : Memory Cell}

theorem Abi.le_align (abi : Abi) (a : ℕ) : a ≤ abi.align a := by
  have hdiv := Nat.div_add_mod (a + abi.pointerSize - 1) abi.pointerSize
  have hmod := Nat.mod_lt (a + abi.pointerSize - 1) abi.pos
  rw [Abi.align, Nat.mul_comm]
  omega

@[simp] theorem length_bytes (values : List UInt8) : (bytes values).length = values.length :=
  List.length_map _

@[simp] theorem Abi.length_pointerCells (abi : Abi) (target : Option ℕ) :
    (abi.pointerCells target).length = abi.pointerSize := by
  simp [Abi.pointerCells]

theorem pointsTo_of_holds {offset : ℕ} {target : Option ℕ}
    (hholds : memory.Holds ⟨offset, abi.pointerCells target⟩) :
    PointsTo abi memory offset target := by
  rwa [Memory.Holds, Abi.length_pointerCells] at hholds

theorem read_of_holds {offset : ℕ} {values : List UInt8}
    (hholds : memory.Holds ⟨offset, bytes values⟩) :
    memory.read offset values.length = bytes values := by
  rwa [Memory.Holds, length_bytes] at hholds

@[simp] theorem requested_nil (family : Family) : requested family [] = [] := rfl

theorem requested_cons (family : Family) (a : Address) (rest : List Address) :
    requested family (a :: rest) =
      if family.number = a.family.toNat then
        a.address.toList.take family.addressSize :: requested family rest
      else requested family rest := by
  unfold requested
  split
  next heq => simp [heq]
  next hne => simp [hne]

/-- The two loops together leave an array of pointers to the addresses. -/
theorem addressArray_of_holds {family : Family} {rAddr rAddrList i : ℕ} {addresses : List Address}
    (hcopies : ∀ store ∈ (forMatching family.number
      (copyAddress abi rAddr family.addressSize) i addresses).1, memory.Holds store)
    (hpointers : ∀ store ∈ (forMatching family.number
      (pointToAddress abi rAddr family.addressSize rAddrList) i addresses).1, memory.Holds store)
    (hnull : PointsTo abi memory
      (rAddrList + (i + countMatching family.number addresses) * abi.pointerSize) none) :
    AddressArray abi memory (rAddrList + i * abi.pointerSize) (requested family addresses) := by
  induction addresses generalizing i with
  | nil => exact hnull
  | cons a rest ih =>
      rw [countMatching_cons] at hnull
      rw [requested_cons]
      split at hnull
      next heq =>
        rw [forMatching_cons_of_eq heq, List.forall_mem_cons] at hcopies hpointers
        rw [if_pos heq]
        refine ⟨⟨rAddr + i * abi.align family.addressSize, ?_, ?_⟩, ?_⟩
        · exact pointsTo_of_holds hpointers.1
        · exact read_of_holds hcopies.1
        · have hnext : i + (countMatching family.number rest + 1) =
              i + 1 + countMatching family.number rest := by omega
          rw [hnext] at hnull
          have hrest := ih hcopies.2 hpointers.2 hnull
          rwa [Nat.add_mul, Nat.one_mul, ← Nat.add_assoc] at hrest
      next hne =>
        rw [forMatching_cons_of_ne hne] at hcopies hpointers
        rw [if_neg hne]
        exact ih hcopies hpointers hnull

end

/-! ## The calls by their status -/

section

variable {abi : Abi} {hn : List UInt8} {family : Family} {addresses : List Address} {buflen : ℕ}
  {ttlp canonp : Bool}

theorem protoAddressSize_number (family : Family) :
    protoAddressSize family.number = some family.addressSize := by
  cases family <;> rfl

/-- Where the addresses begin. -/
def addressStart (abi : Abi) (hn : List UInt8) : ℕ := abi.align (hn.length + 1) + abi.pointerSize

/-- Where the array of pointers begins. -/
def arrayStart (abi : Abi) (hn : List UInt8) (family : Family) (addresses : List Address) : ℕ :=
  addressStart abi hn + countMatching family.number addresses * abi.align family.addressSize

/-- The stores of a call that succeeds. -/
def layoutStores (abi : Abi) (hn : List UInt8) (family : Family) (addresses : List Address) :
    List (Store Cell) :=
  ⟨0, bytes (hn ++ [0])⟩ :: ⟨abi.align (hn.length + 1), abi.pointerCells none⟩ ::
    ((forMatching family.number
        (copyAddress abi (addressStart abi hn) family.addressSize) 0 addresses).1 ++
      (forMatching family.number
        (pointToAddress abi (addressStart abi hn) family.addressSize
          (arrayStart abi hn family addresses)) 0 addresses).1 ++
      [⟨arrayStart abi hn family addresses +
          countMatching family.number addresses * abi.pointerSize, abi.pointerCells none⟩])

theorem fillInHostent_of_lt (ttlp canonp : Bool)
    (hlt : buflen < requiredSize abi hn family.number addresses family.addressSize) :
    fillInHostent abi hn family.number addresses buflen ttlp canonp =
      ([], outOfMemory .tryAgain) := by
  simp only [fillInHostent, protoAddressSize_number, if_pos hlt]

theorem fillInHostent_of_none
    (hle : requiredSize abi hn family.number addresses family.addressSize ≤ buflen)
    (hnone : countMatching family.number addresses = 0) :
    fillInHostent abi hn family.number addresses buflen ttlp canonp =
      ([⟨0, bytes (hn ++ [0])⟩, ⟨abi.align (hn.length + 1), abi.pointerCells none⟩],
        outOfMemory .tryAgain) := by
  simp only [fillInHostent, protoAddressSize_number, if_neg (Nat.not_lt.mpr hle), hnone]
  rfl

theorem requiredSize_of_pos (abi : Abi) (hn : List UInt8)
    (hpos : 0 < countMatching family.number addresses) :
    requiredSize abi hn family.number addresses family.addressSize =
      arrayStart abi hn family addresses +
        (countMatching family.number addresses + 1) * abi.pointerSize := by
  simp only [requiredSize, gt_iff_lt, if_pos hpos]
  rfl

/-- No assertion fails. -/
theorem fillInHostent_of_pos (ttlp canonp : Bool)
    (hle : requiredSize abi hn family.number addresses family.addressSize ≤ buflen)
    (hpos : 0 < countMatching family.number addresses) :
    fillInHostent abi hn family.number addresses buflen ttlp canonp =
      (layoutStores abi hn family addresses, .returned
        { status := .success,
          result := some ⟨0, abi.align (hn.length + 1), family.number, family.addressSize,
            arrayStart abi hn family addresses⟩,
          ttl := if ttlp then some 0 else none,
          canon := if canonp then some 0 else none }) := by
  have hsize := requiredSize_of_pos abi hn hpos
  simp only [arrayStart, addressStart] at hsize
  rw [hsize] at hle
  simp only [fillInHostent, protoAddressSize_number, if_neg (Nat.not_lt.mpr hle), gt_iff_lt,
    if_pos hpos, forMatching_snd, Nat.zero_add, ne_eq, not_true_eq_false, if_false, hsize]
  rfl

theorem length_copyAddress_le (rAddr alen i : ℕ) (a : Address) :
    (copyAddress abi rAddr alen i a).cells.length ≤ abi.align alen := by
  rw [copyAddress, length_bytes, List.length_take]
  exact Nat.le_trans (Nat.min_le_left _ _) (abi.le_align alen)

/-- The offsets that are computed section by section agree with the size. -/
theorem within_layoutStores :
    Within 0 (arrayStart abi hn family addresses +
      (countMatching family.number addresses + 1) * abi.pointerSize)
      (layoutStores abi hn family addresses) := by
  have hcopies := within_forMatching family.number
    (copyAddress abi (addressStart abi hn) family.addressSize) 0 addresses
    (fun i a => rfl) (length_copyAddress_le (addressStart abi hn) family.addressSize)
  have hpointers := within_forMatching family.number
    (pointToAddress abi (addressStart abi hn) family.addressSize
      (arrayStart abi hn family addresses)) 0 addresses
    (fun i a => rfl) (fun i a => Nat.le_of_eq (abi.length_pointerCells _))
  have hname : (⟨0, bytes (hn ++ [0])⟩ : Store Cell).stop ≤ abi.align (hn.length + 1) := by
    simpa [Store.stop] using abi.le_align (hn.length + 1)
  have haliases :
      (⟨abi.align (hn.length + 1), abi.pointerCells none⟩ : Store Cell).stop =
        addressStart abi hn := by
    rw [Store.stop, Abi.length_pointerCells, addressStart]
  rw [Nat.zero_add] at hcopies hpointers
  refine ⟨Nat.le_refl 0, hname, ?_⟩
  rw [haliases]
  refine ((hcopies.mono_left ?_).append (hpointers.mono_left ?_)).append ⟨Nat.le_refl _, ?_⟩
  · omega
  · rw [arrayStart]
    omega
  · refine Nat.le_of_eq ?_
    rw [Store.stop, Abi.length_pointerCells, Nat.add_mul, Nat.one_mul, Nat.add_assoc]

theorem hasLayout_layoutStores (memory : Memory Cell) :
    HasLayout abi hn family addresses (memory.writeAll (layoutStores abi hn family addresses))
      ⟨0, abi.align (hn.length + 1), family.number, family.addressSize,
        arrayStart abi hn family addresses⟩ := by
  have hholds : ∀ store ∈ layoutStores abi hn family addresses,
      (memory.writeAll (layoutStores abi hn family addresses)).Holds store :=
    fun store hstore => within_layoutStores.holds_writeAll memory hstore
  have hname := hholds _ List.mem_cons_self
  have hrest := fun store hstore => hholds store (List.mem_cons_of_mem _ hstore)
  have haliases := hrest _ List.mem_cons_self
  have hlists := fun store hstore => hrest store (List.mem_cons_of_mem _ hstore)
  constructor
  · simpa using read_of_holds hname
  · exact pointsTo_of_holds haliases
  · rfl
  · rfl
  · have harray := addressArray_of_holds (i := 0)
      (fun store hstore => hlists store
        (List.mem_append_left _ (List.mem_append_left _ hstore)))
      (fun store hstore => hlists store
        (List.mem_append_left _ (List.mem_append_right _ hstore)))
      (pointsTo_of_holds (by
        rw [Nat.zero_add]
        exact hlists _ (List.mem_append_right _ List.mem_cons_self)))
    rwa [Nat.zero_mul, Nat.add_zero] at harray

/-! ## Which calls are lawful -/

theorem gethostbyname3R_number (abi : Abi) (hn : List UInt8) (family : Family)
    (addresses : List Address) (hostnameErrno : Option ℕ) (buflen : ℕ) (ttlp canonp : Bool) :
    gethostbyname3R abi hn family.number addresses hostnameErrno buflen ttlp canonp =
      match hostnameErrno with
      | some number =>
          ([], .returned
            { status := .unavail, errno := some (.other number), hErrno := some .noRecovery })
      | none => fillInHostent abi hn family.number addresses buflen ttlp canonp := by
  cases family <;> rfl

theorem countMatching_pos_iff :
    0 < countMatching family.number addresses ↔
      ∃ a ∈ addresses, family.number = a.family.toNat := by
  simp [countMatching, List.countP_pos_iff]

/-- Of a family without addresses, the status says try again for ever. -/
theorem not_final_of_none (hnone : countMatching family.number addresses = 0) :
    ¬ ∃ size, ∀ larger, size ≤ larger → ∀ hostnameErrno stores reply,
      gethostbyname3R abi hn family.number addresses hostnameErrno larger ttlp canonp =
        (stores, .returned reply) → reply.status ≠ .tryAgain := by
  rintro ⟨size, hfinal⟩
  have hrequired := Nat.le_max_right size
    (requiredSize abi hn family.number addresses family.addressSize)
  have hreply := gethostbyname3R_number abi hn family addresses none
    (max size (requiredSize abi hn family.number addresses family.addressSize)) ttlp canonp
  rw [fillInHostent_of_none hrequired hnone] at hreply
  exact hfinal _ (Nat.le_max_left _ _) none _ _ hreply rfl

/-- Of a family with addresses, the status is a final one as soon as the buffer
has the size. -/
theorem final_of_pos (hpos : 0 < countMatching family.number addresses) :
    ∃ size, ∀ larger, size ≤ larger → ∀ hostnameErrno stores reply,
      gethostbyname3R abi hn family.number addresses hostnameErrno larger ttlp canonp =
        (stores, .returned reply) → reply.status ≠ .tryAgain := by
  refine ⟨requiredSize abi hn family.number addresses family.addressSize, ?_⟩
  intro larger hle hostnameErrno stores reply hreply
  rw [gethostbyname3R_number] at hreply
  cases hostnameErrno with
  | some number =>
      cases hreply
      nofun
  | none =>
      rw [fillInHostent_of_pos ttlp canonp hle hpos] at hreply
      cases hreply
      nofun

theorem lawful_of_lt (hpos : 0 < countMatching family.number addresses)
    (hlt : buflen < requiredSize abi hn family.number addresses family.addressSize) :
    Lawful abi hn family addresses buflen ttlp canonp := by
  have hfill := fillInHostent_of_lt ttlp canonp hlt
  refine ⟨?_, ?_, ?_, fun _ _ _ _ => hlt, final_of_pos hpos⟩
  · rw [hfill]
    nofun
  · rw [hfill]
    nofun
  · rw [hfill]
    intro stores reply hreply hsuccess
    cases hreply
    cases hsuccess

theorem lawful_of_le (hpos : 0 < countMatching family.number addresses)
    (hle : requiredSize abi hn family.number addresses family.addressSize ≤ buflen) :
    Lawful abi hn family addresses buflen ttlp canonp := by
  have hfill := fillInHostent_of_pos ttlp canonp hle hpos
  refine ⟨?_, ?_, ?_, ?_, final_of_pos hpos⟩
  · rw [hfill]
    intro store hstore
    rw [requiredSize_of_pos abi hn hpos] at hle
    exact Nat.le_trans (within_layoutStores.stop_le hstore) hle
  · rw [hfill]
    nofun
  · rw [hfill]
    intro stores reply hreply _
    cases hreply
    exact ⟨_, rfl, hasLayout_layoutStores⟩
  · rw [hfill]
    intro stores reply hreply htryAgain
    cases hreply
    cases htryAgain

/-- A call is lawful exactly when the list has an address of the family that is
requested. -/
theorem lawful_iff (abi : Abi) (hn : List UInt8) (family : Family) (addresses : List Address)
    (buflen : ℕ) (ttlp canonp : Bool) :
    Lawful abi hn family addresses buflen ttlp canonp ↔
      ∃ a ∈ addresses, family.number = a.family.toNat := by
  rw [← countMatching_pos_iff]
  constructor
  · intro hlawful
    by_contra hnone
    exact not_final_of_none (Nat.eq_zero_of_not_pos hnone) hlawful.final
  · intro hpos
    rcases Nat.lt_or_ge buflen (requiredSize abi hn family.number addresses family.addressSize)
      with hlt | hle
    · exact lawful_of_lt hpos hlt
    · exact lawful_of_le hpos hle

end

/-! ## A family without addresses -/

/-- A machine with pointers of eight bytes. -/
def abi64 : Abi := ⟨8, by decide⟩

/-- An IPv6 address is asked for, and there is only 10.0.0.1. -/
theorem not_lawful_inet6 :
    ¬ ∀ (abi : Abi) (hn : List UInt8) (family : Family) (addresses : List Address) (buflen : ℕ)
      (ttlp canonp : Bool), Lawful abi hn family addresses buflen ttlp canonp := by
  intro hclaim
  have hlawful := hclaim abi64 [104] .inet6
    [⟨2, #v[10, 0, 0, 1, 0, 0, 0, 0, 0, 0, 0, 0, 0, 0, 0, 0]⟩] 1024 true true
  have hlt := hlawful.tryAgain _ _ rfl rfl
  exact absurd hlt (by decide)

end Signpost.Hostent

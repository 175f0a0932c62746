import Mathlib.Algebra.Group.Nat.Defs
import Signpost.Client.Hostent

/-! # Address tuples in a caller's buffer

The newer interface of the name service does not ask for a family. All addresses
go into one list, whose tuples are laid out from the last to the first.
-/

namespace Signpost.Hostent

open Machine

/-- An address with the interface that it is for. -/
structure LinkAddress extends Address where
  ifindex : UInt32
deriving DecidableEq

/-- The `struct gaih_addrtuple` of the C library: two pointers, the family, the
address and the scope. -/
structure TupleLayout (abi : Abi) where
  family : ℕ
  addr : ℕ
  scopeid : ℕ
  size : ℕ
  pointers_le : abi.pointerSize + abi.pointerSize ≤ family
  family_le : family + 4 ≤ addr
  addr_le : addr + 16 ≤ scopeid
  scopeid_le : scopeid + 4 ≤ size
  encode : UInt32 → List UInt8
  length_encode : ∀ n, (encode n).length = 4
  encode_injective : Function.Injective encode

/-- The status, and what is written through the pointers of the caller. The list may
be empty, which is another thing than no list. -/
structure TupleReply where
  status : NssStatus
  errno : Option Errno := none
  hErrno : Option HErrno := none
  pat : Option (Option ℕ) := none
  ttl : Option Int32 := none
deriving DecidableEq

inductive TupleOutcome
  | aborted
  | returned (reply : TupleReply)
deriving DecidableEq

section

variable (abi : Abi) (layout : TupleLayout abi)

def tupleStride : ℕ := abi.align layout.size

def requiredTuples (name : List UInt8) (addresses : List LinkAddress) : ℕ :=
  abi.align (name.length + 1) +
    tupleStride abi layout * (if addresses.length > 0 then addresses.length else 2)

/-- One tuple. The scope is stored before the address, which is in front of it. -/
def tupleStores (prev : Option ℕ) (idx : ℕ) (a : LinkAddress) : List (Store Cell) :=
  [⟨idx, abi.pointerCells prev⟩,
    ⟨idx + abi.pointerSize, abi.pointerCells (some 0)⟩,
    ⟨idx + layout.family, bytes (layout.encode a.family.toUInt32)⟩,
    ⟨idx + layout.scopeid, bytes (layout.encode a.ifindex)⟩,
    ⟨idx + layout.addr, bytes a.address.toList⟩]

/-- The loop over the addresses, which come from the last to the first. It leaves the
tuple that it has filled last, and where the next would be. -/
def fillTuples (prev : Option ℕ) (idx : ℕ) :
    List LinkAddress → List (Store Cell) × Option ℕ × ℕ
  | [] => ([], prev, idx)
  | a :: before =>
      let (stores, last) := fillTuples (some idx) (idx + tupleStride abi layout) before
      (tupleStores abi layout prev idx a ++ stores, last)

/-- The name of the host is asked for, and is not used. -/
def gethostbyname4R (name : List UInt8) (addresses : List LinkAddress)
    (hostnameErrno : Option ℕ) (buflen : ℕ) (ttlp : Bool) : List (Store Cell) × TupleOutcome :=
  match hostnameErrno with
  | some number =>
      ([], .returned
        { status := .unavail, errno := some (.other number), hErrno := some .noRecovery })
  | none =>
      let ms := requiredTuples abi layout name addresses
      if buflen < ms then
        ([], .returned
          { status := .tryAgain, errno := some .enomem, hErrno := some .noRecovery })
      else
        let rName : Store Cell := ⟨0, bytes (name ++ [0])⟩
        let idx := abi.align (name.length + 1)
        if addresses.length ≤ 0 then
          ([rName], .returned
            { status := .notFound, errno := some .enomem, hErrno := some .noRecovery })
        else
          let (stores, rTuplePrev, idx) := fillTuples abi layout none idx addresses.reverse
          if idx ≠ ms then (rName :: stores, .aborted)
          else
            (rName :: stores, .returned
              { status := .success, pat := some rTuplePrev,
                ttl := if ttlp then some 0 else none })

/-! ## What a list of tuples is to be -/

section

variable (memory : Memory Cell)

/-- The fields of a tuple, but for the pointer to the next. -/
structure HasTuple (offset : ℕ) (a : LinkAddress) : Prop where
  name : PointsTo abi memory (offset + abi.pointerSize) (some 0)
  family : memory.read (offset + layout.family) 4 = bytes (layout.encode a.family.toUInt32)
  addr : memory.read (offset + layout.addr) 16 = bytes a.address.toList
  scopeid : memory.read (offset + layout.scopeid) 4 = bytes (layout.encode a.ifindex)

/-- The tuples that are found when one follows the pointers. -/
def Tuples : Option ℕ → List LinkAddress → Prop
  | target, [] => target = none
  | target, a :: rest => ∃ offset next, target = some offset ∧
      HasTuple abi layout memory offset a ∧ PointsTo abi memory offset next ∧ Tuples next rest

end

end

/-- One call keeps to its buffer, fails no assertion, and answers with all addresses
in their order, or tells why not. The error of a buffer that is too small is that of a
name without addresses. -/
structure TuplesLawful (abi : Abi) (layout : TupleLayout abi) (name : List UInt8)
    (addresses : List LinkAddress) (hostnameErrno : Option ℕ) (buflen : ℕ)
    (stores : List (Store Cell)) (reply : TupleReply) : Prop where
  inside : ∀ store ∈ stores, store.Inside 0 buflen
  success : reply.status = .success ↔
    hostnameErrno = none ∧ addresses ≠ [] ∧ requiredTuples abi layout name addresses ≤ buflen
  tryAgain : reply.status = .tryAgain ↔
    hostnameErrno = none ∧ buflen < requiredTuples abi layout name addresses
  notFound : reply.status = .notFound ↔
    hostnameErrno = none ∧ addresses = [] ∧ requiredTuples abi layout name addresses ≤ buflen
  unavail : reply.status = .unavail ↔ hostnameErrno.isSome
  errors : reply.status ≠ .success →
    reply.errno = some ((hostnameErrno.map Errno.other).getD .enomem) ∧
      reply.hErrno = some .noRecovery
  noErrors : reply.status = .success → reply.errno = none ∧ reply.hErrno = none
  pat : reply.pat.isSome ↔ reply.status = .success
  chained : ∀ first, reply.pat = some first → ∀ memory : Memory Cell,
    (memory.writeAll stores).read 0 (name.length + 1) = bytes (name ++ [0]) ∧
      Tuples abi layout (memory.writeAll stores) first addresses

/-! ## The loop over the addresses -/

section

variable {abi : Abi} {layout : TupleLayout abi} {memory : Memory Cell} {prev : Option ℕ} {idx : ℕ}

/-- The fields of a tuple do not overlap, and are within the tuple. -/
theorem apart_tupleStores (layout : TupleLayout abi) (prev : Option ℕ) (idx : ℕ)
    (a : LinkAddress) :
    (∀ store ∈ tupleStores abi layout prev idx a,
      store.Inside idx (idx + tupleStride abi layout)) ∧
      (tupleStores abi layout prev idx a).Pairwise Store.Apart := by
  have hle := abi.le_align layout.size
  have hpointers := layout.pointers_le
  have hfamily := layout.family_le
  have haddr := layout.addr_le
  have hscopeid := layout.scopeid_le
  have hencode := layout.length_encode
  constructor
  · intro store hstore
    simp only [tupleStores, List.mem_cons, List.not_mem_nil, or_false] at hstore
    rcases hstore with rfl | rfl | rfl | rfl | rfl <;>
      simp only [Store.Inside, Store.stop, tupleStride, Abi.length_pointerCells, length_bytes,
        hencode, Vector.length_toList] <;> omega
  · simp only [tupleStores, List.pairwise_cons, List.mem_cons, List.not_mem_nil, or_false,
      forall_eq_or_imp, forall_eq, Store.Apart, Store.stop, Abi.length_pointerCells,
      length_bytes, hencode, Vector.length_toList, IsEmpty.forall_iff, implies_true,
      List.Pairwise.nil, and_true]
    omega

theorem fillTuples_idx (prev : Option ℕ) (idx : ℕ) (l : List LinkAddress) :
    (fillTuples abi layout prev idx l).2.2 = idx + tupleStride abi layout * l.length := by
  induction l generalizing prev idx with
  | nil => rfl
  | cons a before ih =>
      rw [fillTuples, List.length_cons, Nat.mul_add_one]
      refine (ih (some idx) (idx + tupleStride abi layout)).trans ?_
      omega

/-- Every tuple is behind the one that was filled before. -/
theorem apart_fillTuples (layout : TupleLayout abi) (prev : Option ℕ) (idx : ℕ)
    (l : List LinkAddress) :
    (∀ store ∈ (fillTuples abi layout prev idx l).1,
      store.Inside idx (idx + tupleStride abi layout * l.length)) ∧
      (fillTuples abi layout prev idx l).1.Pairwise Store.Apart := by
  induction l generalizing prev idx with
  | nil => exact ⟨fun _ hstore => (List.not_mem_nil hstore).elim, .nil⟩
  | cons a before ih =>
      obtain ⟨hinside, hapart⟩ := apart_tupleStores layout prev idx a
      obtain ⟨hbefore, hbeforeApart⟩ := ih (some idx) (idx + tupleStride abi layout)
      rw [fillTuples, List.length_cons, Nat.mul_add_one]
      refine ⟨fun store hstore => ?_, List.pairwise_append.mpr ⟨hapart, hbeforeApart, ?_⟩⟩
      · rcases List.mem_append.mp hstore with hnew | hold
        · exact (hinside store hnew).mono (Nat.le_refl _) (by omega)
        · exact (hbefore store hold).mono (by omega) (by omega)
      · exact fun first hfirst second hsecond =>
          (hinside first hfirst).apart (hbefore second hsecond) (Nat.le_refl _)

/-- In a memory that holds the stores, the list is the reverse of the loop's. -/
theorem tuples_fillTuples {older : List LinkAddress} (l : List LinkAddress)
    (hholds : ∀ store ∈ (fillTuples abi layout prev idx l).1, memory.Holds store)
    (holder : Tuples abi layout memory prev older) :
    Tuples abi layout memory (fillTuples abi layout prev idx l).2.1 (l.reverse ++ older) := by
  induction l generalizing prev idx older with
  | nil => exact holder
  | cons a before ih =>
      rw [fillTuples] at hholds ⊢
      rw [List.reverse_cons, List.append_assoc, List.singleton_append]
      refine ih (fun store hstore => hholds store (List.mem_append_right _ hstore)) ?_
      have hown : ∀ store ∈ tupleStores abi layout prev idx a, memory.Holds store :=
        fun store hstore => hholds store (List.mem_append_left _ hstore)
      simp only [tupleStores, List.mem_cons, List.not_mem_nil, or_false, forall_eq_or_imp,
        forall_eq] at hown
      obtain ⟨hnext, hname, hfamily, hscopeid, haddr⟩ := hown
      refine ⟨idx, prev, rfl, ⟨pointsTo_of_holds hname, ?_, ?_, ?_⟩, pointsTo_of_holds hnext,
        holder⟩
      · simpa [layout.length_encode] using read_of_holds hfamily
      · simpa using read_of_holds haddr
      · simpa [layout.length_encode] using read_of_holds hscopeid

/-! ## Whole calls -/

variable {name : List UInt8} {addresses : List LinkAddress} {buflen : ℕ}

theorem inside_name (abi : Abi) (name : List UInt8) :
    (⟨0, bytes (name ++ [0])⟩ : Store Cell).Inside 0 (abi.align (name.length + 1)) :=
  ⟨Nat.le_refl 0, by simpa [Store.stop] using abi.le_align (name.length + 1)⟩

/-- The buffer of a call that succeeds. -/
theorem lawful_of_fillTuples (layout : TupleLayout abi) (hne : addresses ≠ [])
    (hle : requiredTuples abi layout name addresses ≤ buflen) (ttl : Option Int32) :
    TuplesLawful abi layout name addresses none buflen
      (⟨0, bytes (name ++ [0])⟩ :: (fillTuples abi layout none (abi.align (name.length + 1))
        addresses.reverse).1)
      { status := .success,
        pat := some (fillTuples abi layout none (abi.align (name.length + 1))
          addresses.reverse).2.1,
        ttl := ttl } := by
  have hrequired : requiredTuples abi layout name addresses =
      abi.align (name.length + 1) + tupleStride abi layout * addresses.reverse.length := by
    rw [requiredTuples, if_pos (List.length_pos_iff.mpr hne), List.length_reverse]
  obtain ⟨hinside, hapart⟩ := apart_fillTuples layout none (abi.align (name.length + 1))
    addresses.reverse
  have hname := inside_name abi name
  refine ⟨fun store hstore => ?_, ⟨fun _ => ⟨rfl, hne, hle⟩, fun _ => rfl⟩, ?_, ?_, ?_, ?_,
    fun _ => ⟨rfl, rfl⟩, ⟨fun _ => rfl, fun _ => rfl⟩, fun first hfirst memory => ?_⟩
  · rcases List.mem_cons.mp hstore with rfl | hstore
    · exact hname.mono (Nat.le_refl 0) (by omega)
    · exact (hinside store hstore).mono (Nat.zero_le _) (by omega)
  · simpa using hle
  · simp [hne]
  · simp
  · simp
  · have hall := List.pairwise_cons.mpr
      ⟨fun store hstore => hname.apart (hinside store hstore) (Nat.le_refl _), hapart⟩
    have hholds := fun (store : Store Cell) hstore =>
      Memory.holds_writeAll_of_pairwise memory hall (show store ∈ _ from hstore)
    obtain rfl := Option.some.inj hfirst
    constructor
    · simpa using read_of_holds (hholds _ List.mem_cons_self)
    · have hnone (memory : Memory Cell) : Tuples abi layout memory none [] := rfl
      have htuples := tuples_fillTuples addresses.reverse
        (fun store hstore => hholds store (List.mem_cons_of_mem _ hstore)) (hnone _)
      rwa [List.reverse_reverse, List.append_nil] at htuples

end

/-! ## A machine -/

/-- The byte of a number that is in place `i` from the lowest. -/
def byteAt (n : UInt32) (i : ℕ) : UInt8 := UInt8.ofNat (n.toNat / 256 ^ i)

theorem byteAt_inj {n m : UInt32} {i : ℕ} (heq : byteAt n i = byteAt m i) :
    n.toNat / 256 ^ i % 256 = m.toNat / 256 ^ i % 256 := by
  simpa [byteAt, UInt8.toNat_ofNat] using congrArg UInt8.toNat heq

theorem eq_of_byteAt {n m : UInt32} (heq : ∀ i < 4, byteAt n i = byteAt m i) : n = m := by
  have h0 := byteAt_inj (heq 0 (by decide))
  have h1 := byteAt_inj (heq 1 (by decide))
  have h2 := byteAt_inj (heq 2 (by decide))
  have h3 := byteAt_inj (heq 3 (by decide))
  have hn := n.toNat_lt
  have hm := m.toNat_lt
  apply UInt32.toNat_inj.mp
  omega

/-- A machine with pointers of eight bytes that stores the lowest byte first. -/
def layout64 : TupleLayout abi64 where
  family := 16
  addr := 20
  scopeid := 36
  size := 40
  pointers_le := Nat.le_refl _
  family_le := Nat.le_refl _
  addr_le := Nat.le_refl _
  scopeid_le := Nat.le_refl _
  encode n := (List.range 4).map (byteAt n)
  length_encode n := by simp
  encode_injective n m heq := by
    apply eq_of_byteAt
    intro i hi
    exact List.map_inj_left.mp heq i (List.mem_range.mpr hi)

/-- The tuple of the first address is the one that is filled last. -/
example : (gethostbyname4R abi64 layout64 [104]
    [⟨⟨2, #v[10, 0, 0, 1, 0, 0, 0, 0, 0, 0, 0, 0, 0, 0, 0, 0]⟩, 1⟩,
      ⟨⟨2, #v[10, 0, 0, 2, 0, 0, 0, 0, 0, 0, 0, 0, 0, 0, 0, 0]⟩, 1⟩] none 88 true).2 =
    .returned { status := .success, pat := some (some 48), ttl := some 0 } := by decide

end Signpost.Hostent

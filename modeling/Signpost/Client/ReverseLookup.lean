import Signpost.Client.Hostent

/-! # Names of addresses

The name service knows the name of one address of each family, which stands for the host
itself. The other lookups are special cases.
-/

namespace Signpost.Hostent

open Machine

/-! ## Lookups by name -/

section

variable (abi : Abi) (hn : List UInt8) (af : ℕ) (addresses : List Address)
  (hostnameErrno : Option ℕ) (buflen : ℕ)

def gethostbyname2R : List (Store Cell) × Outcome :=
  gethostbyname3R abi hn af addresses hostnameErrno buflen false false

def gethostbynameR : List (Store Cell) × Outcome :=
  gethostbyname3R abi hn afUnspec addresses hostnameErrno buflen false false

end

/-! ## Lookups by address -/

/-- Why a lookup fails before it gets to the buffer. -/
inductive Refusal
  /-- `EINVAL` and `NO_RECOVERY`. -/
  | invalidLength
  /-- `EAFNOSUPPORT` and `NO_DATA`. -/
  | familyNotSupported
  /-- `ENOENT` and `HOST_NOT_FOUND`. -/
  | hostNotFound
  /-- The errno of `gethostname`, and `NO_RECOVERY`. -/
  | noHostname (number : ℕ)
deriving DecidableEq

def Refusal.status : Refusal → NssStatus
  | .invalidLength => .unavail
  | .familyNotSupported => .unavail
  | .hostNotFound => .notFound
  | .noHostname _ => .unavail

def localAddressIpv4 : List UInt8 := [127, 0, 0, 2]

def localAddressIpv6 : List UInt8 := List.replicate 15 0 ++ [1]

section

variable (abi : Abi) (addr : List UInt8) (af : ℕ)
  /- The name of the host, or the errno of `gethostname`. -/
  (hostname : Except ℕ (List UInt8))
  /- What `ifconf_acquire_addresses` finds for a name. -/
  (acquire : List UInt8 → List Address)
  (buflen : ℕ) (ttlp : Bool)

def foundAddress : List (Store Cell) × (Refusal ⊕ Outcome) :=
  match hostname with
  | .error number => ([], .inl (.noHostname number))
  | .ok hn =>
      let (stores, outcome) := fillInHostent abi hn af (acquire hn) buflen ttlp false
      (stores, .inr outcome)

/-- The list of addresses that the loop goes through is not filled. -/
def gethostbyaddr2R : List (Store Cell) × (Refusal ⊕ Outcome) :=
  match protoAddressSize af with
  | none => ([], .inr .aborted)
  | some size =>
      if addr.length ≠ size then ([], .inl .invalidLength)
      else if af = afInet then
        if addr = localAddressIpv4 then foundAddress abi af hostname acquire buflen ttlp
        else ([], .inl .hostNotFound)
      else if af = afInet6 then
        if addr = localAddressIpv6 then foundAddress abi af hostname acquire buflen ttlp
        else ([], .inl .hostNotFound)
      else ([], .inl .familyNotSupported)

def gethostbyaddrR : List (Store Cell) × (Refusal ⊕ Outcome) :=
  gethostbyaddr2R abi addr af hostname acquire buflen false

end

def Family.localAddress : Family → List UInt8
  | .inet => localAddressIpv4
  | .inet6 => localAddressIpv6

/-! ## What a lookup by address does -/

/-- A lookup keeps to the buffer. It finds the host itself and nobody else, and then gives what
a lookup of the host's own name gives. -/
structure ReverseLawful (abi : Abi) (addr : List UInt8) (af : ℕ)
    (hostname : Except ℕ (List UInt8)) (acquire : List UInt8 → List Address) (buflen : ℕ)
    (ttlp : Bool) (stores : List (Store Cell)) (result : Refusal ⊕ Outcome) : Prop where
  inside : ∀ store ∈ stores, store.stop ≤ buflen
  /-- The family is not refused, but fails an assertion. -/
  aborted : result = .inr .aborted ↔ ∀ family : Family, af ≠ family.number
  supported : result ≠ .inl .familyNotSupported
  success : (∃ reply, result = .inr (.returned reply) ∧ reply.status = .success) ↔
    ∃ (family : Family) (hn : List UInt8), af = family.number ∧ addr = family.localAddress ∧
      hostname = .ok hn ∧ (∃ a ∈ acquire hn, family.number = a.family.toNat) ∧
      requiredSize abi hn family.number (acquire hn) family.addressSize ≤ buflen
  forward : ∀ reply, result = .inr (.returned reply) → ∃ hn, hostname = .ok hn ∧
    gethostbyname3R abi hn af (acquire hn) none buflen ttlp false = (stores, .returned reply)

section

variable {abi : Abi} {addr : List UInt8} {af : ℕ} {hostname : Except ℕ (List UInt8)}
  {acquire : List UInt8 → List Address} {buflen : ℕ} {ttlp : Bool} {family : Family}

theorem number_inj {other : Family} (heq : family.number = other.number) : family = other := by
  cases family <;> cases other <;> first | rfl | cases heq

/-- The tests for a family that there is. -/
theorem gethostbyaddr2R_number (abi : Abi) (addr : List UInt8) (family : Family)
    (hostname : Except ℕ (List UInt8)) (acquire : List UInt8 → List Address) (buflen : ℕ)
    (ttlp : Bool) :
    gethostbyaddr2R abi addr family.number hostname acquire buflen ttlp =
      if addr = family.localAddress then
        foundAddress abi family.number hostname acquire buflen ttlp
      else if addr.length ≠ family.addressSize then ([], .inl .invalidLength)
      else ([], .inl .hostNotFound) := by
  by_cases hlocal : addr = family.localAddress
  · subst hlocal
    rw [if_pos rfl]
    cases family with
    | inet => rfl
    | inet6 => rfl
  · rw [if_neg hlocal]
    unfold gethostbyaddr2R
    rw [protoAddressSize_number]
    cases family with
    | inet => simp [Family.number, show ¬ addr = localAddressIpv4 from hlocal]
    | inet6 =>
        simp [Family.number, afInet, afInet6, show ¬ addr = localAddressIpv6 from hlocal]

theorem protoAddressSize_eq_none (hother : ∀ family : Family, af ≠ family.number) :
    protoAddressSize af = none := by
  have hinet : af ≠ afInet := hother .inet
  have hinet6 : af ≠ afInet6 := hother .inet6
  simp [protoAddressSize, hinet, hinet6]

/-- What is filled in for a family is inside the buffer, and is complete or fails. -/
theorem fillInHostent_cases (abi : Abi) (hn : List UInt8) (family : Family)
    (addresses : List Address) (buflen : ℕ) (ttlp canonp : Bool) :
    ∃ stores reply, fillInHostent abi hn family.number addresses buflen ttlp canonp =
        (stores, .returned reply) ∧ (∀ store ∈ stores, store.stop ≤ buflen) ∧
      (reply.status = .success ↔ (∃ a ∈ addresses, family.number = a.family.toNat) ∧
        requiredSize abi hn family.number addresses family.addressSize ≤ buflen) := by
  rw [← countMatching_pos_iff]
  rcases Nat.lt_or_ge buflen (requiredSize abi hn family.number addresses family.addressSize)
    with hlt | hle
  · refine ⟨_, _, fillInHostent_of_lt ttlp canonp hlt, by simp, ?_⟩
    simp [Nat.not_le.mpr hlt]
  rcases Nat.eq_zero_or_pos (countMatching family.number addresses) with hnone | hpos
  -- no address of the family: the name and an empty list of aliases are stored
  · refine ⟨_, _, fillInHostent_of_none hle hnone, ?_, ?_⟩
    · have hname := abi.le_align (hn.length + 1)
      have hstart : addressStart abi hn ≤ buflen := by
        refine Nat.le_trans ?_ hle
        rw [requiredSize, addressStart, Nat.add_assoc _ _ (_ * abi.pointerSize)]
        exact Nat.le_add_right _ _
      rw [addressStart] at hstart
      intro store hstore
      rcases List.mem_cons.mp hstore with rfl | hstore
      · simp only [Store.stop, length_bytes, List.length_append, List.length_singleton]
        omega
      · obtain rfl := List.mem_singleton.mp hstore
        rw [Store.stop, Abi.length_pointerCells]
        exact hstart
    · simp [hnone]
  · have hall : Lawful abi hn family addresses buflen ttlp canonp := lawful_of_le hpos hle
    have hlawful := hall.inside
    have hfill := fillInHostent_of_pos ttlp canonp hle hpos
    rw [hfill] at hlawful
    exact ⟨_, _, hfill, hlawful, by simp [hpos, hle]⟩

theorem reverseLawful_of_refusal {refusal : Refusal} (hnumber : af = family.number)
    (hsupported : refusal ≠ .familyNotSupported)
    (hrefused : addr ≠ family.localAddress ∨ ∃ number, hostname = .error number) :
    ReverseLawful abi addr af hostname acquire buflen ttlp [] (.inl refusal) where
  inside _ hstore := (List.not_mem_nil hstore).elim
  aborted := by simpa using ⟨family, hnumber⟩
  supported := by simpa using hsupported
  success := by
    refine iff_of_false (by simp) ?_
    rintro ⟨other, hn, hother, haddr, hname, -, -⟩
    obtain rfl := number_inj (hnumber.symm.trans hother)
    rcases hrefused with hne | ⟨number, herror⟩
    · exact hne haddr
    · rw [herror] at hname
      cases hname
  forward _ hreply := by cases hreply

/-- For every address and family, also ones that there are not. -/
theorem gethostbyaddr2R_lawful (abi : Abi) (addr : List UInt8) (af : ℕ)
    (hostname : Except ℕ (List UInt8)) (acquire : List UInt8 → List Address) (buflen : ℕ)
    (ttlp : Bool) :
    ∃ stores result, gethostbyaddr2R abi addr af hostname acquire buflen ttlp = (stores, result) ∧
      ReverseLawful abi addr af hostname acquire buflen ttlp stores result := by
  by_cases hfamily : ∀ family : Family, af ≠ family.number
  -- `abort` in the switch over the families
  · refine ⟨[], .inr .aborted, ?_, fun _ hstore => (List.not_mem_nil hstore).elim,
      iff_of_true rfl hfamily, by simp, iff_of_false (by simp) ?_, fun _ hreply => by cases hreply⟩
    · rw [gethostbyaddr2R, protoAddressSize_eq_none hfamily]
    · rintro ⟨family, hn, hnumber, -⟩
      exact hfamily family hnumber
  simp only [not_forall, not_not] at hfamily
  obtain ⟨family, rfl⟩ := hfamily
  rw [gethostbyaddr2R_number]
  by_cases hlocal : addr = family.localAddress
  · rw [if_pos hlocal]
    cases hostname with
    | error number =>
        exact ⟨_, _, rfl, reverseLawful_of_refusal rfl (by simp) (.inr ⟨number, rfl⟩)⟩
    -- from here on it is a lookup of the name that the host has
    | ok hn =>
        obtain ⟨stores, reply, hfill, hinside, hsuccess⟩ :=
          fillInHostent_cases abi hn family (acquire hn) buflen ttlp false
        refine ⟨stores, .inr (.returned reply), by rw [foundAddress, hfill], hinside, ?_, by simp,
          ?_, ?_⟩
        · exact iff_of_false (by simp) fun hnone => hnone family rfl
        · constructor
          · rintro ⟨other, hother, hstatus⟩
            obtain rfl := Outcome.returned.inj (Sum.inr.inj hother)
            obtain ⟨hmem, hle⟩ := hsuccess.mp hstatus
            exact ⟨family, hn, rfl, hlocal, rfl, hmem, hle⟩
          · rintro ⟨other, name, hnumber, -, hname, hmem, hle⟩
            obtain rfl := number_inj hnumber
            obtain rfl := Except.ok.inj hname
            exact ⟨reply, rfl, hsuccess.mpr ⟨hmem, hle⟩⟩
        · rintro other hother
          obtain rfl := Outcome.returned.inj (Sum.inr.inj hother)
          exact ⟨hn, rfl, by rw [gethostbyname3R_number]; exact hfill⟩
  -- no other address is known, whatever its length
  · rw [if_neg hlocal]
    split
    next => exact ⟨_, _, rfl, reverseLawful_of_refusal rfl (by simp) (.inl hlocal)⟩
    next => exact ⟨_, _, rfl, reverseLawful_of_refusal rfl (by simp) (.inl hlocal)⟩

/-- The address of the host leads to what its name leads to. -/
theorem gethostbyaddrR_localAddress (abi : Abi) (hn : List UInt8) (family : Family)
    (acquire : List UInt8 → List Address) (buflen : ℕ) :
    gethostbyaddrR abi family.localAddress family.number (.ok hn) acquire buflen =
      ((gethostbyname2R abi hn family.number (acquire hn) none buflen).1,
        .inr (gethostbyname2R abi hn family.number (acquire hn) none buflen).2) := by
  rw [gethostbyaddrR, gethostbyaddr2R_number, if_pos rfl, gethostbyname2R, gethostbyname3R_number]
  rfl

end

end Signpost.Hostent

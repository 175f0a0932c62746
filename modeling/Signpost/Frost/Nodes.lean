import Mathlib.Algebra.Order.Ring.Int
import Mathlib.Logic.Function.Basic
import Signpost.Frost.Json
import Signpost.Machine.Scanning

/-! # Nodes and their addresses

A node is known by the signalling channel that it has last said hello from. The
address comes from the network as a text, and an answer of the DNS needs it as a
word of 32 bits.
-/

namespace Signpost.Frost

open Machine

/-! ## The table of nodes -/

inductive SignallingChannel
  | signallingChannel (ip : Text) (port : Int64)
  | noSignallingChannel
deriving DecidableEq

structure Node where
  signallingChannel : SignallingChannel
  name : Text
deriving DecidableEq

abbrev Nodes := Text → Option Node

def newNodeWithName (name : Text) : Node := ⟨.noSignallingChannel, name⟩

namespace Nodes

variable (nodes : Nodes) (name : Text)

def update (node : Node) : Nodes := Function.update nodes name (some node)

def get : Node := (nodes name).getD (newNodeWithName name)

def updateSigChannel (channelIp : Text) (port : Int64) : Nodes :=
  nodes.update name
    { nodes.get name with signallingChannel := .signallingChannel channelIp port }

/-- The address and the port, or `Not_found`. -/
def signallingChannel : Option (Text × Int64) :=
  match (nodes.get name).signallingChannel with
  | .noSignallingChannel => none
  | .signallingChannel ip port => some (ip, port)

def getIp : Option Text :=
  match (nodes.get name).signallingChannel with
  | .noSignallingChannel => none
  | .signallingChannel ip _ => some ip

end Nodes

/-! ## Addresses -/

/-- A character of the format that stands for itself. -/
def checkChar (c : Char) : Text → Option Text
  | [] => none
  | first :: rest => if first = c then some rest else none

/-- A number and the dot behind it. -/
def scanPart (x : Text) : Option (ℤ × Text) :=
  (scanInt 32 x).bind fun (n, rest) => (checkChar '.' rest).map fun rest => (n, rest)

/-- The format `"%ld.%ld.%ld.%ld"`. Nothing asks for the end of the text. -/
def scanQuad (x : Text) : Option (ℤ × ℤ × ℤ × ℤ) := do
  let (a, x) ← scanPart x
  let (b, x) ← scanPart x
  let (c, x) ← scanPart x
  let (d, _) ← scanInt 32 x
  return (a, b, c, d)

/-- The operations of `Int32`. -/
def ipv4AddrOfTuple : ℤ × ℤ × ℤ × ℤ → BitVec 32
  | (a, b, c, d) =>
      (BitVec.ofInt 32 a <<< 24) + (BitVec.ofInt 32 b <<< 16) + (BitVec.ofInt 32 c <<< 8) +
        BitVec.ofInt 32 d

/-- Exceptions of the scanner leave the address at zero. -/
def ipv4AddrOfString (x : Text) : BitVec 32 :=
  match scanQuad x with
  | some quad => ipv4AddrOfTuple quad
  | none => 0

def Nodes.getNodeIp (nodes : Nodes) (name : Text) : BitVec 32 :=
  match nodes.getIp name with
  | some ip => ipv4AddrOfString ip
  | none => 0

/-! ## Dotted quads -/

/-- A numeral for a byte. -/
def Octet (s : Text) (n : ℕ) : Prop :=
  s ≠ [] ∧ (∀ c ∈ s, c.isDigit) ∧ Nat.ofDigitChars 10 s 0 = n ∧ n ≤ 255

/-- The text is `a.b.c.d`. -/
def DottedQuad (x : Text) (a b c d : ℕ) : Prop :=
  ∃ s t u v, x = s ++ '.' :: (t ++ '.' :: (u ++ '.' :: v)) ∧
    Octet s a ∧ Octet t b ∧ Octet u c ∧ Octet v d

/-- The text begins with four integers of 32 bits that are separated by dots. -/
def BeginsWith (x : Text) (a b c d : ℤ) : Prop :=
  ∃ s t u v rest, x = s ++ '.' :: (t ++ '.' :: (u ++ '.' :: (v ++ rest))) ∧
    (Numeral s a ∧ Fits 32 a) ∧ (Numeral t b ∧ Fits 32 b) ∧ (Numeral u c ∧ Fits 32 c) ∧
      (Numeral v d ∧ Fits 32 d) ∧ Stops rest

/-- The address is that of the dotted quad, and zero for every other text. -/
def OnlyDottedQuads (x : Text) (ip : BitVec 32) : Prop :=
  (∀ a b c d, DottedQuad x a b c d →
    ip = BitVec.ofNat 32 (a * 2 ^ 24 + b * 2 ^ 16 + c * 2 ^ 8 + d)) ∧
  ((∀ a b c d, ¬ DottedQuad x a b c d) → ip = 0)

/-! ## What the scanner takes for an address -/

theorem checkChar_eq_some_iff {c : Char} {text rest : Text} :
    checkChar c text = some rest ↔ text = c :: rest := by
  cases text with
  | nil => simp [checkChar]
  | cons first text =>
      rw [checkChar]
      split
      next heq => simp [heq]
      next hne => simp [hne]

theorem stops_dot (text : Text) : Stops ('.' :: text) := by
  intro c hc
  obtain rfl := Option.some.inj hc
  unfold GoesOn
  decide

theorem scanPart_eq_some_iff {x rest : Text} {n : ℤ} :
    scanPart x = some (n, rest) ↔ ∃ s, x = s ++ '.' :: rest ∧ Numeral s n ∧ Fits 32 n := by
  constructor
  · intro hscan
    obtain ⟨⟨value, left⟩, hvalue, hrest⟩ := Option.bind_eq_some_iff.mp hscan
    obtain ⟨after, hdot, heq⟩ := Option.map_eq_some_iff.mp hrest
    obtain ⟨rfl, rfl⟩ := Prod.mk.inj heq
    obtain rfl := checkChar_eq_some_iff.mp hdot
    obtain ⟨s, rfl, hnumeral, hfits, -⟩ := scanInt_eq_some_iff.mp hvalue
    exact ⟨s, rfl, hnumeral, hfits⟩
  · rintro ⟨s, rfl, hnumeral, hfits⟩
    rw [scanPart, scanInt_eq_some_iff.mpr ⟨s, rfl, hnumeral, hfits, stops_dot rest⟩]
    simp [checkChar]

theorem scanQuad_eq_some_iff {x : Text} {a b c d : ℤ} :
    scanQuad x = some (a, b, c, d) ↔ BeginsWith x a b c d := by
  constructor
  · intro hscan
    obtain ⟨⟨first, y⟩, hscanA, hscan⟩ := Option.bind_eq_some_iff.mp hscan
    obtain ⟨⟨second, z⟩, hscanB, hscan⟩ := Option.bind_eq_some_iff.mp hscan
    obtain ⟨⟨third, w⟩, hscanC, hscan⟩ := Option.bind_eq_some_iff.mp hscan
    obtain ⟨⟨fourth, rest⟩, hd, heq⟩ := Option.bind_eq_some_iff.mp hscan
    cases heq
    obtain ⟨s, rfl, ha⟩ := scanPart_eq_some_iff.mp hscanA
    obtain ⟨t, rfl, hb⟩ := scanPart_eq_some_iff.mp hscanB
    obtain ⟨u, rfl, hc⟩ := scanPart_eq_some_iff.mp hscanC
    obtain ⟨v, rfl, hnumeral, hfits, hstops⟩ := scanInt_eq_some_iff.mp hd
    exact ⟨s, t, u, v, rest, rfl, ha, hb, hc, ⟨hnumeral, hfits⟩, hstops⟩
  · rintro ⟨s, t, u, v, rest, rfl, ha, hb, hc, ⟨hnumeral, hfits⟩, hstops⟩
    have hd := scanInt_eq_some_iff.mpr ⟨v, rfl, hnumeral, hfits, hstops⟩
    simp [scanQuad, scanPart_eq_some_iff.mpr ⟨s, rfl, ha⟩, scanPart_eq_some_iff.mpr ⟨t, rfl, hb⟩,
      scanPart_eq_some_iff.mpr ⟨u, rfl, hc⟩, hd]

theorem ofInt_shiftLeft (n : ℤ) (count : ℕ) :
    BitVec.ofInt 32 n <<< count = BitVec.ofInt 32 (n * 2 ^ count) := by
  have hpower : BitVec.twoPow 32 count = BitVec.ofInt 32 (2 ^ count) := by
    apply BitVec.eq_of_toNat_eq
    rw [BitVec.toNat_twoPow, ← BitVec.toNat_ofNat, ← BitVec.ofInt_natCast]
    push_cast
    rfl
  rw [BitVec.shiftLeft_eq_mul_twoPow, BitVec.ofInt_mul, hpower]

/-- A part that is out of range spills into the parts before it. -/
theorem ipv4AddrOfTuple_eq (a b c d : ℤ) :
    ipv4AddrOfTuple (a, b, c, d) = BitVec.ofInt 32 (a * 2 ^ 24 + b * 2 ^ 16 + c * 2 ^ 8 + d) := by
  simp only [ipv4AddrOfTuple, ofInt_shiftLeft, BitVec.ofInt_add]

theorem ofInt_eq_zero_iff (n : ℤ) : BitVec.ofInt 32 n = 0 ↔ (2 ^ 32 : ℤ) ∣ n := by
  rw [← BitVec.toInt_inj, BitVec.toInt_ofInt]
  exact Int.dvd_iff_bmod_eq_zero.symm

theorem Octet.numeral {s : Text} {n : ℕ} (hoctet : Octet s n) : Numeral s n ∧ Fits 32 n := by
  obtain ⟨hne, hdigits, rfl, hle⟩ := hoctet
  have hfilter : s.filter Char.isDigit = s := List.filter_eq_self.mpr hdigits
  obtain ⟨first, rest, rfl⟩ := List.exists_cons_of_ne_nil hne
  rw [List.forall_mem_cons] at hdigits
  have hnumber : IsNumber (first :: rest) :=
    ⟨first, rest, rfl, hdigits.1, fun c hc => .inl (hdigits.2 c hc)⟩
  refine ⟨?_, ?_⟩
  · have hplain := Numeral.plain hnumber
    rwa [magnitude, hfilter] at hplain
  · unfold Fits
    omega

theorem DottedQuad.beginsWith {x : Text} {a b c d : ℕ} (hquad : DottedQuad x a b c d) :
    BeginsWith x a b c d := by
  obtain ⟨s, t, u, v, rfl, ha, hb, hc, hd⟩ := hquad
  refine ⟨s, t, u, v, [], ?_, ha.numeral, hb.numeral, hc.numeral, hd.numeral, ?_⟩
  · rw [List.append_nil]
  · intro c hc
    cases hc

section

variable (nodes : Nodes) (name x : Text) (port : Int64)

theorem getNodeIp_updateSigChannel :
    (nodes.updateSigChannel name x port).getNodeIp name = ipv4AddrOfString x := by
  simp [Nodes.getNodeIp, Nodes.getIp, Nodes.get, Nodes.updateSigChannel, Nodes.update]

theorem ipv4AddrOfString_of_beginsWith {x : Text} {a b c d : ℤ} (hbegins : BeginsWith x a b c d) :
    ipv4AddrOfString x = BitVec.ofInt 32 (a * 2 ^ 24 + b * 2 ^ 16 + c * 2 ^ 8 + d) := by
  rw [ipv4AddrOfString, scanQuad_eq_some_iff.mpr hbegins, ← ipv4AddrOfTuple_eq]

/-- Only dotted quads become addresses exactly when the text is one, or when the
integers at its beginning, if there are four, cancel each other out. -/
theorem onlyDottedQuads_iff :
    OnlyDottedQuads x ((nodes.updateSigChannel name x port).getNodeIp name) ↔
      (∃ a b c d, DottedQuad x a b c d) ∨
        ∀ a b c d, BeginsWith x a b c d →
          (2 ^ 32 : ℤ) ∣ a * 2 ^ 24 + b * 2 ^ 16 + c * 2 ^ 8 + d := by
  rw [getNodeIp_updateSigChannel]
  constructor
  · rintro ⟨-, hother⟩
    by_cases hquad : ∃ a b c d, DottedQuad x a b c d
    · exact .inl hquad
    · refine .inr fun a b c d hbegins => ?_
      have hzero := hother (by simpa using hquad)
      rwa [ipv4AddrOfString_of_beginsWith hbegins, ofInt_eq_zero_iff] at hzero
  · intro hcondition
    refine ⟨fun a b c d hquad => ?_, fun hnone => ?_⟩
    · rw [ipv4AddrOfString_of_beginsWith hquad.beginsWith, ← BitVec.ofInt_natCast]
      push_cast
      rfl
    · rcases hcondition with ⟨a, b, c, d, hquad⟩ | hzero
      · exact absurd hquad (hnone a b c d)
      · cases hscan : scanQuad x with
        | none => rw [ipv4AddrOfString, hscan]
        | some quad =>
            obtain ⟨a, b, c, d⟩ := quad
            have hbegins := scanQuad_eq_some_iff.mp hscan
            rw [ipv4AddrOfString_of_beginsWith hbegins, ofInt_eq_zero_iff]
            exact hzero a b c d hbegins

end

/-! ## An address out of range -/

/-- The last part spills into the one before it. -/
def spilling : Text := "10.0.0.256".toList

theorem scanQuad_spilling : scanQuad spilling = some (10, 0, 0, 256) := by decide

example : ipv4AddrOfString spilling = ipv4AddrOfString "10.0.1.0".toList := by decide

theorem not_onlyDottedQuads_spilling :
    ¬ ∀ (nodes : Nodes) (name x : Text) (port : Int64),
      OnlyDottedQuads x ((nodes.updateSigChannel name x port).getNodeIp name) := by
  intro hclaim
  have hnone : ∀ a b c d, ¬ DottedQuad spilling a b c d := by
    intro a b c d hquad
    have hscan := scanQuad_eq_some_iff.mpr hquad.beginsWith
    rw [scanQuad_spilling] at hscan
    simp only [Option.some.injEq, Prod.mk.injEq] at hscan
    obtain ⟨_, _, _, _, _, _, _, _, hoctet⟩ := hquad
    have hle := hoctet.2.2.2
    omega
  have hzero := (hclaim (fun _ => none) [] spilling 4444).2 hnone
  rw [getNodeIp_updateSigChannel] at hzero
  exact absurd hzero (by decide)

end Signpost.Frost

import Ircd.Net.InAddr

/-! `ipmask_check` on the bytes of two addresses, for a host of either byte order.

The other modules keep the words of an address in host order and take the outcome for a truth value;
`ipmaskCheckInt_eq` connects the two.
-/

set_option autoImplicit false

namespace Ircd.Net

inductive ByteOrder where
  | little
  | big
  deriving DecidableEq

namespace ByteOrder

/-- An `unsigned short` that lies in memory as these two bytes. -/
def load : ByteOrder → BitVec 8 → BitVec 8 → BitVec 16
  | big, first, second => first ++ second
  | little, first, second => second ++ first

def htons : ByteOrder → BitVec 16 → BitVec 16
  | big, w => w
  | little, w => w.extractLsb' 0 8 ++ w.extractLsb' 8 8

theorem htons_load (order : ByteOrder) (first second : BitVec 8) :
    order.htons (order.load first second) = first ++ second := by
  cases order with
  | big => rfl
  | little => rw [load, htons, BitVec.extractLsb'_append_eq_left, BitVec.extractLsb'_append_eq_right]

theorem load_xor (order : ByteOrder) (first second first' second' : BitVec 8) :
    order.load first second ^^^ order.load first' second' = order.load (first ^^^ first') (second ^^^ second') := by
  cases order <;> exact BitVec.xor_append

theorem load_eq_iff (order : ByteOrder) (first second first' second' : BitVec 8) :
    order.load first second = order.load first' second' ↔ first ++ second = first' ++ second' := by
  constructor
  · intro same
    rw [← htons_load order, ← htons_load order first', same]
  · intro same
    have parts : first = first' ∧ second = second' := by
      constructor
      · simpa only [BitVec.extractLsb'_append_eq_left] using congrArg (BitVec.extractLsb' 8 8) same
      · simpa only [BitVec.extractLsb'_append_eq_right] using congrArg (BitVec.extractLsb' 0 8) same
    rw [parts.1, parts.2]

end ByteOrder

/-- `struct irc_in_addr` as the sixteen bytes it takes in memory, the parts in network order. -/
structure StoredAddr where
  bytes : List (BitVec 8)
  length_eq : bytes.length = 16

namespace StoredAddr

def byte (a : StoredAddr) (i : Nat) : BitVec 8 := a.bytes.getD i 0

def in6_16 (order : ByteOrder) (a : StoredAddr) (k : Nat) : BitVec 16 :=
  order.load (a.byte (2 * k)) (a.byte (2 * k + 1))

/-- Bit `i` in network order: the top bit of the first byte comes first. -/
def bit (a : StoredAddr) (i : Nat) : Bool := (a.byte (i / 8)).getMsbD (i % 8)

/-- The loop of `ipmask_check` with `left` rounds to go. -/
def ipmaskCheckLoop (order : ByteOrder) (addr mask : StoredAddr) (k : Nat) : Nat → UInt8 → Int
  | 0, _ => -1
  | left + 1, bits =>
    if bits < 16 then
      if (order.htons (addr.in6_16 order k ^^^ mask.in6_16 order k)).toNat >>> (16 - bits.toNat) = 0 then 1 else 0
    else if addr.in6_16 order k ≠ mask.in6_16 order k then 0
    else if bits - 16 = 0 then 1
    else ipmaskCheckLoop order addr mask (k + 1) left (bits - 16)

def ipmaskCheckInt (order : ByteOrder) (addr mask : StoredAddr) (bits : UInt8) : Int :=
  ipmaskCheckLoop order addr mask 0 8 bits

def hostWord (a : StoredAddr) (k : Nat) : UInt16 := UInt16.ofBitVec (a.byte (2 * k) ++ a.byte (2 * k + 1))

def host (a : StoredAddr) : InAddr := ⟨(List.range' 0 8).map a.hostWord, rfl⟩

theorem xor_in6_16 (order : ByteOrder) (addr mask : StoredAddr) (k : Nat) :
    (order.htons (addr.in6_16 order k ^^^ mask.in6_16 order k)).toNat =
      (addr.hostWord k ^^^ mask.hostWord k).toNat := by
  rw [in6_16, in6_16, ByteOrder.load_xor, ByteOrder.htons_load, ← BitVec.xor_append]
  rfl

theorem in6_16_eq_iff (order : ByteOrder) (addr mask : StoredAddr) (k : Nat) :
    addr.in6_16 order k = mask.in6_16 order k ↔ addr.hostWord k = mask.hostWord k := by
  rw [in6_16, in6_16, ByteOrder.load_eq_iff, hostWord, hostWord, ← UInt16.toBitVec_inj]

theorem ipmaskCheckLoop_eq (order : ByteOrder) (addr mask : StoredAddr) (k left : Nat) (bits : UInt8) :
    ipmaskCheckLoop order addr mask k left bits ≠ 0 ↔
      InAddr.ipmaskCheckFrom ((List.range' k left).map addr.hostWord) ((List.range' k left).map mask.hostWord)
        bits.toNat = true := by
  induction left generalizing k bits with
  | zero => simp [ipmaskCheckLoop, InAddr.ipmaskCheckFrom]
  | succ left ih =>
    rw [ipmaskCheckLoop, List.range'_succ, List.map_cons, List.map_cons, InAddr.ipmaskCheckFrom]
    by_cases few : bits < 16
    · have small : bits.toNat < 16 := UInt8.lt_iff_toNat_lt.mp few
      rw [if_pos few, if_pos small, xor_in6_16]
      simp
    · have large : ¬ bits.toNat < 16 := fun small => few (UInt8.lt_iff_toNat_lt.mpr small)
      rw [if_neg few, if_neg large]
      by_cases same : addr.hostWord k = mask.hostWord k
      · have rest : (bits - 16).toNat = bits.toNat - 16 :=
          UInt8.toNat_sub_of_le bits 16 (UInt8.le_iff_toNat_le.mpr (Nat.le_of_not_lt large))
        have done : bits - 16 = 0 ↔ bits.toNat = 16 := by
          rw [← UInt8.toNat_inj, rest]
          change bits.toNat - 16 = 0 ↔ _
          omega
        rw [if_neg (not_not.mpr ((in6_16_eq_iff order addr mask k).mpr same)), if_neg (not_not.mpr same)]
        by_cases last : bits.toNat = 16
        · simp [done.mpr last, last]
        · rw [if_neg (fun zero => last (done.mp zero)), if_neg last, ih, rest]
      · rw [if_pos (mt (in6_16_eq_iff order addr mask k).mp same), if_pos same]
        simp

theorem ipmaskCheckInt_eq (order : ByteOrder) (addr mask : StoredAddr) (bits : UInt8) :
    ipmaskCheckInt order addr mask bits ≠ 0 ↔ addr.host.ipmaskCheck mask.host bits.toNat = true :=
  ipmaskCheckLoop_eq order addr mask 0 8 bits

theorem wordBit_hostWord (a : StoredAddr) (k : Nat) {i : Nat} (inside : i < 16) :
    InAddr.wordBit (a.hostWord k) i = a.bit (16 * k + i) := by
  have word : InAddr.wordBit (a.hostWord k) i = (a.byte (2 * k) ++ a.byte (2 * k + 1)).getMsbD i := by
    rw [BitVec.getMsbD, decide_eq_true inside, Bool.true_and]
    rfl
  rw [word, BitVec.getMsbD_append, bit]
  by_cases first : i < 8
  · have place : (16 * k + i) / 8 = 2 * k ∧ (16 * k + i) % 8 = i := by omega
    rw [if_neg (Nat.not_le.mpr first), place.1, place.2]
  · have place : (16 * k + i) / 8 = 2 * k + 1 ∧ (16 * k + i) % 8 = i - 8 := by omega
    rw [if_pos (Nat.le_of_not_lt first), place.1, place.2]

theorem bit_host (a : StoredAddr) {i : Nat} (inside : i < 128) : a.host.bit i = a.bit i := by
  have word : a.host.word (i / 16) = a.hostWord (i / 16) := by
    have place : i / 16 < 8 := by omega
    rw [InAddr.word, host, List.getD_eq_getElem?_getD, List.getElem?_map, List.getElem?_range' place]
    simp
  rw [InAddr.bit, word, wordBit_hostWord a _ (Nat.mod_lt i (by decide)), Nat.div_add_mod]

/-- `ipmask_check` is not zero if and only if the addresses agree on their first `bits` bits, on a host of either
byte order. -/
theorem ipmask_check_bits (order : ByteOrder) (addr mask : StoredAddr) (bits : UInt8) (range : bits ≤ 128) :
    ipmaskCheckInt order addr mask bits ≠ 0 ↔ ∀ i < bits.toNat, addr.bit i = mask.bit i := by
  have all : bits.toNat ≤ 128 := UInt8.le_iff_toNat_le.mp range
  rw [ipmaskCheckInt_eq, InAddr.ipmaskCheck_iff]
  apply forall₂_congr
  intro i less
  rw [bit_host addr (by omega), bit_host mask (by omega)]

/-- `::` and `::1`, which differ in the last bit only. -/
def zeroAddr : StoredAddr := ⟨List.replicate 16 0, List.length_replicate⟩

def oneAddr : StoredAddr := ⟨List.replicate 15 0 ++ [1], rfl⟩

theorem ipmask_check_last_bit :
    ipmaskCheckInt .little zeroAddr oneAddr 127 ≠ 0 ∧ ¬ ipmaskCheckInt .little zeroAddr oneAddr 128 ≠ 0 :=
  ⟨(ipmask_check_bits .little zeroAddr oneAddr 127 (by decide)).mpr (by decide),
    fun taken => absurd ((ipmask_check_bits .little zeroAddr oneAddr 128 (by decide)).mp taken 127 (by decide))
      (by decide)⟩

end StoredAddr

end Ircd.Net

import Mathlib.Data.List.Basic
import Mathlib.Data.UInt

/-! Addresses: `struct irc_in_addr` and the tests of `res.h`.

The eight words are kept in host order; the source stores them in network order and
converts at each use.
-/

set_option autoImplicit false

namespace Ircd.Net

structure InAddr where
  words : List UInt16
  length_eq : words.length = 8
  deriving DecidableEq

namespace InAddr

def word (a : InAddr) (i : Nat) : UInt16 := a.words.getD i 0

def unspec (a : InAddr) : Bool :=
  a.word 0 = 0 && a.word 1 = 0 && a.word 2 = 0 && a.word 3 = 0 && a.word 4 = 0 && a.word 6 = 0 &&
    a.word 7 = 0 && (a.word 5 = 0 || a.word 5 = 65535)

/-- `irc_in_addr_is_ipv4`: the forms `::a.b.c.d` and `::ffff:a.b.c.d`. -/
def isIpv4 (a : InAddr) : Bool :=
  a.word 0 = 0 && a.word 1 = 0 && a.word 2 = 0 && a.word 3 = 0 && a.word 4 = 0 &&
    (a.word 5 = 0 && a.word 6 ≠ 0 || a.word 5 = 65535)

/-- `irc_in_addr_valid`. Its test `~in6_16[0]` complements a promoted `int` and is never zero,
so only `::` is not valid. -/
def valid (a : InAddr) : Bool :=
  a.word 0 ≠ 0 || a.word 1 ≠ a.word 0 || a.word 2 ≠ a.word 0 || a.word 3 ≠ a.word 0 || a.word 4 ≠ a.word 0 ||
    a.word 5 ≠ a.word 0 || a.word 6 ≠ a.word 0 || a.word 7 ≠ a.word 0

/-- The loop of `ipmask_check`, from some word on. -/
def ipmaskCheckFrom : List UInt16 → List UInt16 → Nat → Bool
  | a :: addr, m :: mask, bits =>
    if bits < 16 then (a ^^^ m).toNat >>> (16 - bits) = 0
    else if a ≠ m then false
    else if bits = 16 then true
    else ipmaskCheckFrom addr mask (bits - 16)
  | _, _, _ => true

def ipmaskCheck (addr mask : InAddr) (bits : Nat) : Bool := ipmaskCheckFrom addr.words mask.words bits

/-- The address `::ffff:a.b.c.d` with the given two low words. -/
def mapped (high low : UInt16) : InAddr := ⟨[0, 0, 0, 0, 0, 65535, high, low], rfl⟩

/-- An address as the receiving side writes it: the mapped form of an IPv4 address. -/
def canonical (a : InAddr) : InAddr := if a.isIpv4 then mapped (a.word 6) (a.word 7) else a

theorem ext_words {a b : InAddr} (same : a.words = b.words) : a = b := by
  cases a; cases b; cases same; rfl

def wordBit (w : UInt16) (i : Nat) : Bool := w.toNat.testBit (15 - i)

/-- Bit `i` of an address; the first bit is the top one of the first word. -/
def bit (a : InAddr) (i : Nat) : Bool := wordBit (a.word (i / 16)) (i % 16)

theorem wordBits_shift {a m : UInt16} {bits : Nat} (few : bits ≤ 16) :
    (a ^^^ m).toNat >>> (16 - bits) = 0 ↔ ∀ i < bits, wordBit a i = wordBit m i := by
  rw [UInt16.toNat_xor]
  constructor
  · intro zero i less
    have here := congrArg (Nat.testBit · (bits - 1 - i)) zero
    have place : 16 - bits + (bits - 1 - i) = 15 - i := by omega
    simpa [Nat.testBit_shiftRight, place, wordBit] using here
  · intro same
    apply Nat.eq_of_testBit_eq
    intro j
    rw [Nat.testBit_shiftRight, Nat.testBit_xor, Nat.zero_testBit]
    by_cases less : j < bits
    · have here := same (bits - 1 - j) (by omega)
      have place : 15 - (bits - 1 - j) = 16 - bits + j := by omega
      simpa [wordBit, place] using here
    · have high (w : UInt16) : w.toNat.testBit (16 - bits + j) = false := by
        apply Nat.testBit_lt_two_pow
        exact Nat.lt_of_lt_of_le w.toNat_lt (Nat.pow_le_pow_right (by decide) (by omega))
      rw [high a, high m]
      rfl

theorem eq_of_wordBits {a m : UInt16} : a = m ↔ ∀ i < 16, wordBit a i = wordBit m i := by
  rw [← wordBits_shift (Nat.le_refl 16), Nat.sub_self, Nat.shiftRight_zero, ← UInt16.xor_eq_zero_iff, ← UInt16.toNat_inj]
  rfl

theorem ipmaskCheckFrom_iff {addr mask : List UInt16} (same_length : addr.length = mask.length) (bits : Nat) :
    ipmaskCheckFrom addr mask bits = true ↔
      ∀ i < bits, wordBit (addr.getD (i / 16) 0) (i % 16) = wordBit (mask.getD (i / 16) 0) (i % 16) := by
  induction addr generalizing mask bits with
  | nil =>
    cases mask with
    | nil => simp [ipmaskCheckFrom]
    | cons m mask => cases same_length
  | cons a addr ih =>
    cases mask with
    | nil => cases same_length
    | cons m mask =>
      -- The bits of the first word, and those behind it.
      have split : (∀ i < bits, wordBit ((a :: addr).getD (i / 16) 0) (i % 16) =
          wordBit ((m :: mask).getD (i / 16) 0) (i % 16)) ↔
            (∀ i < min bits 16, wordBit a i = wordBit m i) ∧
              ∀ i < bits - 16, wordBit (addr.getD (i / 16) 0) (i % 16) = wordBit (mask.getD (i / 16) 0) (i % 16) := by
        constructor
        · intro all
          constructor
          · intro i less
            have here := all i (by omega)
            rwa [Nat.div_eq_of_lt (by omega), Nat.mod_eq_of_lt (by omega)] at here
          · intro i less
            have here := all (i + 16) (by omega)
            rwa [Nat.add_div_right _ (by decide), Nat.add_mod_right] at here
        · rintro ⟨front, back⟩ i less
          by_cases first : i < 16
          · rw [Nat.div_eq_of_lt first, Nat.mod_eq_of_lt first]
            exact front i (by omega)
          · obtain ⟨j, rfl⟩ := Nat.exists_eq_add_of_le' (Nat.le_of_not_lt first)
            rw [Nat.add_div_right _ (by decide), Nat.add_mod_right]
            exact back j (by omega)
      rw [split, ipmaskCheckFrom]
      by_cases few : bits < 16
      · rw [if_pos few, Nat.min_eq_left (Nat.le_of_lt few), Nat.sub_eq_zero_of_le (Nat.le_of_lt few), decide_eq_true_iff,
          wordBits_shift (Nat.le_of_lt few)]
        simp
      · rw [if_neg few, Nat.min_eq_right (Nat.le_of_not_lt few), ← eq_of_wordBits]
        by_cases same : a = m
        · rw [if_neg (not_not.mpr same)]
          by_cases done : bits = 16
          · simp [done, same]
          · rw [if_neg done, ih (Nat.succ.inj same_length)]
            simp [same]
        · simp [same]

theorem ipmaskCheck_iff (addr mask : InAddr) (bits : Nat) :
    addr.ipmaskCheck mask bits = true ↔ ∀ i < bits, addr.bit i = mask.bit i :=
  ipmaskCheckFrom_iff (addr.length_eq.trans mask.length_eq.symm) bits

/-- An address that a mask takes is taken by every wider mask that takes the mask itself. -/
theorem ipmaskCheck_trans {addr mask wider : InAddr} {bits less : Nat} (shorter : less ≤ bits)
    (taken : addr.ipmaskCheck mask bits = true) (inside : mask.ipmaskCheck wider less = true) :
    addr.ipmaskCheck wider less = true := by
  rw [ipmaskCheck_iff] at taken inside ⊢
  exact fun i small => (taken i (Nat.lt_of_lt_of_le small shorter)).trans (inside i small)

end InAddr

end Ircd.Net

import Ircd.Ddb.Hash
import Mathlib.Logic.Function.Iterate

/-! The cipher of the nick passwords: `ircd_tea` and `ircd_untea`. -/

set_option autoImplicit false

namespace Ircd.Passwords
open Ircd.Ddb

def delta : UInt32 := 0x9E3779B9

/-- What half a turn adds to one word: a function of the other word, of `sum` and of two key words. -/
def mixed (w sum a b : UInt32) : UInt32 := ((w <<< 4) + a) ^^^ (w + sum) ^^^ ((w >>> 5) + b)

/-- The locals of the two loops: `sum`, and `y` and `z`. -/
abbrev TeaState := UInt32 × HashPair

/-- One turn of the loop of `ircd_tea`; its key words `c` and `d` are zero. -/
def teaTurn (k : HashPair) : TeaState → TeaState
  | (sum, y, z) =>
    let sum := sum + delta
    let y := y + mixed z sum k.1 k.2
    let z := z + mixed y sum 0 0
    (sum, y, z)

def unteaTurn (k : HashPair) : TeaState → TeaState
  | (sum, y, z) =>
    let z := z - mixed y sum 0 0
    let y := y - mixed z sum k.1 k.2
    let sum := sum - delta
    (sum, y, z)

def ircdTea (v k x : HashPair) : HashPair := ((teaTurn k)^[32] (0, v.1 ^^^ x.1, v.2 ^^^ x.2)).2

def ircdUntea (v k : HashPair) : HashPair := ((unteaTurn k)^[32] (0xC6EF3720, v)).2

theorem untea_tea_turn (k : HashPair) : Function.LeftInverse (unteaTurn k) (teaTurn k) := by
  rintro ⟨sum, y, z⟩
  simp only [teaTurn, unteaTurn, UInt32.add_sub_cancel]

theorem tea_untea_turn (k : HashPair) : Function.RightInverse (unteaTurn k) (teaTurn k) := by
  rintro ⟨sum, y, z⟩
  simp only [teaTurn, unteaTurn, UInt32.sub_add_cancel]

theorem sum_tea_turns (k : HashPair) (n : Nat) (s : TeaState) :
    ((teaTurn k)^[n] s).1 = s.1 + UInt32.ofNat n * delta := by
  induction n generalizing s with
  | zero => simp
  | succ n ih =>
    rw [Function.iterate_succ_apply, ih]
    obtain ⟨sum, y, z⟩ := s
    have more : UInt32.ofNat (n + 1) * delta = delta + UInt32.ofNat n * delta := by
      rw [UInt32.ofNat_add, UInt32.add_mul, UInt32.add_comm]
      congr 1
    rw [more, ← UInt32.add_assoc]
    rfl

theorem sum_untea_turns (k : HashPair) (n : Nat) (s : TeaState) :
    s.1 = ((unteaTurn k)^[n] s).1 + UInt32.ofNat n * delta := by
  have back := (tea_untea_turn k).iterate n s
  rw [← sum_tea_turns k n, back]

theorem last_sum : (0 : UInt32) + UInt32.ofNat 32 * delta = 0xC6EF3720 := by decide

theorem untea_tea (v k x : HashPair) : ircdUntea (ircdTea v k x) k = (v.1 ^^^ x.1, v.2 ^^^ x.2) := by
  have ends : ((teaTurn k)^[32] (0, v.1 ^^^ x.1, v.2 ^^^ x.2)).1 = 0xC6EF3720 :=
    (sum_tea_turns k 32 _).trans last_sum
  have start : (0xC6EF3720, ircdTea v k x) = (teaTurn k)^[32] (0, v.1 ^^^ x.1, v.2 ^^^ x.2) :=
    Prod.ext ends.symm rfl
  rw [ircdUntea, start, (untea_tea_turn k).iterate 32]

theorem tea_untea (v k : HashPair) : ircdTea (ircdUntea v k) k (0, 0) = v := by
  have ends : ((unteaTurn k)^[32] (0xC6EF3720, v)).1 = 0 := by
    have sums := sum_untea_turns k 32 (0xC6EF3720, v)
    rw [← last_sum] at sums ⊢
    exact (UInt32.add_left_inj _).mp sums.symm
  have start : (0, ircdUntea v k) = (unteaTurn k)^[32] (0xC6EF3720, v) := Prod.ext ends.symm rfl
  rw [ircdTea, UInt32.xor_zero, UInt32.xor_zero, start, (tea_untea_turn k).iterate 32]

/-- Either way round gives the block back. -/
theorem tea_round_trips (v k x : HashPair) :
    ircdUntea (ircdTea v k x) k = (v.1 ^^^ x.1, v.2 ^^^ x.2) ∧ ircdTea (ircdUntea v k) k (0, 0) = v :=
  ⟨untea_tea v k x, tea_untea v k⟩

example : ircdTea (0, 0) (0, 0) (0, 0) = (0x41EA3A0A, 0x94BAA940) := by decide +kernel

theorem tea_loop_iterate (n : Nat) (s : TeaState) : teaLoop n s = teaRound^[n] s := by
  -- The kernel must not compare the sums of two turns, which are large numerals.
  delta teaLoop Nat.iterate
  rfl

theorem tea_round_turn : teaRound = teaTurn (0, 0) := by
  funext s
  simp [teaRound, teaTurn, mixed, delta]

theorem tea_zero_key (v x : HashPair) : Ddb.ircdTea v x = ircdTea v (0, 0) x := by
  rw [Ddb.ircdTea, tea_loop_iterate, tea_round_turn, ircdTea]

end Ircd.Passwords

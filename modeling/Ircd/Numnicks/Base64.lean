import Ircd.Text.Chattr
import Mathlib.Data.List.Induction
import Mathlib.Data.Nat.Bits
import Mathlib.Tactic.Ring

/-! The base64 digits of `numnicks.c`: `inttobase64`, `base64toint` and the three-digit
words of an address.
-/

set_option autoImplicit false

namespace Ircd.Numnicks
open Ircd.Text

def convert2y : List Char :=
  ['A', 'B', 'C', 'D', 'E', 'F', 'G', 'H', 'I', 'J', 'K', 'L', 'M', 'N', 'O', 'P',
   'Q', 'R', 'S', 'T', 'U', 'V', 'W', 'X', 'Y', 'Z', 'a', 'b', 'c', 'd', 'e', 'f',
   'g', 'h', 'i', 'j', 'k', 'l', 'm', 'n', 'o', 'p', 'q', 'r', 's', 't', 'u', 'v',
   'w', 'x', 'y', 'z', '0', '1', '2', '3', '4', '5', '6', '7', '8', '9', '[', ']']

/-- The table `convert2n`: zero for every character that is not a digit. -/
def convert2n (c : Char) : Nat :=
  let code := c.toNat
  if 48 ≤ code ∧ code ≤ 57 then code - 48 + 52
  else if 65 ≤ code ∧ code ≤ 90 then code - 65
  else if code = 91 then 62
  else if code = 93 then 63
  else if 97 ≤ code ∧ code ≤ 122 then code - 97 + 26
  else 0

def digit (v : Nat) : Char := convert2y.getD (v % 64) nul

def inttobase64 (v : Nat) : Nat → List Char
  | 0 => []
  | count + 1 => inttobase64 (v / 64) count ++ [digit v]

def base64toint (s : List Char) : Nat :=
  s.tail.foldl (fun i c => (i * 64 % 2 ^ 32 + convert2n c) % 2 ^ 32) (convert2n (peek s))

/-- Three digits read into an `unsigned short`. -/
def wordOfDigits (c₁ c₂ c₃ : Char) : Nat :=
  let accum := convert2n c₁ % 2 ^ 16
  let accum := (accum <<< 6 ||| convert2n c₂) % 2 ^ 16
  (accum <<< 6 ||| convert2n c₃) % 2 ^ 16

theorem convert2n_getD : ∀ d < 64, convert2n (convert2y.getD d nul) = d := by decide

theorem getD_ne_underscore : ∀ d < 64, convert2y.getD d nul ≠ '_' := by decide

theorem getD_ne_nul : ∀ d < 64, convert2y.getD d nul ≠ nul := by decide

theorem convert2n_lt (c : Char) : convert2n c < 64 := by
  unfold convert2n
  simp only
  split_ifs <;> omega

theorem convert2n_digit (v : Nat) : convert2n (digit v) = v % 64 :=
  convert2n_getD (v % 64) (Nat.mod_lt v (by decide))

theorem digit_ne_underscore (v : Nat) : digit v ≠ '_' :=
  getD_ne_underscore (v % 64) (Nat.mod_lt v (by decide))

theorem digit_ne_nul (v : Nat) : digit v ≠ nul :=
  getD_ne_nul (v % 64) (Nat.mod_lt v (by decide))

@[simp] theorem length_inttobase64 (v count : Nat) : (inttobase64 v count).length = count := by
  induction count generalizing v with
  | zero => rfl
  | succ count ih => simp [inttobase64, ih]

theorem base64toint_append {s : List Char} (some_s : s ≠ []) (c : Char) :
    base64toint (s ++ [c]) = (base64toint s * 64 % 2 ^ 32 + convert2n c) % 2 ^ 32 := by
  cases s with
  | nil => exact absurd rfl some_s
  | cons d s => simp [base64toint, List.foldl_append]

theorem nul_not_mem_inttobase64 (v count : Nat) : nul ∉ inttobase64 v count := by
  induction count generalizing v with
  | zero => exact List.not_mem_nil
  | succ count ih =>
    rw [inttobase64, List.mem_append, List.mem_singleton, not_or]
    exact ⟨ih _, (digit_ne_nul v).symm⟩

theorem inttobase64_cons (v count : Nat) :
    inttobase64 v (count + 1) = digit (v / 64 ^ count) :: inttobase64 v count := by
  induction count generalizing v with
  | zero => simp [inttobase64]
  | succ count ih =>
    rw [inttobase64, ih, List.cons_append, Nat.div_div_eq_div_mul, ← Nat.pow_succ']
    rfl

theorem inttobase64_mod (v count : Nat) : inttobase64 (v % 64 ^ count) count = inttobase64 v count := by
  induction count generalizing v with
  | zero => rfl
  | succ count ih =>
    have high : v % 64 ^ (count + 1) / 64 = v / 64 % 64 ^ count := by
      rw [Nat.pow_succ', Nat.mod_mul_right_div_self]
    have low : digit (v % 64 ^ (count + 1)) = digit v := by
      unfold digit
      rw [Nat.pow_succ', Nat.mod_mul_right_mod]
    rw [inttobase64, inttobase64, high, low, ih]

theorem base64toint_inttobase64 {v count : Nat} (some_count : 0 < count) (fits : v < 64 ^ count)
    (word : v < 2 ^ 32) : base64toint (inttobase64 v count) = v := by
  induction count generalizing v with
  | zero => exact absurd some_count (Nat.lt_irrefl 0)
  | succ count ih =>
    cases count with
    | zero =>
      have small : v < 64 := by simpa using fits
      simp only [inttobase64, base64toint, List.nil_append, peek_cons, List.tail_cons, List.foldl_nil]
      rw [convert2n_digit, Nat.mod_eq_of_lt small]
    | succ count =>
      have below : v / 64 < 64 ^ (count + 1) := by
        apply Nat.div_lt_of_lt_mul
        rwa [← Nat.pow_succ']
      have some_digits : inttobase64 (v / 64) (count + 1) ≠ [] := by
        intro empty
        have length := length_inttobase64 (v / 64) (count + 1)
        rw [empty] at length
        cases length
      rw [inttobase64, base64toint_append some_digits, ih (Nat.succ_pos count) below (by omega), convert2n_digit]
      omega

theorem shiftLeft_or_digit (x v : Nat) : x <<< 6 ||| v % 64 = x * 64 + v % 64 := by
  rw [← Nat.shiftLeft_add_eq_or_of_lt (Nat.mod_lt v (by decide)), Nat.shiftLeft_eq]

theorem wordOfDigits_digit {w : Nat} (word : w < 2 ^ 16) :
    wordOfDigits (digit (w / 64 / 64)) (digit (w / 64)) (digit w) = w := by
  simp only [wordOfDigits, convert2n_digit, shiftLeft_or_digit]
  omega

theorem inttobase64_three (w : Nat) :
    inttobase64 w 3 = [digit (w / 64 / 64), digit (w / 64), digit w] := by
  simp [inttobase64]

theorem digit_convert2n : ∀ c ∈ convert2y, digit (convert2n c) = c := by decide

theorem base64toint_lt {s : List Char} (some_s : s ≠ []) (few : s.length ≤ 5) : base64toint s < 64 ^ s.length := by
  induction s using List.reverseRecOn with
  | nil => exact absurd rfl some_s
  | append_singleton s c ih =>
    have digit := convert2n_lt c
    by_cases first : s = []
    · subst first
      exact digit
    · rw [List.length_append, List.length_singleton] at few ⊢
      have front := ih first (Nat.le_of_succ_le few)
      rw [base64toint_append first, Nat.pow_succ]
      calc (base64toint s * 64 % 2 ^ 32 + convert2n c) % 2 ^ 32
          ≤ base64toint s * 64 % 2 ^ 32 + convert2n c := Nat.mod_le _ _
        _ ≤ base64toint s * 64 + convert2n c := Nat.add_le_add_right (Nat.mod_le _ _) _
        _ < 64 ^ s.length * 64 := by omega

theorem base64toint_snoc {s : List Char} (some_s : s ≠ []) (few : s.length ≤ 4) (c : Char) :
    base64toint (s ++ [c]) = base64toint s * 64 + convert2n c := by
  have front := base64toint_lt some_s (Nat.le_succ_of_le few)
  have digit := convert2n_lt c
  have room : 64 ^ s.length ≤ 64 ^ 4 := Nat.pow_le_pow_right (by decide) few
  rw [base64toint_append some_s, Nat.mod_eq_of_lt (a := base64toint s * 64) (by omega), Nat.mod_eq_of_lt (by omega)]

theorem inttobase64_snoc (v n count : Nat) (small : n < 64) :
    inttobase64 (v * 64 + n) (count + 1) = inttobase64 v count ++ [digit n] := by
  have high : (v * 64 + n) / 64 = v := by omega
  have low : (v * 64 + n) % 64 = n % 64 := by omega
  rw [inttobase64, high, digit, low]
  rfl

theorem inttobase64_base64toint {s : List Char} (some_s : s ≠ []) (few : s.length ≤ 5)
    (alphabet : ∀ c ∈ s, c ∈ convert2y) : inttobase64 (base64toint s) s.length = s := by
  induction s using List.reverseRecOn with
  | nil => exact absurd rfl some_s
  | append_singleton s c ih =>
    have letter : digit (convert2n c) = c := digit_convert2n c (alphabet c (by simp))
    by_cases first : s = []
    · subst first
      simpa [inttobase64, base64toint] using letter
    · rw [List.length_append, List.length_singleton] at few ⊢
      have front := ih first (Nat.le_of_succ_le few) fun d mem => alphabet d (List.mem_append_left _ mem)
      rw [base64toint_snoc first (Nat.le_of_succ_le_succ few), inttobase64_snoc _ _ _ (convert2n_lt c), front, letter]

/-- Writing and reading are inverse in both directions: on the values that fit the digits and 32 bits, and on the
numnicks of up to five characters. -/
theorem numnick_round_trip :
    (∀ count v, 1 ≤ count → v < min (64 ^ count) (2 ^ 32) → base64toint (inttobase64 v count) = v) ∧
      ∀ s : List Char, 1 ≤ s.length → s.length ≤ 5 → (∀ c ∈ s, c ∈ convert2y) →
        inttobase64 (base64toint s) s.length = s := by
  constructor
  · intro count v some_count fits
    exact base64toint_inttobase64 some_count (lt_min_iff.mp fits).1 (lt_min_iff.mp fits).2
  · intro s some_s few alphabet
    exact inttobase64_base64toint (List.ne_nil_of_length_pos some_s) few alphabet

/-- Six digits of the largest 32-bit value, and a numnick of five characters. -/
theorem numnick_round_trip_wide :
    base64toint (inttobase64 4294967295 6) = 4294967295 ∧
      inttobase64 (base64toint ['A', 'B', '[', ']', '9']) 5 = ['A', 'B', '[', ']', '9'] :=
  ⟨numnick_round_trip.1 6 4294967295 (by decide) (by decide),
    numnick_round_trip.2 ['A', 'B', '[', ']', '9'] (by decide) (by decide) (by decide)⟩

end Ircd.Numnicks

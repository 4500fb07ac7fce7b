import Ircd.Text.Chattr

/-! Decimal numbers in texts: `strtoul`, `atol`, `atoi` and what `%u` prints. -/

set_option autoImplicit false

namespace Ircd.Text

def readNumber : Nat → List Char → Nat
  | value, [] => value
  | value, c :: rest => if isDigit c then readNumber (value * 10 + (c.toNat - '0'.toNat)) rest else value

def strtoul (s : List Char) : Nat :=
  match s.dropWhile (fun c => c = ' ' || '\t' ≤ c && c ≤ '\r') with
  | '-' :: rest => (2 ^ 64 - min (readNumber 0 rest) (2 ^ 64 - 1)) % 2 ^ 64
  | '+' :: rest => min (readNumber 0 rest) (2 ^ 64 - 1)
  | rest => min (readNumber 0 rest) (2 ^ 64 - 1)

/-- `atol`, which stops at the bounds of a `long`. -/
def atol (s : List Char) : Int :=
  match s.dropWhile (fun c => c = ' ' || '\t' ≤ c && c ≤ '\r') with
  | '-' :: rest => -(min (readNumber 0 rest) (2 ^ 63) : Nat)
  | '+' :: rest => (min (readNumber 0 rest) (2 ^ 63 - 1) : Nat)
  | rest => (min (readNumber 0 rest) (2 ^ 63 - 1) : Nat)

def asInt (bits : Nat) : Int := if bits % 2 ^ 32 < 2 ^ 31 then bits % 2 ^ 32 else (bits % 2 ^ 32 : Int) - 2 ^ 32

/-- `atoi` of a text without blanks before the number. -/
def atoi (s : List Char) : Int :=
  match s with
  | '-' :: rest => asInt (2 ^ 64 - min (readNumber 0 rest) (2 ^ 63))
  | '+' :: rest => asInt (min (readNumber 0 rest) (2 ^ 63 - 1))
  | rest => asInt (min (readNumber 0 rest) (2 ^ 63 - 1))

theorem digitChar_digit : ∀ d : Fin 10, isDigit (Nat.digitChar d) = true ∧ (Nat.digitChar d).toNat - '0'.toNat = d.val := by
  decide

theorem isDigit_of_mem_toDigits {n : Nat} {c : Char} (mem : c ∈ Nat.toDigits 10 n) : isDigit c = true := by
  have digit := Nat.isDigit_of_mem_toDigits (by decide) (by decide) mem
  simpa [Char.isDigit, isDigit, Char.le_def] using digit

theorem readNumber_append {digits : List Char} (all_digits : ∀ c ∈ digits, isDigit c = true) (value : Nat)
    (rest : List Char) : readNumber value (digits ++ rest) = readNumber (readNumber value digits) rest := by
  induction digits generalizing value with
  | nil => rfl
  | cons c digits ih =>
    have digit := all_digits c List.mem_cons_self
    simp only [List.cons_append, readNumber, digit, if_true]
    exact ih (fun d mem => all_digits d (List.mem_cons_of_mem c mem)) _

theorem readNumber_stop {rest : List Char} (stop : isDigit (peek rest) = false) (value : Nat) :
    readNumber value rest = value := by
  cases rest with
  | nil => rfl
  | cons c rest =>
    rw [peek_cons] at stop
    simp [readNumber, stop]

theorem readNumber_toDigits (n : Nat) : readNumber 0 (Nat.toDigits 10 n) = n := by
  induction n using Nat.strong_induction_on with
  | _ n ih =>
    rw [Nat.toDigits_eq_if (by decide)]
    by_cases small : n < 10
    · obtain ⟨digit, code⟩ := digitChar_digit ⟨n, small⟩
      rw [if_pos small]
      simp only [readNumber, digit, if_true, Nat.zero_mul, Nat.zero_add]
      exact code
    · have less : n / 10 < n := by omega
      obtain ⟨digit, code⟩ := digitChar_digit ⟨n % 10, Nat.mod_lt n (by decide)⟩
      rw [if_neg small, readNumber_append fun c mem => isDigit_of_mem_toDigits mem, ih _ less]
      simp only at digit code
      simp only [readNumber, digit, code, if_true]
      omega

theorem readNumber_printed (n : Nat) {rest : List Char} (stop : isDigit (peek rest) = false) :
    readNumber 0 (Nat.toDigits 10 n ++ rest) = n := by
  rw [readNumber_append fun c mem => isDigit_of_mem_toDigits mem, readNumber_toDigits, readNumber_stop stop]

theorem toDigits_eq_cons (n : Nat) : ∃ c rest, Nat.toDigits 10 n = c :: rest ∧ isDigit c = true := by
  obtain ⟨c, rest, shape⟩ := List.exists_cons_of_ne_nil (Nat.toDigits_ne_nil (n := n) (b := 10))
  refine ⟨c, rest, shape, isDigit_of_mem_toDigits (n := n) ?_⟩
  rw [shape]
  exact List.mem_cons_self

theorem isDigit_iff {c : Char} : isDigit c = true ↔ 48 ≤ c.toNat ∧ c.toNat ≤ 57 := by
  simp only [isDigit, Bool.and_eq_true, decide_eq_true_eq, Char.le_def, UInt32.le_iff_toNat_le]
  rfl

theorem digit_not_blank {c : Char} (digit : isDigit c = true) : (c = ' ' || '\t' ≤ c && c ≤ '\r') = false := by
  rw [isDigit_iff] at digit
  rw [← Bool.not_eq_true]
  simp only [Bool.or_eq_true, Bool.and_eq_true, decide_eq_true_eq, Char.le_def, UInt32.le_iff_toNat_le]
  rintro (rfl | ⟨_, low⟩)
  · exact absurd digit (by decide)
  · have code : c.toNat ≤ 13 := low
    omega

theorem strtoul_toDigits {n : Nat} (small : n < 2 ^ 64) : strtoul (Nat.toDigits 10 n) = n := by
  obtain ⟨c, rest, shape, digit⟩ := toDigits_eq_cons n
  have not_minus : c ≠ '-' := by
    rintro rfl
    exact absurd digit (by decide)
  have not_plus : c ≠ '+' := by
    rintro rfl
    exact absurd digit (by decide)
  have value := readNumber_toDigits n
  rw [shape] at value
  rw [shape, strtoul, List.dropWhile_cons_of_neg (by rw [digit_not_blank digit]; exact Bool.false_ne_true)]
  split
  · rename_i same
    exact absurd (List.cons.inj same).1 not_minus
  · rename_i same
    exact absurd (List.cons.inj same).1 not_plus
  · rw [value]
    omega

theorem atol_printed (n : Nat) {rest : List Char} (stop : isDigit (peek rest) = false) :
    atol (Nat.toDigits 10 n ++ rest) = (min n (2 ^ 63 - 1) : Nat) := by
  obtain ⟨c, digits, shape, digit⟩ := toDigits_eq_cons n
  have value := readNumber_printed n stop
  have not_minus : c ≠ '-' := by
    rintro rfl
    exact absurd digit (by decide)
  have not_plus : c ≠ '+' := by
    rintro rfl
    exact absurd digit (by decide)
  rw [shape, List.cons_append] at value ⊢
  rw [atol, List.dropWhile_cons_of_neg (by rw [digit_not_blank digit]; exact Bool.false_ne_true)]
  split
  · rename_i same
    exact absurd (List.cons.inj same).1 not_minus
  · rename_i same
    exact absurd (List.cons.inj same).1 not_plus
  · rw [value]

theorem atoi_digits {n : Nat} : atoi (Nat.toDigits 10 n) = asInt (min n (2 ^ 63 - 1)) := by
  obtain ⟨c, rest, shape, digit⟩ := toDigits_eq_cons n
  have value := readNumber_toDigits n
  have not_minus : c ≠ '-' := by
    rintro rfl
    exact absurd digit (by decide)
  have not_plus : c ≠ '+' := by
    rintro rfl
    exact absurd digit (by decide)
  rw [shape] at value ⊢
  rw [atoi, value]
  · rintro rest same
    exact not_minus (List.cons.inj same).1
  · rintro rest same
    exact not_plus (List.cons.inj same).1

end Ircd.Text

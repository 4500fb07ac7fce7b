import Mathlib.Algebra.Order.Ring.Int
import Mathlib.Data.Char

/-! Character tables and NUL-terminated strings of `ircd_chattr.h` and `ircd_string.c`.

A C `char` is a Lean `Char` with a code below 256. A C string is the list of its
characters before the terminator, so reading at the end of the list reads the terminator.
-/

set_option autoImplicit false

namespace Ircd.Text

def nul : Char := Char.ofNat 0

structure CString where
  chars : List Char
  nul_free : nul ∉ chars
  byte : ∀ c ∈ chars, c.toNat < 256
  deriving DecidableEq

/-- A text is gone through character by character, although there are finitely many characters. -/
instance decidableEachChar (p : Char → Prop) [DecidablePred p] (text : List Char) : Decidable (∀ c ∈ text, p c) :=
  List.decidableBAll p text

def peek (s : List Char) : Char := s.headD nul

@[simp] theorem peek_nil : peek [] = nul := by rw [peek, List.headD_nil]
@[simp] theorem peek_cons (c : Char) (s : List Char) : peek (c :: s) = c := by
  rw [peek, List.headD_cons]

theorem peek_eq_nul {s : List Char} (clean : nul ∉ s) : peek s = nul ↔ s = [] := by
  cases s with
  | nil => simp
  | cons c s => simp only [List.mem_cons, not_or] at clean; simp [Ne.symm clean.1]

theorem exists_cons_of_peek {s : List Char} (some_s : peek s ≠ nul) : ∃ c rest, s = c :: rest := by
  cases s with
  | nil => exact absurd rfl some_s
  | cons c rest => exact ⟨c, rest, rfl⟩

/-- `setLowHi` of `table_gen.c`: the codes from `firstHi` on map to the codes
`firstLow` to `lastLow`. -/
def setLowHi (firstLow lastLow firstHi : Nat) (table : Char → Char) (c : Char) : Char :=
  if firstHi ≤ c.toNat ∧ c.toNat ≤ firstHi + (lastLow - firstLow) then
    Char.ofNat (c.toNat - firstHi + firstLow)
  else table c

/-- `ToLowerTab_8859_1`, as `makeTables` fills it: the ASCII letters, the accented
letters of ISO 8859-1 and `[\]^`, which are the upper case of `{|}~`. -/
def toLower : Char → Char :=
  setLowHi 0x7b 0x7e 0x5b (setLowHi 0xf8 0xfe 0xd8 (setLowHi 0xe0 0xf6 0xc0 (setLowHi 0x61 0x7a 0x41 id)))

def isUpperCode (n : Nat) : Prop :=
  65 ≤ n ∧ n ≤ 94 ∨ 192 ≤ n ∧ n ≤ 214 ∨ 216 ≤ n ∧ n ≤ 222

theorem toLower_cases (c : Char) :
    isUpperCode c.toNat ∧ toLower c = Char.ofNat (c.toNat + 32) ∨
      ¬ isUpperCode c.toNat ∧ toLower c = c := by
  unfold toLower setLowHi isUpperCode
  split
  · exact .inl ⟨by omega, by congr 1; omega⟩
  · split
    · exact .inl ⟨by omega, by congr 1; omega⟩
    · split
      · exact .inl ⟨by omega, by congr 1; omega⟩
      · split
        · exact .inl ⟨by omega, by congr 1; omega⟩
        · exact .inr ⟨by omega, rfl⟩

theorem toNat_ofNat_small {n : Nat} (small : n < 0xd800) : (Char.ofNat n).toNat = n := by
  rw [Char.ofNat, dif_pos (.inl small)]
  rfl

/-- No character folds to an upper-case code: `A` and `Z` stay free for the compiled masks. -/
theorem toLower_not_upper (c : Char) : ¬ isUpperCode (toLower c).toNat := by
  rcases toLower_cases c with ⟨upper, image⟩ | ⟨lower, image⟩
  · unfold isUpperCode at upper ⊢
    rw [image, toNat_ofNat_small (by omega)]
    omega
  · rw [image]; exact lower

theorem toLower_idem (c : Char) : toLower (toLower c) = toLower c := by
  rcases toLower_cases (toLower c) with ⟨upper, _⟩ | ⟨_, image⟩
  · exact absurd upper (toLower_not_upper c)
  · exact image

@[simp] theorem toLower_nul : toLower nul = nul := by decide

theorem toLower_below {c d : Char} (below : d.toNat < 65) (same : toLower c = toLower d) : c = d := by
  rcases toLower_cases d with ⟨upper, _⟩ | ⟨_, image_d⟩
  · unfold isUpperCode at upper
    omega
  · rw [image_d] at same
    rcases toLower_cases c with ⟨upper, image⟩ | ⟨_, image⟩
    · have code := congrArg Char.toNat (image.symm.trans same)
      unfold isUpperCode at upper
      rw [toNat_ofNat_small (by omega)] at code
      omega
    · exact image.symm.trans same

theorem toLower_eq_nul {c : Char} : toLower c = nul ↔ c = nul := by
  constructor
  · intro folded
    rcases toLower_cases c with ⟨upper, image⟩ | ⟨_, image⟩
    · have code := congrArg Char.toNat (image.symm.trans folded)
      unfold isUpperCode at upper
      rw [toNat_ofNat_small (by omega)] at code
      simp only [nul] at code
      rw [toNat_ofNat_small (by omega)] at code
      omega
    · exact image.symm.trans folded
  · rintro rfl; exact toLower_nul

/-- `IsEol`: the characters marked `NTL_EOL`. -/
def isEol (c : Char) : Bool := c = '\n' || c = '\r'

/-- `IsAlpha`: the characters marked `NTL_LOWER` or `NTL_UPPER`. -/
def isAlpha (c : Char) : Bool :=
  'a' ≤ c && c ≤ 'z' || "\x7b|\x7d~".toList.contains c || 'A' ≤ c && c ≤ 'Z' || "[\\]^".toList.contains c

def isDigit (c : Char) : Bool := '0' ≤ c && c ≤ '9'

def isAlnum (c : Char) : Bool := isAlpha c || isDigit c

def charValue (c : Char) : Int := if c.toNat < 128 then c.toNat else (c.toNat : Int) - 256

/-- `ircd_strcmp`: the difference of the first two characters that fold differently. -/
def ircdStrcmp : List Char → List Char → Int
  | [], [] => 0
  | [], b :: _ => charValue nul - charValue (toLower b)
  | a :: _, [] => charValue (toLower a) - charValue nul
  | a :: as, b :: bs =>
    if toLower a = toLower b then ircdStrcmp as bs
    else charValue (toLower a) - charValue (toLower b)

theorem ircdStrcmp_swap (a b : List Char) : ircdStrcmp b a = -ircdStrcmp a b := by
  induction a generalizing b with
  | nil =>
    cases b with
    | nil => rfl
    | cons d b => exact (Int.neg_sub _ _).symm
  | cons c a ih =>
    cases b with
    | nil => exact (Int.neg_sub _ _).symm
    | cons d b =>
      rw [ircdStrcmp, ircdStrcmp]
      by_cases same : toLower c = toLower d
      · rw [if_pos same, if_pos same.symm]
        exact ih b
      · rw [if_neg same, if_neg (Ne.symm same)]
        exact (Int.neg_sub _ _).symm

theorem charValue_inj {a b : Char} (byte_a : a.toNat < 256) (byte_b : b.toNat < 256)
    (same : charValue a = charValue b) : a = b := by
  apply Char.toNat_inj.mp
  unfold charValue at same
  split at same <;> split at same <;> omega

theorem toLower_byte {c : Char} (byte : c.toNat < 256) : (toLower c).toNat < 256 := by
  rcases toLower_cases c with ⟨upper, image⟩ | ⟨_, image⟩
  · unfold isUpperCode at upper
    rw [image, toNat_ofNat_small (by omega)]
    omega
  · rw [image]
    exact byte

theorem ircdStrcmp_eq_zero {a b : List Char} (byte_a : ∀ c ∈ a, c.toNat < 256) (byte_b : ∀ c ∈ b, c.toNat < 256)
    (clean_a : nul ∉ a) (clean_b : nul ∉ b) : ircdStrcmp a b = 0 ↔ a.map toLower = b.map toLower := by
  induction a generalizing b with
  | nil =>
    cases b with
    | nil => simp [ircdStrcmp]
    | cons c b =>
      have byte := toLower_byte (byte_b c List.mem_cons_self)
      have clean : c ≠ nul := fun same => clean_b (same ▸ List.mem_cons_self)
      simp only [ircdStrcmp, List.map_nil, List.map_cons, reduceCtorEq, iff_false]
      intro zero
      have same := charValue_inj (by decide) byte (Int.sub_eq_zero.mp zero)
      exact clean (toLower_eq_nul.mp same.symm)
  | cons c a ih =>
    have byte_c := toLower_byte (byte_a c List.mem_cons_self)
    cases b with
    | nil =>
      have clean : c ≠ nul := fun same => clean_a (same ▸ List.mem_cons_self)
      simp only [ircdStrcmp, List.map_nil, List.map_cons, reduceCtorEq, iff_false]
      intro zero
      have same := charValue_inj byte_c (by decide) (Int.sub_eq_zero.mp zero)
      exact clean (toLower_eq_nul.mp same)
    | cons d b =>
      have byte_d := toLower_byte (byte_b d List.mem_cons_self)
      simp only [ircdStrcmp, List.map_cons, List.cons.injEq]
      by_cases same : toLower c = toLower d
      · rw [if_pos same]
        simp only [same, true_and]
        exact ih (fun x mem_x => byte_a x (List.mem_cons_of_mem c mem_x))
          (fun x mem_x => byte_b x (List.mem_cons_of_mem d mem_x))
          (fun mem_nul => clean_a (List.mem_cons_of_mem c mem_nul))
          (fun mem_nul => clean_b (List.mem_cons_of_mem d mem_nul))
      · rw [if_neg same]
        simp only [same, false_and, iff_false]
        intro zero
        exact same (charValue_inj byte_c byte_d (Int.sub_eq_zero.mp zero))

def CString.foldEq (a b : CString) : Bool := ircdStrcmp a.chars b.chars = 0

theorem CString.foldEq_iff (a b : CString) : a.foldEq b = true ↔ a.chars.map toLower = b.chars.map toLower := by
  rw [foldEq, decide_eq_true_iff]
  exact ircdStrcmp_eq_zero a.byte b.byte a.nul_free b.nul_free

@[simp] theorem CString.foldEq_self (a : CString) : a.foldEq a = true := (a.foldEq_iff a).mpr rfl

end Ircd.Text

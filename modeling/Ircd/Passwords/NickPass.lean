import Ircd.Numnicks.Base64
import Ircd.Passwords.Tea

/-! Nick passwords: `verify_pass_nick`, and which passwords it cannot tell apart. -/

set_option autoImplicit false

namespace Ircd.Passwords
open Ircd.Text Ircd.Ddb Ircd.Numnicks

/-- What `tmppass` holds of a password once it is filled with `A`. -/
def padded (pass : List Char) : List Char := (pass.take 12 ++ List.replicate 12 'A').take 12

/-- The two words that `base64toint` reads at `tmppass` and at `tmppass + 6`. -/
def words (tmppass : List Char) : HashPair :=
  (UInt32.ofNat (base64toint (tmppass.take 6)), UInt32.ofNat (base64toint (tmppass.drop 6)))

def passKey (pass : List Char) : HashPair := words (padded pass)

/-- The loop over the blocks of `tmpnick`, which is full of zeros behind the nick. -/
def encryptBlocks (k : HashPair) : Nat → List Char → HashPair → HashPair
  | 0, _, x => x
  | cont + 1, p, x => encryptBlocks k cont (p.drop 8) (ircdTea (word p, word (p.drop 4)) k x)

def blockCount (nicklen : Nat) : Nat := if nicklen < 16 then 2 else (nicklen + 8) / 8

def verifyPassNick (nick cryptpass pass : List Char) : Bool :=
  let cont := blockCount nick.length
  encryptBlocks (passKey pass) cont (nick.take (8 * cont)) (0, 0) = words (cryptpass.take 12)

def digitAt (t : List Char) (i : Nat) : Nat := convert2n (t.getD i nul)

theorem base64toint_six {t : List Char} (six : t.length = 6) :
    base64toint t = digitAt t 0 % 4 * 2 ^ 30 + digitAt t 1 * 2 ^ 24 + digitAt t 2 * 2 ^ 18 + digitAt t 3 * 2 ^ 12 +
      digitAt t 4 * 2 ^ 6 + digitAt t 5 := by
  obtain ⟨a, b, c, d, e, f, rfl⟩ : ∃ a b c d e f, t = [a, b, c, d, e, f] := by
    rcases t with _ | ⟨a, _ | ⟨b, _ | ⟨c, _ | ⟨d, _ | ⟨e, _ | ⟨f, _ | ⟨g, t⟩⟩⟩⟩⟩⟩⟩ <;>
      simp only [List.length_cons, List.length_nil] at six <;> first | exact ⟨a, b, c, d, e, f, rfl⟩ | omega
  have := convert2n_lt a
  have := convert2n_lt b
  have := convert2n_lt c
  have := convert2n_lt d
  have := convert2n_lt e
  have := convert2n_lt f
  simp only [base64toint, peek_cons, List.tail_cons, List.foldl_cons, List.foldl_nil, digitAt, List.getD_cons_zero,
    List.getD_cons_succ]
  omega

theorem digitAt_lt (t : List Char) (i : Nat) : digitAt t i < 64 := convert2n_lt _

def SameHalf (s t : List Char) (start : Nat) : Prop :=
  digitAt s start % 4 = digitAt t start % 4 ∧ ∀ i, start < i → i < start + 6 → digitAt s i = digitAt t i

theorem word_eq_iff {s t : List Char} (six_s : s.length = 6) (six_t : t.length = 6) :
    UInt32.ofNat (base64toint s) = UInt32.ofNat (base64toint t) ↔ SameHalf s t 0 := by
  have value_s := base64toint_six six_s
  have value_t := base64toint_six six_t
  have digits_s := digitAt_lt s
  have digits_t := digitAt_lt t
  have small_s : base64toint s < 2 ^ 32 := by
    have := digits_s 1; have := digits_s 2; have := digits_s 3; have := digits_s 4; have := digits_s 5
    omega
  have small_t : base64toint t < 2 ^ 32 := by
    have := digits_t 1; have := digits_t 2; have := digits_t 3; have := digits_t 4; have := digits_t 5
    omega
  constructor
  · intro same
    have values := congrArg UInt32.toNat same
    rw [UInt32.toNat_ofNat_of_lt' small_s, UInt32.toNat_ofNat_of_lt' small_t, value_s, value_t] at values
    have := digits_s 1; have := digits_s 2; have := digits_s 3; have := digits_s 4; have := digits_s 5
    have := digits_t 1; have := digits_t 2; have := digits_t 3; have := digits_t 4; have := digits_t 5
    refine ⟨by omega, fun i above below => ?_⟩
    obtain rfl | rfl | rfl | rfl | rfl : i = 1 ∨ i = 2 ∨ i = 3 ∨ i = 4 ∨ i = 5 := by omega
    all_goals omega
  · rintro ⟨first, others⟩
    rw [value_s, value_t, first, others 1 (by decide) (by decide), others 2 (by decide) (by decide),
      others 3 (by decide) (by decide), others 4 (by decide) (by decide), others 5 (by decide) (by decide)]

theorem digitAt_take {t : List Char} {n i : Nat} (below : i < n) : digitAt (t.take n) i = digitAt t i := by
  rw [digitAt, digitAt, List.getD_eq_getElem?_getD, List.getD_eq_getElem?_getD, List.getElem?_take_of_lt below]

theorem digitAt_drop (t : List Char) (n i : Nat) : digitAt (t.drop n) i = digitAt t (n + i) := by
  rw [digitAt, digitAt, List.getD_eq_getElem?_getD, List.getD_eq_getElem?_getD, List.getElem?_drop]

theorem words_eq_iff {s t : List Char} (full_s : s.length = 12) (full_t : t.length = 12) :
    words s = words t ↔ SameHalf s t 0 ∧ SameHalf s t 6 := by
  have first : SameHalf (s.take 6) (t.take 6) 0 ↔ SameHalf s t 0 := by
    unfold SameHalf
    rw [digitAt_take (by decide), digitAt_take (by decide)]
    refine and_congr_right fun _ => forall_congr' fun i => imp_congr_right fun _ => imp_congr_right fun below => ?_
    rw [digitAt_take below, digitAt_take below]
  have second : SameHalf (s.drop 6) (t.drop 6) 0 ↔ SameHalf s t 6 := by
    unfold SameHalf
    simp only [digitAt_drop]
    refine and_congr_right fun _ => ⟨fun same i above below => ?_, fun same i above below => ?_⟩
    · have moved : 6 + (i - 6) = i := by omega
      rw [← moved]
      exact same (i - 6) (by omega) (by omega)
    · exact same (6 + i) (by omega) (by omega)
  rw [words, words, Prod.mk.injEq, word_eq_iff (by simp [full_s]) (by simp [full_t]), first,
    word_eq_iff (by simp [full_s]) (by simp [full_t]), second]

@[simp] theorem length_padded (pass : List Char) : (padded pass).length = 12 := by
  simp only [padded, List.length_take, List.length_append, List.length_replicate]
  omega

def Numnick (t : List Char) : Prop := ∀ c ∈ t, c ∈ convert2y

theorem convert2y_convert2n : ∀ c ∈ convert2y, convert2y.getD (convert2n c) nul = c := by decide +kernel

theorem numnick_padded {pass : List Char} (numnick : Numnick pass) : Numnick (padded pass) := by
  intro c mem
  rcases List.mem_append.mp (List.mem_of_mem_take mem) with mem | mem
  · exact numnick c (List.mem_of_mem_take mem)
  · rw [List.eq_of_mem_replicate mem]
    decide

theorem digitAt_eq_iff {s t : List Char} (numnick_s : Numnick s) (numnick_t : Numnick t) {i : Nat}
    (inside_s : i < s.length) (inside_t : i < t.length) : digitAt s i = digitAt t i ↔ s[i]? = t[i]? := by
  rw [digitAt, digitAt, List.getD_eq_getElem?_getD, List.getD_eq_getElem?_getD, List.getElem?_eq_getElem inside_s,
    List.getElem?_eq_getElem inside_t, Option.getD_some, Option.getD_some, Option.some.injEq]
  constructor
  · intro same
    rw [← convert2y_convert2n _ (numnick_s _ (List.getElem_mem inside_s)), same,
      convert2y_convert2n _ (numnick_t _ (List.getElem_mem inside_t))]
  · exact congrArg convert2n

/-- Two passwords as the server sees them: the first and the seventh digit count with two bits. -/
def Indistinct (a b : List Char) : Prop :=
  (∀ i < 12, i ≠ 0 → i ≠ 6 → (padded a)[i]? = (padded b)[i]?) ∧
    digitAt (padded a) 0 % 4 = digitAt (padded b) 0 % 4 ∧ digitAt (padded a) 6 % 4 = digitAt (padded b) 6 % 4

theorem passKey_eq_iff {a b : List Char} (numnick_a : Numnick a) (numnick_b : Numnick b) :
    passKey a = passKey b ↔ Indistinct a b := by
  have digit {i : Nat} (inside : i < 12) :
      digitAt (padded a) i = digitAt (padded b) i ↔ (padded a)[i]? = (padded b)[i]? :=
    digitAt_eq_iff (numnick_padded numnick_a) (numnick_padded numnick_b) (by simpa) (by simpa)
  rw [passKey, passKey, words_eq_iff (length_padded a) (length_padded b)]
  constructor
  · rintro ⟨⟨first, left⟩, seventh, right⟩
    refine ⟨fun i inside other_first other_seventh => (digit inside).mp ?_, first, seventh⟩
    rcases Nat.lt_or_ge i 6 with below | above
    · exact left i (Nat.pos_of_ne_zero other_first) below
    · exact right i (by omega) inside
  · rintro ⟨others, first, seventh⟩
    refine ⟨⟨first, fun i above below => ?_⟩, seventh, fun i above below => ?_⟩
    · exact (digit (by omega)).mpr (others i (by omega) (by omega) (by omega))
    · exact (digit (by omega)).mpr (others i (by omega) (by omega) (by omega))

def flipped (k : HashPair) : HashPair := (k.1 ^^^ 0x80000000, k.2 ^^^ 0x80000000)

theorem xor_top (x : UInt32) : x ^^^ 0x80000000 = x + 0x80000000 := by
  apply UInt32.toNat_inj.mp
  rw [UInt32.toNat_xor, UInt32.toNat_add]
  have top : (0x80000000 : UInt32).toNat = 2 ^ 31 := rfl
  rw [top]
  apply Nat.eq_of_testBit_eq
  intro i
  have small := UInt32.toNat_lt x
  rw [Nat.testBit_xor, Nat.testBit_two_pow, Nat.testBit_mod_two_pow, Nat.add_comm]
  rcases Nat.lt_trichotomy i 31 with below | rfl | above
  · rw [Nat.testBit_two_pow_add_gt below]
    have other : 31 ≠ i := by omega
    have inside : i < 32 := by omega
    simp [other, inside]
  · rw [Nat.testBit_two_pow_add_eq]
    simp
  · have high : x.toNat.testBit i = false :=
      Nat.testBit_lt_two_pow (Nat.lt_of_lt_of_le small (Nat.pow_le_pow_right (by decide) (by omega)))
    have other : 31 ≠ i := by omega
    have outside : ¬ i < 32 := by omega
    simp [high, other, outside]

theorem mixed_flipped (w sum : UInt32) (k : HashPair) :
    mixed w sum (flipped k).1 (flipped k).2 = mixed w sum k.1 k.2 := by
  simp only [mixed, flipped, xor_top, ← UInt32.add_assoc]
  rw [← xor_top, ← xor_top]
  generalize (w <<< 4) + k.1 = left
  generalize (w >>> 5) + k.2 = right
  -- The two top bits meet in the exclusive or.
  calc (left ^^^ 0x80000000) ^^^ (w + sum) ^^^ (right ^^^ 0x80000000)
      = left ^^^ (w + sum) ^^^ right ^^^ (0x80000000 ^^^ 0x80000000) := by ac_rfl
    _ = left ^^^ (w + sum) ^^^ right := by rw [UInt32.xor_self, UInt32.xor_zero]

theorem teaTurn_flipped (k : HashPair) : teaTurn (flipped k) = teaTurn k := by
  funext s
  obtain ⟨sum, y, z⟩ := s
  simp only [teaTurn, mixed_flipped]

theorem encryptBlocks_flipped (k : HashPair) (cont : Nat) (p : List Char) (x : HashPair) :
    encryptBlocks (flipped k) cont p x = encryptBlocks k cont p x := by
  induction cont generalizing p x with
  | zero => rfl
  | succ cont ih =>
    rw [encryptBlocks, encryptBlocks, ih, ircdTea, teaTurn_flipped, ircdTea]

theorem verifyPassNick_congr {a b : List Char} (alike : passKey a = passKey b ∨ passKey a = flipped (passKey b))
    (nick cryptpass : List Char) : verifyPassNick nick cryptpass a = verifyPassNick nick cryptpass b := by
  unfold verifyPassNick
  rcases alike with same | turned
  · rw [same]
  · simp only [turned, encryptBlocks_flipped]

/-- Two passwords have one key exactly when they differ in the upper bits of two digits at most. Such passwords
open the same nicks, and so do two whose keys differ in the top bits of both words. -/
theorem pass_keys {a b : List Char} (numnick_a : Numnick a) (numnick_b : Numnick b) :
    (passKey a = passKey b ↔ Indistinct a b) ∧
      (passKey a = passKey b ∨ passKey a = flipped (passKey b) →
        ∀ nick cryptpass, verifyPassNick nick cryptpass a = verifyPassNick nick cryptpass b) :=
  ⟨passKey_eq_iff numnick_a numnick_b, verifyPassNick_congr⟩

theorem pass_keys_top_bits :
    passKey ['C', 'A', 'A', 'A', 'A', 'A', 'C'] = flipped (passKey []) ∧ verifyPassNick ['n'] ['p']
      ['C', 'A', 'A', 'A', 'A', 'A', 'C'] = verifyPassNick ['n'] ['p'] [] :=
  have turned : passKey ['C', 'A', 'A', 'A', 'A', 'A', 'C'] = flipped (passKey []) := by decide +kernel
  ⟨turned, (pass_keys (by unfold Numnick; decide) (by unfold Numnick; decide)).2 (.inr turned) ['n'] ['p']⟩

theorem one_key_for_two : ¬ ∀ a b : List Char, Numnick a → Numnick b → a.length ≤ 12 → b.length ≤ 12 →
    padded a ≠ padded b → passKey a ≠ passKey b := by
  intro distinct
  exact distinct ['A'] ['E'] (by unfold Numnick; decide) (by unfold Numnick; decide) (by decide) (by decide)
    (by decide) (by decide +kernel)

end Ircd.Passwords

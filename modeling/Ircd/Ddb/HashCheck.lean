import Ircd.Ddb.Hash
import Ircd.Numnicks.Base64
import Ircd.Text.Strhash

/-! The hash check of a table: what the `J` handler of `ms_db` sends to a leaf and what the
`H` handler there makes of it.

The sender writes the high half first; the receiver takes the first half as the low one. It
ends that half with a terminator in place, and puts back the character it finds there
afterwards, which is the terminator: the second half is read as an empty string, behind
whose end `base64toint` goes on.
-/

set_option autoImplicit false

namespace Ircd.Ddb
open Ircd.Text Ircd.Numnicks

def writeBase64 (buffer : List Char) (place v count : Nat) : List Char :=
  buffer.take place ++ inttobase64 v count ++ nul :: buffer.drop (place + count + 1)

/-- `base64toint` in memory: the first character is read before the end is looked for. -/
def readBase64 (memory : List Char) : Nat :=
  base64toint (peek memory :: memory.tail.takeWhile (· ≠ nul))

/-- The buffer `ddb_buf` of the `J` handler, and the parameter that is printed from it. -/
def hashParameter (buffer : List Char) (hash : HashPair) : List Char :=
  let buffer := writeBase64 buffer 0 hash.1.toNat 6
  let buffer := writeBase64 buffer 6 hash.2.toNat 6
  buffer.takeWhile (· ≠ nul)

/-- The pair the `H` handler reads from the memory at `parv[4]`; a hub and a parameter of
another length are protocol violations. -/
def hashCheck (hub : Bool) (parv4 : List Char) : Option HashPair :=
  if hub then none
  else if (parv4.takeWhile (· ≠ nul)).length ≠ 12 then none
  else
    let hash := parv4.set 6 nul
    let lo := readBase64 hash
    -- `hash` and `parv[4]` are one pointer.
    let hash := hash.set 6 (hash.getD 6 nul)
    let hi := readBase64 (hash.drop 6)
    some (UInt32.ofNat hi, UInt32.ofNat lo)

theorem hashParameter_eq (buffer : List Char) (hash : HashPair) :
    hashParameter buffer hash = inttobase64 hash.1.toNat 6 ++ inttobase64 hash.2.toNat 6 := by
  have first : ∀ rest, (inttobase64 hash.1.toNat 6 ++ rest).take 6 = inttobase64 hash.1.toNat 6 := by
    intro rest
    exact List.take_left' (length_inttobase64 ..)
  have clean : nul ∉ inttobase64 hash.1.toNat 6 ++ inttobase64 hash.2.toNat 6 := by
    rw [List.mem_append, not_or]
    exact ⟨nul_not_mem_inttobase64 _ _, nul_not_mem_inttobase64 _ _⟩
  simp only [hashParameter, writeBase64, List.take_zero, List.nil_append, List.append_assoc, first]
  rw [← List.append_assoc, takeWhile_append_nul clean]

theorem readBase64_digits (v : UInt32) (behind : List Char) :
    readBase64 (inttobase64 v.toNat 6 ++ nul :: behind) = v.toNat := by
  have digits := inttobase64_cons v.toNat 5
  have clean : nul ∉ inttobase64 v.toNat 5 := nul_not_mem_inttobase64 _ _
  rw [readBase64, digits, List.cons_append, peek_cons, List.tail_cons, takeWhile_append_nul clean, ← digits]
  exact base64toint_inttobase64 (by decide) (by have := v.toNat_lt; omega) v.toNat_lt

theorem readBase64_behind (v : UInt32) (behind : List Char) :
    readBase64 (nul :: inttobase64 v.toNat 5 ++ nul :: behind) = v.toNat % 64 ^ 5 := by
  have clean : nul ∉ inttobase64 v.toNat 5 := nul_not_mem_inttobase64 _ _
  have below : v.toNat % 64 ^ 5 < 64 ^ 5 := Nat.mod_lt _ (by decide)
  have leading : ∀ s, s ≠ [] → base64toint (nul :: s) = base64toint s := by
    intro s some_s
    cases s with
    | nil => exact absurd rfl some_s
    | cons c s =>
      -- The terminator counts as the digit zero.
      have zero : convert2n nul = 0 := by decide
      have small := convert2n_lt c
      simp only [base64toint, peek_cons, List.tail_cons, List.foldl_cons, zero]
      congr 1
      omega
  have some_digits : inttobase64 v.toNat 5 ≠ [] := by
    intro empty
    have length := length_inttobase64 v.toNat 5
    rw [empty] at length
    cases length
  rw [readBase64, List.cons_append, peek_cons, List.tail_cons, takeWhile_append_nul clean, leading _ some_digits,
    ← inttobase64_mod]
  exact base64toint_inttobase64 (by decide) below (by omega)

/-- The handler takes the first half as the low one, and the last five digits of the second
half as the high one. -/
theorem hashCheck_hashParameter (buffer behind : List Char) (hash : HashPair) :
    hashCheck false (hashParameter buffer hash ++ nul :: behind) =
      some (UInt32.ofNat (hash.2.toNat % 64 ^ 5), hash.1) := by
  have first := length_inttobase64 hash.1.toNat 6
  have clean : nul ∉ hashParameter buffer hash := by
    rw [hashParameter_eq, List.mem_append, not_or]
    exact ⟨nul_not_mem_inttobase64 _ _, nul_not_mem_inttobase64 _ _⟩
  have length : (hashParameter buffer hash).length = 12 := by
    simp [hashParameter_eq]
  -- The terminator stands where the second half started.
  have cut : (hashParameter buffer hash ++ nul :: behind).set 6 nul =
      inttobase64 hash.1.toNat 6 ++ nul :: (inttobase64 hash.2.toNat 5 ++ nul :: behind) := by
    rw [hashParameter_eq, inttobase64_cons hash.2.toNat 5, List.append_assoc,
      List.set_append_right _ _ (by omega), first]
    rfl
  have back : (inttobase64 hash.1.toNat 6 ++ nul :: (inttobase64 hash.2.toNat 5 ++ nul :: behind)).drop 6 =
      nul :: inttobase64 hash.2.toNat 5 ++ nul :: behind := List.drop_left' first
  unfold hashCheck
  simp only [Bool.false_eq_true, if_false, takeWhile_append_nul clean, length, ne_eq, not_true, cut]
  rw [List.getD_eq_getElem?_getD, List.getElem?_append_right (by omega), first]
  rw [List.set_append_right _ _ (by omega), first]
  simp only [Nat.sub_self, List.getElem?_cons_zero, Option.getD_some, List.set_cons_zero]
  rw [back, readBase64_digits, readBase64_behind, UInt32.ofNat_toNat]

/-- The pair arrives exactly if both halves are one number of at most thirty bits. -/
theorem hashCheck_iff (buffer behind : List Char) (hash : HashPair) :
    hashCheck false (hashParameter buffer hash ++ nul :: behind) = some hash ↔
      hash.1 = hash.2 ∧ hash.2.toNat < 2 ^ 30 := by
  have bound : (64 : Nat) ^ 5 = 2 ^ 30 := by decide
  obtain ⟨hi, lo⟩ := hash
  rw [hashCheck_hashParameter, Option.some.injEq, Prod.mk.injEq, bound]
  dsimp only
  constructor
  · rintro ⟨high, rfl⟩
    have cut := congrArg UInt32.toNat high
    rw [UInt32.toNat_ofNat_of_lt' (by rw [UInt32.size]; omega)] at cut
    exact ⟨rfl, by omega⟩
  · rintro ⟨rfl, small⟩
    rw [Nat.mod_eq_of_lt small, UInt32.ofNat_toNat]
    exact ⟨rfl, rfl⟩

/-- The hash (1, 0) is read as (0, 1). -/
theorem hashCheck_swaps : hashCheck false (hashParameter [] (1, 0) ++ [nul]) ≠ some (1, 0) := by decide

end Ircd.Ddb

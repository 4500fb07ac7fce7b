import Ircd.Ddb.Seek

/-! What `ddb_db_read` makes of a line that `ddb_db_write` wrote.

The id is written as an `unsigned long` and read as an `int`, a zero in its place skips the
line, and a line of more than 501 characters looks like the end of the file.
-/

set_option autoImplicit false

namespace Ircd.Ddb
open Ircd.Library Ircd.Match Ircd.Text

def readId (n : Nat) : Int := (longId n : Int).bmod (2 ^ 32)

def rowOf (r : Register) : Row := ⟨readId r.id, r.mask.chars, r.key.chars, r.content.map CString.chars⟩

def handed (r : Register) : Option Row := if readId r.id = 0 then none else some (rowOf r)

theorem readId_bounds (n : Nat) :
    readId n % 4294967296 = longId n % 4294967296 ∧ -2147483648 ≤ readId n ∧ readId n < 2147483648 :=
  ⟨Int.bmod_emod, Int.le_bmod (by decide), Int.bmod_lt (by decide)⟩

theorem readId_eq {n : Nat} (long : n < 2 ^ 64) : readId n = n ↔ n < 2 ^ 31 := by
  have bounds := readId_bounds n
  unfold longId at bounds
  omega

theorem readId_zero {n : Nat} : readId n = 0 ↔ longId n % 2 ^ 32 = 0 := by
  have bounds := readId_bounds n
  omega

theorem printed_readId (n : Nat) : (readId n % 2 ^ 32).toNat = longId n % 2 ^ 32 := by
  have bounds := readId_bounds n
  omega

theorem printed_readId_eq {n : Nat} (long : n < 2 ^ 64) : (readId n % 2 ^ 32).toNat = n ↔ n < 2 ^ 32 := by
  rw [printed_readId, longId]
  omega

theorem cutBlank_word {word : List Char} (unbroken : ' ' ∉ word) (rest : List Char) :
    cutBlank (word ++ ' ' :: rest) = (word, some rest) := by
  induction word with
  | nil => rw [List.nil_append, cutBlank, if_pos rfl]
  | cons c word ih =>
    have not_blank : c ≠ ' ' := fun same => unbroken (same ▸ List.mem_cons_self)
    rw [List.cons_append, cutBlank, if_neg not_blank, ih fun mem => unbroken (List.mem_cons_of_mem c mem)]

theorem cutBlank_last {word : List Char} (unbroken : ' ' ∉ word) : cutBlank word = (word, none) := by
  induction word with
  | nil => rfl
  | cons c word ih =>
    have not_blank : c ≠ ' ' := fun same => unbroken (same ▸ List.mem_cons_self)
    rw [cutBlank, if_neg not_blank, ih fun mem => unbroken (List.mem_cons_of_mem c mem)]

theorem decimal_unbroken (n : Nat) : ' ' ∉ decimal n :=
  fun mem => (digit_clean (isDigit_of_mem_toDigits mem)).2.2 rfl

theorem readRow_lineText {r : Register} (fits : r.Fits) :
    readRow (lineText r) = handed r := by
  have number : (atol (lineText r)).bmod (2 ^ 32) = readId r.id := by
    have stop : isDigit (peek (' ' :: (r.mask.chars ++ ' ' :: (r.key.chars ++
        r.content.elim [] fun content => ' ' :: content.chars)))) = false := rfl
    simp only [lineText, List.append_assoc, List.cons_append]
    rw [decimal, atol_printed r.id stop]
    rfl
  have first : cutBlank (lineText r) = (decimal r.id, some (r.mask.chars ++ ' ' :: (r.key.chars ++
      r.content.elim [] fun content => ' ' :: content.chars))) := by
    rw [← cutBlank_word (decimal_unbroken r.id)]
    simp [lineText]
  have last : cutBlank (r.key.chars ++ r.content.elim [] fun content => ' ' :: content.chars) =
      (r.key.chars, r.content.map CString.chars) := by
    cases r.content with
    | none => rw [Option.elim_none, List.append_nil, cutBlank_last fits.key_unbroken, Option.map_none]
    | some content => rw [Option.elim_some, cutBlank_word fits.key_unbroken, Option.map_some]
  simp only [readRow, number, first, cutBlank_word fits.mask_unbroken, last]
  rfl

/-- What is written for a register is read back as it was, and what follows in the file is
still there to be read. -/
def ReadsBack (r : Register) : Prop :=
  ∀ behind, ∃ len buf, ddbRead 0 (ddbDbWrite [] r ++ behind) = some (len, buf, behind) ∧
    readRow buf = some ⟨r.id, r.mask.chars, r.key.chars, r.content.map CString.chars⟩

/-- A register is read back exactly if its id fits an `int` and its line has at most 501 characters. -/
theorem line_readsBack_iff {r : Register} (fits : r.Fits) :
    ReadsBack r ↔ 0 < r.id ∧ r.id < 2 ^ 31 ∧ (lineText r).length ≤ 501 := by
  have written : ∀ behind, ddbRead 0 (ddbDbWrite [] r ++ behind) =
      if (lineText r).length ≤ 501 then some ((lineText r).length, lineText r, behind) else none := by
    intro behind
    rw [ddbDbWrite_eq fits, List.nil_append, ddbRead_fileLine fits]
  have id_read := readId_eq fits.id_long
  constructor
  · intro back
    obtain ⟨len, buf, read, split⟩ := back []
    rw [written] at read
    by_cases short : (lineText r).length ≤ 501
    · rw [if_pos short, Option.some.injEq, Prod.mk.injEq, Prod.mk.injEq] at read
      obtain ⟨-, rfl, -⟩ := read
      rw [readRow_lineText fits, handed] at split
      by_cases zero : readId r.id = 0
      · rw [if_pos zero] at split
        cases split
      · rw [if_neg zero, Option.some.injEq, rowOf, Row.mk.injEq] at split
        have small := id_read.mp split.1
        exact ⟨by omega, small, short⟩
    · rw [if_neg short] at read
      cases read
  · rintro ⟨some_id, small, short⟩ behind
    have same := id_read.mpr small
    refine ⟨_, _, (written behind).trans (if_pos short), ?_⟩
    rw [readRow_lineText fits, handed, if_neg (by omega), rowOf, same]

theorem line_readsBack_seven : ReadsBack ⟨7, starMask, keyZz, none⟩ :=
  (line_readsBack_iff (deletion_fits (by decide))).mpr (by decide)

/-- A deletion with the id 2^31 comes back with the id -2^31. -/
theorem line_not_readsBack : (⟨2 ^ 31, starMask, keyZz, none⟩ : Register).Fits ∧
    ¬ ReadsBack ⟨2 ^ 31, starMask, keyZz, none⟩ := by
  refine ⟨deletion_fits (by decide), fun back => ?_⟩
  obtain ⟨len, buf, read, split⟩ := back []
  have line : ddbRead 0 (ddbDbWrite [] ⟨2 ^ 31, starMask, keyZz, none⟩ ++ []) =
      some (15, "2147483648 * zz".toList, []) := by decide +kernel
  rw [line, Option.some.injEq, Prod.mk.injEq, Prod.mk.injEq] at read
  obtain ⟨-, rfl, -⟩ := read
  revert split
  decide +kernel

end Ircd.Ddb

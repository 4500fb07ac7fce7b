import Ircd.Ddb.Hash
import Ircd.Library.Loop
import Ircd.Text.Numbers

/-! The table files of `ddb_db_native.c`: a register is a line, appended by `ddb_db_write`;
`ddb_db_read` seeks a line by its id and hands out the registers from there on, to the
tables in memory when the server starts and to a server that asks for them later.

A file is the list of its characters, and a pointer into its map is an offset.
-/

set_option autoImplicit false

namespace Ircd.Ddb
open Ircd.Library Ircd.Text

/-- A register as `ddb_db_write` prints it, without the end of the line. -/
def lineText (r : Register) : List Char :=
  decimal r.id ++ ' ' :: r.mask.chars ++ ' ' :: r.key.chars ++
    r.content.elim [] fun content => ' ' :: content.chars

/-- `ddb_db_write`, whose buffer has room for 1023 characters. -/
def ddbDbWrite (file : List Char) (r : Register) : List Char := file ++ (lineText r ++ ['\n']).take 1023

/-- `ddb_read` with `len` characters in its buffer: the length of the line, its text and the
file behind it. The end of the file and a line that is too long are both `-1`. -/
def ddbRead (len : Nat) : List Char → Option (Nat × List Char × List Char)
  | [] => none
  | c :: rest =>
    if c = '\r' then ddbRead len rest
    else if c = '\n' then some (len, [], rest)
    else if len > 500 then none
    else (ddbRead (len + 1) rest).map fun (n, text, rest) => (n, c :: text, rest)

def charAt (file : List Char) (ptr : Nat) : Char := file.getD ptr nul

/-- `ptr` goes back to an end of line; `none` when it passes `ptrlo`. -/
def backToEol (file : List Char) (ptrlo : Nat) : Nat → Option Nat
  | 0 => if ptrlo = 0 ∧ charAt file 0 = '\n' then some 0 else none
  | ptr + 1 =>
    if ptr + 1 < ptrlo then none
    else if charAt file (ptr + 1) = '\n' then some (ptr + 1)
    else backToEol file ptrlo ptr

/-- `ptr2` goes behind the next end of line, or to `ptrhi`, which is `left` characters away. -/
def behindEol (file : List Char) : Nat → Nat → Nat
  | 0, ptr2 => ptr2
  | left + 1, ptr2 => if charAt file ptr2 = '\n' then ptr2 + 1 else behindEol file left (ptr2 + 1)

/-- A turn of the loop of `ddb_seek`, on `ptrlo` and `ptrhi`. -/
def seekTurn (file : List Char) (id : Nat) : Nat × Nat → Option (Nat × Nat ⊕ Nat)
  | (ptrlo, ptrhi) =>
    if ptrlo = ptrhi then some (.inr ptrlo)
    else
      let mid := ptrlo + (ptrhi - ptrlo) / 2
      let ptr := (backToEol file ptrlo mid).getD ptrlo
      let ptr := if charAt file ptr = '\n' then ptr + 1 else ptr
      let ptr2 := behindEol file (ptrhi - mid) mid
      -- The `long` is assigned to an `unsigned long`.
      let idtable := (atol (file.drop ptr) % 2 ^ 64).toNat
      if idtable > id then some (.inl (ptrlo, ptr))
      else if idtable < id then some (.inl (ptr2, ptrhi))
      else some (.inr ptr)

/-- Where the loop of `ddb_seek` leaves `point_r`, if it ends. -/
def seekPoint (file : List Char) (id : Nat) : Option Nat :=
  loop (seekTurn file id) (file.length + 1) (0, file.length)

/-- `ddb_seek`, if it ends: what `ddb_read` reads at the place that was found. -/
def ddbSeek (file : List Char) (id : Nat) : Option (Option (Nat × List Char × List Char)) :=
  if id = 0 then some (ddbRead 0 file)
  else (seekPoint file id).map fun ptrlo => ddbRead 0 (file.drop ptrlo)

/-- The pointers `ddb_db_read` sets into a line. -/
structure Row where
  cid : Int
  mask : List Char
  key : List Char
  content : Option (List Char)
  deriving DecidableEq

def cutBlank : List Char → List Char × Option (List Char)
  | [] => ([], none)
  | c :: s =>
    if c = ' ' then ([], some s)
    else
      let (word, rest) := cutBlank s
      (c :: word, rest)

/-- How `ddb_db_read` splits a line; `atoi` is `strtol`, cut to an `int`. -/
def readRow (buf : List Char) : Option Row :=
  let cid := (atol buf).bmod (2 ^ 32)
  if cid = 0 then none
  else
    match cutBlank buf with
    | (_, none) => none
    | (_, some mask) =>
      match cutBlank mask with
      | (_, none) => none
      | (mask, some key) =>
        let (key, content) := cutBlank key
        some ⟨cid, mask, key, content⟩

/-- The loop of `ddb_db_read` over the line in the buffer and the file behind it: the rows it
hands out and what it returns. In a burst `cont` counts them down. -/
def readLoop (burst : Bool) : Nat → Int → List Char → List Char → Option (List Row × Int)
  | 0, _, _, _ => none
  | fuel + 1, cont, buf, rest =>
    let row := readRow buf
    let cont := if burst && row.isSome then cont - 1 else cont
    if burst && row.isSome && cont = 0 then some (row.toList, 0)
    else
      match ddbRead 0 rest with
      | none => some (row.toList, 1)
      | some (_, buf, rest) => (readLoop burst fuel cont buf rest).map fun (rows, ret) => (row.toList ++ rows, ret)

/-- `ddb_db_read`, if it ends: the rows and what it returns. `cont` starts with what
`ddb_seek` returned, and nothing looks at `count`. -/
def ddbDbRead (file : List Char) (burst : Bool) (id : Nat) (_count : Int) : Option (List Row × Int) :=
  match ddbSeek file id with
  | none => none
  | some none => some ([], -1)
  | some (some (cont, buf, rest)) => readLoop burst (rest.length + 1) cont buf rest

/-- What a row is sent as: `%s %u %c %s` and, with a content, ` :%s`. -/
def Row.message (table : Char) (row : Row) : List Char :=
  row.mask ++ ' ' :: decimal (row.cid % 2 ^ 32).toNat ++ ' ' :: table :: ' ' :: row.key ++
    row.content.elim [] fun content => ' ' :: ':' :: content

def OneLine (s : List Char) : Prop := '\n' ∉ s ∧ '\r' ∉ s

instance decidableOneLine (s : List Char) : Decidable (OneLine s) := inferInstanceAs (Decidable (_ ∧ _))

/-- A register that came in a line of at most 510 characters, with a mask and a key without blanks. -/
structure Register.Fits (r : Register) : Prop where
  id_long : r.id < 2 ^ 64
  mask_unbroken : ' ' ∉ r.mask.chars
  key_unbroken : ' ' ∉ r.key.chars
  mask_line : OneLine r.mask.chars
  key_line : OneLine r.key.chars
  content_line : ∀ content ∈ r.content, OneLine content.chars
  short : r.mask.chars.length + r.key.chars.length + (r.content.elim 0 fun content => content.chars.length) ≤ 510

/-- The registers of a table, as `ms_db` lets them in: with growing ids. -/
structure TableFile where
  records : List Register
  fits : ∀ r ∈ records, r.Fits
  increasing : records.Pairwise (·.id < ·.id)

/-- The file that `ddb_db_write` makes of them. -/
def TableFile.text (f : TableFile) : List Char := f.records.foldl ddbDbWrite []

def fileLine (r : Register) : List Char := lineText r ++ ['\n']

theorem digit_clean {c : Char} (digit : isDigit c = true) : c ≠ '\n' ∧ c ≠ '\r' ∧ c ≠ ' ' := by
  refine ⟨?_, ?_, ?_⟩ <;> rintro rfl <;> exact absurd digit (by decide)

theorem oneLine_lineText {r : Register} (fits : r.Fits) : OneLine (lineText r) := by
  have digits : OneLine (decimal r.id) :=
    ⟨fun mem => (digit_clean (isDigit_of_mem_toDigits mem)).1 rfl,
      fun mem => (digit_clean (isDigit_of_mem_toDigits mem)).2.1 rfl⟩
  have mask := fits.mask_line
  have key := fits.key_line
  unfold OneLine lineText at *
  cases content : r.content with
  | none => simp_all
  | some text =>
    have line := fits.content_line text content
    unfold OneLine at line
    simp_all

theorem length_decimal {n : Nat} (long : n < 2 ^ 64) : (decimal n).length ≤ 20 := by
  have digits := Nat.length_toDigits_le_iff (b := 10) (k := 20) (n := n) (by decide) (by decide)
  exact digits.mpr (by omega)

theorem length_lineText (r : Register) : (lineText r).length =
    (decimal r.id).length + 1 + r.mask.chars.length + 1 + r.key.chars.length +
      r.content.elim 0 fun content => content.chars.length + 1 := by
  unfold lineText
  cases r.content with
  | none =>
    simp only [List.length_append, List.length_cons, Option.elim_none, List.append_nil]
    omega
  | some content =>
    simp only [List.length_append, List.length_cons, Option.elim_some]
    omega

theorem ddbDbWrite_eq {r : Register} (fits : r.Fits) (file : List Char) :
    ddbDbWrite file r = file ++ fileLine r := by
  have digits := length_decimal fits.id_long
  have short := fits.short
  have length := length_lineText r
  have room : (lineText r ++ ['\n']).length ≤ 1023 := by
    rw [List.length_append, List.length_singleton]
    cases content : r.content with
    | none =>
      rw [content] at short length
      simp only [Option.elim_none] at short length
      omega
    | some text =>
      rw [content] at short length
      simp only [Option.elim_some] at short length
      omega
  rw [ddbDbWrite, List.take_of_length_le room, fileLine]

theorem TableFile.text_eq (f : TableFile) : f.text = (f.records.map fileLine).flatten := by
  have lines : ∀ records : List Register, (∀ r ∈ records, r.Fits) → ∀ file,
      records.foldl ddbDbWrite file = file ++ (records.map fileLine).flatten := by
    intro records
    induction records with
    | nil => simp
    | cons r records ih =>
      intro fits file
      rw [List.foldl_cons, ddbDbWrite_eq (fits r List.mem_cons_self),
        ih fun x mem => fits x (List.mem_cons_of_mem r mem)]
      simp
  exact lines f.records f.fits []

theorem ddbRead_line {s : List Char} (line : OneLine s) {len : Nat} (room : len ≤ 501) (rest : List Char) :
    ddbRead len (s ++ '\n' :: rest) = if len + s.length ≤ 501 then some (len + s.length, s, rest) else none := by
  induction s generalizing len with
  | nil =>
    rw [List.nil_append, ddbRead, if_neg (by decide), if_pos rfl, List.length_nil, Nat.add_zero, if_pos room]
  | cons c s ih =>
    have not_eol : c ≠ '\n' := fun same => line.1 (same ▸ List.mem_cons_self)
    have not_return : c ≠ '\r' := fun same => line.2 (same ▸ List.mem_cons_self)
    have rest_line : OneLine s :=
      ⟨fun mem => line.1 (List.mem_cons_of_mem c mem), fun mem => line.2 (List.mem_cons_of_mem c mem)⟩
    rw [List.cons_append, ddbRead, if_neg not_return, if_neg not_eol, List.length_cons]
    by_cases full : len > 500
    · rw [if_pos full, if_neg (by omega)]
    · rw [if_neg full, ih rest_line (by omega)]
      by_cases fits : len + (s.length + 1) ≤ 501
      · rw [if_pos fits, if_pos (by omega), Option.map_some, Nat.add_right_comm, Nat.add_assoc]
      · rw [if_neg fits, if_neg (by omega), Option.map_none]

theorem ddbRead_fileLine {r : Register} (fits : r.Fits) (rest : List Char) :
    ddbRead 0 (fileLine r ++ rest) =
      if (lineText r).length ≤ 501 then some ((lineText r).length, lineText r, rest) else none := by
  rw [fileLine, List.append_assoc, List.singleton_append, ddbRead_line (oneLine_lineText fits) (by decide),
    Nat.zero_add]

end Ircd.Ddb

import Ircd.Library.BlockSwap
import Ircd.Match.Mask

/-! `matchcomp` and `matchexec` of `match.c`: compiled masks.

A compiled mask has `A` for `?` and `Z` for `*`, every other character folded, and what
follows the last star reversed and moved behind the first one. The attribute table is
generated when the server is built and is a parameter here.
-/

set_option autoImplicit false

namespace Ircd.Match
open Ircd.Library.BlockSwap Ircd.Text

def NTL_LOWER : BitVec 32 := 0x0020#32
def NTL_UPPER : BitVec 32 := 0x0200#32

/-- The variables of the loop of `matchcomp`; `out` is what stands before `b`. -/
structure Compiler where
  out : List Char := []
  fs : Option Nat := none
  ls : Option Nat := none
  star : Bool := false
  cnt : Nat := 0
  chset : BitVec 32 := BitVec.allOnes 32
  chset2 : BitVec 32 := NTL_LOWER ||| NTL_UPPER

structure CompiledMask where
  cmask : List Char
  minlen : Nat
  charset : BitVec 32

namespace Compiler

def writeStar (st : Compiler) : Compiler :=
  { st with
    out := st.out ++ ['Z']
    fs := st.fs.or (some st.out.length)
    ls := some st.out.length
    star := false }

def question (st : Compiler) : Compiler :=
  { st with out := st.out ++ ['A'], cnt := st.cnt + 1, chset2 := st.chset2 &&& ~~~NTL_LOWER }

def literal (attr : Char → BitVec 32) (st : Compiler) (ch : Char) : Compiler :=
  let st := if st.star then { st.writeStar with chset2 := st.chset2 &&& ~~~NTL_LOWER } else st
  { st with
    out := st.out ++ [toLower ch]
    cnt := st.cnt + 1
    chset := st.chset &&& attr (toLower ch)
    chset2 := st.chset2 &&& ~~~NTL_UPPER }

def run (attr : Char → BitVec 32) : List Char → Compiler → Compiler
  | [], st => st
  | '*' :: m, st => run attr m { st with star := true }
  | '?' :: m, st => run attr m st.question
  | '\\' :: '*' :: m, st => run attr m (st.literal attr '*')
  | '\\' :: '?' :: m, st => run attr m (st.literal attr '?')
  | ch :: m, st => run attr m (st.literal attr ch)

def turn (st : Compiler) : List Char :=
  match st.fs, st.ls with
  | some fs, some ls =>
    let b := st.out.length
    rotate (reverseBetween st.out (ls + 1) (b - 1)) fs (ls - fs) (b - ls)
  | _, _ => st.out

end Compiler

def matchcomp (attr : Char → BitVec 32) (mask : List Char) : CompiledMask :=
  let st := Compiler.run attr mask {}
  let charset := st.chset ||| st.chset2
  let st := if st.star then st.writeStar else st
  ⟨st.turn, st.cnt, charset⟩

/-! ## Matching

A result of `none` is a read outside the string; `before` is the byte below it, which the
comparison of the tail may look at.
-/

/-- The label `tryhead`: the result, or what is left of the string and of the mask
after its first star. -/
def tryHead : List Char → List Char → Nat ⊕ (List Char × List Char)
  | [], b => .inl (if peek b ≠ nul ∧ (peek b ≠ 'Z' ∨ peek b.tail ≠ nul) then 1 else 0)
  | x :: s, b =>
    if toLower x = peek b then tryHead s b.tail
    else if peek b ≠ 'Z' then if peek b = 'A' then tryHead s b.tail else .inl 1
    else .inr (x :: s, b.tail)

def tryTail : List Char → List Char → Option (Nat ⊕ List Char)
  | [], _ => none
  | _ :: _, [] => some (.inl 0)
  | x :: s, y :: b =>
    if toLower x = y then tryTail s b
    else if y ≠ 'Z' then if y = 'A' then tryTail s b else some (.inl 1)
    else some (.inr b)

/-- The loop that looks for the first character of a chunk; each character passed over
costs one of `trash`. -/
def scanChunk (ch : Char) : List Char → Int → Option (Nat ⊕ (List Char × Int))
  | [], _ => none
  | x :: s, trash =>
    if toLower x = ch then some (.inr (s, trash))
    else if trash - 1 < 0 then some (.inl 4)
    else scanChunk ch s (trash - 1)

inductive ChunkEnd where
  | done
  | next (s b : List Char)
  | failed

def tryChunk : List Char → List Char → Option ChunkEnd
  | _, [] => some .done
  | [], y :: b => if y = 'Z' then some (.next [] b) else if y = 'A' then none else some .failed
  | x :: s, y :: b =>
    if toLower x = y then tryChunk s b
    else if y = 'Z' then some (.next (x :: s) b)
    else if y = 'A' then tryChunk s b
    else some .failed

theorem scanChunk_shorter {ch : Char} {s s' : List Char} {trash trash' : Int}
    (h : scanChunk ch s trash = some (.inr (s', trash'))) : s'.length < s.length := by
  induction s generalizing trash with
  | nil => simp [scanChunk] at h
  | cons x s ih =>
    rw [scanChunk] at h
    split at h
    · cases h; simp
    · split at h
      · cases h
      · exact Nat.lt_succ_of_lt (ih h)

theorem tryChunk_suffix {s b s' b' : List Char} (h : tryChunk s b = some (.next s' b')) :
    s'.length ≤ s.length := by
  fun_induction tryChunk s b <;> grind

def tryChunks (s b : List Char) (trash : Int) : Option Nat :=
  match b with
  | [] => some 0
  | ch :: b =>
    match _scan : scanChunk ch s trash with
    | none => none
    | some (.inl r) => some r
    | some (.inr (s', trash')) =>
      match _chunk : tryChunk s' b with
      | none => none
      | some .done => some 0
      | some (.next s'' b'') => tryChunks s'' b'' trash'
      | some .failed => if trash' - 1 < 0 then some 5 else tryChunks s' (ch :: b) (trash' - 1)
termination_by s.length
decreasing_by
  · exact Nat.lt_of_le_of_lt (tryChunk_suffix _chunk) (scanChunk_shorter _scan)
  · exact scanChunk_shorter _scan

theorem tryChunks_cons (s : List Char) (ch : Char) (b : List Char) (trash : Int) :
    tryChunks s (ch :: b) trash =
      match scanChunk ch s trash with
      | none => none
      | some (.inl r) => some r
      | some (.inr (s', trash')) =>
        match tryChunk s' b with
        | none => none
        | some .done => some 0
        | some (.next s'' b'') => tryChunks s'' b'' trash'
        | some .failed => if trash' - 1 < 0 then some 5 else tryChunks s' (ch :: b) (trash' - 1) := by
  rw [tryChunks]
  split
  · rename_i scan
    rw [scan]
  · rename_i scan
    rw [scan]
  · rename_i s' trash' scan
    rw [scan]
    simp only
    split <;> rename_i chunk <;> rw [chunk]

def matchexec (before : Char) (string : List Char) (cmask : List Char) (minlen : Nat) : Option Nat :=
  match tryHead string cmask with
  | .inl r => some r
  | .inr (s, b) =>
    let trash : Int := string.length - minlen
    if trash < 0 then some 2
    else
      match tryTail (string.reverse ++ [before]) b with
      | none => none
      | some (.inl r) => some r
      | some (.inr b) => tryChunks s b trash

end Ircd.Match

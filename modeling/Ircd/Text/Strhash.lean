import Ircd.Text.Chattr
import Mathlib.Data.List.TakeWhile
import Mathlib.Logic.Function.Iterate

/-! The string hash of `hash.c`, over whatever table `init_hash` has drawn. -/

set_option autoImplicit false

namespace Ircd.Text

def hashSize : Nat := 32000

/-- The table of `init_hash` before it is shuffled. -/
def crc32Table (ii : Nat) : Nat :=
  Nat.iterate (fun rand => if rand % 2 = 1 then 0xedb88320 ^^^ rand / 2 else rand / 2) 8 ii

/-- `strhash`, given the memory from the string on: the first character is taken in even
when it is the terminator, and the next one is then read behind it. -/
def strhash (crc32hash : Nat → Nat) : List Char → Nat
  | [] => crc32hash 0 % hashSize
  | c :: rest =>
    (rest.takeWhile (· ≠ nul)).foldl
      (fun hash c => hash >>> 8 ^^^ crc32hash ((hash ^^^ (toLower c).toNat) &&& 255))
      (crc32hash ((toLower c).toNat &&& 255)) % hashSize

theorem takeWhile_ne_nul {s : List Char} (clean : nul ∉ s) : s.takeWhile (· ≠ nul) = s := by
  apply List.takeWhile_eq_self_iff.mpr
  intro c mem_c
  simpa using fun same : c = nul => clean (same ▸ mem_c)

theorem takeWhile_append_nul {s : List Char} (clean : nul ∉ s) (behind : List Char) :
    (s ++ nul :: behind).takeWhile (· ≠ nul) = s := by
  rw [List.takeWhile_append, takeWhile_ne_nul clean, if_pos rfl, List.takeWhile_cons_of_neg (by simp),
    List.append_nil]

theorem foldl_toLower (f : Nat → Char → Nat) (s : List Char) (hash : Nat) :
    (s.map toLower).foldl (fun hash c => f hash (toLower c)) hash =
      s.foldl (fun hash c => f hash (toLower c)) hash := by
  induction s generalizing hash with
  | nil => rfl
  | cons c s ih => rw [List.map_cons, List.foldl_cons, List.foldl_cons, toLower_idem, ih]

theorem takeWhile_map_toLower (s : List Char) :
    (s.map toLower).takeWhile (· ≠ nul) = (s.takeWhile (· ≠ nul)).map toLower := by
  induction s with
  | nil => rfl
  | cons c s ih =>
    rw [List.map_cons, List.takeWhile_cons, List.takeWhile_cons]
    by_cases ends : c = nul
    · simp [ends]
    · have goes_on : toLower c ≠ nul := fun folded => ends (toLower_eq_nul.mp folded)
      rw [if_pos (by simpa using goes_on), if_pos (by simpa using ends), ih, List.map_cons]

theorem strhash_toLower (crc32hash : Nat → Nat) (s : List Char) :
    strhash crc32hash (s.map toLower) = strhash crc32hash s := by
  cases s with
  | nil => rfl
  | cons c s =>
    simp only [List.map_cons, strhash, takeWhile_map_toLower, toLower_idem]
    rw [foldl_toLower fun hash c => hash >>> 8 ^^^ crc32hash ((hash ^^^ c.toNat) &&& 255)]

theorem strhash_append (crc32hash : Nat → Nat) {s : List Char} (some_s : s ≠ []) (clean : nul ∉ s)
    (behind : List Char) : strhash crc32hash (s ++ nul :: behind) = strhash crc32hash s := by
  cases s with
  | nil => exact absurd rfl some_s
  | cons c s =>
    have clean : nul ∉ s := fun mem_nul => clean (List.mem_cons_of_mem c mem_nul)
    simp only [List.cons_append, strhash, takeWhile_append_nul clean, takeWhile_ne_nul clean]

end Ircd.Text

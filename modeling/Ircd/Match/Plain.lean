import Ircd.Match.Mask
import Mathlib.Data.Prod.Lex
import Mathlib.Tactic.Linarith

/-! `match` of `match.c`: the backtracking matcher for plain masks.

The loop keeps one backtrack point. The cursors are suffixes of the mask and of the
name; `mTmp = mask` is the source's test for "no star seen yet".
-/

set_option autoImplicit false

namespace Ircd.Match
open Ircd.Library.Glob Ircd.Text

structure Cursor where
  m : List Char
  n : List Char
  mTmp : List Char
  nTmp : List Char

/-- The loop over a run of wildcards; `none` is its `goto backtrack`. -/
def wildRun : Bool → List Char → List Char → Option (Bool × List Char × List Char)
  | _, '*' :: m, n => wildRun true m n
  | starP, '?' :: m, n => if peek n = nul then none else wildRun starP m n.tail
  | starP, m, n => some (starP, m, n)

def backtrack (mask mTmp nTmp : List Char) : Nat ⊕ Cursor :=
  if mTmp = mask then .inl 1
  else if peek nTmp.tail = nul then .inl 1
  else .inr ⟨mTmp, nTmp.tail, mTmp, nTmp.tail⟩

def normalCharacter (mask : List Char) (c : Cursor) : Nat ⊕ Cursor :=
  if peek c.n = nul then .inl (if peek c.m ≠ nul then 1 else 0)
  else if toLower (peek c.m) ≠ toLower (peek c.n) then backtrack mask c.mTmp c.nTmp
  else .inr ⟨c.m.tail, c.n.tail, c.mTmp, c.nTmp⟩

/-- The branch for `*` and `?`: after a star the scan looks for the first character of
the rest of the mask, read as it stands, and then falls through. -/
def wildCharacter (mask : List Char) (c : Cursor) : Nat ⊕ Cursor :=
  match wildRun false c.m c.n with
  | none => backtrack mask c.mTmp c.nTmp
  | some (false, m, n) => normalCharacter mask ⟨m, n, c.mTmp, c.nTmp⟩
  | some (true, m, n) =>
    if peek m = nul then .inl 0
    else
      let scanned := n.dropWhile fun d => d ≠ nul ∧ toLower d ≠ toLower (peek m)
      normalCharacter mask ⟨m, scanned, m, n⟩

def matchStep (mask : List Char) (c : Cursor) : Nat ⊕ Cursor :=
  if peek c.m = nul then
    if peek c.n = nul then .inl 0 else backtrack mask c.mTmp c.nTmp
  else if peek c.m = '\\' then
    normalCharacter mask { c with m := if isWild (peek c.m.tail) then c.m.tail else c.m }
  else if isWild (peek c.m) then wildCharacter mask c
  else normalCharacter mask c

/-- A star shortens what may still be matched; a backtrack moves `nTmp`; a character moves `m`. -/
def Cursor.rank (c : Cursor) : Nat ×ₗ Nat ×ₗ Nat :=
  toLex (max c.m.length c.mTmp.length, toLex (c.nTmp.length, c.m.length))

variable {c : Cursor}

theorem rank_lt_of_left {d : Cursor} (h : max d.m.length d.mTmp.length < max c.m.length c.mTmp.length) :
    d.rank < c.rank :=
  Prod.Lex.toLex_lt_toLex.mpr (.inl h)

theorem rank_lt_of_le {d : Cursor} (le : max d.m.length d.mTmp.length ≤ max c.m.length c.mTmp.length)
    (h : d.nTmp.length < c.nTmp.length ∨ d.nTmp.length = c.nTmp.length ∧ d.m.length < c.m.length) :
    d.rank < c.rank := by
  rcases Nat.lt_or_eq_of_le le with lt | eq
  · exact rank_lt_of_left lt
  · exact Prod.Lex.toLex_lt_toLex.mpr (.inr ⟨eq, Prod.Lex.toLex_lt_toLex.mpr h⟩)

theorem length_tail_lt {s : List Char} (some_s : peek s ≠ nul) : s.tail.length < s.length := by
  cases s with
  | nil => exact absurd rfl some_s
  | cons => simp

variable {mask : List Char}

theorem backtrack_rank {d : Cursor} (h : backtrack mask c.mTmp c.nTmp = .inr d) : d.rank < c.rank := by
  unfold backtrack at h
  split at h
  · cases h
  · split at h
    · cases h
    · rename_i more
      cases h
      apply rank_lt_of_le
      · simp
      · left
        cases same : c.nTmp with
        | nil => simp [same] at more
        | cons => simp

theorem normalCharacter_rank {d : Cursor} (h : normalCharacter mask c = .inr d) : d.rank < c.rank := by
  unfold normalCharacter at h
  split at h
  · cases h
  · rename_i some_n
    split at h
    · exact backtrack_rank h
    · rename_i same
      cases h
      -- An exhausted mask would compare the terminator with a character of the name.
      have some_m : peek c.m ≠ nul := by
        intro empty
        rw [empty, toLower_nul] at same
        exact some_n (toLower_eq_nul.mp (Classical.not_not.mp same).symm)
      have shorter := length_tail_lt some_m
      apply rank_lt_of_le
      · simp only
        omega
      · exact .inr ⟨rfl, shorter⟩

theorem wildRun_spec {starP starP' : Bool} {m n m' n' : List Char}
    (h : wildRun starP m n = some (starP', m', n')) :
    m' <:+ m ∧ n' <:+ n ∧ isWild (peek m') = false := by
  induction starP, m, n using wildRun.induct with
  | case1 _ m n ih =>
    rw [wildRun] at h
    obtain ⟨suffix, rest⟩ := ih h
    exact ⟨suffix.trans (List.suffix_cons _ m), rest⟩
  | case2 starP m n ended => simp [wildRun, ended] at h
  | case3 starP m n more ih =>
    rw [wildRun, if_neg more] at h
    obtain ⟨suffix, suffix', rest⟩ := ih h
    exact ⟨suffix.trans (List.suffix_cons _ m), suffix'.trans (List.tail_suffix n), rest⟩
  | case4 starP m n notStar notOne =>
    rw [wildRun] at h
    · cases h
      refine ⟨List.suffix_rfl, List.suffix_rfl, ?_⟩
      cases m' with
      | nil => simp
      | cons c m' =>
        rw [peek_cons, not_isWild_iff]
        constructor
        · rintro rfl; exact notStar m' rfl
        · rintro rfl; exact notOne m' rfl
    · exact notStar
    · exact notOne

theorem wildRun_shorter {starP starP' : Bool} {m n m' n' : List Char}
    (wild : isWild (peek m) = true) (h : wildRun starP m n = some (starP', m', n')) :
    m'.length < m.length := by
  cases m with
  | nil => simp at wild
  | cons c m =>
    apply Nat.lt_succ_of_le
    rcases isWild_iff.mp wild with same | same <;> rw [peek_cons] at same <;> subst same <;>
      rw [wildRun] at h
    · exact (wildRun_spec h).1.length_le
    · split at h
      · cases h
      · exact (wildRun_spec h).1.length_le

theorem wildCharacter_rank {d : Cursor} (wild : isWild (peek c.m) = true) (h : wildCharacter mask c = .inr d) :
    d.rank < c.rank := by
  unfold wildCharacter at h
  split at h
  · exact backtrack_rank h
  · rename_i m n run
    have shorter := wildRun_shorter wild run
    have lt := normalCharacter_rank h
    refine lt.trans (rank_lt_of_le ?_ (.inr ⟨rfl, shorter⟩))
    simp only
    omega
  · rename_i m n run
    have shorter := wildRun_shorter wild run
    split at h
    · cases h
    · have lt := normalCharacter_rank h
      refine lt.trans (rank_lt_of_left ?_)
      simp only
      omega

theorem matchStep_rank {d : Cursor} (h : matchStep mask c = .inr d) :
    d.rank < c.rank := by
  unfold matchStep at h
  split at h
  · split at h
    · cases h
    · exact backtrack_rank h
  · rename_i some_m
    split at h
    · refine (normalCharacter_rank h).trans_le ?_
      split
      · have shorter := length_tail_lt some_m
        apply le_of_lt
        apply rank_lt_of_le
        · simp only
          omega
        · exact .inr ⟨rfl, shorter⟩
      · exact le_refl _
    · split at h
      · rename_i wild
        exact wildCharacter_rank wild h
      · exact normalCharacter_rank h

def matchLoop (mask : List Char) (c : Cursor) : Nat :=
  match _h : matchStep mask c with
  | .inl result => result
  | .inr next => matchLoop mask next
termination_by c.rank
decreasing_by exact matchStep_rank _h

/-- `match`: zero if the mask matches the name. -/
def ircMatch (mask name : List Char) : Nat := matchLoop mask ⟨mask, name, mask, name⟩

theorem matchLoop_done {r : Nat} (h : matchStep mask c = .inl r) :
    matchLoop mask c = r := by
  rw [matchLoop]
  split <;> simp_all

theorem matchLoop_next {d : Cursor} (h : matchStep mask c = .inr d) :
    matchLoop mask c = matchLoop mask d := by
  rw [matchLoop]
  split <;> simp_all

end Ircd.Match

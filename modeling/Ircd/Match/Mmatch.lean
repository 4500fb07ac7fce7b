import Ircd.Library.GlobCover
import Ircd.Library.Loop
import Ircd.Match.Mask

/-! `mmatch`: whether an old mask covers a new one.

A pointer is the text from it on, so that a pointer at a terminator is an empty list and one
behind a terminator cannot be built: a turn that would need it is `none`.
-/

set_option autoImplicit false

namespace Ircd.Match
open Ircd.Library Ircd.Library.Glob Ircd.Text

structure MmState where
  m : List Char
  n : List Char
  ma : List Char
  na : List Char
  wild : Bool

/-- The look back from the end of the old mask, over the text in front of `m`, backwards: a
star that only `?` follow, which is neither quoted nor the first character. In front of an
empty mask the byte is read, and then `m > old_mask` fails. -/
def lookBack : List Char → Bool
  | [] => false
  | [_] => false
  | c :: d :: rest => if c = '?' then lookBack (d :: rest) else c = '*' && d ≠ '\\'

/-- `++na`, over both characters of a quoted wildcard. -/
def nextNa : List Char → Option (List Char)
  | [] => none
  | c :: na => if startsEscape (c :: na) then some na.tail else some na

def readQuoted (s : List Char) : List Char × Bool := if startsEscape s then (s.tail, true) else (s, false)

def MmState.retry (s : MmState) : Option MmState :=
  (nextNa s.na).map fun na => { s with m := s.ma, n := na, na := na }

def mmatchCompare (s : MmState) : Option (MmState ⊕ Nat) :=
  let (m, mq) := readQuoted s.m
  let (n, nq) := readQuoted s.n
  if peek m = '*' && !mq || (!mq || nq) && toLower (peek m) = toLower (peek n) ||
      peek m = '?' && !mq && (peek n ≠ '*' || nq) then
    some (.inl { s with m := m.tail, n := n.tail })
  else if !s.wild then some (.inr 1)
  else s.retry.map .inl

def MmState.stars (s : MmState) : MmState :=
  if peek s.m = '*' then
    let m := s.m.dropWhile (· = '*')
    { m, n := s.n, ma := m, na := s.n, wild := true }
  else s

def mmatchTurn (oldMask : List Char) (s : MmState) : Option (MmState ⊕ Nat) :=
  let s := s.stars
  if peek s.m = nul then
    if peek s.n = nul then some (.inr 0)
    else if lookBack oldMask.reverse then some (.inr 0)
    else if !s.wild then some (.inr 1)
    else s.retry.bind mmatchCompare
  else if peek s.n = nul then
    let m := s.m.dropWhile (· = '*')
    some (.inr (if peek m ≠ nul then 1 else 0))
  else mmatchCompare s

/-- `mmatch`: `none` would be a pointer behind a terminator, or a loop that does not end. -/
def mmatch (oldMask newMask : List Char) : Option Nat :=
  loop (mmatchTurn oldMask) ((newMask.length + 1) * (oldMask.length + 1) + 1)
    { m := oldMask, n := newMask, ma := oldMask, na := newMask, wild := false }

example : mmatch "a*?".toList "abc*".toList = some 0 := by decide +kernel

def tokenOf (quoted : Bool) (c : Char) : Token Char :=
  if quoted then .lit c else if c = '*' then .star else if c = '?' then .one else .lit c

theorem maskTokens_read {m : List Char} (some_m : m ≠ []) :
    maskTokens m = tokenOf (readQuoted m).2 (peek (readQuoted m).1) :: maskTokens (readQuoted m).1.tail := by
  unfold readQuoted
  by_cases quoted : startsEscape m = true
  · obtain ⟨c, rest, rfl, wild⟩ := exists_of_startsEscape quoted
    rw [if_pos quoted, maskTokens_escape wild]
    rfl
  · rw [if_neg quoted]
    obtain ⟨c, rest, rfl⟩ := List.exists_cons_of_ne_nil some_m
    by_cases wild : isWild c = true
    · rcases isWild_iff.mp wild with rfl | rfl <;> rfl
    · have plain := not_isWild_iff.mp (Bool.not_eq_true _ ▸ wild)
      rw [maskTokens_plain (by simpa using wild) (by simpa using quoted)]
      simp [tokenOf, plain.1, plain.2]

theorem nextNa_tokens {na : List Char} (some_na : na ≠ []) :
    ∃ na' u, nextNa na = some na' ∧ maskTokens na = u :: maskTokens na' ∧ na'.length < na.length := by
  obtain ⟨c, rest, rfl⟩ := List.exists_cons_of_ne_nil some_na
  have read := maskTokens_read some_na
  unfold readQuoted at read
  by_cases quoted : startsEscape (c :: rest) = true
  · rw [if_pos quoted] at read
    refine ⟨rest.tail, _, ?_, read, ?_⟩
    · rw [nextNa, if_pos quoted]
    · rw [List.length_tail, List.length_cons]
      omega
  · rw [if_neg quoted] at read
    refine ⟨rest, _, ?_, read, Nat.lt_succ_self _⟩
    rw [nextNa, if_neg quoted]

theorem maskTokens_dropStars (m : List Char) :
    ∃ k, maskTokens m = List.replicate k .star ++ maskTokens (m.dropWhile (· = '*')) := by
  induction m with
  | nil => exact ⟨0, rfl⟩
  | cons c m ih =>
    by_cases star : c = '*'
    · subst star
      obtain ⟨k, tokens⟩ := ih
      refine ⟨k + 1, ?_⟩
      rw [List.dropWhile_cons_of_pos (by simp), List.replicate_succ, List.cons_append, ← tokens]
      rfl
    · refine ⟨0, ?_⟩
      rw [List.dropWhile_cons_of_neg (by simpa using star)]
      rfl

theorem maskTokens_stars {m : List Char} (star : peek m = '*') :
    ∃ k, maskTokens m = List.replicate k .star ++ .star :: maskTokens (m.dropWhile (· = '*')) := by
  cases m with
  | nil => exact absurd star (by decide)
  | cons c rest =>
    rw [peek_cons] at star
    subst star
    obtain ⟨k, tokens⟩ := maskTokens_dropStars rest
    refine ⟨k, ?_⟩
    rw [maskTokens, tokens, List.dropWhile_cons_of_pos (by simp), ← List.cons_append, ← List.replicate_succ,
      List.replicate_succ', List.append_assoc]
    rfl

theorem toLower_wild {c d : Char} (wild : isWild d = true) (same : toLower c = toLower d) : c = d := by
  refine toLower_below ?_ same
  rcases isWild_iff.mp wild with rfl | rfl <;> decide

theorem tokenOf_covers {mq nq : Bool} {c d : Char} (quoted_c : mq = true → isWild c = true)
    (quoted_d : nq = true → isWild d = true) (no_star : ¬ (c = '*' ∧ mq = false))
    (compared : (c = '*' && !mq || (!mq || nq) && toLower c = toLower d || c = '?' && !mq && (d ≠ '*' || nq)) = true) :
    (tokenOf mq c).Covers toLower (tokenOf nq d) := by
  cases mq with
  | true =>
    -- A quoted wildcard is only compared with a quoted one.
    cases nq with
    | false => simp at compared
    | true => simpa [tokenOf, Token.Covers] using compared
  | false =>
    have not_star : c ≠ '*' := fun star => no_star ⟨star, rfl⟩
    by_cases one : c = '?'
    · subst one
      cases nq with
      | true => simp [tokenOf, Token.Covers]
      | false =>
        have not_star_d : d ≠ '*' := by
          rintro rfl
          revert compared
          decide
        by_cases one_d : d = '?' <;> simp [tokenOf, Token.Covers, not_star_d, one_d]
    · have same : toLower c = toLower d := by simpa [not_star, one] using compared
      have not_wild : isWild c = false := not_isWild_iff.mpr ⟨not_star, one⟩
      have not_wild_d : isWild d = false := by
        by_contra wild
        rw [Bool.not_eq_false] at wild
        rw [toLower_wild wild same, wild] at not_wild
        cases not_wild
      have plain_d := not_isWild_iff.mp not_wild_d
      cases nq with
      | true => exact absurd (quoted_d rfl) (by rw [not_wild_d]; decide)
      | false => simpa [tokenOf, Token.Covers, not_star, one, plain_d.1, plain_d.2] using same

theorem star_mem_maskTokens {front : List Char} (unquoted : front.getLast? ≠ some '\\') (rest : List Char) :
    .star ∈ maskTokens (front ++ '*' :: rest) := by
  induction length : front.length using Nat.strong_induction_on generalizing front with
  | _ n ih =>
    subst length
    cases front with
    | nil => exact List.mem_cons_self
    | cons c front =>
      have shorter : ∀ tail : List Char, tail <:+ front → tail.getLast? ≠ some '\\' := by
        rintro tail ⟨before, rfl⟩ last
        apply unquoted
        cases tail with
        | nil => cases last
        | cons e tail =>
          rw [← List.cons_append, List.getLast?_append, last]
          rfl
      rw [List.cons_append, maskTokens_read (List.cons_ne_nil _ _)]
      apply List.mem_cons_of_mem
      by_cases quoted : startsEscape (c :: (front ++ '*' :: rest)) = true
      · rw [readQuoted, if_pos quoted]
        obtain ⟨rfl, wild⟩ := startsEscape_cons.mp quoted
        cases front with
        | nil => exact absurd rfl unquoted
        | cons e front =>
          exact ih front.length (by simp only [List.length_cons]; omega) (shorter front (List.suffix_cons e front)) rfl
      · rw [readQuoted, if_neg quoted]
        exact ih front.length (Nat.lt_succ_self _) (shorter front (List.suffix_refl _)) rfl

theorem lookBack_split {backwards : List Char} (found : lookBack backwards = true) :
    ∃ front d k, backwards.reverse = front ++ d :: '*' :: List.replicate k '?' ∧ d ≠ '\\' := by
  induction backwards using lookBack.induct with
  | case1 => cases found
  | case2 => cases found
  | case3 d rest ih =>
    rw [lookBack, if_pos rfl] at found
    obtain ⟨front, e, k, split, plain⟩ := ih found
    refine ⟨front, e, k + 1, ?_, plain⟩
    rw [List.reverse_cons, split, List.replicate_succ']
    simp
  | case4 c d rest letter =>
    rw [lookBack, if_neg letter] at found
    simp only [Bool.and_eq_true, decide_eq_true_eq] at found
    obtain ⟨rfl, plain⟩ := found
    exact ⟨rest.reverse, d, 0, by simp, plain⟩

theorem maskTokens_replicate_one (k : Nat) : maskTokens (List.replicate k '?') = List.replicate k .one := by
  induction k with
  | zero => rfl
  | succ k ih => rw [List.replicate_succ, List.replicate_succ, ← ih, maskTokens]

theorem lookBack_ones {oldMask ma : List Char} (found : lookBack oldMask.reverse = true) (suffix : ma <:+ oldMask)
    (no_star : .star ∉ maskTokens ma) : ∃ k, maskTokens ma = List.replicate k .one := by
  obtain ⟨front, d, k, split, plain⟩ := lookBack_split found
  rw [List.reverse_reverse] at split
  have tail : '*' :: List.replicate k '?' <:+ oldMask := ⟨front ++ [d], by rw [split]; simp⟩
  rcases List.suffix_or_suffix_of_suffix suffix tail with inside | ⟨before, rfl⟩
  · -- The star itself would be a token of `ma`.
    rcases List.suffix_cons_iff.mp inside with rfl | ones
    · exact absurd List.mem_cons_self no_star
    · refine ⟨ma.length, ?_⟩
      have same : ma = List.replicate ma.length '?' := by
        apply List.eq_replicate_of_mem
        intro c mem
        exact List.eq_of_mem_replicate (ones.subset mem)
      rw [same, maskTokens_replicate_one, List.length_replicate]
  · exfalso
    obtain ⟨first, whole⟩ := suffix
    apply no_star
    apply star_mem_maskTokens
    intro last
    have both : first ++ before = front ++ [d] := by
      have same : (first ++ before) ++ '*' :: List.replicate k '?' = (front ++ [d]) ++ '*' :: List.replicate k '?' := by
        rw [List.append_assoc, whole, split]
        simp
      exact List.append_cancel_right same
    have end_d := congrArg List.getLast? both
    rw [List.getLast?_append, last, List.getLast?_append] at end_d
    exact plain (Option.some.inj end_d).symm

theorem lookBack_star {oldMask : List Char} (found : lookBack oldMask.reverse = true) : .star ∈ maskTokens oldMask := by
  obtain ⟨front, d, k, split, plain⟩ := lookBack_split found
  rw [List.reverse_reverse] at split
  have behind : oldMask = (front ++ [d]) ++ '*' :: List.replicate k '?' := by simp [split]
  rw [behind]
  apply star_mem_maskTokens
  intro last
  rw [List.getLast?_append] at last
  exact plain (Option.some.inj last)

/-- From `ma` and `na` on, the tokens up to `m` and `n` were compared one by one; and what is
left to show of the two masks. -/
structure MmInv (oldMask newMask : List Char) (s : MmState) : Prop where
  ma_suffix : s.ma <:+ oldMask
  m_suffix : s.m <:+ oldMask
  na_suffix : s.na <:+ newMask
  n_suffix : s.n <:+ s.na
  start : s.wild = false → s.ma = oldMask
  ma_head : s.wild = true → peek s.ma ≠ '*'
  aligned : ∃ ts us, maskTokens s.ma = ts ++ maskTokens s.m ∧ maskTokens s.na = us ++ maskTokens s.n ∧
    List.Forall₂ (Token.Covers toLower) ts us
  covered : Covers toLower ((if s.wild then [.star] else []) ++ maskTokens s.ma) (maskTokens s.na) →
    Covers toLower (maskTokens oldMask) (maskTokens newMask)

def MmState.rank (oldMask : List Char) (s : MmState) : Nat := s.na.length * (oldMask.length + 1) + s.m.length

theorem star_free {ts us : List (Token Char)} (tokens : List.Forall₂ (Token.Covers toLower) ts us) : .star ∉ ts := by
  intro mem
  induction tokens with
  | nil => cases mem
  | cons token _ ih =>
    rcases List.mem_cons.mp mem with rfl | mem
    · cases token
    · exact ih mem

section
variable {oldMask newMask : List Char} {s : MmState}

theorem MmInv.of_rest (inv : MmInv oldMask newMask s) (rest : Covers toLower (maskTokens s.m) (maskTokens s.n)) :
    Covers toLower (maskTokens oldMask) (maskTokens newMask) := by
  obtain ⟨ts, us, tokens_ma, tokens_na, pairs⟩ := inv.aligned
  apply inv.covered
  rw [tokens_ma, tokens_na]
  cases s.wild with
  | false => simpa using rest.append pairs
  | true => exact (rest.append pairs).skip

theorem MmInv.stars (inv : MmInv oldMask newMask s) :
    MmInv oldMask newMask s.stars ∧ peek s.stars.m ≠ '*' ∧ s.stars.rank oldMask ≤ s.rank oldMask := by
  unfold MmState.stars
  by_cases star : peek s.m = '*'
  · rw [if_pos star]
    have drops : s.m.dropWhile (· = '*') <:+ s.m := List.dropWhile_suffix _
    have head : peek (s.m.dropWhile (· = '*')) ≠ '*' := by
      cases rest : s.m.dropWhile (· = '*') with
      | nil => decide
      | cons c rest' =>
        have first := List.head?_dropWhile_not (· = '*') s.m
        rw [rest] at first
        simpa using first
    obtain ⟨k, tokens⟩ := maskTokens_stars star
    refine ⟨⟨drops.trans inv.m_suffix, drops.trans inv.m_suffix, inv.n_suffix.trans inv.na_suffix, List.suffix_refl _,
      by simp, fun _ => head, ⟨[], [], rfl, rfl, .nil⟩, fun covers => inv.of_rest ?_⟩, head, ?_⟩
    · rw [tokens]
      exact Covers.skip_replicate covers k
    · have shorter := drops.length_le
      have n_short := Nat.mul_le_mul_right (oldMask.length + 1) inv.n_suffix.length_le
      simp only [MmState.rank]
      omega
  · rw [if_neg star]
    exact ⟨inv, star, Nat.le_refl _⟩

theorem readQuoted_suffix (t : List Char) : (readQuoted t).1 <:+ t := by
  unfold readQuoted
  split
  · exact List.tail_suffix t
  · exact List.suffix_refl t

theorem readQuoted_wild (t : List Char) (quoted : (readQuoted t).2 = true) : isWild (peek (readQuoted t).1) = true := by
  unfold readQuoted at quoted ⊢
  by_cases escape : startsEscape t = true
  · obtain ⟨c, rest, rfl, wild⟩ := exists_of_startsEscape escape
    rw [if_pos escape]
    exact wild
  · rw [if_neg escape] at quoted
    cases quoted

theorem readQuoted_star {t : List Char} (no_star : peek t ≠ '*') :
    ¬ (peek (readQuoted t).1 = '*' ∧ (readQuoted t).2 = false) := by
  unfold readQuoted
  split
  · simp
  · simp [no_star]

/-- The retry: `na` goes one token on, and the comparison starts again behind the last star. -/
theorem MmInv.retry (inv : MmInv oldMask newMask s) (wild : s.wild = true) (some_na : s.na ≠ []) :
    ∃ s' u, s.retry = some s' ∧ MmInv oldMask newMask s' ∧ s'.rank oldMask < s.rank oldMask ∧
      s'.m = s.ma ∧ s'.wild = true ∧ s'.n = s'.na ∧ maskTokens s.na = u :: maskTokens s'.na := by
  obtain ⟨na', u, next, tokens, shorter⟩ := nextNa_tokens some_na
  have suffix : na' <:+ s.na := by
    unfold nextNa at next
    split at next
    · cases next
    · rename_i c na same
      rw [same]
      split at next
      · rw [← Option.some.inj next]
        exact (List.tail_suffix na).trans (List.suffix_cons c na)
      · rw [← Option.some.inj next]
        exact List.suffix_cons c na
  refine ⟨{ s with m := s.ma, n := na', na := na' }, u, by rw [MmState.retry, next]; rfl, ?_, ?_, rfl, wild, rfl, tokens⟩
  · refine ⟨inv.ma_suffix, inv.ma_suffix, suffix.trans inv.na_suffix, List.suffix_refl _, inv.start, inv.ma_head,
      ⟨[], [], rfl, rfl, .nil⟩, fun covers => inv.covered ?_⟩
    simp only [wild, if_true] at covers ⊢
    rw [tokens]
    exact covers.more u
  · have back := inv.ma_suffix.length_le
    have step := Nat.mul_le_mul_right (oldMask.length + 1) (Nat.succ_le_of_lt shorter)
    rw [Nat.succ_mul] at step
    simp only [MmState.rank]
    omega

theorem readQuoted_nil {t : List Char} (empty : (readQuoted t).1 = []) : t = [] := by
  unfold readQuoted at empty
  by_cases escape : startsEscape t = true
  · obtain ⟨c, rest, rfl, _⟩ := exists_of_startsEscape escape
    rw [if_pos escape] at empty
    cases empty
  · rwa [if_neg escape] at empty

/-- The comparison goes on with the next characters, or with the next try, or gives up. -/
theorem MmInv.compare (inv : MmInv oldMask newMask s) (clean : nul ∉ newMask) (no_star : peek s.m ≠ '*')
    (some_n : s.m ≠ [] → s.n ≠ []) :
    (∃ s', mmatchCompare s = some (.inl s') ∧ MmInv oldMask newMask s' ∧ s'.rank oldMask ≤ s.rank oldMask ∧
      (s.m ≠ [] → s'.rank oldMask < s.rank oldMask)) ∨ mmatchCompare s = some (.inr 1) := by
  have clean_n : nul ∉ (readQuoted s.n).1 := fun mem =>
    clean (((readQuoted_suffix s.n).trans (inv.n_suffix.trans inv.na_suffix)).subset mem)
  have read_m := readQuoted_suffix s.m
  have read_n := readQuoted_suffix s.n
  simp only [mmatchCompare]
  by_cases compared : (peek (readQuoted s.m).1 = '*' && !(readQuoted s.m).2 ||
      (!(readQuoted s.m).2 || (readQuoted s.n).2) &&
        toLower (peek (readQuoted s.m).1) = toLower (peek (readQuoted s.n).1) ||
      peek (readQuoted s.m).1 = '?' && !(readQuoted s.m).2 &&
        (peek (readQuoted s.n).1 ≠ '*' || (readQuoted s.n).2)) = true
  · rw [if_pos compared]
    refine .inl ⟨_, rfl, ?_, ?_, fun some_m => ?_⟩
    · refine ⟨inv.ma_suffix, (List.tail_suffix _).trans (read_m.trans inv.m_suffix), inv.na_suffix,
        (List.tail_suffix _).trans (read_n.trans inv.n_suffix), inv.start, inv.ma_head, ?_, inv.covered⟩
      obtain ⟨ts, us, tokens_ma, tokens_na, pairs⟩ := inv.aligned
      by_cases some_m : s.m = []
      · -- Both masks are at their ends, and the pointers stay.
        have empty_n : (readQuoted s.n).1 = [] := by
          have nothing : readQuoted [] = ([], false) := rfl
          have not_star : nul ≠ '*' := by decide
          have not_one : nul ≠ '?' := by decide
          rw [some_m, nothing] at compared
          have same : nul = toLower (peek (readQuoted s.n).1) := by simpa [not_star, not_one] using compared
          exact (peek_eq_nul clean_n).mp (toLower_eq_nul.mp same.symm)
        have empty := readQuoted_nil empty_n
        refine ⟨ts, us, ?_, ?_, pairs⟩
        · rw [tokens_ma, some_m]
          rfl
        · rw [tokens_na, empty]
          rfl
      · have covers := tokenOf_covers (readQuoted_wild s.m) (readQuoted_wild s.n) (readQuoted_star no_star) compared
        refine ⟨ts ++ [_], us ++ [_], ?_, ?_, List.rel_append pairs (.cons covers .nil)⟩
        · rw [tokens_ma, maskTokens_read some_m, List.append_assoc]
          rfl
        · rw [tokens_na, maskTokens_read (some_n some_m), List.append_assoc]
          rfl
    · have shorter := read_m.length_le
      simp only [MmState.rank, List.length_tail]
      omega
    · have shorter := read_m.length_le
      have some_read : (readQuoted s.m).1 ≠ [] := fun empty => some_m (readQuoted_nil empty)
      have positive := List.length_pos_iff.mpr some_read
      simp only [MmState.rank, List.length_tail]
      omega
  · rw [if_neg compared]
    cases wild : s.wild with
    | false => exact .inr rfl
    | true =>
      have some_na : s.na ≠ [] := by
        intro empty
        have empty_n : s.n = [] := List.suffix_nil.mp (empty ▸ inv.n_suffix)
        -- At both ends the terminators would have compared equal.
        have empty_m : s.m = [] := by
          by_contra some_m
          exact some_n some_m empty_n
        rw [empty_m, empty_n] at compared
        exact compared (by decide)
      obtain ⟨s', u, back, inv', less, -⟩ := inv.retry wild some_na
      refine .inl ⟨s', ?_, inv', Nat.le_of_lt less, fun _ => less⟩
      simp [back]

theorem MmInv.turn (inv : MmInv oldMask newMask s) (clean_old : nul ∉ oldMask) (clean : nul ∉ newMask) :
    (∃ s', mmatchTurn oldMask s = some (.inl s') ∧ MmInv oldMask newMask s' ∧ s'.rank oldMask < s.rank oldMask) ∨
      ∃ r, mmatchTurn oldMask s = some (.inr r) ∧
        (r = 0 → Covers toLower (maskTokens oldMask) (maskTokens newMask)) := by
  obtain ⟨inv, no_star, lower⟩ := inv.stars
  simp only [mmatchTurn]
  generalize s.stars = s₁ at inv no_star lower ⊢
  have clean_m : nul ∉ s₁.m := fun mem => clean_old (inv.m_suffix.subset mem)
  have clean_n : nul ∉ s₁.n := fun mem => clean ((inv.n_suffix.trans inv.na_suffix).subset mem)
  by_cases end_m : peek s₁.m = nul
  · rw [if_pos end_m]
    have empty_m := (peek_eq_nul clean_m).mp end_m
    by_cases end_n : peek s₁.n = nul
    · rw [if_pos end_n]
      have empty_n := (peek_eq_nul clean_n).mp end_n
      refine .inr ⟨0, rfl, fun _ => inv.of_rest ?_⟩
      rw [empty_m, empty_n]
      exact covers_refl _
    · rw [if_neg end_n]
      have some_n : s₁.n ≠ [] := fun empty => end_n (by rw [empty]; rfl)
      obtain ⟨ts, us, tokens_ma, tokens_na, pairs⟩ := inv.aligned
      rw [empty_m, show maskTokens [] = [] from rfl, List.append_nil] at tokens_ma
      by_cases found : lookBack oldMask.reverse = true
      · rw [if_pos found]
        refine .inr ⟨0, rfl, fun _ => inv.covered ?_⟩
        have no_star_ma : .star ∉ maskTokens s₁.ma := tokens_ma ▸ star_free pairs
        cases wild : s₁.wild with
        | false =>
          rw [inv.start wild] at no_star_ma
          exact absurd (lookBack_star found) no_star_ma
        | true =>
          obtain ⟨k, ones⟩ := lookBack_ones found inv.ma_suffix no_star_ma
          rw [← tokens_ma, ones] at pairs
          rw [tokens_na, ones]
          exact covers_star_replicate pairs _
      · rw [if_neg found]
        cases wild : s₁.wild with
        | false => exact .inr ⟨1, rfl, by simp⟩
        | true =>
          have some_na : s₁.na ≠ [] := fun empty => some_n (List.suffix_nil.mp (empty ▸ inv.n_suffix))
          obtain ⟨s₂, u, back, inv₂, less, m_eq, wild₂, n_eq, tokens⟩ := inv.retry wild some_na
          have no_star₂ : peek s₂.m ≠ '*' := m_eq ▸ inv.ma_head wild
          have some_n₂ : s₂.m ≠ [] → s₂.n ≠ [] := by
            -- Characters of the old mask were compared, and the new mask has one more than these.
            intro some_m empty
            rw [n_eq] at empty
            rw [tokens, empty, show maskTokens [] = [] from rfl, maskTokens_read some_n] at tokens_na
            rw [m_eq] at some_m
            rw [maskTokens_read some_m] at tokens_ma
            have length_na := congrArg List.length tokens_na
            have length_ma := congrArg List.length tokens_ma
            have same_length := pairs.length_eq
            simp only [List.length_append, List.length_cons, List.length_nil] at length_na length_ma
            omega
          simp only [Bool.not_true, Bool.false_eq_true, if_false, back, Option.bind_some]
          rcases inv₂.compare clean no_star₂ some_n₂ with ⟨s₃, next, inv₃, less₃, -⟩ | gives_up
          · exact .inl ⟨s₃, next, inv₃, by omega⟩
          · exact .inr ⟨1, gives_up, by simp⟩
  · rw [if_neg end_m]
    have some_m : s₁.m ≠ [] := fun empty => end_m (by rw [empty]; rfl)
    by_cases end_n : peek s₁.n = nul
    · rw [if_pos end_n]
      have stays : s₁.m.dropWhile (· = '*') = s₁.m := by
        obtain ⟨c, rest, shape⟩ := List.exists_cons_of_ne_nil some_m
        rw [shape, peek_cons] at no_star
        rw [shape, List.dropWhile_cons_of_neg (by simpa using no_star)]
      refine .inr ⟨1, ?_, by simp⟩
      rw [stays, if_pos end_m]
    · rw [if_neg end_n]
      have some_n : s₁.n ≠ [] := fun empty => end_n (by rw [empty]; rfl)
      rcases inv.compare clean no_star fun _ => some_n with ⟨s₂, next, inv₂, -, less⟩ | gives_up
      · exact .inl ⟨s₂, next, inv₂, by have := less some_m; omega⟩
      · exact .inr ⟨1, gives_up, by simp⟩

end

theorem mmatch_covers (oldMask newMask : CString) : ∃ r, mmatch oldMask.chars newMask.chars = some r ∧
    (r = 0 → Covers toLower (maskTokens oldMask.chars) (maskTokens newMask.chars)) := by
  refine loop_ends (fun k s => k = s.rank oldMask.chars ∧ MmInv oldMask.chars newMask.chars s)
    (fun r => r = 0 → Covers toLower (maskTokens oldMask.chars) (maskTokens newMask.chars)) ?_ (k := _) ⟨rfl, ?_⟩ ?_
  · rintro k s ⟨rfl, inv⟩
    rcases inv.turn oldMask.nul_free newMask.nul_free with ⟨s', next, inv', less⟩ | answer
    · exact .inl ⟨s', _, next, ⟨rfl, inv'⟩, less⟩
    · exact .inr answer
  · exact ⟨List.suffix_refl _, List.suffix_refl _, List.suffix_refl _, List.suffix_refl _, fun _ => rfl, by simp,
      ⟨[], [], rfl, rfl, .nil⟩, by simp⟩
  · simp only [MmState.rank, Nat.succ_mul]
    omega

/-- `mmatch` ends on every pair of masks, with no pointer behind a terminator, and when it
finds that the old mask covers the new one every string of the new mask is one of the old. -/
theorem mmatch_sound (oldMask newMask : CString) : ∃ r, mmatch oldMask.chars newMask.chars = some r ∧
    (r = 0 → ∀ name, InGlob newMask.chars name → InGlob oldMask.chars name) :=
  mmatch_covers oldMask newMask

end Ircd.Match

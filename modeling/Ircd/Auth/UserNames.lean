import Ircd.Auth.Requests
import Ircd.Text.Numbers
import Mathlib.Data.List.Chain
import Mathlib.Data.List.Induction
import Mathlib.Data.List.TakeWhile
import Mathlib.Tactic.Tauto

/-! The names that the rules of `auth_set_username` admit.

The loop keeps seven counts of the part it has gone through, and each of them is a function of that part
(`counts`). The rules are stated on the whole name; `tally_eq` says which names get through the loop.
-/

set_option autoImplicit false

namespace Ircd.Auth
open Ircd.Text

/-- The letters of the tables; `{|}~` are lower case and `[\]^` upper case. -/
def isLetter (c : Char) : Bool := isLower c || isUpper c

def lastChar (s : List Char) : Char := s.getLastD nul

def digitGroups (s : List Char) : Nat := ((nul :: s).zip s).countP fun p => !isDigit p.1 && isDigit p.2

def behindTilde (username : List Char) : List Char := if peek username = '~' then username.tail else username

structure Shaped (s : List Char) : Prop where
  characters : ∀ c ∈ s, isLetter c = true ∨ isDigit c = true ∨ isMark c = true
  marks : s.countP isMark ≤ 2
  begins : isMark (peek s) = false
  apart : s.IsChain fun c d => ¬ (isMark c = true ∧ isMark d = true)
  groups : digitGroups s ≤ 2

structure Common (s : List Char) : Prop extends Shaped s where
  some_name : s ≠ []
  letter : ∃ c ∈ s, isLetter c = true
  ends : isLetter (lastChar s) = true ∨ isDigit (lastChar s) = true

def MixedCase (s : List Char) : Prop := (∃ c ∈ s, isLower c = true) ∧ ∃ c ∈ s, isUpper c = true

def GroupsPlaced (s : List Char) : Prop :=
  digitGroups s = 2 → isDigit (peek s) = true ∨ isDigit (lastChar s) = true

def CapsPlaced (s : List Char) : Prop :=
  MixedCase s → 1 ≤ (s.takeWhile isUpper).length ∧ (s.takeWhile isUpper).length ≤ 3 ∧
    (2 < s.countP isUpper → ∀ c ∈ s.dropWhile isUpper, isUpper c = false)

structure Grammar (s : List Char) : Prop extends Common s where
  groups_placed : GroupsPlaced s
  caps_placed : CapsPlaced s

theorem isLower_iff {c : Char} : isLower c = true ↔ 97 ≤ c.toNat ∧ c.toNat ≤ 126 := by
  have code (d : Char) : c = d ↔ c.toNat = d.toNat := Char.toNat_inj.symm
  simp only [isLower, Bool.or_eq_true, Bool.and_eq_true, decide_eq_true_eq, Char.le_def, UInt32.le_iff_toNat_le,
    List.contains_iff_mem, String.reduceToList, List.mem_cons, List.not_mem_nil, or_false, code]
  simp only [← Char.toNat_val, Char.reduceVal, UInt32.reduceToNat]
  omega

theorem isUpper_iff {c : Char} : isUpper c = true ↔ 65 ≤ c.toNat ∧ c.toNat ≤ 94 := by
  have code (d : Char) : c = d ↔ c.toNat = d.toNat := Char.toNat_inj.symm
  simp only [isUpper, Bool.or_eq_true, Bool.and_eq_true, decide_eq_true_eq, Char.le_def, UInt32.le_iff_toNat_le,
    List.contains_iff_mem, String.reduceToList, List.mem_cons, List.not_mem_nil, or_false, code]
  simp only [← Char.toNat_val, Char.reduceVal, UInt32.reduceToNat]
  omega

theorem isMark_iff {c : Char} : isMark c = true ↔ c.toNat = 45 ∨ c.toNat = 46 ∨ c.toNat = 95 := by
  have code (d : Char) : c = d ↔ c.toNat = d.toNat := Char.toNat_inj.symm
  simp only [isMark, Bool.or_eq_true, decide_eq_true_eq, code, Char.reduceToNat]
  omega

theorem isAlnum_eq (c : Char) : isAlnum c = (isLetter c || isDigit c) := by
  simp only [isAlnum, isAlpha, isLetter, isLower, isUpper, Bool.or_assoc]

theorem kind_cases (c : Char) :
    isLower c = true ∧ isUpper c = false ∧ isDigit c = false ∧ isMark c = false ∨
      isLower c = false ∧ isUpper c = true ∧ isDigit c = false ∧ isMark c = false ∨
      isLower c = false ∧ isUpper c = false ∧ isDigit c = true ∧ isMark c = false ∨
      isLower c = false ∧ isUpper c = false ∧ isDigit c = false ∧ isMark c = true ∨
      isLower c = false ∧ isUpper c = false ∧ isDigit c = false ∧ isMark c = false := by
  simp only [← Bool.not_eq_true, isLower_iff, isUpper_iff, isDigit_iff, isMark_iff]
  omega

theorem lastChar_snoc (s : List Char) (c : Char) : lastChar (s ++ [c]) = c := List.getLastD_concat

variable {s : List Char}

theorem lastChar_eq_nul (clean : nul ∉ s) : lastChar s = nul ↔ s = [] := by
  induction s using List.reverseRecOn with
  | nil => exact iff_of_true rfl rfl
  | append_singleton s c _ =>
    have other : c ≠ nul := fun same => clean (same ▸ List.mem_append_right s List.mem_cons_self)
    rw [lastChar_snoc]
    exact iff_of_false other (by simp)

theorem peek_snoc (some_s : s ≠ []) (c : Char) : peek (s ++ [c]) = peek s := by
  obtain ⟨d, rest, rfl⟩ := List.exists_cons_of_ne_nil some_s
  rfl

def staysInFront (c : Char) : Bool := !isLower c && !isDigit c

/-- The leading capitals as the loop takes them: all those in front of the first lower-case letter or digit, if the
name begins with one. -/
def frontCaps (s : List Char) : Nat :=
  if isUpper (peek s) then (s.takeWhile staysInFront).countP isUpper else 0

/-- What the loop has counted behind the part `s`. -/
def counts (s : List Char) : Tally where
  upper := s.countP isUpper
  lower := s.countP isLower
  leadcaps := frontCaps s
  other := s.countP isMark
  digits := s.countP isDigit
  digitgroups := digitGroups s
  last := lastChar s

theorem groups_snoc (p : Char) (s : List Char) (c : Char) :
    ((p :: (s ++ [c])).zip (s ++ [c])).countP (fun q => !isDigit q.1 && isDigit q.2) =
      ((p :: s).zip s).countP (fun q => !isDigit q.1 && isDigit q.2) +
        (if !isDigit (s.getLastD p) && isDigit c then 1 else 0) := by
  induction s generalizing p with
  | nil => simp [List.countP_cons]
  | cons d s ih =>
    rw [List.cons_append, List.zip_cons_cons, List.countP_cons, ih, List.zip_cons_cons, List.countP_cons,
      List.getLastD_cons]
    omega

theorem digitGroups_snoc (s : List Char) (c : Char) :
    digitGroups (s ++ [c]) = digitGroups s + (if !isDigit (lastChar s) && isDigit c then 1 else 0) :=
  groups_snoc nul s c

theorem countP_snoc (p : Char → Bool) (s : List Char) (c : Char) :
    (s ++ [c]).countP p = s.countP p + (if p c then 1 else 0) := by
  rw [List.countP_append, List.countP_singleton]

theorem all_inFront :
    s.all staysInFront = true ↔ s.countP isLower = 0 ∧ s.countP isDigit = 0 := by
  rw [List.all_eq_true, List.countP_eq_zero, List.countP_eq_zero, ← forall₂_and]
  simp [staysInFront]

theorem takeWhile_snoc (p : Char → Bool) (s : List Char) (c : Char) :
    (s ++ [c]).takeWhile p = s.takeWhile p ++ (if s.all p && p c then [c] else []) := by
  induction s with
  | nil =>
    by_cases front : p c = true
    · simp [front]
    · simp [front]
  | cons d s ih =>
    by_cases front : p d = true
    · simp [front, ih]
    · simp [front]

theorem staysInFront_upper {c : Char} (upper : isUpper c = true) : staysInFront c = true := by
  rw [isUpper_iff] at upper
  simp only [staysInFront, Bool.and_eq_true, Bool.not_eq_true', ← Bool.not_eq_true, isLower_iff, isDigit_iff]
  omega

theorem frontCaps_ne_zero : frontCaps s ≠ 0 ↔ isUpper (peek s) = true := by
  unfold frontCaps
  cases s with
  | nil => decide
  | cons c s =>
    rw [peek_cons]
    by_cases upper : isUpper c = true
    · simp [upper, staysInFront_upper upper]
    · simp [upper]

theorem frontCaps_snoc (s : List Char) (c : Char) :
    frontCaps (s ++ [c]) = frontCaps s +
      (if isUpper c && (s = [] || isUpper (peek s)) && s.all staysInFront then 1 else 0) := by
  unfold frontCaps
  rw [takeWhile_snoc, List.countP_append]
  cases s with
  | nil =>
    by_cases upper : isUpper c = true
    · simp [upper, staysInFront_upper upper]
    · simp [upper]
  | cons d s =>
    rw [List.cons_append, peek_cons, peek_cons]
    by_cases first : isUpper d = true
    · by_cases upper : isUpper c = true
      · simp [first, upper, staysInFront_upper upper, apply_ite (List.countP isUpper)]
      · simp [first, upper, apply_ite (List.countP isUpper)]
    · simp [first]

structure Fits (s : List Char) (c : Char) : Prop where
  character : isLetter c = true ∨ isDigit c = true ∨ isMark c = true
  mark : isMark c = true → s ≠ [] ∧ isMark (lastChar s) = false ∧ s.countP isMark + 1 ≤ 2
  group : isDigit c = true → digitGroups (s ++ [c]) ≤ 2

theorem isChain_snoc (r : Char → Char → Prop) (s : List Char) (c : Char) :
    (s ++ [c]).IsChain r ↔ s.IsChain r ∧ (s ≠ [] → r (lastChar s) c) := by
  induction s using List.reverseRecOn with
  | nil => simp
  | append_singleton s d _ =>
    rw [List.isChain_append, lastChar_snoc]
    simp

theorem shaped_snoc (s : List Char) (c : Char) : Shaped (s ++ [c]) ↔ Shaped s ∧ Fits s c := by
  have marks := countP_snoc isMark s c
  have groups := digitGroups_snoc s c
  have chain := isChain_snoc (fun c d => ¬ (isMark c = true ∧ isMark d = true)) s c
  constructor
  · intro shaped
    have few := shaped.marks
    have few_groups := shaped.groups
    obtain ⟨before, next⟩ := chain.mp shaped.apart
    constructor
    · constructor
      · exact fun d mem => shaped.characters d (List.mem_append_left _ mem)
      · omega
      · by_cases empty : s = []
        · rw [empty]
          decide
        · rw [← peek_snoc empty c]
          exact shaped.begins
      · exact before
      · omega
    · constructor
      · exact shaped.characters c (List.mem_append_right _ List.mem_cons_self)
      · intro mark
        have some_s : s ≠ [] := by
          rintro rfl
          exact absurd (mark.symm.trans shaped.begins) (by decide)
        rw [if_pos mark] at marks
        refine ⟨some_s, ?_, by omega⟩
        rw [← Bool.not_eq_true]
        exact fun last => next some_s ⟨last, mark⟩
      · exact fun _ => shaped.groups
  · rintro ⟨shaped, fits⟩
    constructor
    · intro d mem
      rcases List.mem_append.mp mem with front | last
      · exact shaped.characters d front
      · rw [List.mem_singleton.mp last]
        exact fits.character
    · have few := shaped.marks
      by_cases mark : isMark c = true
      · have room := (fits.mark mark).2.2
        rw [if_pos mark] at marks
        omega
      · rw [if_neg mark] at marks
        omega
    · by_cases empty : s = []
      · rw [empty, ← Bool.not_eq_true]
        exact fun mark => (fits.mark mark).1 empty
      · rw [peek_snoc empty c]
        exact shaped.begins
    · refine chain.mpr ⟨shaped.apart, ?_⟩
      rintro - ⟨last, mark⟩
      exact absurd ((fits.mark mark).2.1.symm.trans last) (by decide)
    · by_cases digit : isDigit c = true
      · exact fits.group digit
      · rw [groups, Bool.eq_false_of_not_eq_true digit, Bool.and_false]
        exact shaped.groups

theorem shaped_nil : Shaped [] :=
  ⟨List.forall_mem_nil _, by decide, by decide, by decide, by decide⟩

theorem counts_snoc (s : List Char) (c : Char) :
    counts (s ++ [c]) =
      { upper := s.countP isUpper + (if isUpper c then 1 else 0)
        lower := s.countP isLower + (if isLower c then 1 else 0)
        leadcaps := frontCaps s +
          (if isUpper c && (s = [] || isUpper (peek s)) && s.all staysInFront then 1 else 0)
        other := s.countP isMark + (if isMark c then 1 else 0)
        digits := s.countP isDigit + (if isDigit c then 1 else 0)
        digitgroups := digitGroups s + (if !isDigit (lastChar s) && isDigit c then 1 else 0)
        last := c } := by
  simp only [counts, countP_snoc, frontCaps_snoc, digitGroups_snoc, lastChar_snoc]

/-- One turn of the loop: a character that fits is counted, and every other one ends it. -/
theorem counts_next (clean : nul ∉ s) (c : Char) :
    Fits s c ∧ (counts s).next c = some (counts (s ++ [c])) ∨ ¬ Fits s c ∧ (counts s).next c = none := by
  have last := lastChar_eq_nul clean
  rw [counts_snoc, Tally.next]
  -- The cases are the branches of the loop in their order.
  rcases kind_cases c with ⟨lower, upper, digit, mark⟩ | ⟨lower, upper, digit, mark⟩ | ⟨lower, upper, digit, mark⟩ |
    ⟨lower, upper, digit, mark⟩ | ⟨lower, upper, digit, mark⟩
  all_goals simp only [lower, upper, digit, mark, Bool.false_eq_true, if_false, if_true, Bool.false_and, Bool.and_false,
    Bool.and_true, Bool.true_and, Nat.add_zero]
  · left
    exact ⟨⟨.inl (by simp [isLetter, lower]), by simp [mark], by simp [digit]⟩, rfl⟩
  · left
    have leads :
        (((counts s).leadcaps ≠ 0 || (counts s).last = nul) && (counts s).lower = 0 && (counts s).digits = 0 : Bool) =
          ((s = [] || isUpper (peek s)) && s.all staysInFront) := by
      rw [Bool.eq_iff_iff]
      simp only [Bool.and_eq_true, Bool.or_eq_true, decide_eq_true_eq, all_inFront]
      simp only [counts, last, frontCaps_ne_zero]
      tauto
    refine ⟨⟨.inl (by simp [isLetter, upper]), by simp [mark], by simp [digit]⟩, ?_⟩
    rw [leads]
    rfl
  · have groups := digitGroups_snoc s c
    rw [digit, Bool.and_true] at groups
    have turned :
        (counts s).digitgroups + (if isDigit (counts s).last = true then 0 else 1) = digitGroups (s ++ [c]) := by
      rw [groups]
      by_cases before : isDigit (lastChar s) = true
      · simp [counts, before]
      · simp [counts, before]
    rw [turned, ← groups]
    by_cases room : digitGroups (s ++ [c]) ≤ 2
    · left
      exact ⟨⟨.inr (.inl digit), by simp [mark], fun _ => room⟩, if_neg (Nat.not_lt.mpr room)⟩
    · right
      exact ⟨fun fits => room (fits.group digit), if_pos (Nat.lt_of_not_le room)⟩
  · have asked : (lastChar s = nul || isMark (lastChar s) || decide (s.countP isMark + 1 > 2)) = true ↔
        ¬ (s ≠ [] ∧ isMark (lastChar s) = false ∧ s.countP isMark + 1 ≤ 2) := by
      simp only [Bool.or_eq_true, decide_eq_true_eq, last, ← Bool.not_eq_true, Nat.not_lt.symm]
      tauto
    by_cases fits : s ≠ [] ∧ isMark (lastChar s) = false ∧ s.countP isMark + 1 ≤ 2
    · left
      exact ⟨⟨.inr (.inr mark), fun _ => fits, by simp [digit]⟩, if_neg fun bad => asked.mp bad fits⟩
    · right
      exact ⟨fun all => fits (all.mark mark), if_pos (asked.mpr fits)⟩
  · right
    constructor
    · intro fits
      simpa [isLetter, lower, upper, digit, mark] using fits.character
    · trivial

def tally (s : List Char) : Option Tally :=
  s.foldl (fun t ch => t.bind (Tally.next · ch)) (some ⟨0, 0, 0, 0, 0, 0, nul⟩)

theorem tally_snoc (s : List Char) (c : Char) : tally (s ++ [c]) = (tally s).bind (Tally.next · c) := by
  rw [tally, List.foldl_append]
  rfl

theorem tally_eq (clean : nul ∉ s) :
    Shaped s ∧ tally s = some (counts s) ∨ ¬ Shaped s ∧ tally s = none := by
  induction s using List.reverseRecOn with
  | nil => exact .inl ⟨shaped_nil, rfl⟩
  | append_singleton s c ih =>
    have front : nul ∉ s := fun mem => clean (List.mem_append_left _ mem)
    rw [shaped_snoc, tally_snoc]
    rcases ih front with ⟨shaped, scanned⟩ | ⟨misshaped, stopped⟩
    · rw [scanned, Option.bind_some]
      rcases counts_next front c with ⟨fits, next⟩ | ⟨unfit, next⟩
      · exact .inl ⟨⟨shaped, fits⟩, next⟩
      · exact .inr ⟨fun both => unfit both.2, next⟩
    · rw [stopped]
      exact .inr ⟨fun both => misshaped both.1, rfl⟩

/-- What the source asks for. Its test of two groups looks at `ch`, which is the terminator by then, and not at
`last`. -/
structure Admitted (s : List Char) : Prop extends Common s where
  groups_start : digitGroups s = 2 → isDigit (peek s) = true
  caps_front : MixedCase s →
    1 ≤ frontCaps s ∧ frontCaps s ≤ 3 ∧ (2 < s.countP isUpper → s.countP isUpper ≤ frontCaps s)

theorem countP_ne_zero {p : Char → Bool} : s.countP p ≠ 0 ↔ ∃ c ∈ s, p c = true := by
  rw [← Nat.pos_iff_ne_zero, List.countP_pos_iff]

theorem exists_letter :
    (∃ c ∈ s, isLetter c = true) ↔ s.countP isLower ≠ 0 ∨ s.countP isUpper ≠ 0 := by
  rw [countP_ne_zero, countP_ne_zero, ← exists_or]
  simp only [isLetter, Bool.or_eq_true, and_or_left]

theorem badUsername_eq (username : List Char) :
    badUsername username = ((tally (behindTilde username)).elim true fun t =>
      t.lower ≠ 0 && t.upper ≠ 0 && (t.leadcaps = 0 || t.leadcaps > 3 || t.upper > 2 && t.upper > t.leadcaps) ||
        t.digitgroups = 2 && !isDigit (peek (behindTilde username)) || t.lower = 0 && t.upper = 0 ||
          !isAlnum t.last) := by
  cases scanned : tally (behindTilde username) with
  | none =>
    unfold tally behindTilde at scanned
    simp only [badUsername, scanned, Option.elim_none]
  | some t =>
    unfold tally behindTilde at scanned
    simp only [badUsername, scanned, Option.elim_some, behindTilde]

theorem badUsername_iff {username : List Char} (clean : nul ∉ username) :
    badUsername username = false ↔ Admitted (behindTilde username) := by
  have clean_rest : nul ∉ behindTilde username := by
    unfold behindTilde
    split
    · exact fun mem => clean (List.mem_of_mem_tail mem)
    · exact clean
  rw [badUsername_eq]
  generalize behindTilde username = s at clean_rest ⊢
  rcases tally_eq clean_rest with ⟨shaped, scanned⟩ | ⟨misshaped, stopped⟩
  · rw [scanned, Option.elim_some, ← Bool.not_eq_true]
    have mixed : MixedCase s ↔ s.countP isLower ≠ 0 ∧ s.countP isUpper ≠ 0 :=
      and_congr countP_ne_zero.symm countP_ne_zero.symm
    simp only [Bool.or_eq_true, Bool.and_eq_true, Bool.not_eq_true', decide_eq_true_eq, ← Bool.not_eq_true, isAlnum_eq,
      not_or, not_and_or, not_not]
    simp only [counts]
    constructor
    · rintro ⟨⟨⟨caps, groups⟩, letter⟩, ends⟩
      have some_letter := exists_letter.mpr letter
      have some_name : s ≠ [] := by
        obtain ⟨c, mem, -⟩ := some_letter
        exact List.ne_nil_of_mem mem
      refine ⟨⟨shaped, some_name, some_letter, ends⟩, fun two => groups.resolve_left (not_not.mpr two), ?_⟩
      rw [mixed]
      omega
    · intro admitted
      have caps := admitted.caps_front
      have letter := exists_letter.mp admitted.letter
      have groups : ¬ digitGroups s = 2 ∨ isDigit (peek s) = true := imp_iff_not_or.mp admitted.groups_start
      rw [mixed] at caps
      exact ⟨⟨⟨by omega, groups⟩, letter⟩, admitted.ends⟩
  · rw [stopped]
    exact iff_of_false (by simp) fun admitted => misshaped admitted.toShaped

theorem takeWhile_upper_le (s : List Char) :
    (s.takeWhile isUpper).length ≤ (s.takeWhile staysInFront).countP isUpper := by
  induction s with
  | nil => exact Nat.le_refl 0
  | cons c s ih =>
    by_cases upper : isUpper c = true
    · simpa [upper, staysInFront_upper upper] using ih
    · simp [upper]

theorem caps_order (s : List Char) :
    (s.takeWhile isUpper).length ≤ frontCaps s ∧ frontCaps s ≤ s.countP isUpper ∧
      ((s.takeWhile isUpper).length = 0 ↔ frontCaps s = 0) := by
  have first : (s.takeWhile isUpper).length = 0 ↔ ¬ isUpper (peek s) = true := by
    cases s with
    | nil => exact iff_of_true rfl (by decide)
    | cons c s =>
      by_cases upper : isUpper c = true
      · simp [upper]
      · simp [upper]
  have front := @frontCaps_ne_zero s
  refine ⟨?_, ?_, first.trans (by rw [← front, not_not])⟩
  · by_cases upper : isUpper (peek s) = true
    · rw [frontCaps, if_pos upper]
      exact takeWhile_upper_le s
    · rw [first.mpr upper]
      exact Nat.zero_le _
  · unfold frontCaps
    split
    · exact (List.takeWhile_sublist _).countP_le
    · exact Nat.zero_le _

theorem no_caps_elsewhere (s : List Char) :
    (∀ c ∈ s.dropWhile isUpper, isUpper c = false) ↔ s.countP isUpper = (s.takeWhile isUpper).length := by
  have front : (s.takeWhile isUpper).countP isUpper = (s.takeWhile isUpper).length :=
    List.countP_eq_length.mpr fun c mem => List.mem_takeWhile_imp mem
  have total : s.countP isUpper = (s.takeWhile isUpper).length + (s.dropWhile isUpper).countP isUpper := by
    conv_lhs => rw [← List.takeWhile_append_dropWhile (p := isUpper) (l := s)]
    rw [List.countP_append, front]
  rw [total, Nat.add_eq_left, List.countP_eq_zero]
  simp only [Bool.not_eq_true]

/-- A good name with two groups of digits, one of them at its end and none at its start. -/
structure GroupAtEnd (s : List Char) : Prop extends Common s where
  caps_placed : CapsPlaced s
  two : digitGroups s = 2
  start : isDigit (peek s) = false
  group_ends : isDigit (lastChar s) = true

/-- A name of mixed case that is good but for three capitals that have a mark between them; all of them come before
the first lower-case letter or digit. -/
structure SpreadCaps (s : List Char) : Prop extends Common s where
  not_two : digitGroups s ≠ 2
  mixed : MixedCase s
  three : s.countP isUpper = 3
  front : frontCaps s = 3
  spread : (s.takeWhile isUpper).length < 3

theorem admitted_iff_grammar (s : List Char) : (Admitted s ↔ Grammar s) ↔ ¬ GroupAtEnd s ∧ ¬ SpreadCaps s := by
  obtain ⟨run_le, front_le, start⟩ := caps_order s
  have elsewhere := no_caps_elsewhere s
  -- A name with leading capitals starts with no digit.
  have capital : frontCaps s ≠ 0 → isDigit (peek s) ≠ true := by
    intro some_caps
    rw [frontCaps_ne_zero, isUpper_iff] at some_caps
    rw [Ne, isDigit_iff]
    omega
  constructor
  · intro same
    constructor
    · intro bad
      have admitted := same.mpr ⟨bad.toCommon, fun _ => .inr bad.group_ends, bad.caps_placed⟩
      exact absurd (bad.start.symm.trans (admitted.groups_start bad.two)) (by decide)
    · intro bad
      have three := bad.three
      have front := bad.front
      have spread := bad.spread
      have grammar := same.mp ⟨bad.toCommon, fun two => absurd two bad.not_two, fun _ => by omega⟩
      have all := elsewhere.mp ((grammar.caps_placed bad.mixed).2.2 (by omega))
      omega
  · rintro ⟨no_group_at_end, no_spread⟩
    constructor
    · intro admitted
      refine ⟨admitted.toCommon, fun two => .inl (admitted.groups_start two), fun mixed => ?_⟩
      obtain ⟨some_caps, few, leading⟩ := admitted.caps_front mixed
      refine ⟨by omega, by omega, fun more => elsewhere.mpr ?_⟩
      have leads := leading more
      by_contra differ
      apply no_spread
      exact ⟨admitted.toCommon, fun two => capital (by omega) (admitted.groups_start two), mixed, by omega, by omega,
        by omega⟩
    · intro grammar
      constructor
      · exact grammar.toCommon
      · intro two
        by_contra start
        apply no_group_at_end
        exact ⟨grammar.toCommon, grammar.caps_placed, two, Bool.eq_false_of_not_eq_true start,
          (grammar.groups_placed two).resolve_left start⟩
      · intro mixed
        obtain ⟨some_caps, few, alone⟩ := grammar.caps_placed mixed
        rw [elsewhere] at alone
        omega

/-- The names that `auth_set_username` accepts are those of the rules, but for the two kinds. -/
theorem auth_set_username_rules (f : Flags) (x : Client) (name : CString) (unforced : f.iauthFUsername = false)
    (unconfirmed : ¬ (x.gotId = true ∧ x.username = name.chars)) :
    (refusedUsername f x name.chars = false ↔ Grammar (behindTilde name.chars)) ↔
      ¬ GroupAtEnd (behindTilde name.chars) ∧ ¬ SpreadCaps (behindTilde name.chars) := by
  rw [← admitted_iff_grammar]
  have accepted : refusedUsername f x name.chars = false ↔ Admitted (behindTilde name.chars) := by
    rw [← badUsername_iff name.nul_free]
    have judged : (x.gotId && x.username = name.chars) = false := by
      rw [← Bool.not_eq_true, Bool.and_eq_true, decide_eq_true_eq]
      exact unconfirmed
    rw [refusedUsername, unforced, judged]
    by_cases empty : name.chars = []
    · rw [empty]
      decide
    · by_cases tilde : name.chars = ['~']
      · rw [tilde]
        decide
      · simp [empty, tilde]
  rw [accepted]

/-- A name of letters and one group of digits, and one that ends in its second group. -/
def bobOne : CString := ⟨['~', 'b', 'o', 'b', '1'], by decide, by decide⟩

def twoGroups : CString := ⟨['~', 'a', '1', 'b', '2'], by decide, by decide⟩

theorem bob_by_the_rules :
    refusedUsername .none .unborn bobOne.chars = false ↔ Grammar (behindTilde bobOne.chars) :=
  (auth_set_username_rules .none .unborn bobOne rfl (by decide)).mpr
    ⟨fun bad => absurd bad.two (by decide), fun bad => absurd bad.three (by decide)⟩

theorem twoGroups_grammar : Grammar (behindTilde twoGroups.chars) := by
  have shaped : Shaped (behindTilde twoGroups.chars) := ⟨by decide, by decide, by decide, by decide, by decide⟩
  have common : Common (behindTilde twoGroups.chars) := ⟨shaped, by decide, ⟨'a', by decide, by decide⟩, by decide⟩
  refine ⟨common, fun _ => .inr (by decide), fun mixed => ?_⟩
  exact absurd (countP_ne_zero.mpr mixed.2) (by decide)

theorem group_at_end_refused :
    ¬ ∀ (f : Flags) (x : Client) (name : CString), f.iauthFUsername = false →
      ¬ (x.gotId = true ∧ x.username = name.chars) →
        (refusedUsername f x name.chars = false ↔ Grammar (behindTilde name.chars)) := by
  intro all
  have accepted := (all .none .unborn twoGroups rfl (by decide)).mpr twoGroups_grammar
  exact absurd accepted (by decide)

end Ircd.Auth

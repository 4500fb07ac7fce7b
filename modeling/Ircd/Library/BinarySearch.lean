import Mathlib.Data.List.Pairwise
import Mathlib.Data.Int.Order.Basic

/-! Binary search for a key in a table, by a comparison of the key with an entry. -/

set_option autoImplicit false

namespace Ircd.Library

variable {α : Type} {compare compare' : α → Int}

/-- Halve the slice until its middle entry is the one; the fuel bounds the number of halvings. -/
def bsearchIn (compare : α → Int) : Nat → List α → Option α
  | 0, _ => none
  | fuel + 1, slice =>
    match slice[slice.length / 2]? with
    | none => none
    | some middle =>
      if compare middle < 0 then bsearchIn compare fuel (slice.take (slice.length / 2))
      else if 0 < compare middle then bsearchIn compare fuel (slice.drop (slice.length / 2 + 1))
      else some middle

/-- `bsearch`; the comparison is negative where the key belongs in front of the entry. -/
def bsearch (compare : α → Int) (table : List α) : Option α := bsearchIn compare table.length table

/-- Behind an entry that the key does not follow, the key precedes every entry. -/
def Ordered (compare : α → Int) (table : List α) : Prop :=
  table.Pairwise fun a b => compare a ≤ 0 → compare b < 0

theorem Ordered.sublist {slice table : List α} (ordered : Ordered compare table) (sub : slice.Sublist table) :
    Ordered compare slice :=
  List.Pairwise.sublist sub ordered

theorem find?_zero_eq_none {table : List α} (off : ∀ a ∈ table, compare a ≠ 0) :
    (table.find? fun a => compare a = 0) = none := by
  rw [List.find?_eq_none]
  intro a a_mem
  simpa using off a a_mem

theorem bsearchIn_eq_find? {fuel : Nat} {slice : List α} (enough : slice.length ≤ fuel)
    (ordered : Ordered compare slice) : bsearchIn compare fuel slice = slice.find? fun a => compare a = 0 := by
  induction fuel generalizing slice with
  | zero =>
    rw [List.length_eq_zero_iff.mp (Nat.le_zero.mp enough)]
    rfl
  | succ fuel ih =>
    rw [bsearchIn]
    by_cases empty : slice = []
    · subst empty
      rfl
    have inside : slice.length / 2 < slice.length := by
      have := List.length_pos_iff.mpr empty
      omega
    rw [List.getElem?_eq_getElem inside]
    generalize middle_eq : slice[slice.length / 2] = middle
    have cut : slice = slice.take (slice.length / 2) ++ middle :: slice.drop (slice.length / 2 + 1) := by
      rw [← middle_eq, List.getElem_cons_drop inside, List.take_append_drop]
    have parts := ordered
    rw [Ordered, cut, List.pairwise_append, List.pairwise_cons] at parts
    obtain ⟨-, ⟨behind, -⟩, across⟩ := parts
    have front (above : ¬ compare middle < 0) : ∀ a ∈ slice.take (slice.length / 2), compare a ≠ 0 := by
      intro a a_mem zero
      exact above (across a a_mem middle List.mem_cons_self (le_of_eq zero))
    simp only
    conv => rhs; rw [cut, List.find?_append, List.find?_cons]
    by_cases below : compare middle < 0
    · -- the key is in front of the middle entry, so nothing behind it can be the one
      have rest : ∀ a ∈ slice.drop (slice.length / 2 + 1), compare a ≠ 0 := by
        intro a a_mem
        exact ne_of_lt (behind a a_mem (le_of_lt below))
      have shorter : (slice.take (slice.length / 2)).length ≤ fuel := by
        rw [List.length_take]
        omega
      rw [if_pos below, ih shorter (ordered.sublist (List.take_sublist ..)), find?_zero_eq_none rest]
      simp [ne_of_lt below]
    · rw [if_neg below, find?_zero_eq_none (front below), Option.none_or]
      by_cases beyond : 0 < compare middle
      · have shorter : (slice.drop (slice.length / 2 + 1)).length ≤ fuel := by
          rw [List.length_drop]
          omega
        rw [if_pos beyond, ih shorter (ordered.sublist (List.drop_sublist ..))]
        simp [ne_of_gt beyond]
      · have zero : compare middle = 0 := le_antisymm (not_lt.mp beyond) (not_lt.mp below)
        rw [if_neg beyond]
        simp [zero]

/-- In an ordered table the search finds the first entry that compares equal, as a scan does. -/
theorem bsearch_eq_find? {table : List α} (ordered : Ordered compare table) :
    bsearch compare table = table.find? fun a => compare a = 0 :=
  bsearchIn_eq_find? (Nat.le_refl _) ordered

/-- No other entry of an ordered table compares equal. -/
theorem Ordered.find?_eq {table : List α} (ordered : Ordered compare table) {a : α} (a_mem : a ∈ table)
    (zero : compare a = 0) : (table.find? fun a => compare a = 0) = some a := by
  induction table with
  | nil => cases a_mem
  | cons b table ih =>
    obtain ⟨behind, rest⟩ := List.pairwise_cons.mp ordered
    rcases List.mem_cons.mp a_mem with rfl | later
    · rw [List.find?_cons_of_pos (by simpa using zero)]
    · have apart : compare b ≠ 0 := by
        intro zero_b
        exact (ne_of_lt (behind a later (le_of_eq zero_b))) zero
      rw [List.find?_cons_of_neg (by simpa using apart)]
      exact ih rest later

/-- The order of a table depends on the signs only. -/
theorem Ordered.congr {table : List α} (ordered : Ordered compare table)
    (same : ∀ a ∈ table, (compare' a).sign = (compare a).sign) : Ordered compare' table := by
  refine List.Pairwise.imp_of_mem (fun {a b} a_mem b_mem here below => ?_) ordered
  have above : compare a ≤ 0 := by
    rw [← Int.sign_nonpos_iff, ← same a a_mem, Int.sign_nonpos_iff]
    exact below
  rw [← Int.sign_neg_iff, same b b_mem, Int.sign_neg_iff]
  exact here above

end Ircd.Library

import Mathlib.Data.List.TakeWhile

/-! The words of a text: its longest pieces without a separator. -/

set_option autoImplicit false

namespace Ircd.Library

variable {α : Type} {blank : α → Bool}

/-- The words between the separators. -/
def wordsBy (blank : α → Bool) (text : List α) : List (List α) := (text.splitOnP blank).filter fun w => w ≠ []

@[simp] theorem wordsBy_nil : wordsBy blank [] = [] := rfl

theorem wordsBy_append_cons {c : α} (sep : blank c = true) (a b : List α) :
    wordsBy blank (a ++ c :: b) = wordsBy blank a ++ wordsBy blank b := by
  rw [wordsBy, List.splitOnP_append_cons a b sep, List.filter_append]
  rfl

@[simp] theorem wordsBy_cons {c : α} (sep : blank c = true) (text : List α) :
    wordsBy blank (c :: text) = wordsBy blank text := by
  have split := wordsBy_append_cons sep [] text
  rwa [List.nil_append, wordsBy_nil, List.nil_append] at split

/-- A piece without separators is one word. -/
theorem wordsBy_word {w : List α} (some_w : w ≠ []) (solid : ∀ c ∈ w, blank c = false) : wordsBy blank w = [w] := by
  rw [wordsBy, List.splitOnP_eq_singleton solid]
  exact List.filter_cons_of_pos (decide_eq_true some_w)

theorem wordsBy_dropWhile (blank : α → Bool) (text : List α) :
    wordsBy blank (text.dropWhile blank) = wordsBy blank text := by
  induction text with
  | nil => rfl
  | cons c text ih =>
    by_cases sep : blank c = true
    · rw [List.dropWhile_cons_of_pos sep, ih, wordsBy_cons sep]
    · rw [List.dropWhile_cons_of_neg sep]

/-- The first word ends in front of the next separator. -/
theorem wordsBy_of_solid {c : α} (solid : blank c = false) (text : List α) :
    wordsBy blank (c :: text) =
      (c :: text).takeWhile (!blank ·) :: wordsBy blank ((c :: text).dropWhile (!blank ·)) := by
  have first : (c :: text).takeWhile (!blank ·) ≠ [] := by
    rw [List.takeWhile_cons_of_pos (by simp [solid])]
    exact List.cons_ne_nil _ _
  have whole : ∀ d ∈ (c :: text).takeWhile (!blank ·), blank d = false := by
    intro d d_mem
    simpa using List.mem_takeWhile_imp d_mem
  conv => lhs; rw [← List.takeWhile_append_dropWhile (p := (!blank ·)) (l := c :: text)]
  cases rest_eq : (c :: text).dropWhile (!blank ·) with
  | nil => rw [List.append_nil, wordsBy_word first whole, wordsBy_nil]
  | cons d rest =>
    have sep : blank d = true := by
      have stop := List.head_dropWhile_not (!blank ·) (l := c :: text) (by rw [rest_eq]; exact List.cons_ne_nil _ _)
      simpa [rest_eq] using stop
    rw [wordsBy_append_cons sep, wordsBy_word first whole, wordsBy_cons sep]
    rfl

/-- A text has no word when all of it is separators. -/
theorem wordsBy_eq_nil {text : List α} : wordsBy blank text = [] ↔ text.dropWhile blank = [] := by
  rw [← wordsBy_dropWhile]
  cases rest_eq : text.dropWhile blank with
  | nil => simp
  | cons c rest =>
    have stop := List.head_dropWhile_not blank (l := text) (by rw [rest_eq]; exact List.cons_ne_nil _ _)
    rw [wordsBy_of_solid (by simpa [rest_eq] using stop)]
    simp

theorem mem_of_mem_wordsBy {text w : List α} (w_mem : w ∈ wordsBy blank text) {c : α} (c_mem : c ∈ w) : c ∈ text := by
  have piece : w ∈ text.splitOnP blank := (List.mem_filter.mp w_mem).1
  clear w_mem
  induction text generalizing w with
  | nil =>
    rw [List.splitOnP_nil, List.mem_singleton] at piece
    exact piece ▸ c_mem
  | cons d text ih =>
    rw [List.splitOnP_cons_eq_if_modifyHead] at piece
    split at piece
    · rcases List.mem_cons.mp piece with rfl | later
      · cases c_mem
      · exact List.mem_cons_of_mem d (ih c_mem later)
    · obtain ⟨first, rest, split⟩ := List.exists_cons_of_ne_nil (List.splitOnP_ne_nil blank text)
      rw [split, List.modifyHead_cons] at piece
      rw [split] at ih
      rcases List.mem_cons.mp piece with rfl | later
      · rcases List.mem_cons.mp c_mem with rfl | inside
        · exact List.mem_cons_self
        · exact List.mem_cons_of_mem d (ih inside List.mem_cons_self)
      · exact List.mem_cons_of_mem d (ih c_mem (List.mem_cons_of_mem _ later))

end Ircd.Library

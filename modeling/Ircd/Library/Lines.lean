import Mathlib.Data.List.Basic
import Mathlib.Tactic.Common

/-! Texts put together from lines: where each line starts, and where the separators are. -/

set_option autoImplicit false

namespace Ircd.Library

section
variable {α : Type} {lines : List (List α)}

/-- Where line `j` starts in the text of the lines. -/
def offset (lines : List (List α)) (j : Nat) : Nat := (lines.take j).flatten.length

/-- A line ends with the separator and has no other. -/
structure Line (sep : α) (line : List α) : Prop where
  ends : ∃ body, line = body ++ [sep] ∧ sep ∉ body

@[simp] theorem offset_zero (lines : List (List α)) : offset lines 0 = 0 := rfl

theorem offset_length (lines : List (List α)) : offset lines lines.length = lines.flatten.length := by
  rw [offset, List.take_length]

theorem offset_succ {j : Nat} (inside : j < lines.length) :
    offset lines (j + 1) = offset lines j + lines[j].length := by
  rw [offset, offset, List.take_add_one, List.getElem?_eq_getElem inside, List.flatten_append, List.length_append]
  simp

theorem offset_mono (lines : List (List α)) {i j : Nat} (before : i ≤ j) : offset lines i ≤ offset lines j := by
  unfold offset
  obtain ⟨more, rfl⟩ := Nat.exists_eq_add_of_le before
  rw [List.take_add, List.flatten_append, List.length_append]
  exact Nat.le_add_right _ _

theorem offset_le (lines : List (List α)) (j : Nat) : offset lines j ≤ lines.flatten.length := by
  rcases Nat.le_total j lines.length with inside | behind
  · rw [← offset_length]
    exact offset_mono lines inside
  · have all : lines.take j = lines := List.take_of_length_le behind
    exact Nat.le_of_eq (congrArg (List.length ∘ List.flatten) all)

theorem drop_offset (lines : List (List α)) (j : Nat) :
    lines.flatten.drop (offset lines j) = (lines.drop j).flatten := by
  have split : lines.flatten = (lines.take j).flatten ++ (lines.drop j).flatten := by
    rw [← List.flatten_append, List.take_append_drop]
  rw [split, offset, List.drop_left]

/-- Every place of the text is in a line. -/
theorem exists_offset {p : Nat} (inside : p < lines.flatten.length) :
    ∃ j < lines.length, offset lines j ≤ p ∧ p < offset lines (j + 1) := by
  rw [← offset_length] at inside
  generalize n_eq : lines.length = n at inside
  have bound : n ≤ lines.length := by omega
  clear n_eq
  induction n with
  | zero => exact absurd inside (Nat.not_lt_zero p)
  | succ n ih =>
    by_cases before : p < offset lines n
    · obtain ⟨j, less, place⟩ := ih before (by omega)
      exact ⟨j, by omega, place⟩
    · exact ⟨n, by omega, by omega, inside⟩

theorem getElem?_flatten {j p : Nat} (inside : j < lines.length) (start : offset lines j ≤ p)
    (below : p < offset lines (j + 1)) : lines.flatten[p]? = lines[j][p - offset lines j]? := by
  have tail : lines.drop j = lines[j] :: lines.drop (j + 1) := List.drop_eq_getElem_cons inside
  rw [offset_succ inside] at below
  have place : lines.flatten[p]? = (lines.flatten.drop (offset lines j))[p - offset lines j]? := by
    rw [List.getElem?_drop, Nat.add_sub_cancel' start]
  rw [place, drop_offset, tail, List.flatten_cons, List.getElem?_append_left (by omega)]

/-- A separator stands at the end of each line and nowhere else. -/
theorem getElem?_flatten_sep {sep : α} {j p : Nat} (inside : j < lines.length) (line : Line sep lines[j])
    (start : offset lines j ≤ p) (below : p < offset lines (j + 1)) :
    lines.flatten[p]? = some sep ↔ p + 1 = offset lines (j + 1) := by
  obtain ⟨body, whole, clean⟩ := line.ends
  have length : lines[j].length = body.length + 1 := by rw [whole, List.length_append, List.length_singleton]
  have next := offset_succ inside
  rw [getElem?_flatten inside start below, whole]
  constructor
  · intro found
    by_contra within
    rw [List.getElem?_append_left (by omega)] at found
    exact clean (List.mem_of_getElem? found)
  · intro last
    rw [List.getElem?_append_right (by omega)]
    have here : p - offset lines j - body.length = 0 := by omega
    rw [here, List.getElem?_cons_zero]

end

end Ircd.Library

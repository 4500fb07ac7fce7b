import Mathlib.Data.List.Count
import Mathlib.Logic.Function.Basic

/-! Visiting the entries of a list once each: an entry gets a mark as its stamp when it is visited,
and one that has the mark already is passed over.
-/

set_option autoImplicit false

namespace Ircd.Library

variable {α β : Type} [DecidableEq α] [DecidableEq β]

/-- One turn: the stamps, and the entries visited so far. -/
def visitOnce (mark : β) (state : (α → β) × List α) (a : α) : (α → β) × List α :=
  if state.1 a = mark then state else (Function.update state.1 a mark, state.2 ++ [a])

/-- An entry is visited once if it is there and does not have the mark to begin with, and never otherwise. -/
theorem visitOnce_count (mark : β) (state : (α → β) × List α) (l : List α) (a : α) :
    (l.foldl (visitOnce mark) state).2.count a =
      state.2.count a + if a ∈ l ∧ state.1 a ≠ mark then 1 else 0 := by
  induction l generalizing state with
  | nil => simp
  | cons b l ih =>
    rw [List.foldl_cons, ih, visitOnce]
    by_cases marked : state.1 b = mark
    · rw [if_pos marked]
      by_cases here : a = b
      · simp [here, marked]
      · simp [here]
    · rw [if_neg marked]
      by_cases here : a = b
      · subst here
        simp [marked, Function.update_self]
      · simp [here, Function.update_of_ne, Ne.symm here]

end Ircd.Library

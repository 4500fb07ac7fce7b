import Mathlib.Data.List.Basic
import Mathlib.Data.List.Induction
import Mathlib.Tactic.Common

/-! Reversal and rotation in place, by swaps of single positions.

The three loops work on positions of one buffer; the lemmas read the buffer as blocks.
-/

set_option autoImplicit false

namespace Ircd.Library.BlockSwap

variable {α : Type}

def swapAt (l : List α) (i j : Nat) : List α :=
  match l[i]?, l[j]? with
  | some x, some y => (l.set i y).set j x
  | _, _ => l

/-- Swap towards the middle from both ends of `i … j`. -/
def reverseBetween (l : List α) (i j : Nat) : List α :=
  if i < j then reverseBetween (swapAt l i j) (i + 1) (j - 1) else l
termination_by j - i

/-- Swap `n` positions from `i` on with as many from `j` on. -/
def swapRun (l : List α) (i j : Nat) : Nat → List α
  | 0 => l
  | n + 1 => swapRun (swapAt l i j) (i + 1) (j + 1) n

/-- Exchange the block of length `l₁` at `i` with the block of length `l₂` behind it: swap as
much as the shorter block has, then go on with what is left. -/
def rotate (l : List α) (i l₁ l₂ : Nat) : List α :=
  if min l₁ l₂ = 0 then l
  else
    rotate (swapRun l i (i + l₁) (min l₁ l₂)) (i + min l₁ l₂)
      (l₁ - if l₁ < l₂ then 0 else min l₁ l₂) (l₂ - if l₂ < l₁ then 0 else min l₁ l₂)
termination_by l₁ + l₂
decreasing_by split <;> split <;> omega

theorem swapAt_append (p m s : List α) (x y : α) {i j : Nat} (first : i = p.length)
    (second : j = p.length + m.length + 1) :
    swapAt (p ++ x :: m ++ y :: s) i j = p ++ y :: m ++ x :: s := by
  subst first second
  have here : (p ++ x :: m ++ y :: s)[p.length]? = some x := by simp
  have there : (p ++ x :: m ++ y :: s)[p.length + m.length + 1]? = some y := by
    have front : (p ++ x :: m).length = p.length + m.length + 1 := by simp; omega
    rw [← front, List.getElem?_append_right (Nat.le_refl _), Nat.sub_self]
    rfl
  rw [swapAt, here, there]
  have once : (p ++ x :: m ++ y :: s).set p.length y = p ++ y :: m ++ y :: s := by
    rw [List.append_assoc, List.set_append_right _ _ (Nat.le_refl _), Nat.sub_self]
    simp
  have front : (p ++ y :: m).length = p.length + m.length + 1 := by simp; omega
  simp only [once]
  rw [← front, List.set_append_right _ _ (Nat.le_refl _), Nat.sub_self]
  rfl

theorem reverseBetween_append (p a s : List α) :
    reverseBetween (p ++ a ++ s) p.length (p.length + a.length - 1) = p ++ a.reverse ++ s := by
  induction a using List.bidirectionalRec generalizing p s with
  | nil =>
    rw [reverseBetween, if_neg (by simp)]
    rfl
  | singleton x =>
    rw [reverseBetween, if_neg (by simp)]
    rfl
  | cons_append x m y ih =>
    have last : p.length + (x :: (m ++ [y])).length - 1 = p.length + m.length + 1 := by simp; omega
    rw [reverseBetween, last, if_pos (by omega)]
    have shape : p ++ x :: (m ++ [y]) ++ s = p ++ x :: m ++ y :: s := by simp
    rw [shape, swapAt_append p m s x y rfl rfl]
    have inner := ih (p ++ [y]) (x :: s)
    simp only [List.length_append, List.length_singleton] at inner
    have stop : p.length + m.length + 1 - 1 = p.length + 1 + m.length - 1 := by omega
    rw [stop]
    simpa using inner

theorem swapRun_append (p a m b s : List α) {i j : Nat} (same : a.length = b.length)
    (first : i = p.length) (second : j = p.length + a.length + m.length) :
    swapRun (p ++ a ++ m ++ b ++ s) i j a.length = p ++ b ++ m ++ a ++ s := by
  induction a generalizing p m b i j with
  | nil =>
    rw [List.length_nil] at same
    rw [List.length_eq_zero_iff.mp same.symm]
    simp [swapRun]
  | cons x a ih =>
    cases b with
    | nil => simp at same
    | cons y b =>
      rw [List.length_cons] at second
      have shape : p ++ x :: a ++ m ++ y :: b ++ s = p ++ x :: (a ++ m) ++ y :: (b ++ s) := by simp
      rw [List.length_cons, swapRun, shape, swapAt_append p (a ++ m) (b ++ s) x y first (by simp; omega)]
      have rest := ih (p ++ [y]) (m ++ [x]) b (i := i + 1) (j := j + 1) (by simpa using same) (by simp [first])
        (by simp; omega)
      simpa using rest

/-- The loop exchanges the two blocks. -/
theorem rotate_append (p a b s : List α) :
    rotate (p ++ a ++ b ++ s) p.length a.length b.length = p ++ b ++ a ++ s := by
  induction total : a.length + b.length using Nat.strongRecOn generalizing p a b with
  | _ n ih =>
  rw [rotate]
  by_cases empty : min a.length b.length = 0
  · rw [if_pos empty]
    rcases Nat.min_eq_zero_iff.mp empty with none_left | none_left <;>
      simp [List.length_eq_zero_iff.mp none_left]
  · rw [if_neg empty]
    rcases Nat.lt_trichotomy a.length b.length with shorter | same | longer
    · -- The first block goes whole; the rest of the second follows it.
      obtain ⟨b₁, b₂, rfl, length⟩ : ∃ b₁ b₂, b = b₁ ++ b₂ ∧ a.length = b₁.length :=
        ⟨b.take a.length, b.drop a.length, (List.take_append_drop _ _).symm, by simp; omega⟩
      have swapped := swapRun_append p a [] b₁ (b₂ ++ s) length rfl rfl
      have least : min a.length (b₁ ++ b₂).length = a.length := by omega
      simp only [least, shorter, if_true, Nat.not_lt_of_lt shorter, if_false]
      simp only [List.append_nil, List.length_nil, Nat.add_zero] at swapped
      have text : p ++ a ++ (b₁ ++ b₂) ++ s = p ++ a ++ b₁ ++ (b₂ ++ s) := by simp
      have rest := ih _ (by simp only [List.length_append] at *; omega) (p ++ b₁) a b₂ rfl
      rw [text, swapped]
      simp only [List.length_append, ← length, Nat.sub_zero, Nat.add_sub_cancel_left] at rest ⊢
      simpa using rest
    · have swapped := swapRun_append p a [] b s same rfl rfl
      simp only [List.append_nil, List.length_nil, Nat.add_zero] at swapped
      simp only [← same, Nat.min_self, Nat.lt_irrefl, if_false, swapped]
      rw [rotate, if_pos (by simp)]
    · -- The second block goes whole; the front of the first lands behind its rest.
      obtain ⟨a₁, a₂, rfl, length⟩ : ∃ a₁ a₂, a = a₁ ++ a₂ ∧ a₁.length = b.length :=
        ⟨a.take b.length, a.drop b.length, (List.take_append_drop _ _).symm, by simp; omega⟩
      have swapped := swapRun_append p a₁ a₂ b s length rfl rfl
      have least : min (a₁ ++ a₂).length b.length = a₁.length := by omega
      simp only [least, longer, if_true, Nat.not_lt_of_lt longer, if_false]
      have rest := ih _ (by simp only [List.length_append] at *; omega) (p ++ b) a₂ a₁ rfl
      simp only [List.length_append, ← length, Nat.sub_zero, Nat.add_sub_cancel_left] at rest ⊢
      rw [← Nat.add_assoc, ← List.append_assoc p a₁, swapped]
      simpa using rest

end Ircd.Library.BlockSwap

import Mathlib.Data.List.ReduceOption
import Mathlib.Tactic.Common

/-! An array whose marked slots are packed down to its front, in one sweep and in place. -/

set_option autoImplicit false

namespace Ircd.Library

variable {α : Type}

/-- The turn of slot `i`, with the place that the next marked slot goes to. -/
def packTurn (keep : α → Bool) (clear : α → α) (s : List (Option α) × Nat) (i : Nat) : List (Option α) × Nat :=
  match s.1[i]?.join with
  | some a =>
    if keep a then
      let slots := s.1.set s.2 (some (clear a))
      (if s.2 = i then slots else slots.set i none, s.2 + 1)
    else (s.1.set i none, s.2)
  | none => (s.1.set i none, s.2)

/-- The sweep over the slots from 0 to `n`, and the count of the marked ones. -/
def pack (keep : α → Bool) (clear : α → α) (slots : List (Option α)) (n : Nat) : List (Option α) × Nat :=
  (List.range n).foldl (packTurn keep clear) (slots, 0)

/-- A packed array. -/
def packed (kept : List α) (n : Nat) : List (Option α) := kept.map some ++ List.replicate (n - kept.length) none

theorem set_middle (front back : List (Option α)) (x y : Option α) :
    (front ++ x :: back).set front.length y = front ++ y :: back := by
  simp

/-- A slot is filled behind the others. -/
theorem packed_push {kept : List α} {n : Nat} (room : kept.length < n) (a : α) :
    (packed kept n).set kept.length (some a) = packed (kept ++ [a]) n := by
  obtain ⟨k, free⟩ : ∃ k, n - kept.length = k + 1 := ⟨n - kept.length - 1, by omega⟩
  have left : n - (kept.length + 1) = k := by omega
  simp [packed, free, left, List.replicate_succ]

theorem packed_map {β : Type} (f : α → β) (kept : List α) (n : Nat) :
    (packed kept n).map (Option.map f) = packed (kept.map f) n := by
  simp [packed, Function.comp_def]

theorem packTurn_skip {keep : α → Bool} (clear : α → α) (front : List (Option α)) (count : Nat) {x : Option α}
    (rest : List (Option α)) (skipped : ∀ a, x = some a → keep a = false) :
    packTurn keep clear (front ++ x :: rest, count) front.length = (front ++ none :: rest, count) := by
  have here : (front ++ x :: rest)[front.length]?.join = x := by simp
  unfold packTurn
  dsimp only
  rw [here, set_middle]
  cases x with
  | none => rfl
  | some a => simp [skipped a rfl]

theorem packTurn_keep {keep : α → Bool} (clear : α → α) (kept : List α) (k : Nat) {a : α} (rest : List (Option α))
    (marked : keep a = true) :
    packTurn keep clear (kept.map some ++ List.replicate k none ++ some a :: rest, kept.length) (kept.length + k) =
      ((kept ++ [clear a]).map some ++ List.replicate k none ++ rest, kept.length + 1) := by
  have here : (kept.map some ++ List.replicate k none ++ some a :: rest)[kept.length + k]?.join = some a := by simp
  unfold packTurn
  dsimp only
  rw [here]
  dsimp only
  rw [if_pos marked]
  cases k with
  | zero => simp
  | succ k =>
    have apart : kept.length ≠ kept.length + (k + 1) := by omega
    rw [if_neg apart]
    have first : (kept.map some ++ List.replicate (k + 1) none ++ some a :: rest).set kept.length (some (clear a)) =
        kept.map some ++ some (clear a) :: List.replicate k none ++ some a :: rest := by
      simp [List.replicate_succ]
    have second := set_middle (kept.map some ++ some (clear a) :: List.replicate k none) rest (some a) none
    have place : (kept.map some ++ some (clear a) :: List.replicate k none).length = kept.length + (k + 1) := by
      simp
    rw [place] at second
    rw [first, second]
    simp [List.replicate_succ']

/-- The marked slots end up at the front in their order, and all others are empty. -/
theorem pack_eq (keep : α → Bool) (clear : α → α) (slots : List (Option α)) :
    pack keep clear slots slots.length =
      (packed ((slots.reduceOption.filter keep).map clear) slots.length,
        (slots.reduceOption.filter keep).length) := by
  -- The sweep has come to slot `m`.
  have sweep : ∀ m ≤ slots.length, pack keep clear slots m =
      (packed (((slots.take m).reduceOption.filter keep).map clear) m ++ slots.drop m,
        ((slots.take m).reduceOption.filter keep).length) := by
    intro m
    induction m with
    | zero => simp [pack, packed]
    | succ m ih =>
      intro le
      have split : slots.drop m = slots[m] :: slots.drop (m + 1) := List.drop_eq_getElem_cons le
      have front : slots.take (m + 1) = slots.take m ++ [slots[m]] := by simp
      have before := ih (Nat.le_of_succ_le le)
      have turn : pack keep clear slots (m + 1) = packTurn keep clear (pack keep clear slots m) m := by
        simp only [pack, List.range_succ, List.foldl_append, List.foldl_cons, List.foldl_nil]
      have few : ((slots.take m).reduceOption.filter keep).length ≤ m :=
        Nat.le_trans (List.length_filter_le _ _)
          (Nat.le_trans (List.reduceOption_length_le _) (List.length_take_le _ _))
      rw [turn, before, split, front, List.reduceOption_append, List.filter_append]
      generalize (slots.take m).reduceOption.filter keep = kept at few
      by_cases marked : ∃ a, slots[m] = some a ∧ keep a = true
      · obtain ⟨a, here, keeps⟩ := marked
        have moved := packTurn_keep clear (kept.map clear) (m - kept.length) (slots.drop (m + 1)) keeps
        have place : (kept.map clear).length + (m - kept.length) = m := by
          rw [List.length_map]
          omega
        rw [place] at moved
        have room : m + 1 - (kept.length + 1) = m - kept.length := by omega
        rw [here]
        simpa [packed, keeps, room] using moved
      · have skipped : ∀ a, slots[m] = some a → keep a = false := by
          intro a here
          by_contra keeps
          exact marked ⟨a, here, (Bool.not_eq_false _).mp keeps⟩
        have passed := packTurn_skip clear (packed (kept.map clear) m) kept.length (slots.drop (m + 1)) skipped
        have place : (packed (kept.map clear) m).length = m := by
          simp only [packed, List.length_append, List.length_map, List.length_replicate]
          omega
        have nothing : [slots[m]].reduceOption.filter keep = [] := by
          cases here : slots[m] with
          | none => rfl
          | some a => simp [skipped a here]
        have longer : packed (kept.map clear) (m + 1) = packed (kept.map clear) m ++ [none] := by
          have room : m + 1 - kept.length = m - kept.length + 1 := by omega
          simp [packed, room, List.replicate_succ']
        rw [place] at passed
        rw [passed, nothing, List.append_nil, longer]
        simp
  have whole := sweep slots.length (Nat.le_refl _)
  simpa using whole

end Ircd.Library

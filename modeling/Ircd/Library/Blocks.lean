import Mathlib.Algebra.BigOperators.Group.Finset.Basic
import Mathlib.Algebra.BigOperators.Group.Finset.Piecewise
import Mathlib.Tactic.Common

/-! Blocks of memory: which are allocated, what is in each, and what they count up to.

A count or a sum over the blocks changes, with a change of one block, by that block's part.
-/

set_option autoImplicit false

namespace Ircd.Library

/-- The addresses that are allocated, and what is in memory. -/
structure Blocks (P α : Type) where
  live : Finset P
  mem : P → α

namespace Blocks

variable {P α : Type}

/-- A part of each block, summed. -/
def sum (b : Blocks P α) (part : P → α → Nat) : Nat := ∑ p ∈ b.live, part p (b.mem p)

/-- How many blocks are of a kind. -/
def count (b : Blocks P α) (kind : P → α → Bool) : Nat := (b.live.filter fun p => kind p (b.mem p) = true).card

/-- One block's part of a count. -/
def unit (kind : P → α → Bool) (p : P) (a : α) : Nat := if kind p a then 1 else 0

theorem count_eq_sum (b : Blocks P α) (kind : P → α → Bool) : b.count kind = b.sum (unit kind) :=
  Finset.card_filter _ _

theorem count_pos {b : Blocks P α} {kind : P → α → Bool} {p : P} (inside : p ∈ b.live)
    (of_kind : kind p (b.mem p) = true) : 0 < b.count kind :=
  Finset.card_pos.mpr ⟨p, Finset.mem_filter.mpr ⟨inside, of_kind⟩⟩

theorem count_zero_iff {b : Blocks P α} {kind : P → α → Bool} :
    b.count kind = 0 ↔ ∀ p ∈ b.live, kind p (b.mem p) = false := by
  rw [count, Finset.card_eq_zero, Finset.filter_eq_empty_iff]
  exact forall₂_congr fun p _ => Bool.not_eq_true _ ▸ Iff.rfl

theorem count_congr {b b' : Blocks P α} {kind kind' : P → α → Bool} (same : b'.live = b.live)
    (alike : ∀ q ∈ b.live, kind' q (b'.mem q) = kind q (b.mem q)) : b'.count kind' = b.count kind := by
  rw [count, count, same]
  exact congrArg Finset.card (Finset.filter_congr fun q mem => by rw [alike q mem])

section
variable [DecidableEq P]

/-- Two heaps with the same blocks, which differ in one of them. -/
theorem sum_change {b b' : Blocks P α} {p : P} (part part' : P → α → Nat) (same : b'.live = b.live) (inside : p ∈ b.live)
    (others : ∀ q, q ≠ p → q ∈ b.live → part' q (b'.mem q) = part q (b.mem q)) :
    b'.sum part' + part p (b.mem p) = b.sum part + part' p (b'.mem p) := by
  have rest : ∑ q ∈ b.live.erase p, part' q (b'.mem q) = ∑ q ∈ b.live.erase p, part q (b.mem q) :=
    Finset.sum_congr rfl fun q mem => others q (Finset.ne_of_mem_erase mem) (Finset.mem_of_mem_erase mem)
  rw [sum, sum, same, ← Finset.add_sum_erase _ _ inside, ← Finset.add_sum_erase _ _ inside, rest]
  omega

theorem count_change {b b' : Blocks P α} {p : P} (kind kind' : P → α → Bool) (same : b'.live = b.live) (inside : p ∈ b.live)
    (others : ∀ q, q ≠ p → q ∈ b.live → kind' q (b'.mem q) = kind q (b.mem q)) :
    b'.count kind' + unit kind p (b.mem p) = b.count kind + unit kind' p (b'.mem p) := by
  rw [count_eq_sum, count_eq_sum]
  exact sum_change _ _ same inside fun q other mem => by rw [unit, unit, others q other mem]

def write (b : Blocks P α) (p : P) (a : α) : Blocks P α := { b with mem := Function.update b.mem p a }

def allocate (b : Blocks P α) (p : P) (a : α) : Blocks P α := ⟨insert p b.live, Function.update b.mem p a⟩

def release (b : Blocks P α) (p : P) : Blocks P α := { b with live := b.live.erase p }

variable (b : Blocks P α) (p : P) (a : α)

@[simp] theorem live_write : (b.write p a).live = b.live := rfl

@[simp] theorem live_allocate : (b.allocate p a).live = insert p b.live := rfl

@[simp] theorem live_release : (b.release p).live = b.live.erase p := rfl

@[simp] theorem mem_write : (b.write p a).mem p = a := Function.update_self _ _ _

@[simp] theorem mem_allocate : (b.allocate p a).mem p = a := Function.update_self _ _ _

@[simp] theorem mem_release : (b.release p).mem = b.mem := rfl

variable {p}

theorem mem_write_other {q : P} (other : q ≠ p) : (b.write p a).mem q = b.mem q := Function.update_of_ne other _ _

theorem mem_allocate_other {q : P} (other : q ≠ p) : (b.allocate p a).mem q = b.mem q :=
  Function.update_of_ne other _ _

theorem sum_write (part : P → α → Nat) (inside : p ∈ b.live) :
    (b.write p a).sum part + part p (b.mem p) = b.sum part + part p a := by
  have change : (b.write p a).sum part + part p (b.mem p) = b.sum part + part p ((b.write p a).mem p) :=
    sum_change part part rfl inside fun q other _ => by rw [mem_write_other b a other]
  rwa [mem_write] at change

theorem sum_allocate (part : P → α → Nat) (outside : p ∉ b.live) :
    (b.allocate p a).sum part = b.sum part + part p a := by
  have others : ∑ q ∈ b.live, part q ((b.allocate p a).mem q) = ∑ q ∈ b.live, part q (b.mem q) := by
    refine Finset.sum_congr rfl fun q mem => ?_
    have other : q ≠ p := fun same => outside (same ▸ mem)
    rw [mem_allocate_other b a other]
  rw [sum, sum, live_allocate, Finset.sum_insert outside, others, mem_allocate, Nat.add_comm]

theorem sum_release (part : P → α → Nat) (inside : p ∈ b.live) :
    (b.release p).sum part + part p (b.mem p) = b.sum part := by
  rw [sum, sum, live_release, mem_release, Nat.add_comm]
  exact Finset.add_sum_erase b.live (fun q => part q (b.mem q)) inside

theorem count_write (kind : P → α → Bool) (inside : p ∈ b.live) :
    (b.write p a).count kind + unit kind p (b.mem p) = b.count kind + unit kind p a := by
  rw [count_eq_sum, count_eq_sum]
  exact sum_write b a _ inside

theorem count_allocate (kind : P → α → Bool) (outside : p ∉ b.live) :
    (b.allocate p a).count kind = b.count kind + unit kind p a := by
  rw [count_eq_sum, count_eq_sum]
  exact sum_allocate b a _ outside

theorem count_release (kind : P → α → Bool) (inside : p ∈ b.live) :
    (b.release p).count kind + unit kind p (b.mem p) = b.count kind := by
  rw [count_eq_sum, count_eq_sum]
  exact sum_release b _ inside

end

end Blocks

end Ircd.Library

import Mathlib.Tactic.Common

/-! Loops with a bound on the number of turns, and the rule that shows they end.

A turn may get stuck (`none`), go on with a new state or leave with a result. The rule
asks for an invariant with a measure that starts below the bound.
-/

set_option autoImplicit false

namespace Ircd.Library

variable {σ ρ : Type}

def loop (turn : σ → Option (σ ⊕ ρ)) : Nat → σ → Option ρ
  | 0, _ => none
  | fuel + 1, s =>
    match turn s with
    | none => none
    | some (.inl s') => loop turn fuel s'
    | some (.inr r) => some r

/-- The loop ends well if each turn ends it well or goes on with a smaller measure `k`. -/
theorem loop_ends {turn : σ → Option (σ ⊕ ρ)} (inv : Nat → σ → Prop) (post : ρ → Prop)
    (turns : ∀ k s, inv k s →
      (∃ s' k', turn s = some (.inl s') ∧ inv k' s' ∧ k' < k) ∨ ∃ r, turn s = some (.inr r) ∧ post r)
    {k : Nat} {s : σ} {fuel : Nat} (start : inv k s) (enough : k < fuel) :
    ∃ r, loop turn fuel s = some r ∧ post r := by
  induction fuel generalizing k s with
  | zero => exact absurd enough (Nat.not_lt_zero _)
  | succ fuel ih =>
    rw [loop]
    rcases turns k s start with ⟨s', k', next, keeps, less⟩ | ⟨r, done, good⟩
    · rw [next]
      exact ih keeps (by omega)
    · rw [done]
      exact ⟨r, rfl, good⟩

end Ircd.Library

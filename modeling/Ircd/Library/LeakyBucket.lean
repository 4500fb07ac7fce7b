import Mathlib.Algebra.Order.Ring.Int
import Mathlib.Tactic.Linarith

/-! A limiter that keeps one time: nothing is let through before it, and each one that is let through
moves it on by a delay, but never leaves it further behind the clock than a depth.

The bound on what gets through in a window is about any trace of such a time.
-/

set_option autoImplicit false

namespace Ircd.Library

/-- An attempt: when, the time that is kept before it and behind it, and whether it counts. -/
structure Attempt where
  now : Int
  before : Int
  after : Int
  counted : Bool

/-- The time never goes back, and an attempt that counts obeys the limiter. -/
structure Attempt.Obeys (delay depth : Int) (a : Attempt) : Prop where
  forward : a.before ≤ a.after
  open_now : a.counted = true → a.before ≤ a.now
  delayed : a.counted = true → a.before + delay ≤ a.after
  shallow : a.counted = true → a.now - depth ≤ a.after

/-- Each attempt begins where the one before it ended. -/
def Follows : Int → List Attempt → Prop
  | _, [] => True
  | time, a :: rest => a.before = time ∧ Follows a.after rest

/-- The attempts that count in a window. -/
def inWindow (start stop : Int) (a : Attempt) : Bool := a.counted && decide (start ≤ a.now) && decide (a.now ≤ stop)

theorem inWindow_iff {start stop : Int} {a : Attempt} :
    inWindow start stop a = true ↔ a.counted = true ∧ start ≤ a.now ∧ a.now ≤ stop := by
  simp [inWindow, and_assoc]

variable {delay depth : Int}

/-- Each attempt that counts takes a delay from what is left of the window. -/
theorem count_behind {start stop time : Int} {trace : List Attempt} (follows : Follows time trace)
    (obeys : ∀ a ∈ trace, a.Obeys delay depth) :
    trace.countP (inWindow start stop) = 0 ∨
      time + delay * ((trace.countP (inWindow start stop) : Int) - 1) ≤ stop := by
  induction trace generalizing time with
  | nil => exact .inl rfl
  | cons a rest ih =>
    obtain ⟨rfl, follows⟩ := follows
    have here := obeys a List.mem_cons_self
    have behind := ih follows fun a mem => obeys a (List.mem_cons_of_mem _ mem)
    have forward := here.forward
    cases counts : inWindow start stop a with
    | false =>
      rw [List.countP_cons_of_neg (by rw [counts]; exact Bool.false_ne_true)]
      exact behind.imp_right fun left => by linarith
    | true =>
      obtain ⟨counted, -, before_stop⟩ := inWindow_iff.mp counts
      have opens := here.open_now counted
      have delayed := here.delayed counted
      rw [List.countP_cons_of_pos counts]
      right
      push_cast
      rcases behind with nothing | left
      · rw [nothing, Nat.cast_zero, zero_add, sub_self, mul_zero, add_zero]
        exact opens.trans before_stop
      · linarith

/-- In a window of a length, what is let through is bounded: what was saved up, and what the delay allows. -/
theorem window_bound {start time : Int} {length : Nat} {trace : List Attempt} (follows : Follows time trace)
    (obeys : ∀ a ∈ trace, a.Obeys delay depth) :
    trace.countP (inWindow start (start + length)) ≤ 1 ∨
      delay * ((trace.countP (inWindow start (start + length)) : Int) - 2) ≤ length + depth := by
  induction trace generalizing time with
  | nil => exact .inl (Nat.zero_le _)
  | cons a rest ih =>
    obtain ⟨rfl, follows⟩ := follows
    have here := obeys a List.mem_cons_self
    have obeys_rest : ∀ a ∈ rest, a.Obeys delay depth := fun a mem => obeys a (List.mem_cons_of_mem _ mem)
    cases counts : inWindow start (start + length) a with
    | false =>
      rw [List.countP_cons_of_neg (by rw [counts]; exact Bool.false_ne_true)]
      exact ih follows obeys_rest
    | true =>
      -- the first one that counts brings the time up to the window
      obtain ⟨counted, behind_start, -⟩ := inWindow_iff.mp counts
      have shallow := here.shallow counted
      rw [List.countP_cons_of_pos counts]
      rcases @count_behind _ _ start (start + length) _ _ follows obeys_rest with nothing | left
      · exact .inl (by omega)
      · right
        push_cast
        linarith

end Ircd.Library

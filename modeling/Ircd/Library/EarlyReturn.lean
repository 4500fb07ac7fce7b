import Mathlib.Init

/-! Functions that return early, as `Except` with the result of a return as its error. -/

set_option autoImplicit false

namespace Ircd.Library

variable {ε α β : Type}

/-- What holds at a return and what holds where the function goes on. -/
def Ends (returned : ε → Prop) (goes : α → Prop) : Except ε α → Prop
  | .error e => returned e
  | .ok a => goes a

theorem Ends.bind {returned : ε → Prop} {goes : α → Prop} {goes' : β → Prop} {x : Except ε α} {f : α → Except ε β}
    (first : Ends returned goes x) (next : ∀ a, goes a → Ends returned goes' (f a)) : Ends returned goes' (x >>= f) := by
  cases x with
  | error e => exact first
  | ok a => exact next a first

end Ircd.Library

import Ircd.Match.Plain

/-! `collapse`, and the test whether a server is meant by a mask. -/

set_option autoImplicit false

namespace Ircd.Match
open Ircd.Text

/-- The rest of a mask from the first star with a wildcard behind it: stars are held back
behind the question marks that follow them. -/
def collapseRest : Bool → List Char → List Char
  | star, [] => if star then ['*'] else []
  | _, '*' :: m => collapseRest true m
  | star, '?' :: m => '?' :: collapseRest star m
  | star, '\\' :: c :: m =>
    let held := if star then ['*'] else []
    if isWild c then held ++ '\\' :: c :: collapseRest false m else held ++ '\\' :: collapseRest false (c :: m)
  | star, c :: m => (if star then ['*', c] else [c]) ++ collapseRest false m

def collapse : List Char → List Char
  | [] => []
  | '*' :: c :: m => if isWild c then collapseRest false ('*' :: c :: m) else '*' :: collapse (c :: m)
  | '\\' :: c :: m => if isWild c then '\\' :: c :: collapse m else '\\' :: collapse (c :: m)
  | c :: m => c :: collapse m

/-- The test of `ddb_new_register` and `ms_db` for a mask that is meant for this server. -/
def isForUs (me mask : CString) : Bool := ircMatch (collapse mask.chars) me.chars = 0

def starMask : CString := ⟨['*'], by decide, by decide⟩

theorem isForUs_star (me : CString) : isForUs me starMask = true := by
  have ends : matchStep ['*'] ⟨['*'], me.chars, ['*'], me.chars⟩ = .inl 0 := by
    cases me.chars with
    | nil => rfl
    | cons c s => rfl
  have whole : collapse starMask.chars = ['*'] := rfl
  rw [isForUs, whole, ircMatch, matchLoop_done ends]
  rfl

end Ircd.Match

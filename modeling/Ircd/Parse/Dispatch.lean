import Ircd.Parse.Lines
import Ircd.Text.Numbers

/-! What `parse_server` may do with a line: drop it, pass a numeric on, or call the handler of a
message that is there.
-/

set_option autoImplicit false

namespace Ircd.Parse
open Ircd.Text

def threeDigits (command : List Char) : Option Nat :=
  if command.length = 3 ∧ command.all isDigit then some (readNumber 0 command) else none

/-- A line is dropped, or it is a numeric from 1 to 999, or a message of one of the tries handles it. -/
def Safe {Client : Type} (s : Commands) (command : List Char) : Except Fault (Served Client) → Prop
  | .error _ => False
  | .ok (.dropped _) => True
  | .ok (.numeric numeric _ _ _) => ∃ n, threeDigits command = some n ∧ numeric = n ∧ 1 ≤ n ∧ n ≤ 999
  | .ok (.handled mptr _ _) => msgTreeParse command s.tokTree = some mptr ∨ msgTreeParse command s.msgTree = some mptr

/-- Three characters that begin with a digit, which are no number or zero. -/
def crooked (body : List Char) : Bool :=
  looksNumeric body && (threeDigits (body.takeWhile inWord) = none || threeDigits (body.takeWhile inWord) = some 0)

theorem charValue_digit {c : Char} (digit : isDigit c = true) : charValue c - 48 = ((c.toNat - 48 : Nat) : Int) := by
  rw [isDigit_iff] at digit
  rw [charValue, if_pos (by omega)]
  omega

theorem threeDigits_spec {body : List Char} {n : Nat} (digits : threeDigits (body.takeWhile inWord) = some n) :
    numericOf body = n ∧ n ≤ 999 := by
  unfold threeDigits at digits
  split at digits
  next number =>
    obtain ⟨three, all_digits⟩ := number
    obtain ⟨a, b, c, word⟩ := List.length_eq_three.mp three
    have whole := List.takeWhile_append_dropWhile (p := inWord) (l := body)
    rw [word] at whole digits all_digits
    simp only [List.all_cons, List.all_nil, Bool.and_true, Bool.and_eq_true] at all_digits
    obtain ⟨digit_a, digit_b, digit_c⟩ := all_digits
    have value_a := charValue_digit digit_a
    have value_b := charValue_digit digit_b
    have value_c := charValue_digit digit_c
    obtain rfl := Option.some.inj digits
    rw [isDigit_iff] at digit_a digit_b digit_c
    rw [← whole]
    simp only [numericOf, charAt, List.cons_append, List.getD_cons_zero, List.getD_cons_succ, value_a, value_b, value_c]
    simp only [readNumber, isDigit_iff, digit_a, digit_b, digit_c, and_self, if_true, Char.reduceToNat]
    omega
  next => contradiction

section
variable {Client : Type} [DecidableEq Client] {s : Commands} {newTags : Bool} {source : Client} {body : List Char}
  {result : Except Fault (Served Client)}

omit [DecidableEq Client] in
theorem ServerCommand.safe_iff (command : ServerCommand s newTags source body result) :
    Safe s (body.takeWhile inWord) result ↔ crooked body = false := by
  cases command with
  | unknown name => exact iff_of_true trivial (by rw [crooked, name, Bool.false_and])
  | handled name mptr call right lookup =>
    exact iff_of_true ((Option.or_eq_some_iff.mp lookup).imp id And.right) (by rw [crooked, name, Bool.false_and])
  | numeric number call bound nonzero =>
    rw [crooked, number, Bool.true_and]
    cases digits : threeDigits (body.takeWhile inWord) with
    | none =>
      refine iff_of_false ?_ (by simp)
      rintro ⟨n, value, -⟩
      rw [digits] at value
      contradiction
    | some n =>
      obtain ⟨value, small⟩ := threeDigits_spec digits
      have positive : n ≠ 0 := by
        rintro rfl
        exact nonzero value
      exact iff_of_true ⟨n, digits, value, Nat.one_le_iff_ne_zero.mpr positive, small⟩ (by simpa using positive)
  | zero number zero =>
    refine iff_of_false id ?_
    rw [crooked, number, Bool.true_and]
    cases digits : threeDigits (body.takeWhile inWord) with
    | none => simp
    | some n =>
      have value := (threeDigits_spec digits).1
      have none_left : n = 0 := by omega
      simp [none_left]

theorem crooked_text (bad : crooked body = true) : peek body ≠ nul := by
  intro empty
  simp only [crooked, looksNumeric, Bool.and_eq_true] at bad
  rw [empty] at bad
  exact absurd bad.1.2 (by decide)

end

/-- A line from a server is dropped, is a numeric from 1 to 999, or goes to the handler of a message that
is there, unless its source is found and its command has three characters that begin with a digit
but are no number from 1 to 999. -/
theorem dispatch_safe {Client : Type} [DecidableEq Client] (s : Commands) (world : Clients Client) (cptr : Client)
    (para : Para) (buffer : List Char) :
    Safe s ((serverBody buffer).takeWhile inWord) (parseServer world cptr s para buffer) ↔
      ¬ (world.dead cptr = false ∧ (∃ source sender ch, serverSource world cptr buffer = .ok (.found source sender ch)) ∧
        crooked (serverBody buffer) = true) := by
  constructor
  · rintro safe ⟨alive, ⟨source, sender, ch, found⟩, bad⟩
    have command := parseServer_found s para alive found (crooked_text bad)
    rw [command.safe_iff.mp safe] at bad
    contradiction
  · intro straight
    rcases parseServer_cases s world cptr para buffer with ⟨killed, drops⟩ | ⟨source, sender, ch, alive, found, command⟩
    · rw [drops]
      trivial
    · refine command.safe_iff.mpr ?_
      by_contra bad
      exact straight ⟨alive, ⟨source, sender, ch, found⟩, Bool.not_eq_false _ ▸ bad⟩

def oneServer : Clients Unit := ⟨fun _ => ['s'], id, fun _ => false, fun _ => some (), fun _ => some (), fun _ => some ()⟩

/-- The numeric 000 is taken for a command without a message. -/
theorem zero_numeric : ¬ Safe initMsgTree ((serverBody ":s 000 x".toList).takeWhile inWord)
    (parseServer oneServer () initMsgTree (fun _ => .null) ":s 000 x".toList) := by
  have found : serverSource oneServer () ":s 000 x".toList =
      .ok (.found () (.text 1) ⟨[':', 's', nul], "000 x".toList⟩) := by rfl
  have bad : crooked (serverBody ":s 000 x".toList) = true := by decide +kernel
  have command := parseServer_found initMsgTree (fun _ => .null) rfl found (crooked_text bad)
  rw [command.safe_iff, bad]
  exact Bool.noConfusion

end Ircd.Parse

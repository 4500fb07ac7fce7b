import Ircd.Numnicks.IpBase64

/-! What `base64toip` does with texts that `iptobase64` never writes.

Neither the length of the text nor the terminator is looked at in front of a word. After
the first underscore the words left are as many as the text has for them, but for a last
word of one character; in front of it nothing but the length of the whole text counts.
-/

set_option autoImplicit false

namespace Ircd.Numnicks
open Ircd.Text

def meetsUnderscore : Nat → List Char → Bool
  | _ + 1, '_' :: _ => true
  | words + 1, _ :: input => meetsUnderscore words (input.drop 2)
  | _, _ => false

def lastWordLength : List Char → Nat
  | '_' :: input => lastWordLength input
  | _ :: _ :: _ :: input => lastWordLength input
  | input => input.length

/-- The texts that are read up to their terminator and give eight words. -/
def fitsAddress (input : List Char) : Bool :=
  input.length = 6 ||
    if meetsUnderscore 8 input then input.length ≤ 25 && lastWordLength input ≠ 1 else 23 ≤ input.length

/-- The words from `pos` on are read and fill the address. -/
def Fills (pos : Nat) (input : List Char) : Prop := ∃ ws, decodeWords pos input = some ws ∧ ws.length = 8 - pos

theorem fills_word {pos : Nat} {c₁ c₂ c₃ : Char} {input : List Char} (not_underscore : c₁ ≠ '_') (inside : pos < 8) :
    Fills pos (c₁ :: c₂ :: c₃ :: input) ↔ Fills (pos + 1) input := by
  unfold Fills
  rw [decodeWords, if_neg (Nat.not_le_of_lt inside)]
  · constructor
    · rintro ⟨ws, read, length⟩
      obtain ⟨ws', rest, rfl⟩ := Option.map_eq_some_iff.mp read
      exact ⟨ws', rest, by rw [List.length_cons] at length; omega⟩
    · rintro ⟨ws, rest, length⟩
      rw [rest]
      exact ⟨_, rfl, by rw [List.length_cons]; omega⟩
  · exact not_underscore

theorem fills_underscore {pos : Nat} {input : List Char} (inside : pos < 8) :
    Fills pos ('_' :: input) ↔
      input.length ≤ 24 ∧ pos ≤ (24 - input.length) / 3 ∧ Fills ((24 - input.length) / 3) input := by
  unfold Fills
  have room : 25 - (input.length + 1) = 24 - input.length := by omega
  rw [decodeWords, if_neg (Nat.not_le_of_lt inside), room]
  simp only
  by_cases out : 25 < input.length + 1 ∨ (24 - input.length) / 3 < pos ∨ 8 < pos + ((24 - input.length) / 3 - pos)
  · rw [if_pos out]
    constructor
    · rintro ⟨ws, read, -⟩
      cases read
    · rintro ⟨short, after, -⟩
      omega
  · rw [if_neg out]
    have next : pos + ((24 - input.length) / 3 - pos) = (24 - input.length) / 3 := by omega
    rw [next]
    constructor
    · rintro ⟨ws, read, length⟩
      obtain ⟨ws', rest, rfl⟩ := Option.map_eq_some_iff.mp read
      rw [List.length_append, List.length_replicate] at length
      exact ⟨by omega, by omega, ws', rest, by omega⟩
    · rintro ⟨-, -, ws, rest, length⟩
      rw [rest]
      refine ⟨_, rfl, ?_⟩
      rw [List.length_append, List.length_replicate]
      omega

theorem fills_done (input : List Char) : Fills 8 input := ⟨[], decodeWords_done (Nat.le_refl 8) input, rfl⟩

/-- Fewer than three characters: the terminator may be the last digit, but no further character is there. -/
theorem fills_last {pos : Nat} {input : List Char} (not_underscore : ∀ rest, input ≠ '_' :: rest)
    (short : input.length ≤ 2) (inside : pos < 8) : Fills pos input ↔ pos = 7 ∧ input.length = 2 := by
  have unread : ¬ ∃ ws : List UInt16, (none : Option (List UInt16)) = some ws ∧ ws.length = 8 - pos := by
    rintro ⟨ws, read, -⟩
    cases read
  unfold Fills
  match input with
  | [] =>
    rw [decodeWords, if_pos inside]
    exact iff_of_false unread fun both => absurd both.2 (by decide)
  | [c₁] =>
    rw [decodeWords, if_pos inside]
    · exact iff_of_false unread fun both => absurd both.2 (by simp)
    · exact fun underscore => not_underscore [] (by rw [underscore])
  | [c₁, c₂] =>
    rw [decodeWords, if_neg (Nat.not_le_of_lt inside)]
    · by_cases last : pos = 7
      · rw [if_pos last, last]
        exact ⟨fun _ => ⟨rfl, rfl⟩, fun _ => ⟨_, rfl, rfl⟩⟩
      · rw [if_neg last]
        exact iff_of_false unread fun both => last both.1
    · exact fun underscore => not_underscore [c₂] (by rw [underscore])
  | _ :: _ :: _ :: _ => exact absurd short (by simp)

theorem fills_behind {pos : Nat} {input : List Char} (words : 8 - pos = (input.length + 2) / 3) (inside : pos ≤ 8) :
    Fills pos input ↔ lastWordLength input ≠ 1 := by
  fun_induction lastWordLength input generalizing pos with
  | case1 input ih =>
    rw [List.length_cons] at words
    rw [fills_underscore (by omega), ih (by omega) (by omega)]
    exact ⟨fun read => read.2.2, fun last => ⟨by omega, by omega, last⟩⟩
  | case2 c₁ c₂ c₃ input not_underscore ih =>
    simp only [List.length_cons] at words
    rw [fills_word not_underscore (by omega), ih (by omega) (by omega)]
  | case3 input not_underscore not_word =>
    have short : input.length ≤ 2 := by
      match input with
      | [] => exact Nat.zero_le _
      | [_] => exact Nat.le_succ 1
      | [_, _] => exact Nat.le_refl 2
      | c₁ :: c₂ :: c₃ :: rest => exact (not_word c₁ c₂ c₃ rest rfl).elim
    by_cases filled : pos = 8
    · subst filled
      exact ⟨fun _ => by omega, fun _ => fills_done input⟩
    · rw [fills_last (fun rest => not_underscore rest) short (by omega)]
      omega

theorem meetsUnderscore_nil (words : Nat) : meetsUnderscore words [] = false := by
  cases words <;> rfl

theorem fills_short {words : Nat} {c : Char} {input : List Char} (not_underscore : c ≠ '_')
    (short : (c :: input).length ≤ 2) (inside : words + 1 ≤ 8) :
    Fills (8 - (words + 1)) (c :: input) ↔
      if meetsUnderscore words (input.drop 2) then
        (c :: input).length + 3 * (8 - (words + 1)) ≤ 25 ∧ lastWordLength (c :: input) ≠ 1
      else 3 * (words + 1) ≤ (c :: input).length + 1 := by
  have nothing : input.drop 2 = [] := List.drop_eq_nil_of_le (by rw [List.length_cons] at short; omega)
  rw [nothing, meetsUnderscore_nil, if_neg Bool.false_ne_true,
    fills_last (fun rest same => not_underscore (List.cons_eq_cons.mp same).1) short (by omega)]
  omega

theorem fills_words (words : Nat) (input : List Char) (inside : words ≤ 8) :
    Fills (8 - words) input ↔
      if meetsUnderscore words input then input.length + 3 * (8 - words) ≤ 25 ∧ lastWordLength input ≠ 1
      else 3 * words ≤ input.length + 1 := by
  fun_induction meetsUnderscore words input with
  | case1 words input =>
    rw [fills_underscore (by omega), if_pos rfl, List.length_cons, lastWordLength]
    constructor
    · rintro ⟨short, after, rest⟩
      exact ⟨by omega, (fills_behind (by omega) (by omega)).mp rest⟩
    · rintro ⟨short, last⟩
      exact ⟨by omega, by omega, (fills_behind (by omega) (by omega)).mpr last⟩
  | case2 words c input not_underscore ih =>
    match input with
    | c₂ :: c₃ :: rest =>
      have next : 8 - (words + 1) + 1 = 8 - words := by omega
      rw [fills_word not_underscore (by omega), next]
      refine (ih (by omega)).trans ?_
      rw [lastWordLength]
      · simp only [List.drop_succ_cons, List.drop_zero, List.length_cons]
        have room : rest.length + 3 * (8 - words) = rest.length + 1 + 1 + 1 + 3 * (8 - (words + 1)) := by omega
        have enough : 3 * words ≤ rest.length + 1 ↔ 3 * (words + 1) ≤ rest.length + 1 + 1 + 1 + 1 := by omega
        rw [room, enough]
      · exact not_underscore
    | [] => exact fills_short not_underscore (Nat.le_succ 1) inside
    | [_] => exact fills_short not_underscore (Nat.le_refl 2) inside
  | case3 words input no_underscore no_word =>
    rw [if_neg Bool.false_ne_true]
    cases words with
    | zero => exact ⟨fun _ => Nat.zero_le _, fun _ => fills_done input⟩
    | succ words =>
      cases input with
      | nil =>
        rw [fills_last (fun rest => (List.cons_ne_nil '_' rest).symm) (Nat.zero_le _) (by omega), List.length_nil]
        omega
      | cons c rest => exact (no_word words c rest rfl rfl).elim

/-- `base64toip` stays inside the text and the address exactly for the texts of these shapes. -/
theorem base64toip_inside_iff (input : CString) :
    (∃ ws, base64toip input.chars = some ws ∧ ws.length = 8) ↔ fitsAddress input.chars = true := by
  unfold base64toip fitsAddress
  by_cases six : input.chars.length = 6
  · rw [if_pos six, decide_eq_true six, Bool.true_or]
    refine ⟨fun _ => rfl, fun _ => ?_⟩
    dsimp only
    split
    · exact ⟨_, rfl, rfl⟩
    · exact ⟨_, rfl, rfl⟩
  · rw [if_neg six, decide_eq_false six, Bool.false_or]
    have words := fills_words 8 input.chars (Nat.le_refl 8)
    refine words.trans ?_
    split
    · rw [Bool.and_eq_true, decide_eq_true_iff, decide_eq_true_iff]
      exact Iff.rfl
    · rw [decide_eq_true_iff]
      omega

/-- The field `A`: the third digit of its first word would lie behind the terminator. -/
theorem base64toip_short_outside : ¬ ∃ ws, base64toip ['A'] = some ws ∧ ws.length = 8 := by
  rintro ⟨ws, read, -⟩
  cases read

end Ircd.Numnicks

import Ircd.Library.Glob
import Ircd.Text.Chattr

/-! The glob language of an IRC mask: `*`, `?`, and `\*` and `\?` for the literal characters.

`maskTokens` reads the mask text; the language itself is that of the token list, with
letters compared up to `toLower`.
-/

set_option autoImplicit false

namespace Ircd.Match
open Ircd.Library.Glob Ircd.Text

def isWild (c : Char) : Bool := c = '*' || c = '?'

def startsEscape : List Char → Bool
  | '\\' :: m => isWild (peek m)
  | _ => false

def maskTokens : List Char → List (Token Char)
  | [] => []
  | '*' :: m => .star :: maskTokens m
  | '?' :: m => .one :: maskTokens m
  | '\\' :: '*' :: m => .lit '*' :: maskTokens m
  | '\\' :: '?' :: m => .lit '?' :: maskTokens m
  | c :: m => .lit c :: maskTokens m

def InGlob (mask name : List Char) : Prop := Matches toLower (maskTokens mask) name

/-- Whether an escaped wildcard stands right after an unescaped one; `wild` says whether
the text itself does. -/
def escapeAfterWild : Bool → List Char → Bool
  | _, [] => false
  | _, '*' :: m => escapeAfterWild true m
  | _, '?' :: m => escapeAfterWild true m
  | wild, '\\' :: '*' :: m => wild || escapeAfterWild false m
  | wild, '\\' :: '?' :: m => wild || escapeAfterWild false m
  | _, _ :: m => escapeAfterWild false m

variable {c : Char}

theorem isWild_iff : isWild c = true ↔ c = '*' ∨ c = '?' := by simp [isWild]

theorem not_isWild_iff : isWild c = false ↔ c ≠ '*' ∧ c ≠ '?' := by simp [isWild]

variable {m : List Char}

@[simp] theorem isWild_nul : isWild nul = false := by decide

theorem maskTokens_escape (wild : isWild c = true) :
    maskTokens ('\\' :: c :: m) = .lit c :: maskTokens m := by
  rcases isWild_iff.mp wild with rfl | rfl <;> rfl

theorem escapeAfterWild_escape (wild : isWild c = true) (after : Bool) :
    escapeAfterWild after ('\\' :: c :: m) = (after || escapeAfterWild false m) := by
  rcases isWild_iff.mp wild with rfl | rfl <;> rfl

theorem startsEscape_cons :
    startsEscape (c :: m) = true ↔ c = '\\' ∧ isWild (peek m) = true := by
  constructor
  · intro h
    unfold startsEscape at h
    split at h
    · rename_i heq
      cases heq
      exact ⟨rfl, h⟩
    · cases h
  · rintro ⟨rfl, h⟩
    exact h

theorem exists_of_startsEscape (h : startsEscape m = true) :
    ∃ c rest, m = '\\' :: c :: rest ∧ isWild c = true := by
  match m with
  | [] => cases h
  | c :: m =>
    obtain ⟨rfl, wild⟩ := startsEscape_cons.mp h
    match m with
    | [] => simp at wild
    | c :: m => exact ⟨c, m, rfl, wild⟩

theorem maskTokens_plain (plain : isWild c = false) (noEscape : startsEscape (c :: m) = false) :
    maskTokens (c :: m) = .lit c :: maskTokens m := by
  rw [not_isWild_iff] at plain
  rw [maskTokens]
  · exact plain.1
  · exact plain.2
  · rintro m rfl rfl; simp [startsEscape, isWild] at noEscape
  · rintro m rfl rfl; simp [startsEscape, isWild] at noEscape

theorem escapeAfterWild_plain (plain : isWild c = false) (noEscape : startsEscape (c :: m) = false) (after : Bool) :
    escapeAfterWild after (c :: m) = escapeAfterWild false m := by
  rw [not_isWild_iff] at plain
  rw [escapeAfterWild]
  · exact plain.1
  · exact plain.2
  · rintro m rfl rfl; simp [startsEscape, isWild] at noEscape
  · rintro m rfl rfl; simp [startsEscape, isWild] at noEscape

theorem escapeAfterWild_mono (h : escapeAfterWild true m = false) (after : Bool) :
    escapeAfterWild after m = false := by
  cases after with
  | true => exact h
  | false =>
    unfold escapeAfterWild at h ⊢
    split at h <;> simp_all

theorem startsEscape_of_escapeAfterWild (h : escapeAfterWild true m = false) :
    startsEscape m = false := by
  by_contra starts
  obtain ⟨c, rest, rfl, wild⟩ := exists_of_startsEscape (by simpa using starts)
  simp [escapeAfterWild_escape wild] at h

theorem mem_maskTokens (h : Token.lit c ∈ maskTokens m) : c ∈ m := by
  fun_induction maskTokens m <;> simp_all
  all_goals grind

theorem maskTokens_cut (plain : isWild c = false) (not_quote : c ≠ '\\') (front back : List Char) :
    maskTokens (front ++ c :: back) = maskTokens front ++ .lit c :: maskTokens back := by
  fun_induction maskTokens front with
  | case1 =>
    refine maskTokens_plain plain ?_
    rw [Bool.eq_false_iff, Ne, startsEscape_cons]
    exact fun quoted => not_quote quoted.1
  | case2 m ih => rw [List.cons_append, maskTokens, ih, List.cons_append]
  | case3 m ih => rw [List.cons_append, maskTokens, ih, List.cons_append]
  | case4 m ih => rw [List.cons_append, List.cons_append, maskTokens, ih, List.cons_append]
  | case5 m ih => rw [List.cons_append, List.cons_append, maskTokens, ih, List.cons_append]
  | case6 d m not_star not_one no_star no_one ih =>
    have letter : isWild d = false := not_isWild_iff.mpr ⟨fun same => not_star same, fun same => not_one same⟩
    rw [List.cons_append, maskTokens_plain letter, ih, List.cons_append]
    rw [Bool.eq_false_iff, Ne, startsEscape_cons]
    rintro ⟨rfl, wild⟩
    cases m with
    | nil => rw [List.nil_append, peek_cons, plain] at wild; cases wild
    | cons e m =>
      rw [List.cons_append, peek_cons] at wild
      rcases isWild_iff.mp wild with rfl | rfl
      · exact no_star m rfl rfl
      · exact no_one m rfl rfl

theorem escapeAfterWild_cut (plain : isWild c = false) (not_quote : c ≠ '\\') (after : Bool)
    (front back : List Char) :
    escapeAfterWild after (front ++ c :: back) = (escapeAfterWild after front || escapeAfterWild false back) := by
  fun_induction escapeAfterWild after front with
  | case1 after =>
    refine (escapeAfterWild_plain plain ?_ after).trans (Bool.false_or _).symm
    rw [Bool.eq_false_iff, Ne, startsEscape_cons]
    exact fun quoted => not_quote quoted.1
  | case2 _ m ih => rw [List.cons_append, escapeAfterWild, ih]
  | case3 _ m ih => rw [List.cons_append, escapeAfterWild, ih]
  | case4 after m ih => rw [List.cons_append, List.cons_append, escapeAfterWild, ih, Bool.or_assoc]
  | case5 after m ih => rw [List.cons_append, List.cons_append, escapeAfterWild, ih, Bool.or_assoc]
  | case6 after d m not_star not_one no_star no_one ih =>
    have letter : isWild d = false := not_isWild_iff.mpr ⟨fun same => not_star same, fun same => not_one same⟩
    rw [List.cons_append, escapeAfterWild_plain letter, ih]
    rw [Bool.eq_false_iff, Ne, startsEscape_cons]
    rintro ⟨rfl, wild⟩
    cases m with
    | nil => rw [List.nil_append, peek_cons, plain] at wild; cases wild
    | cons e m =>
      rw [List.cons_append, peek_cons] at wild
      rcases isWild_iff.mp wild with rfl | rfl
      · exact no_star m rfl rfl
      · exact no_one m rfl rfl

end Ircd.Match

import Ircd.Library.GlobNormal
import Ircd.Match.Collapse

/-! `collapse` keeps the language of a mask, and leaves a mask that it does not change.

Read as tokens, it moves every star behind the single letters that follow it. The part in front
of the first star with a wildcard behind it is kept, for its stars stand right already.
-/

set_option autoImplicit false

namespace Ircd.Match
open Ircd.Library.Glob Ircd.Text

def noStarRun : List Char → Bool
  | [] => true
  | '*' :: m => !isWild (peek m) && noStarRun m
  | '\\' :: c :: m => if isWild c then noStarRun m else noStarRun (c :: m)
  | _ :: m => noStarRun m

variable {m : List Char}

theorem maskTokens_quote {c : Char} (plain : isWild c = false) (first : peek m = c) :
    maskTokens ('\\' :: m) = .lit '\\' :: maskTokens m := by
  refine maskTokens_plain (by decide) (Bool.eq_false_iff.mpr fun quoted => ?_)
  have wild := (startsEscape_cons.mp quoted).2
  rw [first, plain] at wild
  cases wild

theorem maskTokens_other {c : Char} (plain : isWild c = false) (not_quote : c ≠ '\\') :
    maskTokens (c :: m) = .lit c :: maskTokens m :=
  maskTokens_plain plain (Bool.eq_false_iff.mpr fun quoted => not_quote (startsEscape_cons.mp quoted).1)

theorem peek_collapseRest {c : Char} (plain : isWild c = false) :
    peek (collapseRest false (c :: m)) = c := by
  rw [not_isWild_iff] at plain
  by_cases quote : c = '\\'
  · subst quote
    cases m with
    | nil => rfl
    | cons d m =>
      rw [collapseRest]
      split <;> rfl
  · rw [collapseRest]
    · rfl
    · exact plain.1
    · exact plain.2
    · exact fun d m is_quote => absurd is_quote quote

theorem maskTokens_held (star : Bool) (m : List Char) :
    maskTokens ((if star then ['*'] else []) ++ m) = (if star then [.star] else []) ++ maskTokens m := by
  cases star <;> rfl

theorem normalize_lit (star : Bool) (c : Char) (ts : List (Token Char)) :
    normalize star (.lit c :: ts) = (if star then [.star] else []) ++ .lit c :: normalize false ts := by
  cases star <;> rfl

theorem maskTokens_collapseRest (star : Bool) (m : List Char) :
    maskTokens (collapseRest star m) = normalize star (maskTokens m) := by
  fun_induction collapseRest star m with
  | case1 => rfl
  | case2 star no_star =>
    rw [Bool.not_eq_true] at no_star
    rw [no_star]
    rfl
  | case3 star m ih => exact ih
  | case4 star m ih => exact congrArg (.one :: ·) ih
  | case5 star c m held wild ih =>
    refine (maskTokens_held star _).trans ?_
    rw [maskTokens_escape wild, maskTokens_escape wild, normalize_lit, ih]
  | case6 star c m held plain ih =>
    rw [Bool.not_eq_true] at plain
    refine (maskTokens_held star _).trans ?_
    rw [maskTokens_quote plain (peek_collapseRest plain), maskTokens_quote plain (peek_cons c m), normalize_lit, ih]
  | case7 star c m not_star not_one not_quote ih =>
    have plain : isWild c = false := not_isWild_iff.mpr ⟨not_star, not_one⟩
    have text : (if star then ['*', c] else [c]) ++ collapseRest false m =
        (if star then ['*'] else []) ++ c :: collapseRest false m := by
      cases star <;> rfl
    rw [text, maskTokens_held]
    by_cases quote : c = '\\'
    · cases m with
      | nil =>
        subst quote
        exact (normalize_lit star '\\' []).symm
      | cons d m => exact (not_quote d m quote rfl).elim
    · rw [maskTokens_other plain quote, maskTokens_other plain quote, normalize_lit, ih]

theorem exists_lit {c : Char} (plain : isWild c = false) :
    ∃ d ts, maskTokens (c :: m) = .lit d :: ts := by
  by_cases starts : startsEscape (c :: m) = true
  · obtain ⟨d, rest, same, wild⟩ := exists_of_startsEscape starts
    rw [same]
    exact ⟨d, _, maskTokens_escape wild⟩
  · exact ⟨c, _, maskTokens_plain plain (Bool.eq_false_iff.mpr starts)⟩

theorem peek_collapse {c : Char} (plain : isWild c = false) : peek (collapse (c :: m)) = c := by
  rw [not_isWild_iff] at plain
  by_cases quote : c = '\\'
  · subst quote
    cases m with
    | nil => rfl
    | cons d m =>
      rw [collapse]
      split <;> rfl
  · rw [collapse]
    · rfl
    · exact fun d m is_star => absurd is_star plain.1
    · exact fun d m is_quote => absurd is_quote quote

theorem maskTokens_collapse (m : List Char) : maskTokens (collapse m) = normalize false (maskTokens m) := by
  fun_induction collapse m with
  | case1 => rfl
  | case2 c m wild => exact maskTokens_collapseRest false ('*' :: c :: m)
  | case3 c m plain ih =>
    rw [Bool.not_eq_true] at plain
    obtain ⟨d, ts, first⟩ := exists_lit (m := m) plain
    rw [maskTokens, maskTokens, ih, first]
    rfl
  | case4 c m wild ih => rw [maskTokens_escape wild, maskTokens_escape wild, ih]; rfl
  | case5 c m plain ih =>
    rw [Bool.not_eq_true] at plain
    rw [maskTokens_quote plain (peek_collapse plain), maskTokens_quote plain (peek_cons c m), ih]
    rfl
  | case6 c m not_star not_quote ih =>
    cases m with
    | nil =>
      by_cases star : c = '*'
      · rw [star]
        rfl
      · by_cases one : c = '?'
        · rw [one]
          rfl
        · have plain : isWild c = false := not_isWild_iff.mpr ⟨star, one⟩
          have last : maskTokens [c] = [.lit c] := maskTokens_plain plain (Bool.eq_false_iff.mpr fun quoted =>
            Bool.false_ne_true (isWild_nul.symm.trans (startsEscape_cons.mp quoted).2))
          rw [collapse, last]
          rfl
    | cons d m =>
      by_cases one : c = '?'
      · rw [one, maskTokens, maskTokens, ih]
        rfl
      · have plain : isWild c = false := not_isWild_iff.mpr ⟨fun star => not_star d m star rfl, one⟩
        have quote : c ≠ '\\' := fun is_quote => not_quote d m is_quote rfl
        rw [maskTokens_other plain quote, maskTokens_other plain quote, ih]
        rfl

theorem noStarRun_iff (m : List Char) : noStarRun m = starsLast (maskTokens m) := by
  fun_induction noStarRun m with
  | case1 => rfl
  | case2 m ih =>
    rw [maskTokens]
    cases m with
    | nil => rfl
    | cons c m =>
      by_cases wild : isWild c = true
      · rcases isWild_iff.mp wild with rfl | rfl <;> rfl
      · rw [Bool.not_eq_true] at wild
        obtain ⟨d, ts, first⟩ := exists_lit (m := m) wild
        rw [peek_cons, wild, ih, first]
        rfl
  | case3 c m wild ih => rw [maskTokens_escape wild, ih]; rfl
  | case4 c m plain ih =>
    rw [Bool.not_eq_true] at plain
    rw [maskTokens_quote plain (peek_cons c m), ih]
    rfl
  | case5 c m not_star not_quote ih =>
    by_cases one : c = '?'
    · rw [one, maskTokens, ih]
      rfl
    · have plain : isWild c = false := not_isWild_iff.mpr ⟨not_star, one⟩
      by_cases quote : c = '\\'
      · cases m with
        | nil =>
          subst quote
          rfl
        | cons d m => exact (not_quote d m quote rfl).elim
      · rw [maskTokens_other plain quote, ih]
        rfl

theorem collapse_of_noStarRun (alone : noStarRun m = true) : collapse m = m := by
  fun_induction collapse m with
  | case1 => rfl
  | case2 c m wild => simp [noStarRun, wild] at alone
  | case3 c m plain ih =>
    rw [noStarRun, Bool.and_eq_true] at alone
    rw [ih alone.2]
  | case4 c m wild ih =>
    rw [noStarRun, if_pos wild] at alone
    rw [ih alone]
  | case5 c m plain ih =>
    rw [noStarRun, if_neg plain] at alone
    rw [ih alone]
  | case6 c m not_star not_quote ih =>
    cases m with
    | nil => rfl
    | cons d m =>
      rw [noStarRun] at alone
      · rw [ih alone]
      · exact fun star => not_star d m star rfl
      · exact fun e rest quote _ => not_quote d m quote rfl

theorem collapseRest_ne_nil {star : Bool} (held : star = true ∨ m ≠ []) :
    collapseRest star m ≠ [] := by
  induction star, m using collapseRest.induct with
  | case1 => simp [collapseRest]
  | case2 star no_star => simp [no_star] at held
  | case3 star m ih =>
    rw [collapseRest]
    exact ih (.inl rfl)
  | case4 star m ih => exact List.cons_ne_nil _ _
  | case5 star c m wild ih => cases star <;> simp [collapseRest, wild]
  | case6 star c m plain ih => cases star <;> simp [collapseRest, plain]
  | case7 star c m not_star not_query not_escape ih =>
    rw [collapseRest]
    · cases star <;> simp
    all_goals assumption

theorem collapse_ne_nil (some_m : m ≠ []) : collapse m ≠ [] := by
  fun_cases collapse m with
  | case1 => exact absurd rfl some_m
  | case2 => exact collapseRest_ne_nil (.inr (List.cons_ne_nil _ _))
  | _ => exact List.cons_ne_nil _ _

theorem length_collapseRest (star : Bool) (m : List Char) :
    (collapseRest star m).length ≤ m.length + (if star then 1 else 0) := by
  have length_held (star : Bool) : (if star then ['*'] else []).length = if star then 1 else 0 := by
    cases star <;> rfl
  fun_induction collapseRest star m with
  | case1 => exact Nat.le_refl _
  | case2 star no_star => exact Nat.zero_le _
  | case3 star m ih =>
    rw [List.length_cons]
    exact Nat.le_add_right_of_le ih
  | case4 star m ih =>
    rw [List.length_cons, List.length_cons]
    omega
  | case5 star c m held wild ih =>
    have length : held.length = _ := length_held star
    simp only [List.length_append, List.length_cons, Bool.false_eq_true, if_false] at ih ⊢
    omega
  | case6 star c m held plain ih =>
    have length : held.length = _ := length_held star
    simp only [List.length_append, List.length_cons, Bool.false_eq_true, if_false] at ih ⊢
    omega
  | case7 star c m not_star not_one not_quote ih =>
    rw [if_neg Bool.false_ne_true] at ih
    cases star with
    | false => exact Nat.succ_le_succ ih
    | true => exact Nat.succ_le_succ (Nat.succ_le_succ ih)

theorem length_collapse (m : List Char) : (collapse m).length ≤ m.length := by
  fun_induction collapse m with
  | case1 => exact Nat.le_refl _
  | case2 c m wild => exact length_collapseRest false ('*' :: c :: m)
  | case3 c m plain ih => exact Nat.succ_le_succ ih
  | case4 c m wild ih => exact Nat.succ_le_succ (Nat.succ_le_succ ih)
  | case5 c m plain ih => exact Nat.succ_le_succ ih
  | case6 c m not_star not_quote ih => exact Nat.succ_le_succ ih

/-- `collapse` keeps the language, does not make a mask longer, leaves no star in front of a wildcard,
and changes nothing when it is done again. -/
theorem collapse_minimizes (mask : CString) :
    (∀ name, InGlob (collapse mask.chars) name ↔ InGlob mask.chars name) ∧
      (collapse mask.chars).length ≤ mask.chars.length ∧ noStarRun (collapse mask.chars) = true ∧
      collapse (collapse mask.chars) = collapse mask.chars := by
  have alone : noStarRun (collapse mask.chars) = true := by
    rw [noStarRun_iff, maskTokens_collapse]
    exact starsLast_normalize false _
  refine ⟨fun name => ?_, length_collapse mask.chars, alone, collapse_of_noStarRun alone⟩
  rw [InGlob, maskTokens_collapse, matches_normalize]
  rfl

end Ircd.Match

import Ircd.Match.PlainLanguage

/-! A mask with an escaped wildcard right after a wildcard is not decided.

The shortest name of its language leaves the matcher nothing to spare: read literally,
the backslash costs a character, and from then on the name is too short for the mask.
-/

set_option autoImplicit false

namespace Ircd.Match
open Ircd.Library.Glob Ircd.Text

def need (m : List Char) : Nat := minLength (maskTokens m)

def Owed (mask mTmp nTmp : List Char) : Prop :=
  mTmp = mask ∨ nul ∉ mTmp ∧ nTmp.length ≤ need mTmp

structure Starved (mask : List Char) (c : Cursor) : Prop where
  clean : nul ∉ c.m
  short : c.n.length < need c.m
  owed : Owed mask c.mTmp c.nTmp

def Lost (mask : List Char) : Nat ⊕ Cursor → Prop
  | .inl r => r ≠ 0
  | .inr d => Starved mask d

theorem need_escape {e : Char} {m : List Char} (wild : isWild e = true) :
    need ('\\' :: e :: m) = need m + 1 := by
  rw [need, maskTokens_escape wild, minLength, need]

theorem need_plain {c : Char} {m : List Char} (plain : isWild c = false)
    (noEscape : startsEscape (c :: m) = false) : need (c :: m) = need m + 1 := by
  rw [need, maskTokens_plain plain noEscape, minLength, need]

theorem need_star (m : List Char) : need ('*' :: m) = need m := by rw [need, maskTokens, minLength, need]

theorem need_one (m : List Char) : need ('?' :: m) = need m + 1 := by rw [need, maskTokens, minLength, need]

theorem need_le_tail (m : List Char) : need m ≤ need m.tail + 1 := by
  match m with
  | [] => simp [need, maskTokens, minLength]
  | c :: m =>
    rw [List.tail_cons]
    by_cases wild : isWild c = true
    · rcases isWild_iff.mp wild with rfl | rfl
      · rw [need_star]; omega
      · rw [need_one]
    · by_cases starts : startsEscape (c :: m) = true
      · obtain ⟨e, rest, same, escaped⟩ := exists_of_startsEscape starts
        cases same
        rw [need_escape escaped]
        rcases isWild_iff.mp escaped with rfl | rfl
        · rw [need_star]
        · rw [need_one]; omega
      · rw [need_plain (by simpa using wild) (by simpa using starts)]

theorem peek_ne_of_need {m : List Char} (clean : nul ∉ m) (some_need : 0 < need m) : peek m ≠ nul := by
  intro ended
  rw [(peek_eq_nul clean).mp ended] at some_need
  simp [need, maskTokens, minLength] at some_need

variable {mask : List Char}

theorem backtrack_lost {mTmp nTmp : List Char} (owed : Owed mask mTmp nTmp) :
    Lost mask (backtrack mask mTmp nTmp) := by
  unfold backtrack
  by_cases first : mTmp = mask
  · rw [if_pos first]
    exact Nat.one_ne_zero
  · rw [if_neg first]
    obtain ⟨clean, room⟩ := owed.resolve_left first
    by_cases ended : peek nTmp.tail = nul
    · rw [if_pos ended]
      exact Nat.one_ne_zero
    · rw [if_neg ended]
      have shorter := length_tail_lt ended
      have tail := List.length_tail (l := nTmp)
      have less : nTmp.tail.length < need mTmp := by omega
      exact ⟨clean, less, .inr ⟨clean, le_of_lt less⟩⟩

theorem normalCharacter_lost {m n mTmp nTmp : List Char} (some_m : peek m ≠ nul) (clean : nul ∉ m)
    (short : n.length ≤ need m.tail) (owed : Owed mask mTmp nTmp) :
    Lost mask (normalCharacter mask ⟨m, n, mTmp, nTmp⟩) := by
  unfold normalCharacter
  by_cases ended : peek n = nul
  · rw [if_pos ended, if_pos some_m]
    exact Nat.one_ne_zero
  · rw [if_neg ended]
    by_cases fold : toLower (peek m) = toLower (peek n)
    · rw [if_neg (not_not_intro fold)]
      have shorter := length_tail_lt ended
      exact ⟨fun mem => clean (List.mem_of_mem_tail mem), by simp only; omega, owed⟩
    · rw [if_pos fold]
      exact backtrack_lost owed

theorem wildRun_need {starP starP' : Bool} {m n m' n' : List Char}
    (h : wildRun starP m n = some (starP', m', n')) : need m + n'.length = need m' + n.length := by
  induction starP, m, n using wildRun.induct with
  | case1 _ m n ih =>
    rw [wildRun] at h
    rw [need_star]
    exact ih h
  | case2 starP m n ended => simp [wildRun, ended] at h
  | case3 starP m n more ih =>
    rw [wildRun, if_neg more] at h
    obtain ⟨d, n, rfl⟩ := exists_cons_of_peek more
    have run := ih h
    rw [need_one, List.length_cons]
    rw [List.tail_cons] at run
    omega
  | case4 starP m n notStar notOne =>
    rw [wildRun] at h
    · cases h; rfl
    · exact notStar
    · exact notOne

theorem wildCharacter_lost {c : Cursor} (starved : Starved mask c) :
    Lost mask (wildCharacter mask c) := by
  have short := starved.short
  unfold wildCharacter
  split
  · exact backtrack_lost starved.owed
  · rename_i m n run
    have clean : nul ∉ m := fun mem => starved.clean ((wildRun_spec run).1.subset mem)
    have balance := wildRun_need run
    have tail := need_le_tail m
    exact normalCharacter_lost (peek_ne_of_need clean (by omega)) clean (by omega) starved.owed
  · rename_i m n run
    have clean : nul ∉ m := fun mem => starved.clean ((wildRun_spec run).1.subset mem)
    have balance := wildRun_need run
    have tail := need_le_tail m
    have some_m := peek_ne_of_need clean (by omega)
    rw [if_neg some_m]
    have scan := (List.dropWhile_suffix (l := n)
      fun d => decide (d ≠ nul ∧ toLower d ≠ toLower (peek m))).length_le
    exact normalCharacter_lost some_m clean (by omega) (.inr ⟨clean, by omega⟩)

theorem matchStep_lost {c : Cursor} (starved : Starved mask c) :
    Lost mask (matchStep mask c) := by
  have short := starved.short
  have some_m := peek_ne_of_need starved.clean (Nat.zero_lt_of_lt short)
  have tail := need_le_tail c.m
  unfold matchStep
  rw [if_neg some_m]
  by_cases slash : peek c.m = '\\'
  · rw [if_pos slash]
    by_cases escaped : isWild (peek c.m.tail) = true
    · obtain ⟨x, m, shape⟩ := exists_cons_of_peek some_m
      rw [shape, peek_cons] at slash
      rw [shape, List.tail_cons] at escaped
      obtain ⟨e, rest, starts, wild⟩ := exists_of_startsEscape (startsEscape_cons.mpr ⟨slash, escaped⟩)
      rw [starts] at shape
      have clean := starved.clean
      rw [shape] at clean short
      rw [need_escape wild] at short
      rw [shape, List.tail_cons, if_pos (by rwa [peek_cons])]
      have clean_e : nul ∉ e :: rest := fun mem => clean (List.mem_cons_of_mem _ mem)
      have some_e : peek (e :: rest) ≠ nul := by
        rw [peek_cons]
        exact fun eq => clean_e (eq ▸ List.mem_cons_self)
      exact normalCharacter_lost some_e clean_e (by rw [List.tail_cons]; omega) starved.owed
    · rw [if_neg escaped]
      exact normalCharacter_lost some_m starved.clean (by omega) starved.owed
  · rw [if_neg slash]
    by_cases wild : isWild (peek c.m) = true
    · rw [if_pos wild]
      exact wildCharacter_lost starved
    · rw [if_neg wild]
      exact normalCharacter_lost some_m starved.clean (by omega) starved.owed

theorem matchLoop_lost {c : Cursor} (starved : Starved mask c) :
    matchLoop mask c ≠ 0 := by
  induction c using matchLoop.induct mask with
  | case1 c r done =>
    have lost := matchStep_lost starved
    rw [done] at lost
    rwa [matchLoop_done done]
  | case2 c d next ih =>
    have lost := matchStep_lost starved
    rw [next] at lost
    rw [matchLoop_next next]
    exact ih lost

def filler : Char := 'x'

structure Tight (mask : List Char) (c : Cursor) : Prop where
  clean : nul ∉ c.m
  exact_n : c.n = shortest filler (maskTokens c.m)
  ahead : escapeAfterWild false c.m = true
  owed : Owed mask c.mTmp c.nTmp

def Doomed (mask : List Char) : Nat ⊕ Cursor → Prop
  | .inl r => r ≠ 0
  | .inr d => Tight mask d ∨ Starved mask d

theorem Lost.doomed {outcome : Nat ⊕ Cursor} (lost : Lost mask outcome) :
    Doomed mask outcome := by
  cases outcome with
  | inl r => exact lost
  | inr d => exact .inr lost

theorem normalCharacter_doomed {m mTmp nTmp : List Char} {x : Char} (clean : nul ∉ x :: m)
    (ahead : escapeAfterWild false m = true) (owed : Owed mask mTmp nTmp) :
    Doomed mask (normalCharacter mask ⟨x :: m, x :: shortest filler (maskTokens m), mTmp, nTmp⟩) := by
  have some_x : x ≠ nul := fun eq => clean (eq ▸ List.mem_cons_self)
  unfold normalCharacter
  simp only [peek_cons, some_x, if_false, ne_eq, not_true_eq_false, List.tail_cons]
  exact .inl ⟨fun mem => clean (List.mem_cons_of_mem x mem), rfl, ahead, owed⟩

theorem wildRun_shortest (starP : Bool) (m : List Char) :
    ∃ starP' m', wildRun starP m (shortest filler (maskTokens m)) =
      some (starP', m', shortest filler (maskTokens m')) := by
  generalize same : shortest filler (maskTokens m) = n
  induction starP, m, n using wildRun.induct with
  | case1 _ m n ih =>
    rw [wildRun]
    exact ih same
  | case2 starP m n ended =>
    rw [← same, maskTokens, shortest, peek_cons] at ended
    exact absurd ended (by decide)
  | case3 starP m n more ih =>
    rw [wildRun, if_neg more]
    apply ih
    rw [← same, maskTokens, shortest, List.tail_cons]
  | case4 starP m n notStar notOne =>
    refine ⟨starP, m, ?_⟩
    rw [wildRun, same]
    · exact notStar
    · exact notOne

theorem fold_escape {e : Char} (wild : isWild e = true) : toLower '\\' ≠ toLower e := by
  rcases isWild_iff.mp wild with rfl | rfl <;> decide

theorem wildCharacter_doomed {c : Cursor} (tight : Tight mask c) (wild : isWild (peek c.m) = true) :
    Doomed mask (wildCharacter mask c) := by
  obtain ⟨starP, m, run⟩ := wildRun_shortest false c.m
  have clean : nul ∉ m := fun mem => tight.clean ((wildRun_spec run).1.subset mem)
  have plain := (wildRun_spec run).2.2
  have ahead := (wildRun_escapes wild run false).symm.trans tight.ahead
  unfold wildCharacter
  rw [tight.exact_n, run]
  -- Both the scan and the fall-through look at the first character of what follows the run.
  cases m with
  | nil => simp [escapeAfterWild] at ahead
  | cons x m =>
    have some_x : x ≠ nul := fun eq => clean (eq ▸ List.mem_cons_self)
    rw [peek_cons] at plain
    have length : (shortest filler (maskTokens (x :: m))).length = need (x :: m) := length_shortest filler
    by_cases starts : startsEscape (x :: m) = true
    · obtain ⟨e, rest, shape, escaped⟩ := exists_of_startsEscape starts
      cases shape
      have differ := fold_escape escaped
      rw [maskTokens_escape escaped, shortest] at length ⊢
      have some_e : e ≠ nul := fun eq => clean (eq ▸ List.mem_cons_of_mem _ List.mem_cons_self)
      cases starP with
      | false =>
        simp only [normalCharacter, peek_cons, some_e, if_false, differ, ne_eq, not_false_eq_true, if_true]
        exact (backtrack_lost tight.owed).doomed
      | true =>
        simp only [peek_cons, some_x, if_false]
        rw [List.dropWhile_cons_of_pos (by simp [some_e, Ne.symm differ])]
        have scan := (List.dropWhile_suffix (l := shortest filler (maskTokens rest))
          fun d => decide (d ≠ nul ∧ toLower d ≠ toLower '\\')).length_le
        have tail := need_le_tail ('\\' :: e :: rest)
        rw [List.length_cons] at length
        apply Lost.doomed
        refine normalCharacter_lost ?_ clean (by omega) (.inr ⟨clean, ?_⟩)
        · rwa [peek_cons]
        · rw [List.length_cons]
          omega
    · have noEscape : startsEscape (x :: m) = false := by simpa using starts
      rw [escapeAfterWild_plain plain noEscape] at ahead
      rw [maskTokens_plain plain noEscape, shortest] at length ⊢
      cases starP with
      | false => exact normalCharacter_doomed clean ahead tight.owed
      | true =>
        simp only [peek_cons, some_x, if_false]
        rw [List.dropWhile_cons_of_neg (by simp)]
        exact normalCharacter_doomed clean ahead (.inr ⟨clean, le_of_eq length⟩)

theorem matchStep_doomed {c : Cursor} (tight : Tight mask c) :
    Doomed mask (matchStep mask c) := by
  obtain ⟨m, n, mTmp, nTmp⟩ := c
  obtain ⟨clean, exact_n, ahead, owed⟩ := tight
  simp only at clean exact_n ahead owed
  cases m with
  | nil => simp [escapeAfterWild] at ahead
  | cons x m =>
    have some_x : x ≠ nul := fun eq => clean (eq ▸ List.mem_cons_self)
    by_cases wild : isWild x = true
    · have step : matchStep mask ⟨x :: m, n, mTmp, nTmp⟩ = wildCharacter mask ⟨x :: m, n, mTmp, nTmp⟩ := by
        have slash : x ≠ '\\' := by rintro rfl; simp [isWild] at wild
        simp [matchStep, some_x, slash, wild]
      rw [step]
      exact wildCharacter_doomed ⟨clean, exact_n, ahead, owed⟩ (by rwa [peek_cons])
    · have plain : isWild x = false := by simpa using wild
      by_cases starts : startsEscape (x :: m) = true
      · obtain ⟨e, rest, shape, escaped⟩ := exists_of_startsEscape starts
        cases shape
        rw [maskTokens_escape escaped, shortest] at exact_n
        rw [escapeAfterWild_escape escaped, Bool.false_or] at ahead
        have step : matchStep mask ⟨'\\' :: e :: rest, n, mTmp, nTmp⟩ =
            normalCharacter mask ⟨e :: rest, n, mTmp, nTmp⟩ := by
          simp [matchStep, some_x, escaped]
        rw [step, exact_n]
        exact normalCharacter_doomed (fun mem => clean (List.mem_cons_of_mem _ mem)) ahead owed
      · have noEscape : startsEscape (x :: m) = false := by simpa using starts
        rw [maskTokens_plain plain noEscape, shortest] at exact_n
        rw [escapeAfterWild_plain plain noEscape] at ahead
        have step : matchStep mask ⟨x :: m, n, mTmp, nTmp⟩ = normalCharacter mask ⟨x :: m, n, mTmp, nTmp⟩ := by
          by_cases slash : x = '\\'
          · subst slash
            have bare : isWild (peek m) = false := by
              by_contra escaped
              exact starts (startsEscape_cons.mpr ⟨rfl, by simpa using escaped⟩)
            simp [matchStep, some_x, bare]
          · simp [matchStep, some_x, slash, wild]
        rw [step, exact_n]
        exact normalCharacter_doomed clean ahead owed

theorem matchLoop_doomed {c : Cursor} (tight : Tight mask c) :
    matchLoop mask c ≠ 0 := by
  induction c using matchLoop.induct mask with
  | case1 c r done =>
    have doomed := matchStep_doomed tight
    rw [done] at doomed
    rwa [matchLoop_done done]
  | case2 c d next ih =>
    have doomed := matchStep_doomed tight
    rw [next] at doomed
    rw [matchLoop_next next]
    rcases doomed with tight | starved
    · exact ih tight
    · exact matchLoop_lost starved

theorem ircMatch_shortest (clean : nul ∉ mask) (ahead : escapeAfterWild false mask = true) :
    ircMatch mask (shortest filler (maskTokens mask)) ≠ 0 :=
  matchLoop_doomed ⟨clean, rfl, ahead, .inl rfl⟩

def shortestName (mask : CString) : CString where
  chars := shortest filler (maskTokens mask.chars)
  nul_free := by
    intro mem
    rcases mem_shortest mem with same | lit
    · exact absurd same (by decide)
    · exact mask.nul_free (mem_maskTokens lit)
  byte := by
    intro c mem
    rcases mem_shortest mem with rfl | lit
    · decide
    · exact mask.byte c (mem_maskTokens lit)

/-- `match` decides the language of a mask if and only if no escaped wildcard stands
right after an unescaped one. -/
theorem match_decides_iff (mask : CString) :
    (∀ name : CString, ircMatch mask.chars name.chars = 0 ↔ InGlob mask.chars name.chars) ↔
      escapeAfterWild false mask.chars = false := by
  constructor
  · intro decides
    by_contra ahead
    have found := (decides (shortestName mask)).mpr (matches_shortest filler)
    exact ircMatch_shortest mask.nul_free (by simpa using ahead) found
  · intro calm name
    exact ircMatch_decides mask.nul_free name.nul_free calm

/-- The mask `*\*` and the name `a*`. -/
theorem match_rejects_escaped_star :
    ircMatch ['*', '\\', '*'] ['a', '*'] = 1 ∧ InGlob ['*', '\\', '*'] ['a', '*'] := by
  refine ⟨?_, .more (.skip (.lit rfl .nil))⟩
  have first : matchStep ['*', '\\', '*'] ⟨['*', '\\', '*'], ['a', '*'], ['*', '\\', '*'], ['a', '*']⟩ =
      .inl 1 := by rfl
  exact matchLoop_done first

end Ircd.Match

import Ircd.Match.Plain

/-! Which masks `match` decides.

The scan after a star and the fall-through after a `?` compare the next mask character
as it stands, so `\*` or `\?` right after a wildcard is read as a backslash there. The
matcher decides the language of a mask exactly when the mask has no such place.
-/

set_option autoImplicit false

namespace Ircd.Match
open Ircd.Library.Glob Ircd.Text

/-- What stands behind an attempt once a star was seen: the attempt matched `seg` from an
offset of `nTmp` before which `mTmp` matches nowhere. -/
structure Back (ts : List (Token Char)) (n mTmp nTmp : List Char) : Prop where
  clean : nul ∉ mTmp
  lead : ∃ c rest, mTmp = c :: rest ∧ isWild c = false
  calm : escapeAfterWild true mTmp = false
  reached : ∃ (seg : Segment Char) (d : Nat), maskTokens mTmp = seg.tokens ++ ts ∧
    n = nTmp.drop (d + seg.length) ∧ ∀ k < d, ¬ Matches toLower (maskTokens mTmp) (nTmp.drop k)

structure Attempt (mask : List Char) (ts : List (Token Char)) (n mTmp nTmp : List Char) : Prop where
  clean_n : nul ∉ n
  clean_nTmp : nul ∉ nTmp
  back : mTmp = mask ∨ Back ts n mTmp nTmp

/-- What the loop still decides: the attempt succeeds, or a later start of `mTmp` does. -/
def Value (mask : List Char) (ts : List (Token Char)) (n mTmp nTmp : List Char) : Prop :=
  Matches toLower ts n ∨
    mTmp ≠ mask ∧ ∃ k, Matches toLower (maskTokens mTmp) (nTmp.drop (k + 1))

structure Invariant (mask : List Char) (c : Cursor) : Prop where
  clean_m : nul ∉ c.m
  calm : escapeAfterWild false c.m = false
  attempt : Attempt mask (maskTokens c.m) c.n c.mTmp c.nTmp

def Decides (mask : List Char) (value : Prop) : Nat ⊕ Cursor → Prop
  | .inl r => r = 0 ↔ value
  | .inr d => Invariant mask d ∧ (Value mask (maskTokens d.m) d.n d.mTmp d.nTmp ↔ value)

theorem maskTokens_lead {c : Char} {rest : List Char} (plain : isWild c = false)
    (calm : escapeAfterWild true (c :: rest) = false) :
    maskTokens (c :: rest) = .lit c :: maskTokens rest :=
  maskTokens_plain plain (startsEscape_of_escapeAfterWild calm)

variable {ts : List (Token Char)} {n mTmp nTmp : List Char}

theorem Back.not_matches_nil (back : Back ts n mTmp nTmp) : ¬ Matches toLower (maskTokens mTmp) [] := by
  obtain ⟨c, rest, rfl, plain⟩ := back.lead
  rw [maskTokens_lead plain back.calm]
  exact matches_lit_nil

theorem Back.later (back : Back ts n mTmp nTmp) {k : Nat} (h : Matches toLower (maskTokens mTmp) (nTmp.drop k)) :
    ∃ j, Matches toLower ts (n.drop j) := by
  obtain ⟨seg, d, tokens, rfl, early⟩ := back.reached
  have late : d ≤ k := Nat.le_of_not_lt fun lt => early k lt h
  rw [tokens, matches_segment, List.drop_drop] at h
  refine ⟨k - d, ?_⟩
  rw [List.drop_drop]
  have split : d + seg.length + (k - d) = k + seg.length := by omega
  rw [split]
  exact h.2

theorem Back.extend {t : Token Char} {o : Option Char} {d : Char} (back : Back (t :: ts) (d :: n) mTmp nTmp)
    (token : Segment.token o = t) :
    Back ts n mTmp nTmp := by
  obtain ⟨seg, e, tokens, rest, early⟩ := back.reached
  refine ⟨back.clean, back.lead, back.calm, seg ++ [o], e, ?_, ?_, early⟩
  · rw [tokens]
    simp [Segment.tokens, token]
  · have tail := congrArg List.tail rest
    rw [List.tail_cons, List.tail_drop] at tail
    rw [tail, List.length_append, List.length_singleton, Nat.add_assoc]

variable {mask : List Char}

theorem Attempt.extend {t : Token Char} {o : Option Char} {d : Char}
    (attempt : Attempt mask (t :: ts) (d :: n) mTmp nTmp) (token : Segment.token o = t) :
    Attempt mask ts n mTmp nTmp :=
  ⟨fun mem => attempt.clean_n (List.mem_cons_of_mem d mem), attempt.clean_nTmp,
    attempt.back.imp_right fun back => back.extend token⟩

theorem backtrack_decides (attempt : Attempt mask ts n mTmp nTmp) (failed : ¬ Matches toLower ts n) :
    Decides mask (Value mask ts n mTmp nTmp) (backtrack mask mTmp nTmp) := by
  unfold backtrack
  split
  · rename_i same
    simp [Decides, Value, failed, same]
  · rename_i later
    have back := attempt.back.resolve_left later
    have clean : nul ∉ nTmp.tail := fun mem => attempt.clean_nTmp (List.mem_of_mem_tail mem)
    split
    · rename_i ended
      have empty := (peek_eq_nul clean).mp ended
      have drops : ∀ k, nTmp.drop (k + 1) = [] := by
        intro k
        rw [← List.drop_tail, empty, List.drop_nil]
      simp [Decides, Value, failed, drops, back.not_matches_nil]
    · refine ⟨⟨back.clean, escapeAfterWild_mono back.calm false, clean, clean, .inr ?_⟩, ?_⟩
      · exact ⟨back.clean, back.lead, back.calm, [], 0, rfl, rfl, fun k lt => absurd lt (Nat.not_lt_zero k)⟩
      · simp only [Value, failed, false_or, later, ne_eq, not_false_eq_true, true_and, List.drop_tail]
        constructor
        · rintro (h | ⟨k, h⟩)
          · exact ⟨0, by simpa using h⟩
          · exact ⟨k + 1, h⟩
        · rintro ⟨k, h⟩
          cases k with
          | zero => exact .inl (by simpa using h)
          | succ k => exact .inr ⟨k, h⟩

theorem normalCharacter_decides {c : Cursor} {x : Char} (head : peek c.m = x) (some_x : x ≠ nul)
    (clean : nul ∉ c.m) (calm : escapeAfterWild false c.m.tail = false)
    (attempt : Attempt mask (.lit x :: maskTokens c.m.tail) c.n c.mTmp c.nTmp) :
    Decides mask (Value mask (.lit x :: maskTokens c.m.tail) c.n c.mTmp c.nTmp)
      (normalCharacter mask c) := by
  obtain ⟨m, n, mTmp, nTmp⟩ := c
  simp only at head clean calm attempt ⊢
  unfold normalCharacter
  simp only [head]
  cases n with
  | nil =>
    -- With the name at its end no later start can reach this literal either.
    have failed : ¬ Value mask (.lit x :: maskTokens m.tail) [] mTmp nTmp := by
      rintro (h | ⟨later, k, h⟩)
      · exact matches_lit_nil h
      · obtain ⟨j, h⟩ := (attempt.back.resolve_left later).later h
        rw [List.drop_nil] at h
        exact matches_lit_nil h
    simp [Decides, some_x, failed]
  | cons d n =>
    have some_d : d ≠ nul := fun same => attempt.clean_n (same ▸ List.mem_cons_self)
    simp only [peek_cons, some_d, if_false]
    by_cases fold : toLower x = toLower d
    · rw [if_neg (not_not_intro fold)]
      have next : Attempt mask (maskTokens m.tail) n mTmp nTmp :=
        attempt.extend (o := some x) rfl
      refine ⟨⟨fun mem => clean (List.mem_of_mem_tail mem), calm, next⟩, ?_⟩
      simp [Value, fold]
    · rw [if_pos fold]
      apply backtrack_decides attempt
      simp [fold]

theorem normalCharacter_decides_end (attempt : Attempt mask [] n mTmp nTmp) :
    Decides mask (Value mask [] n mTmp nTmp) (normalCharacter mask ⟨[], n, mTmp, nTmp⟩) := by
  unfold normalCharacter
  cases n with
  | nil => simp [Decides, Value]
  | cons d n =>
    have some_d : d ≠ nul := fun same => attempt.clean_n (same ▸ List.mem_cons_self)
    have different : toLower nul ≠ toLower d := by
      rw [toLower_nul]
      exact fun same => some_d (toLower_eq_nul.mp same.symm)
    simp only [peek_nil, peek_cons, some_d, if_false, different, ne_eq, not_false_eq_true, if_true]
    exact backtrack_decides attempt (by simp)

theorem wildRun_fail {starP : Bool} {m : List Char} (clean : nul ∉ n) (h : wildRun starP m n = none) :
    ¬ Matches toLower (.star :: maskTokens m) n := by
  induction starP, m, n using wildRun.induct with
  | case1 _ m n ih =>
    rw [wildRun] at h
    simpa [maskTokens] using ih clean h
  | case2 starP m n ended =>
    rw [(peek_eq_nul clean).mp ended, maskTokens, matches_star_one]
    exact matches_one_nil
  | case3 starP m n more ih =>
    rw [wildRun, if_neg more] at h
    obtain ⟨d, n, rfl⟩ := exists_cons_of_peek more
    rw [maskTokens, matches_star_one, matches_one]
    exact ih (fun mem => clean (List.mem_cons_of_mem d mem)) h
  | case4 starP m n notStar notOne =>
    rw [wildRun] at h
    · cases h
    · exact notStar
    · exact notOne

theorem wildRun_raise {starP starP' : Bool} {m m' n' : List Char} (h : wildRun starP m n = some (starP', m', n')) :
    wildRun true m n = some (true, m', n') := by
  induction starP, m, n using wildRun.induct with
  | case1 _ m n ih => rw [wildRun] at h ⊢; exact ih h
  | case2 starP m n ended => simp [wildRun, ended] at h
  | case3 starP m n more ih => rw [wildRun, if_neg more] at h ⊢; exact ih h
  | case4 starP m n notStar notOne =>
    rw [wildRun] at h ⊢
    · cases h; rfl
    all_goals assumption

def withStar (starP : Bool) (ts : List (Token Char)) : List (Token Char) :=
  if starP then .star :: ts else ts

theorem wildRun_matches {starP starP' : Bool} {m m' n' : List Char}
    (h : wildRun starP m n = some (starP', m', n')) :
    Matches toLower (withStar starP (maskTokens m)) n ↔
      Matches toLower (withStar starP' (maskTokens m')) n' := by
  induction starP, m, n using wildRun.induct with
  | case1 starP m n ih =>
    rw [wildRun] at h
    rw [← ih h]
    cases starP <;> simp [withStar, maskTokens]
  | case2 starP m n ended => simp [wildRun, ended] at h
  | case3 starP m n more ih =>
    rw [wildRun, if_neg more] at h
    rw [← ih h]
    obtain ⟨d, n, rfl⟩ := exists_cons_of_peek more
    cases starP <;> simp [withStar, maskTokens, matches_star_one]
  | case4 starP m n notStar notOne =>
    rw [wildRun] at h
    · cases h; rfl
    all_goals assumption

theorem wildRun_false {starP : Bool} {m m' n' : List Char} (h : wildRun starP m n = some (false, m', n'))
    (attempt : Attempt mask (maskTokens m) n mTmp nTmp) :
    Attempt mask (maskTokens m') n' mTmp nTmp ∧
      (Matches toLower (maskTokens m) n ↔ Matches toLower (maskTokens m') n') := by
  induction starP, m, n using wildRun.induct with
  | case1 _ m n ih =>
    -- A star sets the flag for good.
    rw [wildRun] at h
    have raised := h.symm.trans (wildRun_raise h)
    simp at raised
  | case2 starP m n ended => simp [wildRun, ended] at h
  | case3 starP m n more ih =>
    rw [wildRun, if_neg more] at h
    obtain ⟨d, n, rfl⟩ := exists_cons_of_peek more
    rw [maskTokens] at attempt
    have run := ih h (attempt.extend (o := none) rfl)
    rwa [maskTokens, matches_one]
  | case4 starP m n notStar notOne =>
    rw [wildRun] at h
    · cases h; exact ⟨attempt, Iff.rfl⟩
    · exact notStar
    · exact notOne

theorem wildRun_escapes {starP starP' : Bool} {m m' n' : List Char} (wild : isWild (peek m) = true)
    (h : wildRun starP m n = some (starP', m', n')) (after : Bool) :
    escapeAfterWild after m = escapeAfterWild true m' := by
  induction starP, m, n using wildRun.induct generalizing after with
  | case1 _ m n ih =>
    rw [wildRun] at h
    rw [escapeAfterWild]
    by_cases more : isWild (peek m) = true
    · exact ih more h true
    · rw [wildRun] at h
      · cases h; rfl
      · rintro rest rfl; simp [isWild] at more
      · rintro rest rfl; simp [isWild] at more
  | case2 starP m n ended => simp [wildRun, ended] at h
  | case3 starP m n found ih =>
    rw [wildRun, if_neg found] at h
    rw [escapeAfterWild]
    by_cases more : isWild (peek m) = true
    · exact ih more h true
    · rw [wildRun] at h
      · cases h; rfl
      · rintro rest rfl; simp [isWild] at more
      · rintro rest rfl; simp [isWild] at more
  | case4 starP m n notStar notOne =>
    cases m with
    | nil => simp at wild
    | cons c m =>
      rcases isWild_iff.mp wild with same | same <;> rw [peek_cons] at same <;> subst same
      · exact absurd rfl (notStar m)
      · exact absurd rfl (notOne m)

theorem Decides.congr {value value' : Prop} {outcome : Nat ⊕ Cursor} (same : value ↔ value')
    (h : Decides mask value outcome) : Decides mask value' outcome := by
  rwa [propext same] at h

theorem dropWhile_eq_drop (p : Char → Bool) (s : List Char) :
    ∃ d, s.dropWhile p = s.drop d ∧ ∀ k < d, ∃ x rest, s.drop k = x :: rest ∧ p x = true := by
  induction s with
  | nil => exact ⟨0, rfl, fun k lt => absurd lt (Nat.not_lt_zero k)⟩
  | cons x s ih =>
    cases holds : p x with
    | false => exact ⟨0, by simp [holds], fun k lt => absurd lt (Nat.not_lt_zero k)⟩
    | true =>
      obtain ⟨d, drops, before⟩ := ih
      refine ⟨d + 1, by simp [holds, drops], fun k lt => ?_⟩
      cases k with
      | zero => exact ⟨x, s, rfl, holds⟩
      | succ k => exact before k (Nat.lt_of_succ_lt_succ lt)

theorem wildCharacter_decides {c : Cursor} (inv : Invariant mask c) (short : c.m.length ≤ mask.length)
    (wild : isWild (peek c.m) = true) :
    Decides mask (Value mask (maskTokens c.m) c.n c.mTmp c.nTmp) (wildCharacter mask c) := by
  have attempt := inv.attempt
  unfold wildCharacter
  split
  · rename_i run
    exact backtrack_decides attempt fun h => wildRun_fail attempt.clean_n run (.skip h)
  · rename_i m n run
    obtain ⟨suffix, -, plain⟩ := wildRun_spec run
    have calm := (wildRun_escapes wild run false).symm.trans inv.calm
    obtain ⟨next, same⟩ := wildRun_false run attempt
    have value : Value mask (maskTokens m) n c.mTmp c.nTmp ↔
        Value mask (maskTokens c.m) c.n c.mTmp c.nTmp := by simp only [Value, same]
    apply Decides.congr value
    cases m with
    | nil => exact normalCharacter_decides_end next
    | cons x m =>
      have clean : nul ∉ x :: m := fun mem => inv.clean_m (suffix.subset mem)
      have some_x : x ≠ nul := fun eq => clean (eq ▸ List.mem_cons_self)
      rw [peek_cons] at plain
      have tokens := maskTokens_lead plain calm
      rw [tokens] at next ⊢
      rw [escapeAfterWild_plain plain (startsEscape_of_escapeAfterWild calm)] at calm
      exact normalCharacter_decides (c := ⟨x :: m, n, c.mTmp, c.nTmp⟩) (peek_cons x m) some_x clean calm next
  · rename_i m n run
    obtain ⟨suffix, suffix', plain⟩ := wildRun_spec run
    have calm := (wildRun_escapes wild run false).symm.trans inv.calm
    have shorter := wildRun_shorter wild run
    have clean_n : nul ∉ n := fun mem => attempt.clean_n (suffix'.subset mem)
    -- The new star covers every later start of the old one.
    have value : Matches toLower (.star :: maskTokens m) n ↔
        Value mask (maskTokens c.m) c.n c.mTmp c.nTmp := by
      have here := wildRun_matches run
      have raised := wildRun_matches (wildRun_raise run)
      simp only [withStar, if_true, Bool.false_eq_true, if_false] at here raised
      constructor
      · exact fun h => .inl (here.mpr h)
      · rintro (h | ⟨later, k, h⟩)
        · exact here.mp h
        · obtain ⟨j, h⟩ := (attempt.back.resolve_left later).later h
          exact raised.mp (matches_star.mpr ⟨j, h⟩)
    apply Decides.congr value
    cases m with
    | nil =>
      have all : Matches toLower (.star :: maskTokens []) n :=
        matches_star.mpr ⟨n.length, by simp [maskTokens]⟩
      simp [Decides, all]
    | cons x m =>
      have clean : nul ∉ x :: m := fun mem => inv.clean_m (suffix.subset mem)
      have some_x : x ≠ nul := fun eq => clean (eq ▸ List.mem_cons_self)
      rw [peek_cons] at plain
      have tokens := maskTokens_lead plain calm
      obtain ⟨d, drops, before⟩ := dropWhile_eq_drop (fun e => e ≠ nul ∧ toLower e ≠ toLower x) n
      simp only [peek_cons, some_x, if_false]
      rw [drops]
      have early : ∀ k < d, ¬ Matches toLower (maskTokens (x :: m)) (n.drop k) := by
        intro k lt h
        obtain ⟨e, rest, shape, differs⟩ := before k lt
        rw [shape, tokens, matches_lit] at h
        simp [h.1] at differs
      have other : x :: m ≠ mask := by
        intro same
        rw [← same, List.length_cons] at short
        rw [List.length_cons] at shorter
        omega
      have back : Back (maskTokens (x :: m)) (n.drop d) (x :: m) n :=
        ⟨clean, ⟨x, m, rfl, plain⟩, calm, [], d, rfl, rfl, early⟩
      have next : Attempt mask (maskTokens (x :: m)) (n.drop d) (x :: m) n :=
        ⟨fun mem => clean_n (List.mem_of_mem_drop mem), clean_n, .inr back⟩
      have reached : Value mask (maskTokens (x :: m)) (n.drop d) (x :: m) n ↔
          Matches toLower (.star :: maskTokens (x :: m)) n := by
        rw [matches_star]
        constructor
        · rintro (h | ⟨_, k, h⟩)
          · exact ⟨d, h⟩
          · exact ⟨k + 1, h⟩
        · rintro ⟨k, h⟩
          cases k with
          | zero =>
            cases d with
            | zero => exact .inl h
            | succ d => exact absurd h (early 0 (Nat.succ_pos d))
          | succ k => exact .inr ⟨other, k, h⟩
      apply Decides.congr reached
      rw [tokens] at next ⊢
      rw [escapeAfterWild_plain plain (startsEscape_of_escapeAfterWild calm)] at calm
      exact normalCharacter_decides (c := ⟨x :: m, n.drop d, x :: m, n⟩) (peek_cons x m) some_x clean calm next

theorem matchStep_decides {c : Cursor} (inv : Invariant mask c) (short : c.m.length ≤ mask.length) :
    Decides mask (Value mask (maskTokens c.m) c.n c.mTmp c.nTmp) (matchStep mask c) := by
  unfold matchStep
  by_cases ended : peek c.m = nul
  · rw [if_pos ended]
    have attempt := inv.attempt
    rw [(peek_eq_nul inv.clean_m).mp ended, maskTokens] at attempt ⊢
    by_cases done : peek c.n = nul
    · have empty := (peek_eq_nul attempt.clean_n).mp done
      rw [if_pos done, empty]
      simp [Decides, Value]
    · rw [if_neg done]
      apply backtrack_decides attempt
      rw [matches_nil]
      exact fun empty => done (by rw [empty, peek_nil])
  · rw [if_neg ended]
    obtain ⟨x, m, shape⟩ := exists_cons_of_peek ended
    have clean := inv.clean_m
    have calm := inv.calm
    have attempt := inv.attempt
    rw [shape] at clean calm attempt ended ⊢
    rw [peek_cons] at ended ⊢
    by_cases slash : x = '\\'
    · rw [if_pos slash, List.tail_cons]
      by_cases escaped : isWild (peek m) = true
      · obtain ⟨e, rest, starts, wild⟩ := exists_of_startsEscape (startsEscape_cons.mpr ⟨slash, escaped⟩)
        cases starts
        rw [maskTokens_escape wild] at attempt ⊢
        rw [escapeAfterWild_escape wild, Bool.false_or] at calm
        have clean_e : nul ∉ e :: rest := fun mem => clean (List.mem_cons_of_mem _ mem)
        have some_e : e ≠ nul := fun eq => clean_e (eq ▸ List.mem_cons_self)
        rw [if_pos escaped]
        exact normalCharacter_decides (c := { c with m := e :: rest }) (peek_cons e rest) some_e clean_e calm
          attempt
      · have plain : isWild x = false := by rw [slash]; decide
        have noEscape : startsEscape (x :: m) = false := by
          by_contra starts
          exact escaped (startsEscape_cons.mp (by simpa using starts)).2
        rw [maskTokens_plain plain noEscape] at attempt ⊢
        rw [escapeAfterWild_plain plain noEscape] at calm
        rw [if_neg escaped]
        exact normalCharacter_decides (c := { c with m := x :: m }) (peek_cons x m) ended clean calm attempt
    · rw [if_neg slash]
      by_cases wild : isWild x = true
      · rw [if_pos wild, ← shape]
        exact wildCharacter_decides inv short (by rwa [shape, peek_cons])
      · have noEscape : startsEscape (x :: m) = false := by
          by_contra starts
          exact slash (startsEscape_cons.mp (by simpa using starts)).1
        have plain : isWild x = false := by simpa using wild
        rw [if_neg wild]
        rw [maskTokens_plain plain noEscape] at attempt ⊢
        rw [escapeAfterWild_plain plain noEscape] at calm
        have literal := @normalCharacter_decides mask c x
        rw [shape, List.tail_cons, peek_cons] at literal
        exact literal rfl ended clean calm attempt

theorem width_le_of_rank {c d : Cursor} (h : d.rank < c.rank) :
    max d.m.length d.mTmp.length ≤ max c.m.length c.mTmp.length := by
  rcases Prod.Lex.toLex_lt_toLex.mp h with lt | ⟨eq, -⟩
  · exact le_of_lt lt
  · exact le_of_eq eq

theorem matchLoop_decides {c : Cursor} (inv : Invariant mask c)
    (short : max c.m.length c.mTmp.length ≤ mask.length) :
    matchLoop mask c = 0 ↔ Value mask (maskTokens c.m) c.n c.mTmp c.nTmp := by
  induction c using matchLoop.induct mask with
  | case1 c r done =>
    rw [matchLoop_done done]
    have decides := matchStep_decides inv (by omega)
    rwa [done] at decides
  | case2 c d next ih =>
    rw [matchLoop_next next]
    have decides := matchStep_decides inv (by omega)
    rw [next] at decides
    have width := width_le_of_rank (matchStep_rank next)
    rw [ih decides.1 (by omega), decides.2]

theorem ircMatch_decides {name : List Char} (clean_mask : nul ∉ mask) (clean_name : nul ∉ name)
    (calm : escapeAfterWild false mask = false) : ircMatch mask name = 0 ↔ InGlob mask name := by
  have inv : Invariant mask ⟨mask, name, mask, name⟩ :=
    ⟨clean_mask, calm, clean_name, clean_name, .inl rfl⟩
  rw [ircMatch, matchLoop_decides inv (by simp)]
  simp [Value, InGlob]

end Ircd.Match

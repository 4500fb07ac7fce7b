import Ircd.Library.Glob

/-! One glob pattern covers another: every string of the second is one of the first. -/

set_option autoImplicit false

namespace Ircd.Library.Glob

section
variable {α β : Type} (fold : α → β)

def Covers (p q : List (Token α)) : Prop := ∀ s, Matches fold q s → Matches fold p s

/-- A single-letter token takes every letter that another one takes. -/
def Token.Covers : Token α → Token α → Prop
  | .one, .one => True
  | .one, .lit _ => True
  | .lit c, .lit d => fold c = fold d
  | _, _ => False

variable {fold} {p q : List (Token α)}

theorem covers_refl (p : List (Token α)) : Covers fold p p := fun _ matched => matched

theorem Covers.cons {t u : Token α} (token : t.Covers fold u) (rest : Covers fold p q) :
    Covers fold (t :: p) (u :: q) := by
  intro s matched
  cases t with
  | star => cases token
  | one =>
    cases u with
    | star => cases token
    | one =>
      cases matched with
      | one matched => exact .one (rest _ matched)
    | lit d =>
      cases matched with
      | lit _ matched => exact .one (rest _ matched)
  | lit c =>
    cases u with
    | star => cases token
    | one => cases token
    | lit d =>
      cases matched with
      | lit same matched => exact .lit (Eq.trans token same) (rest _ matched)

theorem Covers.append {ps qs : List (Token α)} (tokens : List.Forall₂ (Token.Covers fold) ps qs)
    (rest : Covers fold p q) : Covers fold (ps ++ p) (qs ++ q) := by
  induction tokens with
  | nil => exact rest
  | cons token _ ih => exact ih.cons token

/-- A star may be skipped. -/
theorem Covers.skip (covers : Covers fold p q) : Covers fold (.star :: p) q :=
  fun s matched => .skip (covers s matched)

theorem Covers.skip_replicate (covers : Covers fold p q) (k : Nat) :
    Covers fold (List.replicate k .star ++ p) q := by
  induction k with
  | zero => exact covers
  | succ k ih => exact ih.skip

/-- A star takes any token more. -/
theorem Covers.more (covers : Covers fold (.star :: p) q) (u : Token α) : Covers fold (.star :: p) (u :: q) := by
  intro s matched
  cases u with
  | star =>
    obtain ⟨k, matched⟩ := matches_star.mp matched
    exact (covers _ matched).star_of_drop
  | one =>
    cases matched with
    | one matched => exact .more (covers _ matched)
  | lit d =>
    cases matched with
    | lit _ matched => exact .more (covers _ matched)

theorem matches_replicate_one {k : Nat} {s : List α} (length : s.length = k) :
    Matches fold (List.replicate k .one) s := by
  induction s generalizing k with
  | nil =>
    subst length
    exact .nil
  | cons d s ih =>
    subst length
    exact .one (ih rfl)

/-- A star and `k` letters take every string that has at least `k`. -/
theorem matches_star_replicate {k : Nat} {s : List α} (long : k ≤ s.length) :
    Matches fold (.star :: List.replicate k .one) s := by
  refine matches_star.mpr ⟨s.length - k, matches_replicate_one ?_⟩
  rw [List.length_drop]
  omega

theorem length_of_covered {ps qs : List (Token α)} (tokens : List.Forall₂ (Token.Covers fold) ps qs) {s : List α}
    (matched : Matches fold (qs ++ q) s) : ps.length ≤ s.length := by
  induction tokens generalizing s with
  | nil => exact Nat.zero_le _
  | @cons t u ps qs token _ ih =>
    cases u with
    | star => cases t <;> cases token
    | one =>
      cases matched with
      | one matched => exact Nat.succ_le_succ (ih matched)
    | lit d =>
      cases matched with
      | lit _ matched => exact Nat.succ_le_succ (ih matched)

/-- A star and letters cover whatever starts with as many single-letter tokens. -/
theorem covers_star_replicate {k : Nat} {qs : List (Token α)}
    (tokens : List.Forall₂ (Token.Covers fold) (List.replicate k .one) qs) (q : List (Token α)) :
    Covers fold (.star :: List.replicate k .one) (qs ++ q) := by
  intro s matched
  have long := length_of_covered tokens matched
  rw [List.length_replicate] at long
  exact matches_star_replicate long

/-- Letters may be exchanged for ones that no literal of the pattern tells apart from them. -/
theorem matches_map {f : α → α} {s : List α}
    (same : ∀ c, .lit c ∈ p → ∀ d, (fold c = fold (f d) ↔ fold c = fold d)) :
    Matches fold p (s.map f) ↔ Matches fold p s := by
  induction p generalizing s with
  | nil => simp
  | cons t p ih =>
    have tail : ∀ r : List α, Matches fold p (r.map f) ↔ Matches fold p r := fun r =>
      ih fun c mem => same c (List.mem_cons_of_mem t mem)
    cases t with
    | star => simp only [matches_star, ← List.map_drop, tail]
    | one => cases s <;> simp [tail]
    | lit c =>
      cases s with
      | nil => simp
      | cons d s => rw [List.map_cons, matches_lit, matches_lit, tail, same c List.mem_cons_self]

/-- No literal of a pattern takes the letter. -/
def Misses (fold : α → β) (x : α) (p : List (Token α)) : Prop := ∀ c, .lit c ∈ p → fold c ≠ fold x

theorem Misses.matches_map [DecidableEq α] {x blank : α} {s : List α} (misses_x : Misses fold x p)
    (misses_blank : Misses fold blank p) :
    Matches fold p (s.map fun d => if d = x then blank else d) ↔ Matches fold p s := by
  refine Glob.matches_map fun c mem d => ?_
  by_cases here : d = x
  · rw [if_pos here, here]
    exact iff_of_false (misses_blank c mem) (misses_x c mem)
  · rw [if_neg here]

/-- Where two patterns are cut at a letter that the back parts have no literal for, a cover is
one of the parts. The front is without the letter; in the back `blank` stands for it. -/
theorem Covers.parts {x blank : α} {r t : List (Token α)} (covers : Covers fold (p ++ .lit x :: q) (r ++ .lit x :: t))
    (alone : ∀ d, fold x = fold d → d = x) (other : blank ≠ x) (q_x : Misses fold x q) (q_blank : Misses fold blank q)
    (t_x : Misses fold x t) (t_blank : Misses fold blank t) {a b : List α} (free : x ∉ a)
    (front : Matches fold r a) (back : Matches fold t b) : Matches fold p a ∧ Matches fold q b := by
  classical
  let blanked := b.map fun d => if d = x then blank else d
  have blanked_free : x ∉ blanked := by
    intro mem
    obtain ⟨d, -, image⟩ := List.mem_map.mp mem
    by_cases here : d = x
    · rw [if_pos here] at image
      exact other image
    · rw [if_neg here] at image
      exact here image
  have back' : Matches fold t blanked := (t_x.matches_map t_blank).mpr back
  obtain ⟨a', rest, split, front', rest'⟩ :=
    matches_append.mp (covers _ (matches_append.mpr ⟨a, x :: blanked, rfl, front, .lit rfl back'⟩))
  cases rest' with
  | @lit _ d _ b' same back'' =>
    rw [alone d same, List.append_cons_inj_of_notMem free blanked_free] at split
    obtain ⟨rfl, -, rfl⟩ := split
    exact ⟨front', (q_x.matches_map q_blank).mp back''⟩

end

end Ircd.Library.Glob

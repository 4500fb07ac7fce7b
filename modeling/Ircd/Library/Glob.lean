import Mathlib.Data.List.Basic
import Mathlib.Data.List.Forall2
import Mathlib.Data.List.Infix
import Mathlib.Tactic.Common

/-! Glob patterns over an arbitrary alphabet, matched up to a folding of its letters.

A pattern is a list of tokens. `Matches` is its language; the lemmas say how a star
moves past other tokens, how a star-free segment splits off, and which strings are
the shortest ones of a language.
-/

set_option autoImplicit false

namespace Ircd.Library.Glob

variable {α β : Type}

inductive Token (α : Type) where
  | star
  | one
  | lit (letter : α)
  deriving DecidableEq, Repr

/-- The language of a pattern: `star` is any run, `one` any letter, `lit` a letter up to `fold`. -/
inductive Matches (fold : α → β) : List (Token α) → List α → Prop where
  | nil : Matches fold [] []
  | lit {c d : α} {ts : List (Token α)} {s : List α} :
      fold c = fold d → Matches fold ts s → Matches fold (.lit c :: ts) (d :: s)
  | one {d : α} {ts : List (Token α)} {s : List α} :
      Matches fold ts s → Matches fold (.one :: ts) (d :: s)
  | skip {ts : List (Token α)} {s : List α} :
      Matches fold ts s → Matches fold (.star :: ts) s
  | more {d : α} {ts : List (Token α)} {s : List α} :
      Matches fold (.star :: ts) s → Matches fold (.star :: ts) (d :: s)

variable {fold : α → β} {ts : List (Token α)} {s : List α}

@[simp] theorem matches_nil : Matches fold [] s ↔ s = [] :=
  ⟨fun h => by cases h; rfl, fun h => h ▸ .nil⟩

@[simp] theorem matches_lit_nil {c : α} : ¬ Matches fold (.lit c :: ts) [] := by intro h; cases h

@[simp] theorem matches_one_nil : ¬ Matches fold (.one :: ts) [] := by intro h; cases h

@[simp] theorem matches_lit {c d : α} :
    Matches fold (.lit c :: ts) (d :: s) ↔ fold c = fold d ∧ Matches fold ts s :=
  ⟨fun h => by cases h with | lit same rest => exact ⟨same, rest⟩, fun h => .lit h.1 h.2⟩

@[simp] theorem matches_one {d : α} : Matches fold (.one :: ts) (d :: s) ↔ Matches fold ts s :=
  ⟨fun h => by cases h with | one rest => exact rest, .one⟩

theorem matches_star_nil : Matches fold (.star :: ts) [] ↔ Matches fold ts [] :=
  ⟨fun h => by cases h with | skip rest => exact rest, .skip⟩

theorem matches_star_cons {d : α} :
    Matches fold (.star :: ts) (d :: s) ↔ Matches fold ts (d :: s) ∨ Matches fold (.star :: ts) s := by
  constructor
  · intro h
    cases h with
    | skip rest => exact .inl rest
    | more rest => exact .inr rest
  · rintro (h | h)
    · exact .skip h
    · exact .more h

/-- A star leaves some suffix of the string to the rest of the pattern. -/
theorem matches_star : Matches fold (.star :: ts) s ↔ ∃ k, Matches fold ts (s.drop k) := by
  induction s with
  | nil => simp [matches_star_nil]
  | cons d s ih =>
    rw [matches_star_cons, ih]
    constructor
    · rintro (h | ⟨k, h⟩)
      · exact ⟨0, h⟩
      · exact ⟨k + 1, h⟩
    · rintro ⟨k, h⟩
      cases k with
      | zero => exact .inl h
      | succ k => exact .inr ⟨k, h⟩

theorem Matches.star_of_suffix {t : List α} (h : Matches fold (.star :: ts) t) (suffix : t <:+ s) :
    Matches fold (.star :: ts) s := by
  obtain ⟨front, rfl⟩ := suffix
  induction front with
  | nil => exact h
  | cons d front ih => exact .more ih

theorem Matches.star_of_drop {k : Nat} (h : Matches fold (.star :: ts) (s.drop k)) :
    Matches fold (.star :: ts) s :=
  h.star_of_suffix (List.drop_suffix k s)

@[simp] theorem matches_star_star :
    Matches fold (.star :: .star :: ts) s ↔ Matches fold (.star :: ts) s := by
  constructor
  · intro h
    obtain ⟨k, h⟩ := matches_star.mp h
    exact h.star_of_drop
  · exact .skip

/-- A letter may be taken before or after the run of a star. -/
theorem matches_star_one :
    Matches fold (.star :: .one :: ts) s ↔ Matches fold (.one :: .star :: ts) s := by
  cases s with
  | nil => simp [matches_star_nil]
  | cons d s =>
    rw [matches_one]
    induction s generalizing d with
    | nil => simp [matches_star_cons, matches_star_nil]
    | cons e s ih => rw [matches_star_cons, matches_one, ih, matches_star_cons]

/-- Each star moved past the single-letter tokens that follow it, runs of stars collapsed. -/
def normalize : Bool → List (Token α) → List (Token α)
  | pending, [] => if pending then [.star] else []
  | _, .star :: ts => normalize true ts
  | pending, .one :: ts => .one :: normalize pending ts
  | pending, .lit c :: ts =>
    if pending then .star :: .lit c :: normalize false ts else .lit c :: normalize false ts

theorem matches_normalize (pending : Bool) :
    Matches fold (normalize pending ts) s ↔
      Matches fold (if pending then .star :: ts else ts) s := by
  induction ts generalizing pending s with
  | nil => cases pending <;> simp [normalize]
  | cons t ts ih =>
    cases t with
    | star => cases pending <;> simp [normalize, ih]
    | one =>
      cases pending with
      | false => cases s <;> simp [normalize, ih]
      | true => cases s <;> simp [normalize, ih, matches_star_one]
    | lit c =>
      have plain : ∀ r : List α,
          Matches fold (.lit c :: normalize false ts) r ↔ Matches fold (.lit c :: ts) r := by
        intro r
        cases r <;> simp [ih]
      cases pending with
      | false => simpa [normalize] using plain s
      | true => simp only [normalize, if_true, matches_star, plain]

/-- A star-free pattern: `none` is any letter, `some c` the letter `c`. -/
abbrev Segment (α : Type) := List (Option α)

def Segment.token : Option α → Token α
  | none => .one
  | some c => .lit c

def Segment.tokens (seg : Segment α) : List (Token α) := seg.map Segment.token

@[simp] theorem Segment.tokens_nil : Segment.tokens ([] : Segment α) = [] := rfl

@[simp] theorem Segment.tokens_cons (o : Option α) (seg : Segment α) :
    Segment.tokens (o :: seg) = Segment.token o :: Segment.tokens seg := rfl

/-- A segment fits a string letter by letter. -/
def Fits (fold : α → β) (seg : Segment α) (s : List α) : Prop :=
  List.Forall₂ (fun o d => ∀ c ∈ o, fold c = fold d) seg s

variable {seg : Segment α}

theorem Fits.length_eq (h : Fits fold seg s) : seg.length = s.length :=
  List.Forall₂.length_eq h

@[simp] theorem fits_nil : Fits fold [] s ↔ s = [] := by simp [Fits]

@[simp] theorem fits_cons {o : Option α} {d : α} :
    Fits fold (o :: seg) (d :: s) ↔ (∀ c ∈ o, fold c = fold d) ∧ Fits fold seg s := by
  simp [Fits]

theorem not_fits_cons_nil {o : Option α} : ¬ Fits fold (o :: seg) [] := by
  simp [Fits]

/-- A segment in front of a pattern takes its own length off the string. -/
theorem matches_segment :
    Matches fold (seg.tokens ++ ts) s ↔
      Fits fold seg (s.take seg.length) ∧ Matches fold ts (s.drop seg.length) := by
  induction seg generalizing s with
  | nil => simp
  | cons o seg ih =>
    cases s with
    | nil => cases o <;> simp [Segment.token, not_fits_cons_nil]
    | cons d s => cases o <;> simp [Segment.token, ih, and_assoc]

/-- Where a segment starts later, what follows it starts later too. -/
theorem Matches.star_after_segment {k d : Nat} (late : d ≤ k)
    (h : Matches fold (seg.tokens ++ .star :: ts) (s.drop k)) :
    Matches fold (.star :: ts) (s.drop (d + seg.length)) := by
  have rest := (matches_segment.mp h).2
  rw [List.drop_drop] at rest
  have split : k + seg.length = (d + seg.length) + (k - d) := by omega
  rw [split, ← List.drop_drop] at rest
  exact rest.star_of_drop

theorem matches_tokens : Matches fold seg.tokens s ↔ Fits fold seg s := by
  have whole : Matches fold (seg.tokens ++ []) s ↔
      Fits fold seg (s.take seg.length) ∧ Matches fold [] (s.drop seg.length) := matches_segment
  rw [List.append_nil, matches_nil] at whole
  rw [whole]
  constructor
  · rintro ⟨fits, rest⟩
    rwa [List.take_of_length_le (List.drop_eq_nil_iff.mp rest)] at fits
  · intro fits
    have length := fits.length_eq
    rw [length, List.take_length, List.drop_length]
    exact ⟨fits, rfl⟩

theorem matches_append {us : List (Token α)} :
    Matches fold (ts ++ us) s ↔ ∃ a b, s = a ++ b ∧ Matches fold ts a ∧ Matches fold us b := by
  constructor
  · intro matched
    induction ts generalizing s with
    | nil => exact ⟨[], s, rfl, .nil, matched⟩
    | cons t ts ih =>
      cases t with
      | star =>
        obtain ⟨k, matched⟩ := matches_star.mp matched
        obtain ⟨a, b, split, front, back⟩ := ih matched
        refine ⟨s.take k ++ a, b, ?_, matches_star.mpr ?_, back⟩
        · rw [List.append_assoc, ← split, List.take_append_drop]
        · refine ⟨(s.take k).length, ?_⟩
          rwa [List.drop_left]
      | one =>
        cases matched with
        | @one d _ _ rest =>
          obtain ⟨a, b, rfl, front, back⟩ := ih rest
          exact ⟨d :: a, b, rfl, .one front, back⟩
      | lit c =>
        cases matched with
        | @lit _ d _ _ same rest =>
          obtain ⟨a, b, rfl, front, back⟩ := ih rest
          exact ⟨d :: a, b, rfl, .lit same front, back⟩
  · rintro ⟨a, b, rfl, front, back⟩
    induction front with
    | nil => exact back
    | lit same _ ih => exact .lit same ih
    | one _ ih => exact .one ih
    | skip _ ih => exact .skip ih
    | more _ ih => exact .more ih

/-- Segments with a star in front of each. -/
def chunkTokens (chunks : List (Segment α)) : List (Token α) :=
  chunks.flatMap fun chunk => .star :: Segment.tokens chunk

variable {chunks : List (Segment α)}

/-- A pattern with a star, cut at its first and its last star. -/
theorem matches_framed {head tail : Segment α} :
    Matches fold (head.tokens ++ (chunkTokens chunks ++ .star :: tail.tokens)) s ↔
      ∃ h m t, s = h ++ m ++ t ∧ Fits fold head h ∧ Fits fold tail t ∧
        Matches fold (chunkTokens chunks ++ [.star]) m := by
  constructor
  · intro matched
    obtain ⟨h, rest, rfl, front, back⟩ := matches_append.mp matched
    obtain ⟨m, end_, rfl, middle, last⟩ := matches_append.mp back
    obtain ⟨k, last⟩ := matches_star.mp last
    refine ⟨h, m ++ end_.take k, end_.drop k, ?_, matches_tokens.mp front, matches_tokens.mp last, ?_⟩
    · simp
    · exact matches_append.mpr ⟨m, end_.take k, rfl, middle, matches_star.mpr ⟨k, by simp⟩⟩
  · rintro ⟨h, m, t, rfl, front, last, middle⟩
    obtain ⟨m, run, rfl, middle, _⟩ := matches_append.mp middle
    have split : h ++ (m ++ run) ++ t = h ++ (m ++ (run ++ t)) := by simp
    rw [split, matches_append]
    refine ⟨h, m ++ (run ++ t), rfl, matches_tokens.mpr front, matches_append.mpr ?_⟩
    refine ⟨m, run ++ t, rfl, middle, matches_star.mpr ⟨run.length, ?_⟩⟩
    rw [List.drop_left]
    exact matches_tokens.mpr last

theorem matches_framed_split {head tail : Segment α} {h m t : List α} (length_head : head.length = h.length)
    (length_tail : tail.length = t.length) :
    Matches fold (head.tokens ++ (chunkTokens chunks ++ .star :: tail.tokens)) (h ++ m ++ t) ↔
      Fits fold head h ∧ Fits fold tail t ∧ Matches fold (chunkTokens chunks ++ [.star]) m := by
  rw [matches_framed]
  constructor
  · rintro ⟨h', m', t', same, front, last, middle⟩
    have outer := List.append_inj' same (length_tail.symm.trans last.length_eq)
    have inner := List.append_inj outer.1 (length_head.symm.trans front.length_eq)
    rw [inner.1, inner.2, outer.2]
    exact ⟨front, last, middle⟩
  · rintro ⟨front, last, middle⟩
    exact ⟨h, m, t, rfl, front, last, middle⟩

theorem Fits.reverse (h : Fits fold seg s) : Fits fold seg.reverse s.reverse :=
  List.rel_reverse h

theorem fits_reverse : Fits fold seg.reverse s.reverse ↔ Fits fold seg s := by
  constructor
  · intro h
    simpa using h.reverse
  · exact Fits.reverse

theorem chunkTokens_star (chunks : List (Segment α)) :
    ∃ us, chunkTokens chunks ++ [.star] = .star :: us := by
  cases chunks with
  | nil => exact ⟨[], rfl⟩
  | cons chunk chunks => exact ⟨_, rfl⟩

/-- The leftmost place of the first chunk leaves most to the others. -/
theorem matches_chunk_here {chunk : Segment α} (fits : Fits fold chunk (s.take chunk.length)) :
    Matches fold (chunkTokens (chunk :: chunks) ++ [.star]) s ↔
      Matches fold (chunkTokens chunks ++ [.star]) (s.drop chunk.length) := by
  obtain ⟨us, stars⟩ := chunkTokens_star chunks
  have shape : chunkTokens (chunk :: chunks) ++ [.star] = .star :: (chunk.tokens ++ .star :: us) := by
    rw [← stars]
    simp [chunkTokens]
  rw [shape, stars]
  constructor
  · intro matched
    obtain ⟨k, matched⟩ := matches_star.mp matched
    simpa using matched.star_after_segment (Nat.zero_le k)
  · intro rest
    exact .skip (matches_segment.mpr ⟨fits, rest⟩)

theorem matches_chunk_later {chunk : Segment α} {d : α} (misses : ¬ Fits fold chunk ((d :: s).take chunk.length)) :
    Matches fold (chunkTokens (chunk :: chunks) ++ [.star]) (d :: s) ↔
      Matches fold (chunkTokens (chunk :: chunks) ++ [.star]) s := by
  have shape : chunkTokens (chunk :: chunks) ++ [.star] =
      .star :: (chunk.tokens ++ (chunkTokens chunks ++ [.star])) := by
    simp [chunkTokens]
  rw [shape, matches_star_cons, matches_segment]
  simp [misses]

/-- The number of letters a pattern takes at least. -/
def minLength : List (Token α) → Nat
  | [] => 0
  | .star :: ts => minLength ts
  | .one :: ts => minLength ts + 1
  | .lit _ :: ts => minLength ts + 1

theorem minLength_append (ts us : List (Token α)) : minLength (ts ++ us) = minLength ts + minLength us := by
  induction ts with
  | nil => simp [minLength]
  | cons t ts ih => cases t <;> simp only [List.cons_append, minLength, ih] <;> omega

theorem Matches.minLength_le (h : Matches fold ts s) : minLength ts ≤ s.length := by
  induction h with
  | nil => exact Nat.le_refl 0
  | lit _ _ ih => exact Nat.succ_le_succ ih
  | one _ ih => exact Nat.succ_le_succ ih
  | skip _ ih => exact ih
  | more _ ih => exact Nat.le_succ_of_le ih

/-- The string with every star empty and `filler` for every single letter. -/
def shortest (filler : α) : List (Token α) → List α
  | [] => []
  | .star :: ts => shortest filler ts
  | .one :: ts => filler :: shortest filler ts
  | .lit c :: ts => c :: shortest filler ts

theorem matches_shortest (filler : α) : Matches fold ts (shortest filler ts) := by
  induction ts with
  | nil => exact .nil
  | cons t ts ih =>
    cases t with
    | star => exact .skip ih
    | one => exact .one ih
    | lit c => exact .lit rfl ih

theorem length_shortest (filler : α) : (shortest filler ts).length = minLength ts := by
  induction ts with
  | nil => rfl
  | cons t ts ih => cases t <;> simp [shortest, minLength, ih]

theorem mem_shortest {filler c : α} (h : c ∈ shortest filler ts) : c = filler ∨ .lit c ∈ ts := by
  induction ts with
  | nil => simp [shortest] at h
  | cons t ts ih =>
    cases t with
    | star => exact (ih h).imp_right (List.mem_cons_of_mem _)
    | one =>
      rcases List.mem_cons.mp h with same | h
      · exact .inl same
      · exact (ih h).imp_right (List.mem_cons_of_mem _)
    | lit d =>
      rcases List.mem_cons.mp h with rfl | h
      · exact .inr List.mem_cons_self
      · exact (ih h).imp_right (List.mem_cons_of_mem _)

end Ircd.Library.Glob

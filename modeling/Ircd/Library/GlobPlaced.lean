import Ircd.Library.GlobCover

/-! Chunks of one pattern that find places in the tokens of another.

`Placed` is the search for the chunks from the front, with the letters that are still owed
to places of a chunk behind a star. What can be placed is covered.
-/

set_option autoImplicit false

namespace Ircd.Library.Glob

section
variable {α β : Type} {fold : α → β}

/-- `eat` letters and then the chunks are placed in the tokens. -/
inductive Placed (fold : α → β) : Nat → List (Segment α) → List (Token α) → Prop where
  | done {eat : Nat} {ts : List (Token α)} (room : eat ≤ minLength ts) : Placed fold eat [] ts
  | skip {chunks : List (Segment α)} {ts : List (Token α)} (t : Token α) (rest : Placed fold 0 chunks ts) :
      Placed fold 0 chunks (t :: ts)
  | star {eat : Nat} {chunks : List (Segment α)} {ts : List (Token α)} (rest : Placed fold eat chunks ts) :
      Placed fold eat chunks (.star :: ts)
  | eaten {eat : Nat} {chunks : List (Segment α)} {ts : List (Token α)} {t : Token α} (letter : t ≠ .star)
      (rest : Placed fold eat chunks ts) : Placed fold (eat + 1) chunks (t :: ts)
  | chunk {front places : Segment α} {eat : Nat} {chunks : List (Segment α)} {ts : List (Token α)}
      (tokens : List.Forall₂ (Token.Covers fold) front.tokens places.tokens) (rest : Placed fold eat chunks ts) :
      Placed fold 0 ((front ++ List.replicate eat none) :: chunks) (places.tokens ++ ts)

/-- `eat` letters, and then the chunks with stars around them. -/
def owedTokens (eat : Nat) (chunks : List (Segment α)) : List (Token α) :=
  List.replicate eat .one ++ (chunkTokens chunks ++ [.star])

theorem tokens_replicate_none (eat : Nat) : Segment.tokens (List.replicate eat (none : Option α)) = List.replicate eat .one := by
  simp [Segment.tokens, Segment.token]

theorem Segment.tokens_append (front back : Segment α) :
    Segment.tokens (front ++ back) = front.tokens ++ back.tokens := List.map_append

/-- Letters in front of a star take no more than their number. -/
theorem matches_ones_star {eat : Nat} {us : List (Token α)} {s : List α} :
    Matches fold (List.replicate eat .one ++ .star :: us) s ↔ eat ≤ s.length ∧ Matches fold (.star :: us) (s.drop eat) := by
  induction eat generalizing s with
  | zero => simp
  | succ eat ih =>
    cases s with
    | nil => simp [List.replicate_succ]
    | cons d s => simp [List.replicate_succ, ih]

theorem Covers.ones_star {eat : Nat} {us ts : List (Token α)} (covers : Covers fold (List.replicate eat .one ++ .star :: us) ts) :
    Covers fold (List.replicate eat .one ++ .star :: us) (.star :: ts) := by
  intro s matched
  obtain ⟨k, matched⟩ := matches_star.mp matched
  obtain ⟨long, rest⟩ := matches_ones_star.mp (covers _ matched)
  rw [List.length_drop] at long
  refine matches_ones_star.mpr ⟨by omega, rest.star_of_suffix ?_⟩
  rw [List.drop_drop, Nat.add_comm, ← List.drop_drop]
  exact List.drop_suffix _ _

theorem Placed.covers {eat : Nat} {chunks : List (Segment α)} {ts : List (Token α)} (placed : Placed fold eat chunks ts) :
    Covers fold (owedTokens eat chunks) ts := by
  induction placed with
  | @done eat ts room =>
    intro s matched
    refine matches_ones_star.mpr ⟨room.trans matched.minLength_le, ?_⟩
    exact matches_star.mpr ⟨(s.drop eat).length, by rw [List.drop_length]; exact .nil⟩
  | @skip chunks ts t _ ih =>
    obtain ⟨us, stars⟩ := chunkTokens_star chunks
    rw [owedTokens, stars] at ih ⊢
    exact ih.more t
  | @star eat chunks ts _ ih =>
    obtain ⟨us, stars⟩ := chunkTokens_star chunks
    rw [owedTokens, stars] at ih ⊢
    exact ih.ones_star
  | @eaten eat chunks ts t letter _ ih =>
    cases t with
    | star => exact absurd rfl letter
    | one => exact ih.cons (t := .one) trivial
    | lit c => exact ih.cons (t := .one) trivial
  | @chunk front places eat chunks ts tokens _ ih =>
    have shape : owedTokens 0 ((front ++ List.replicate eat none) :: chunks) =
        .star :: (front.tokens ++ owedTokens eat chunks) := by
      simp [owedTokens, chunkTokens, Segment.tokens_append, tokens_replicate_none]
    rw [shape]
    exact (ih.append tokens).skip

variable {eat : Nat} {chunks : List (Segment α)} {ts : List (Token α)}

theorem Placed.skip_segment (rest : Placed fold 0 chunks ts) (seg : Segment α) : Placed fold 0 chunks (seg.tokens ++ ts) := by
  induction seg with
  | nil => exact rest
  | cons o seg ih => exact .skip _ ih

theorem Placed.eaten_segment (seg : Segment α) (rest : Placed fold eat chunks ts) :
    Placed fold (eat + seg.length) chunks (seg.tokens ++ ts) := by
  induction seg with
  | nil => exact rest
  | cons o seg ih => exact .eaten (by cases o <;> nofun) ih

/-- Two patterns in parts: the fronts and the backs letter by letter, in between what can be placed. -/
theorem Placed.covers_between {front back : Segment α} {pre post : List (Token α)}
    (placed : Placed fold eat chunks ts) (fronts : List.Forall₂ (Token.Covers fold) front.tokens pre)
    (backs : List.Forall₂ (Token.Covers fold) back.tokens post) :
    Covers fold (front.tokens ++ (owedTokens eat chunks ++ back.tokens)) (pre ++ (ts ++ post)) := by
  refine Covers.append fronts fun s matched => ?_
  obtain ⟨a, b, rfl, middle, last⟩ := matches_append.mp matched
  refine matches_append.mpr ⟨a, b, rfl, placed.covers _ middle, ?_⟩
  have same : Covers fold (back.tokens ++ []) (post ++ []) := Covers.append backs (covers_refl [])
  rw [List.append_nil, List.append_nil] at same
  exact same b last

/-- A letter that a pattern asks for further from the end than the other one goes behind its star
may be any letter of the other one. -/
theorem exists_missed (front : List (Token α)) (head : Segment α) {back tail : Segment α} {c filler : α} (other : fold c ≠ fold filler)
    (longer : tail.length ≤ back.length) :
    ∃ s, Matches fold (head.tokens ++ .star :: tail.tokens) s ∧ ¬ Matches fold (front ++ .lit c :: back.tokens) s ∧
      ∀ d ∈ s, d = filler ∨ .lit d ∈ head.tokens ++ .star :: tail.tokens := by
  let run := List.replicate (back.length + 1) filler
  let last := shortest filler tail.tokens
  refine ⟨shortest filler head.tokens ++ (run ++ last), ?_, ?_, ?_⟩
  · refine matches_append.mpr ⟨_, _, rfl, matches_shortest filler, Matches.star_of_suffix ?_ (List.suffix_append _ _)⟩
    exact .skip (matches_shortest filler)
  · intro matched
    obtain ⟨a, b, split, -, matched⟩ := matches_append.mp matched
    have fits : Fits fold (some c :: back) b := matches_tokens.mp matched
    have length := fits.length_eq
    cases b with
    | nil => cases length
    | cons d b =>
      have fits_last : Fits fold tail last := matches_tokens.mp (matches_shortest filler)
      have length_last := fits_last.length_eq
      rw [List.length_cons, List.length_cons] at length
      -- What the back of the pattern takes begins inside the run.
      have suffix : d :: b <:+ run ++ last := by
        have at_end : d :: b <:+ shortest filler head.tokens ++ (run ++ last) := by
          rw [split]
          exact List.suffix_append _ _
        refine List.suffix_of_suffix_length_le at_end (List.suffix_append _ _) ?_
        · simp only [run, List.length_cons, List.length_append, List.length_replicate]
          omega
      obtain ⟨x, whole⟩ := suffix
      have lengths := congrArg List.length whole
      simp only [run, List.length_append, List.length_cons, List.length_replicate] at lengths
      have here := congrArg (fun l => l[x.length]?) whole
      simp only [run] at here
      rw [List.getElem?_append_right (Nat.le_refl _), Nat.sub_self, List.getElem?_append_left (by
        rw [List.length_replicate]
        omega), List.getElem?_replicate, if_pos (by omega)] at here
      have same : d = filler := Option.some.inj here
      exact other (same ▸ (fits_cons.mp fits).1 c rfl)
  · intro d mem
    rcases List.mem_append.mp mem with mem | mem
    · exact (mem_shortest mem).imp_right (List.mem_append_left _)
    · rcases List.mem_append.mp mem with mem | mem
      · exact .inl (List.eq_of_mem_replicate mem)
      · exact (mem_shortest mem).imp_right fun lit => List.mem_append_right _ (List.mem_cons_of_mem _ lit)

end

end Ircd.Library.Glob

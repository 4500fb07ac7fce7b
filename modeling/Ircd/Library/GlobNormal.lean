import Ircd.Library.Glob

/-! Patterns whose stars stand as far right as they go.

Such a pattern is one that `normalize` leaves as it is, or one where only a letter that is
asked for follows a star. A pattern is the same as its segments.
-/

set_option autoImplicit false

namespace Ircd.Library.Glob

section
variable {α γ : Type}

def Token.map (f : α → γ) : Token α → Token γ
  | .star => .star
  | .one => .one
  | .lit c => .lit (f c)

theorem normalize_idem (pending : Bool) (ts : List (Token α)) :
    normalize false (normalize pending ts) = normalize pending ts := by
  induction ts generalizing pending with
  | nil => cases pending <;> rfl
  | cons t ts ih =>
    cases t with
    | star => exact ih true
    | one => exact congrArg (.one :: ·) (ih pending)
    | lit c =>
      have rest := ih false
      cases pending with
      | false => exact congrArg (.lit c :: ·) rest
      | true => exact congrArg (.star :: .lit c :: ·) rest

theorem normalize_map (f : α → γ) (pending : Bool) (ts : List (Token α)) :
    normalize pending (ts.map (Token.map f)) = (normalize pending ts).map (Token.map f) := by
  induction ts generalizing pending with
  | nil => cases pending <;> rfl
  | cons t ts ih =>
    cases t with
    | star => exact ih true
    | one => exact congrArg (.one :: ·) (ih pending)
    | lit c =>
      have rest := ih false
      cases pending with
      | false => exact congrArg (.lit (f c) :: ·) rest
      | true => exact congrArg (.star :: .lit (f c) :: ·) rest

theorem minLength_map (f : α → γ) (ts : List (Token α)) : minLength (ts.map (Token.map f)) = minLength ts := by
  induction ts with
  | nil => rfl
  | cons t ts ih =>
    cases t with
    | star => exact ih
    | one => exact congrArg (· + 1) ih
    | lit c => exact congrArg (· + 1) ih

theorem mem_normalize {c : α} {pending : Bool} {ts : List (Token α)} (mem : .lit c ∈ normalize pending ts) :
    .lit c ∈ ts := by
  induction ts generalizing pending with
  | nil => cases pending <;> simp [normalize] at mem
  | cons t ts ih =>
    cases t with
    | star => exact List.mem_cons_of_mem _ (ih mem)
    | one =>
      rcases List.mem_cons.mp mem with same | mem
      · cases same
      · exact List.mem_cons_of_mem _ (ih mem)
    | lit d =>
      have tail : .lit c ∈ .lit d :: normalize false ts := by
        cases pending with
        | false => exact mem
        | true => exact (List.mem_cons.mp mem).resolve_left (by intro same; cases same)
      rcases List.mem_cons.mp tail with same | mem
      · rw [same]
        exact List.mem_cons_self
      · exact List.mem_cons_of_mem _ (ih mem)

/-- No star stands in front of a star or of a single letter. -/
def starsLast : List (Token α) → Bool
  | .star :: .star :: _ => false
  | .star :: .one :: _ => false
  | _ :: ts => starsLast ts
  | [] => true

theorem starsLast_normalize (pending : Bool) (ts : List (Token α)) : starsLast (normalize pending ts) = true := by
  induction ts generalizing pending with
  | nil => cases pending <;> rfl
  | cons t ts ih =>
    cases t with
    | star => exact ih true
    | one => exact ih pending
    | lit c =>
      cases pending with
      | false => exact ih false
      | true => exact ih false

theorem Segment.token_injective : Function.Injective (Segment.token : Option α → Token α) := by
  intro o o' same
  cases o with
  | none =>
    cases o' with
    | none => rfl
    | some c => cases same
  | some c =>
    cases o' with
    | none => cases same
    | some d => cases same; rfl

theorem Segment.tokens_injective {seg seg' : Segment α} (same : seg.tokens = seg'.tokens) : seg = seg' :=
  List.map_injective_iff.mpr Segment.token_injective same

theorem Segment.star_free (seg : Segment α) : .star ∉ seg.tokens := by
  intro mem
  obtain ⟨o, -, is_star⟩ := List.mem_map.mp mem
  cases o <;> cases is_star

theorem Segment.tokens_map (f : α → γ) (seg : Segment α) :
    (Segment.tokens seg).map (Token.map f) = Segment.tokens (seg.map (Option.map f)) := by
  simp only [Segment.tokens, List.map_map]
  refine List.map_congr_left fun o _ => ?_
  cases o <;> rfl

/-- The first star of a pattern ends the same segment. -/
theorem segment_before_star {seg seg' : Segment α} (ts us : List (Token α))
    (same : seg.tokens ++ .star :: ts = seg'.tokens ++ .star :: us) : seg = seg' ∧ ts = us := by
  induction seg generalizing seg' with
  | nil =>
    cases seg' with
    | nil => exact ⟨rfl, List.tail_eq_of_cons_eq same⟩
    | cons o seg' => cases o <;> cases same
  | cons o seg ih =>
    cases seg' with
    | nil => cases o <;> cases same
    | cons o' seg' =>
      obtain ⟨token, rest⟩ := List.cons_eq_cons.mp same
      obtain ⟨places, after⟩ := ih rest
      exact ⟨by rw [Segment.token_injective token, places], after⟩

/-- The segments between the stars are those of the pattern. -/
theorem segments_of_tokens {head head' tail tail' : Segment α} {chunks chunks' : List (Segment α)}
    (same : head.tokens ++ (chunkTokens chunks ++ .star :: tail.tokens) =
      head'.tokens ++ (chunkTokens chunks' ++ .star :: tail'.tokens)) :
    head = head' ∧ chunks = chunks' ∧ tail = tail' := by
  induction chunks generalizing head head' chunks' with
  | nil =>
    cases chunks' with
    | nil =>
      obtain ⟨heads, tails⟩ := segment_before_star _ _ same
      exact ⟨heads, rfl, Segment.tokens_injective tails⟩
    | cons chunk' chunks' =>
      obtain ⟨-, tails⟩ := segment_before_star _ (chunk'.tokens ++ (chunkTokens chunks' ++ .star :: tail'.tokens))
        (by simpa [chunkTokens] using same)
      refine absurd ?_ (Segment.star_free tail)
      rw [tails]
      simp
  | cons chunk chunks ih =>
    cases chunks' with
    | nil =>
      obtain ⟨-, tails⟩ := segment_before_star (chunk.tokens ++ (chunkTokens chunks ++ .star :: tail.tokens))
        tail'.tokens (by simpa [chunkTokens] using same)
      refine absurd ?_ (Segment.star_free tail')
      rw [← tails]
      simp
    | cons chunk' chunks' =>
      obtain ⟨heads, rest⟩ := segment_before_star (chunk.tokens ++ (chunkTokens chunks ++ .star :: tail.tokens))
        (chunk'.tokens ++ (chunkTokens chunks' ++ .star :: tail'.tokens)) (by simpa [chunkTokens] using same)
      obtain ⟨firsts, others, tails⟩ := ih rest
      exact ⟨heads, by rw [firsts, others], tails⟩

end

end Ircd.Library.Glob

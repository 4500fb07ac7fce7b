import Ircd.Library.GlobNormal
import Ircd.Library.GlobPlaced
import Ircd.Match.CompiledLanguage
import Ircd.Match.Mmexec

/-! What `mmexec` finds is a cover.

Each loop keeps the statement that it is enough to place what is left of the wider mask in what is left
of the restricted one, and that `trash` is the number of places that one has too many.
-/

set_option autoImplicit false

namespace Ircd.Match
open Ircd.Library Ircd.Library.Glob Ircd.Text

/-! ## Places -/

/-- Where the comparison goes on, the place of the wider mask takes what the other one takes. -/
theorem covers_of_placeChar {o o' : Option Char} (same : placeChar o = placeChar o' ∨ placeChar o = 'A') :
    (Segment.token o).Covers toLower (Segment.token o') := by
  cases o with
  | none => cases o' <;> trivial
  | some c =>
    have equal : toLower c = placeChar o' := same.resolve_right (toLower_ne_A c)
    cases o' with
    | none => exact absurd equal (toLower_ne_A c)
    | some d => exact equal

theorem covers_of_found {c : Char} {o : Option Char} (same : toLower c = placeChar o) :
    (Segment.token (some c)).Covers toLower (Segment.token o) := covers_of_placeChar (.inl same)

theorem peek_segmentText {seg : Segment Char} (clean : CleanSegment seg) (rest : List Char) :
    (peek (segmentText seg ++ rest) = nul → seg = []) ∧ (peek (segmentText seg ++ rest) = 'Z' → seg = []) := by
  cases seg with
  | nil => exact ⟨fun _ => rfl, fun _ => rfl⟩
  | cons o seg =>
    rw [segmentText_cons, List.cons_append, peek_cons]
    exact ⟨fun ended => absurd ended (placeChar_ne_nul clean.head), fun star => absurd star (placeChar_ne_Z o)⟩

theorem CleanSegment.drop {seg : Segment Char} (clean : CleanSegment seg) (n : Nat) : CleanSegment (seg.drop n) :=
  fun mem => clean (List.mem_of_mem_drop mem)

theorem placeChar_eq_A {o : Option Char} (one : placeChar o = 'A') : o = none := by
  cases o with
  | none => rfl
  | some c => exact absurd one (toLower_ne_A c)

theorem eatOnes_segmentText (seg : Segment Char) {rest : List Char} (ends : peek rest ≠ 'A') (eat : Nat) :
    ∃ k seg', seg = List.replicate k none ++ seg' ∧ eatOnes (segmentText seg ++ rest) eat = (segmentText seg' ++ rest, eat + k) := by
  induction seg generalizing eat with
  | nil =>
    refine ⟨0, [], rfl, ?_⟩
    cases rest with
    | nil => rfl
    | cons c rest =>
      have other : c ≠ 'A' := ends
      simp [eatOnes, other]
  | cons o seg ih =>
    by_cases one : placeChar o = 'A'
    · obtain ⟨k, seg', split, result⟩ := ih (eat + 1)
      refine ⟨k + 1, seg', ?_, ?_⟩
      · rw [split, placeChar_eq_A one, List.replicate_succ, List.cons_append]
      · rw [eatOnes, Prod.mk.injEq] at result ⊢
        rw [segmentText_cons, List.cons_append, List.dropWhile_cons_of_pos (by simpa using one),
          List.takeWhile_cons_of_pos (by simpa using one), List.length_cons]
        exact ⟨result.1, by omega⟩
    · refine ⟨0, o :: seg, rfl, ?_⟩
      rw [eatOnes, segmentText_cons, List.cons_append, List.dropWhile_cons_of_neg (by simpa using one),
        List.takeWhile_cons_of_neg (by simpa using one)]
      rfl

/-! ## Comparing -/

theorem meet_append (stop : Char → Bool) (w a b : List Char) :
    meet stop w (a ++ b) =
      if (meet stop w a).2 = [] then meet stop (meet stop w a).1 b
      else ((meet stop w a).1, (meet stop w a).2 ++ b) := by
  induction a generalizing w with
  | nil => simp [meet]
  | cons c a ih =>
    rw [List.cons_append, meet, meet]
    by_cases goes : peek w ≠ nul ∧ stop c = false ∧ (peek w = c ∨ peek w = 'A')
    · rw [if_pos goes, if_pos goes, ih]
    · rw [if_neg goes, if_neg goes]
      simp

theorem meet_stops {stop : Char → Bool} {w r : List Char}
    (stops : r ≠ [] → peek w = nul ∨ stop (peek r) = true ∨ peek w ≠ peek r ∧ peek w ≠ 'A') : meet stop w r = (w, r) := by
  cases r with
  | nil => rfl
  | cons c r =>
    rw [meet, if_neg]
    rintro ⟨some_w, goes, same⟩
    rcases stops nofun with ended | stopped | other
    · exact some_w ended
    · rw [peek_cons, goes] at stopped
      cases stopped
    · exact same.elim other.1 other.2

theorem meet_places (stop : Char → Bool) (ws rs : Segment Char) {wrest : List Char} (ends : wrest = [] ∨ peek wrest = 'Z') :
    ∃ n, n ≤ ws.length ∧ n ≤ rs.length ∧
      meet stop (segmentText ws ++ wrest) (segmentText rs) = (segmentText (ws.drop n) ++ wrest, segmentText (rs.drop n)) ∧
      List.Forall₂ (Token.Covers toLower) (Segment.tokens (ws.take n)) (Segment.tokens (rs.take n)) := by
  induction rs generalizing ws with
  | nil => exact ⟨0, Nat.zero_le _, Nat.zero_le _, rfl, .nil⟩
  | cons o' rs ih =>
    cases ws with
    | nil =>
      refine ⟨0, Nat.zero_le _, Nat.zero_le _, meet_stops fun _ => ?_, .nil⟩
      rcases ends with rfl | star
      · exact .inl rfl
      · rw [segmentText_nil, List.nil_append, segmentText_cons, peek_cons, star]
        exact .inr (.inr ⟨fun same => placeChar_ne_Z o' same.symm, by decide⟩)
    | cons o ws =>
      rw [segmentText_cons, segmentText_cons, List.cons_append, meet, peek_cons]
      by_cases goes : placeChar o ≠ nul ∧ stop (placeChar o') = false ∧ (placeChar o = placeChar o' ∨ placeChar o = 'A')
      · obtain ⟨n, few, few', result, pairs⟩ := ih ws
        refine ⟨n + 1, Nat.succ_le_succ few, Nat.succ_le_succ few', ?_, .cons (covers_of_placeChar goes.2.2) pairs⟩
        rw [if_pos goes]
        exact result
      · exact ⟨0, Nat.zero_le _, Nat.zero_le _, if_neg goes, .nil⟩

theorem meet_within (stop : Char → Bool) (ws rs : Segment Char) {wrest after : List Char}
    (ends : wrest = [] ∨ peek wrest = 'Z')
    (edge : after = [] ∨ stop (peek after) = true ∨ ws.length ≤ rs.length ∧ peek after ≠ 'Z') :
    ∃ n, n ≤ ws.length ∧ n ≤ rs.length ∧
      meet stop (segmentText ws ++ wrest) (segmentText rs ++ after) =
        (segmentText (ws.drop n) ++ wrest, segmentText (rs.drop n) ++ after) ∧
      List.Forall₂ (Token.Covers toLower) (Segment.tokens (ws.take n)) (Segment.tokens (rs.take n)) := by
  obtain ⟨n, few, few', result, pairs⟩ := meet_places stop ws rs ends
  refine ⟨n, few, few', ?_, pairs⟩
  rw [meet_append, result]
  by_cases past : segmentText (rs.drop n) = []
  · rw [if_pos past, past, List.nil_append]
    apply meet_stops
    intro some_after
    rcases edge with nothing | stopped | ⟨short, other⟩
    · exact absurd nothing some_after
    · exact .inr (.inl stopped)
    · have length := congrArg List.length past
      rw [length_segmentText, List.length_drop, List.length_nil] at length
      rw [List.drop_eq_nil_of_le (by omega), segmentText_nil, List.nil_append]
      rcases ends with rfl | star
      · exact .inl rfl
      · rw [star]
        exact .inr (.inr ⟨fun same => other same.symm, by decide⟩)
  · rw [if_neg past]

/-! ## Chunks -/

def GoodChunks (chunks : List (Segment Char)) : Prop := ∀ chunk ∈ chunks, Led chunk ∧ CleanSegment chunk

theorem chunksText_cons (chunk : Segment Char) (chunks : List (Segment Char)) :
    chunksText (chunk :: chunks) = 'Z' :: (segmentText chunk ++ chunksText chunks) := by
  simp [chunksText]

theorem chunksText_ends (chunks : List (Segment Char)) : chunksText chunks = [] ∨ peek (chunksText chunks) = 'Z' := by
  cases chunks with
  | nil => exact .inl rfl
  | cons chunk chunks => exact .inr (by rw [chunksText_cons, peek_cons])

theorem peek_chunksText_ne_A (chunks : List (Segment Char)) : peek (chunksText chunks) ≠ 'A' := by
  rcases chunksText_ends chunks with ended | star
  · rw [ended]
    decide
  · rw [star]
    decide

theorem chunksLength_cons (chunk : Segment Char) (chunks : List (Segment Char)) :
    chunksLength (chunk :: chunks) = chunk.length + chunksLength chunks := by
  simp [chunksLength]

theorem chunk_ended {seg : Segment Char} (chunks : List (Segment Char)) (clean : CleanSegment seg) :
    (peek (segmentText seg ++ chunksText chunks) = nul → seg = [] ∧ chunks = []) ∧
      (peek (segmentText seg ++ chunksText chunks) = 'Z' → seg = [] ∧ chunks ≠ []) := by
  constructor
  · intro ended
    have empty := (peek_segmentText clean _).1 ended
    refine ⟨empty, ?_⟩
    cases chunks with
    | nil => rfl
    | cons chunk chunks =>
      rw [empty, segmentText_nil, List.nil_append, chunksText_cons, peek_cons] at ended
      exact absurd ended (by decide)
  · intro star
    have empty := (peek_segmentText clean _).2 star
    refine ⟨empty, ?_⟩
    rintro rfl
    rw [empty] at star
    exact absurd star (by decide)

theorem placed_of_compare {c : Char} {o : Option Char} {rest rs : Segment Char} {n k : Nat}
    {chunks : List (Segment Char)} {ts : List (Token Char)} (found : toLower c = placeChar o)
    (pairs : List.Forall₂ (Token.Covers toLower) (Segment.tokens (rest.take n)) (Segment.tokens (rs.take n)))
    (ones : rest.drop n = List.replicate k none) (placed : Placed toLower k chunks (Segment.tokens (rs.drop n) ++ ts)) :
    Placed toLower 0 ((some c :: rest) :: chunks) (Segment.tokens (o :: rs) ++ ts) := by
  have first : List.Forall₂ (Token.Covers toLower) (Segment.tokens (some c :: rest.take n)) (Segment.tokens (o :: rs.take n)) :=
    .cons (covers_of_found found) pairs
  have whole := Placed.chunk first placed
  have chunk : (some c :: rest.take n) ++ List.replicate k none = some c :: rest := by
    rw [← ones, List.cons_append, List.take_append_drop]
  have tokens : Segment.tokens (o :: rs.take n) ++ (Segment.tokens (rs.drop n) ++ ts) = Segment.tokens (o :: rs) ++ ts := by
    rw [← List.append_assoc, ← Segment.tokens_append, List.cons_append, List.take_append_drop]
  rwa [chunk, tokens] at whole

/-! ## Seeking -/

theorem seek_places {free : Char → Bool} (costs : ∀ o, free (placeChar o) = false) (c : Char) (rs : Segment Char)
    (after : List Char) (trash : Int) (some_trash : 0 ≤ trash) :
    seek free c (segmentText rs ++ after) trash = .spent ∨
      (∃ skipped o rs', rs = skipped ++ o :: rs' ∧ c = placeChar o ∧ (skipped.length : Int) ≤ trash ∧
        seek free c (segmentText rs ++ after) trash = .found (segmentText (o :: rs') ++ after) (trash - skipped.length)) ∨
      (rs.length : Int) ≤ trash ∧
        seek free c (segmentText rs ++ after) trash = seek free c after (trash - rs.length) := by
  induction rs generalizing trash with
  | nil => exact .inr (.inr ⟨by simpa using some_trash, by simp⟩)
  | cons o rs ih =>
    rw [segmentText_cons, List.cons_append, seek]
    by_cases here : c = placeChar o
    · rw [if_pos here]
      exact .inr (.inl ⟨[], o, rs, rfl, here, by simpa using some_trash, by simp⟩)
    · rw [if_neg here, costs, if_neg Bool.false_ne_true]
      by_cases out : trash - 1 < 0
      · exact .inl (if_pos out)
      · rw [if_neg out]
        rcases ih (trash - 1) (by omega) with spent | ⟨skipped, o', rs', split, same, room, result⟩ | ⟨room, result⟩
        · exact .inl spent
        · refine .inr (.inl ⟨o :: skipped, o', rs', by rw [split]; rfl, same, by rw [List.length_cons]; omega, ?_⟩)
          rw [result, List.length_cons]
          congr 1
          omega
        · refine .inr (.inr ⟨by rw [List.length_cons]; omega, ?_⟩)
          rw [result, List.length_cons]
          congr 1
          omega

theorem never_costs (o : Option Char) : never (placeChar o) = false := rfl

theorem atStar_costs (o : Option Char) : atStar (placeChar o) = false := decide_eq_false (placeChar_ne_Z o)

theorem placed_after_skip {chunks : List (Segment Char)} {skipped rs : Segment Char} {ts : List (Token Char)}
    (placed : Placed toLower 0 chunks (rs.tokens ++ ts)) : Placed toLower 0 chunks (Segment.tokens (skipped ++ rs) ++ ts) := by
  rw [Segment.tokens_append, List.append_assoc]
  exact placed.skip_segment skipped

theorem exists_chunk {chunks : List (Segment Char)} (good : GoodChunks chunks) (some_chunks : chunks ≠ []) :
    ∃ c rest chunks', chunks = (some c :: rest) :: chunks' ∧ CleanSegment rest ∧ GoodChunks chunks' ∧
      chunksText chunks = 'Z' :: toLower c :: (segmentText rest ++ chunksText chunks') ∧
      chunksLength chunks = rest.length + 1 + chunksLength chunks' := by
  obtain ⟨chunk, chunks', rfl⟩ := List.exists_cons_of_ne_nil some_chunks
  obtain ⟨⟨c, rest, rfl⟩, clean⟩ := good chunk List.mem_cons_self
  exact ⟨c, rest, chunks', rfl, clean.tail, fun other mem => good other (List.mem_cons_of_mem _ mem),
    chunksText_cons _ _, chunksLength_cons _ _⟩

section
variable {goal : Prop}

/-! ## No star in the restricted mask -/

structure FlatInv (goal : Prop) (after : List Char) (chunks : List (Segment Char)) (rs : Segment Char) (s : FlatState) :
    Prop where
  w : s.w = chunksText chunks
  some_chunks : chunks ≠ []
  good : GoodChunks chunks
  rx : s.rx = segmentText rs ++ after
  some_trash : 0 ≤ s.trash
  spare : s.trash + chunksLength chunks ≤ rs.length
  placed : Placed toLower 0 chunks (rs.tokens ++ []) → goal

theorem FlatInv.turn {after : List Char} {chunks : List (Segment Char)} {rs : Segment Char} {s : FlatState}
    (inv : FlatInv goal after chunks rs s) (plain : peek after ≠ 'Z') :
    (∃ s' chunks' rs', flatTurn s = some (.inl s') ∧ FlatInv goal after chunks' rs' s' ∧ rs'.length < rs.length) ∨
      ∃ r, flatTurn s = some (.inr r) ∧ (r = 0 → goal) := by
  obtain ⟨c, rest, chunks', rfl, clean, good, text, length⟩ := exists_chunk inv.good inv.some_chunks
  have spare := inv.spare
  have whole := inv.placed
  rw [length] at spare
  rw [flatTurn, inv.w, text, inv.rx, List.tail_cons, peek_cons, List.tail_cons]
  rcases seek_places never_costs (toLower c) rs after _ inv.some_trash with spent | ⟨skipped, o, rs', rfl, same, room, found⟩ | ⟨room, -⟩
  · rw [spent]
    exact .inr ⟨1, rfl, by simp⟩
  · rw [found]
    rw [List.length_append, List.length_cons] at spare
    have edge : after = [] ∨ never (peek after) = true ∨ rest.length ≤ rs'.length ∧ peek after ≠ 'Z' :=
      .inr (.inr ⟨by omega, plain⟩)
    obtain ⟨n, few, few', met, pairs⟩ := meet_within never rest rs' (chunksText_ends chunks') edge
    simp only [segmentText_cons, List.cons_append, List.tail_cons, met]
    have ended := chunk_ended chunks' (clean.drop n)
    by_cases at_end : peek (segmentText (rest.drop n) ++ chunksText chunks') = nul
    · obtain ⟨no_rest, rfl⟩ := ended.1 at_end
      rw [if_pos at_end]
      exact .inr ⟨0, rfl, fun _ => whole (placed_after_skip (placed_of_compare (k := 0) same pairs no_rest (.done (Nat.zero_le _))))⟩
    · rw [if_neg at_end]
      by_cases star : peek (segmentText (rest.drop n) ++ chunksText chunks') = 'Z'
      · obtain ⟨no_rest, some_chunks⟩ := ended.2 star
        rw [if_neg (not_not.mpr star)]
        have all := List.drop_eq_nil_iff.mp no_rest
        refine .inl ⟨_, chunks', rs'.drop n, rfl, ⟨?_, some_chunks, good, rfl, by simp only; omega, ?_, fun placed => ?_⟩, ?_⟩
        · rw [no_rest]
          rfl
        · simp only [List.length_drop]
          omega
        · exact whole (placed_after_skip (placed_of_compare (k := 0) same pairs no_rest placed))
        · rw [List.length_drop, List.length_append, List.length_cons]
          omega
      · rw [if_pos star]
        by_cases out : s.trash - skipped.length - 1 < 0
        · rw [if_pos out]
          exact .inr ⟨1, rfl, by simp⟩
        · rw [if_neg out]
          refine .inl ⟨_, _, rs', rfl, ⟨text.symm, inv.some_chunks, inv.good, rfl, by simp only; omega, ?_, fun placed => ?_⟩, ?_⟩
          · rw [length]
            simp only
            omega
          · exact whole (placed_after_skip (.skip _ placed))
          · rw [List.length_append, List.length_cons]
            omega
  · omega

theorem FlatInv.ends {after : List Char} {chunks : List (Segment Char)} {rs : Segment Char} {s : FlatState} {fuel : Nat}
    (inv : FlatInv goal after chunks rs s) (plain : peek after ≠ 'Z') (enough : rs.length < fuel) :
    ∃ r, loop flatTurn fuel s = some r ∧ (r = 0 → goal) := by
  refine loop_ends (fun k s => ∃ chunks rs, k = rs.length ∧ FlatInv goal after chunks rs s) (fun r => r = 0 → goal) ?_
    ⟨chunks, rs, rfl, inv⟩ enough
  rintro k s ⟨chunks, rs, rfl, inv⟩
  rcases inv.turn plain with ⟨s', chunks', rs', next, inv', less⟩ | answer
  · exact .inl ⟨s', _, next, ⟨chunks', rs', rfl, inv'⟩, less⟩
  · exact .inr answer

/-! ## What is left of the tail -/

structure TailInv (goal : Prop) (below : List Char) (chunks : List (Segment Char)) (rs : Segment Char) (s : TailState) :
    Prop where
  w : s.w = chunksText chunks
  some_chunks : chunks ≠ []
  good : GoodChunks chunks
  back : s.back = segmentText rs ++ below
  some_trash : 0 ≤ s.trash
  spare : s.trash + chunksLength chunks ≤ rs.length + 1
  placed : Placed toLower 0 chunks (rs.tokens ++ []) → goal

theorem TailInv.turn {below : List Char} {chunks : List (Segment Char)} {rs : Segment Char} {s : TailState}
    (inv : TailInv goal below chunks rs s) (some_below : below ≠ []) :
    (∃ s' chunks' rs', tailTurn below.length s = some (.inl s') ∧ TailInv goal below chunks' rs' s' ∧
      rs'.length < rs.length) ∨ ∃ r, tailTurn below.length s = some (.inr r) ∧ (r = 0 → goal) := by
  obtain ⟨c, rest, chunks', rfl, clean, good, text, length⟩ := exists_chunk inv.good inv.some_chunks
  have spare := inv.spare
  have whole := inv.placed
  rw [length] at spare
  rw [tailTurn, inv.w, text, inv.back, List.tail_cons, peek_cons, List.tail_cons]
  by_cases finished : (segmentText rs ++ below).length ≤ below.length
  · rw [if_pos finished]
    exact .inr ⟨1, rfl, by simp⟩
  rw [if_neg finished]
  rcases seek_places never_costs (toLower c) rs below _ inv.some_trash with
    spent | ⟨skipped, o, rs', rfl, same, room, found⟩ | ⟨room, out⟩
  · rw [spent]
    exact .inr ⟨1, rfl, by simp⟩
  · rw [found]
    rw [List.length_append, List.length_cons] at spare
    have above : ¬ (placeChar o :: (segmentText rs' ++ below)).length ≤ below.length := by
      rw [List.length_cons, List.length_append]
      omega
    obtain ⟨n, few, few', met, pairs⟩ := meet_places never rest rs' (chunksText_ends chunks')
    have space : (segmentText rs' ++ below).length - below.length = rs'.length := by simp
    have here : (segmentText rs' ++ below).take rs'.length = segmentText rs' := by
      rw [← length_segmentText rs', List.take_left]
    simp only [segmentText_cons, List.cons_append, if_neg above, List.tail_cons, space, here, met]
    have ended := chunk_ended chunks' (clean.drop n)
    by_cases at_end : peek (segmentText (rest.drop n) ++ chunksText chunks') = nul
    · obtain ⟨no_rest, rfl⟩ := ended.1 at_end
      rw [if_pos at_end]
      exact .inr ⟨0, rfl, fun _ =>
        whole (placed_after_skip (placed_of_compare (k := 0) same pairs no_rest (.done (Nat.zero_le _))))⟩
    · rw [if_neg at_end]
      by_cases past : segmentText (rs'.drop n) = []
      · rw [if_pos past]
        exact .inr ⟨1, rfl, by simp⟩
      · rw [if_neg past]
        by_cases star : peek (segmentText (rest.drop n) ++ chunksText chunks') = 'Z'
        · obtain ⟨no_rest, some_chunks⟩ := ended.2 star
          have all := List.drop_eq_nil_iff.mp no_rest
          have moved : rs'.length - (segmentText (rs'.drop n)).length = n := by
            rw [length_segmentText, List.length_drop]
            omega
          rw [if_neg (not_not.mpr star), moved]
          refine .inl ⟨_, chunks', rs'.drop n, rfl, ⟨?_, some_chunks, good, ?_, by simp only; omega, ?_, fun placed => ?_⟩, ?_⟩
          · rw [no_rest]
            rfl
          · rw [List.drop_append_of_le_length (by rwa [length_segmentText])]
            simp [segmentText]
          · simp only [List.length_drop]
            omega
          · exact whole (placed_after_skip (placed_of_compare (k := 0) same pairs no_rest placed))
          · rw [List.length_drop, List.length_append, List.length_cons]
            omega
        · rw [if_pos star]
          by_cases out : s.trash - skipped.length - 1 < 0
          · rw [if_pos out]
            exact .inr ⟨1, rfl, by simp⟩
          · rw [if_neg out]
            refine .inl ⟨_, _, rs', rfl, ⟨text.symm, inv.some_chunks, inv.good, rfl, by simp only; omega, ?_,
              fun placed => ?_⟩, ?_⟩
            · rw [length]
              simp only
              omega
            · exact whole (placed_after_skip (.skip _ placed))
            · rw [List.length_append, List.length_cons]
              omega
  · -- There is a character below the tail, and no `trash` left to go past it.
    obtain ⟨d, below, rfl⟩ := List.exists_cons_of_ne_nil some_below
    rw [out, seek]
    by_cases here : toLower c = d
    · simp [here]
    · rw [if_neg here, never, if_neg Bool.false_ne_true, if_pos (by omega)]
      exact .inr ⟨1, rfl, by simp⟩

/-! ## What is left of the head -/

/-- The loops over the head and over the chunks leave this behind: what is still to be placed in `ts`. -/
structure LeftInv (goal : Prop) (slack : Nat) (ts : List (Token Char)) (chunks : List (Segment Char)) (left : Left) : Prop where
  w : left.w = chunksText chunks
  some_chunks : chunks ≠ []
  good : GoodChunks chunks
  some_trash : 0 ≤ left.trash
  spare : left.trash + left.eat + chunksLength chunks ≤ minLength ts + slack
  placed : Placed toLower left.eat chunks ts → goal

def LeavesWell (goal : Prop) (slack : Nat) (ts : List (Token Char)) : Nat ⊕ Left → Prop
  | .inl r => r = 0 → goal
  | .inr left => ∃ chunks, LeftInv goal slack ts chunks left

structure HeadInv (goal : Prop) (ts : List (Token Char)) (chunks : List (Segment Char)) (rs : Segment Char)
    (s : HeadState) : Prop where
  w : s.w = chunksText chunks
  some_chunks : chunks ≠ []
  good : GoodChunks chunks
  rest : s.rest = segmentText rs
  owed : s.eat ≠ 0 → rs = []
  some_trash : 0 ≤ s.trash
  spare : s.trash + s.eat + chunksLength chunks ≤ rs.length + minLength ts
  placed : Placed toLower s.eat chunks (rs.tokens ++ ts) → goal

theorem eaten_or_not (p : Prop) [Decidable p] (seg : Segment Char) (chunks : List (Segment Char)) :
    ∃ k seg', seg = List.replicate k none ++ seg' ∧ (k ≠ 0 → p) ∧
      (if p then eatOnes (segmentText seg ++ chunksText chunks) 0 else (segmentText seg ++ chunksText chunks, 0)) =
        (segmentText seg' ++ chunksText chunks, k) := by
  by_cases ended : p
  · obtain ⟨k, seg', split, result⟩ := eatOnes_segmentText seg (peek_chunksText_ne_A chunks) 0
    refine ⟨k, seg', split, fun _ => ended, ?_⟩
    rw [if_pos ended, result, Nat.zero_add]
  · exact ⟨0, seg, rfl, fun nonzero => absurd rfl nonzero, if_neg ended⟩

theorem HeadInv.turn {ts : List (Token Char)} {chunks : List (Segment Char)} {rs : Segment Char} {s : HeadState}
    (inv : HeadInv goal ts chunks rs s) :
    (∃ s' chunks' rs', headTurn s = some (.inl s') ∧ HeadInv goal ts chunks' rs' s' ∧ rs'.length < rs.length) ∨
      ∃ r, headTurn s = some (.inr r) ∧ LeavesWell goal 0 ts r := by
  obtain ⟨c, rest, chunks', rfl, clean, good, text, length⟩ := exists_chunk inv.good inv.some_chunks
  have spare := inv.spare
  have whole := inv.placed
  rw [length] at spare
  have sought := seek_places never_costs (toLower c) rs [] _ inv.some_trash
  rw [List.append_nil] at sought
  rw [headTurn, inv.w, text, inv.rest, List.tail_cons, peek_cons, List.tail_cons]
  rcases sought with spent | ⟨skipped, o, rs', rfl, same, room, found⟩ | ⟨room, out⟩
  · rw [spent]
    exact .inr ⟨.inl 1, rfl, by simp [LeavesWell]⟩
  · rw [found]
    rw [List.length_append, List.length_cons] at spare
    have nothing_owed : s.eat = 0 := by
      by_contra some_owed
      exact absurd (inv.owed some_owed) (by simp)
    rw [nothing_owed] at spare whole
    obtain ⟨n, few, few', met, pairs⟩ := meet_places never rest rs' (chunksText_ends chunks')
    obtain ⟨k, seg, split, past, eaten⟩ := eaten_or_not (segmentText (rs'.drop n) = []) (rest.drop n) chunks'
    have clean_seg : CleanSegment seg := fun mem =>
      clean.drop n (by rw [split]; exact List.mem_append_right _ mem)
    simp only [List.append_nil, segmentText_cons, List.tail_cons, met, nothing_owed, eaten, length_segmentText]
    have ended := chunk_ended chunks' clean_seg
    have lengths := congrArg List.length split
    rw [List.length_drop, List.length_append, List.length_replicate] at lengths
    by_cases at_end : peek (segmentText seg ++ chunksText chunks') = nul
    · obtain ⟨rfl, rfl⟩ := ended.1 at_end
      rw [if_pos at_end]
      rw [List.append_nil] at split
      refine .inr ⟨.inl 0, rfl, fun _ => whole (placed_after_skip (placed_of_compare same pairs split (.done ?_)))⟩
      have rest_chunks : chunksLength [] = 0 := rfl
      rw [minLength_tokens, List.length_drop]
      rw [List.length_nil] at lengths
      omega
    · rw [if_neg at_end]
      by_cases star : peek (segmentText seg ++ chunksText chunks') = 'Z'
      · obtain ⟨rfl, some_chunks⟩ := ended.2 star
        rw [if_neg (not_not.mpr star)]
        rw [List.append_nil] at split
        rw [List.length_nil] at lengths
        refine .inl ⟨_, chunks', rs'.drop n, rfl, ⟨rfl, some_chunks, good, rfl, fun owed => ?_, by simp only; omega, ?_,
          fun placed => ?_⟩, ?_⟩
        · exact List.map_eq_nil_iff.mp (past owed)
        · simp only [List.length_drop]
          omega
        · exact whole (placed_after_skip (placed_of_compare same pairs split placed))
        · rw [List.length_drop, List.length_append, List.length_cons]
          omega
      · rw [if_pos star]
        by_cases at_rz : segmentText (rs'.drop n) = []
        · rw [if_pos at_rz]
          by_cases out : s.trash - skipped.length - rs'.length - 1 < 0
          · rw [if_pos out]
            exact .inr ⟨.inl 1, rfl, by simp [LeavesWell]⟩
          · rw [if_neg out]
            refine .inr ⟨.inr _, rfl, _, ⟨text.symm, inv.some_chunks, inv.good, by simp only; omega, ?_, fun placed => ?_⟩⟩
            · rw [length]
              simp only
              omega
            · exact whole (placed.skip_segment _)
        · rw [if_neg at_rz]
          by_cases out : s.trash - skipped.length - 1 < 0
          · rw [if_pos out]
            exact .inr ⟨.inl 1, rfl, by simp [LeavesWell]⟩
          · rw [if_neg out]
            refine .inl ⟨_, _, rs', rfl, ⟨text.symm, inv.some_chunks, inv.good, rfl, fun owed => absurd rfl owed,
              by simp only; omega, ?_, fun placed => ?_⟩, ?_⟩
            · rw [length]
              simp only
              omega
            · exact whole (placed_after_skip (.skip _ placed))
            · rw [List.length_append, List.length_cons]
              omega
  · rw [out, seek]
    refine .inr ⟨.inr _, rfl, _, ⟨text.symm, inv.some_chunks, inv.good, by simp only; omega, ?_, fun placed => whole ?_⟩⟩
    · rw [length]
      simp only
      omega
    · by_cases owed : s.eat = 0
      · rw [owed]
        exact Placed.skip_segment (by rwa [owed] at placed) rs
      · rw [inv.owed owed]
        exact placed

theorem HeadInv.ends {ts : List (Token Char)} {chunks : List (Segment Char)} {rs : Segment Char} {s : HeadState} {fuel : Nat}
    (inv : HeadInv goal ts chunks rs s) (enough : rs.length < fuel) :
    ∃ r, loop headTurn fuel s = some r ∧ LeavesWell goal 0 ts r := by
  refine loop_ends (fun k s => ∃ chunks rs, k = rs.length ∧ HeadInv goal ts chunks rs s) (LeavesWell goal 0 ts) ?_
    ⟨chunks, rs, rfl, inv⟩ enough
  rintro k s ⟨chunks, rs, rfl, inv⟩
  rcases inv.turn with ⟨s', chunks', rs', next, inv', less⟩ | answer
  · exact .inl ⟨s', _, next, ⟨chunks', rs', rfl, inv'⟩, less⟩
  · exact .inr answer

/-! ## The chunks of the restricted mask -/

def pieceTokens (rs : Segment Char) (pieces : List (Segment Char)) (ts : List (Token Char)) : List (Token Char) :=
  rs.tokens ++ (chunkTokens pieces ++ ts)

def pieceText (rs : Segment Char) (pieces : List (Segment Char)) : List Char := segmentText rs ++ chunksText pieces

theorem pieceTokens_star (piece : Segment Char) (pieces : List (Segment Char)) (ts : List (Token Char)) :
    pieceTokens [] (piece :: pieces) ts = .star :: pieceTokens piece pieces ts := by
  simp [pieceTokens, chunkTokens]

theorem pieceText_star (piece : Segment Char) (pieces : List (Segment Char)) :
    pieceText [] (piece :: pieces) = 'Z' :: pieceText piece pieces := by
  simp [pieceText, chunksText]

theorem minLength_pieceTokens (rs : Segment Char) (pieces : List (Segment Char)) (ts : List (Token Char)) :
    minLength (pieceTokens rs pieces ts) = rs.length + chunksLength pieces + minLength ts := by
  rw [pieceTokens, minLength_tokens, minLength_chunkTokens, Nat.add_assoc]

theorem pieceText_nil {rs : Segment Char} {pieces : List (Segment Char)} (empty : pieceText rs pieces = []) :
    rs = [] ∧ pieces = [] := by
  obtain ⟨no_places, no_chunks⟩ := List.append_eq_nil_iff.mp empty
  refine ⟨List.map_eq_nil_iff.mp no_places, ?_⟩
  cases pieces with
  | nil => rfl
  | cons piece pieces =>
    rw [chunksText_cons] at no_chunks
    cases no_chunks

theorem placed_after_pieces {chunks : List (Segment Char)} {ts : List (Token Char)} (placed : Placed toLower 0 chunks ts)
    (rs : Segment Char) (pieces : List (Segment Char)) : Placed toLower 0 chunks (pieceTokens rs pieces ts) := by
  induction pieces generalizing rs with
  | nil => exact placed.skip_segment rs
  | cons piece pieces ih =>
    have behind := (ih piece).star
    rw [← pieceTokens_star] at behind
    exact behind.skip_segment rs

theorem skipEaten_pieces (eat : Nat) (rs : Segment Char) (pieces : List (Segment Char)) :
    ∃ eat' rs' pieces', skipEaten eat (pieceText rs pieces) = (pieceText rs' pieces', eat') ∧
      (eat' ≠ 0 → rs' = [] ∧ pieces' = []) ∧ eat' + (rs.length + chunksLength pieces) = eat + (rs'.length + chunksLength pieces') ∧
      (pieceText rs' pieces').length ≤ (pieceText rs pieces).length ∧
      ∀ chunks ts, Placed toLower eat' chunks (pieceTokens rs' pieces' ts) → Placed toLower eat chunks (pieceTokens rs pieces ts) := by
  induction pieces generalizing eat rs with
  | nil =>
    induction rs generalizing eat with
    | nil =>
      refine ⟨eat, [], [], ?_, fun _ => ⟨rfl, rfl⟩, rfl, Nat.le_refl _, fun _ _ placed => placed⟩
      cases eat <;> rfl
    | cons o rs ih =>
      cases eat with
      | zero => exact ⟨0, _, _, rfl, fun owed => absurd rfl owed, rfl, Nat.le_refl _, fun _ _ placed => placed⟩
      | succ eat =>
        obtain ⟨eat', rs', pieces', result, owed, lengths, shorter, placed⟩ := ih eat
        refine ⟨eat', rs', pieces', ?_, owed, by rw [List.length_cons]; omega, Nat.le_succ_of_le shorter, fun chunks ts rest => ?_⟩
        · exact (if_neg (placeChar_ne_Z o)).trans result
        · exact .eaten (by cases o <;> nofun) (placed chunks ts rest)
  | cons piece pieces outer =>
    induction rs generalizing eat with
    | nil =>
      cases eat with
      | zero => exact ⟨0, _, _, rfl, fun owed => absurd rfl owed, rfl, Nat.le_refl _, fun _ _ placed => placed⟩
      | succ eat =>
        obtain ⟨eat', rs', pieces', result, owed, lengths, shorter, placed⟩ := outer (eat + 1) piece
        rw [pieceText_star]
        refine ⟨eat', rs', pieces', (if_pos rfl).trans result, owed, ?_, Nat.le_succ_of_le shorter, fun chunks ts rest => ?_⟩
        · rw [chunksLength_cons, List.length_nil]
          omega
        · rw [pieceTokens_star]
          exact .star (placed chunks ts rest)
    | cons o rs ih =>
      cases eat with
      | zero => exact ⟨0, _, _, rfl, fun owed => absurd rfl owed, rfl, Nat.le_refl _, fun _ _ placed => placed⟩
      | succ eat =>
        obtain ⟨eat', rs', pieces', result, owed, lengths, shorter, placed⟩ := ih eat
        refine ⟨eat', rs', pieces', ?_, owed, by rw [List.length_cons]; omega, Nat.le_succ_of_le shorter, fun chunks ts rest => ?_⟩
        · exact (if_neg (placeChar_ne_Z o)).trans result
        · exact .eaten (by cases o <;> nofun) (placed chunks ts rest)

theorem seek_pieces {c : Char} (literal : c ≠ 'Z') (rs : Segment Char) (pieces : List (Segment Char)) (trash : Int)
    (some_trash : 0 ≤ trash) :
    seek atStar c (pieceText rs pieces) trash = .spent ∨
      (∃ o rs' pieces' trash', seek atStar c (pieceText rs pieces) trash = .found (pieceText (o :: rs') pieces') trash' ∧
        c = placeChar o ∧ 0 ≤ trash' ∧
        trash + (rs'.length + 1 + chunksLength pieces') = trash' + (rs.length + chunksLength pieces) ∧
        (pieceText (o :: rs') pieces').length ≤ (pieceText rs pieces).length ∧
        ∀ chunks ts, Placed toLower 0 chunks (pieceTokens (o :: rs') pieces' ts) →
          Placed toLower 0 chunks (pieceTokens rs pieces ts)) ∨
      ∃ trash', seek atStar c (pieceText rs pieces) trash = .outside trash' ∧ 0 ≤ trash' ∧
        trash = trash' + (rs.length + chunksLength pieces) := by
  induction pieces generalizing rs trash with
  | nil =>
    rcases seek_places atStar_costs c rs [] _ some_trash with spent | ⟨skipped, o, rs', rfl, same, room, found⟩ | ⟨room, out⟩
    · exact .inl spent
    · refine .inr (.inl ⟨o, rs', [], _, found, same, by omega, ?_, ?_, fun chunks ts placed => placed_after_skip placed⟩)
      · rw [List.length_append, List.length_cons]
        omega
      · simp only [pieceText, List.length_append, length_segmentText, List.length_cons]
        omega
    · exact .inr (.inr ⟨_, out, by omega, by simp [chunksLength]⟩)
  | cons piece pieces ih =>
    rcases seek_places atStar_costs c rs (chunksText (piece :: pieces)) _ some_trash with
      spent | ⟨skipped, o, rs', rfl, same, room, found⟩ | ⟨room, out⟩
    · exact .inl spent
    · refine .inr (.inl ⟨o, rs', piece :: pieces, _, found, same, by omega, ?_, ?_, fun chunks ts placed => placed_after_skip placed⟩)
      · rw [List.length_append, List.length_cons]
        omega
      · simp only [pieceText, List.length_append, length_segmentText, List.length_cons]
        omega
    · have star : seek atStar c (chunksText (piece :: pieces)) (trash - rs.length) =
          seek atStar c (pieceText piece pieces) (trash - rs.length) := by
        rw [chunksText_cons, seek, if_neg literal]
        rfl
      rw [pieceText, out, star]
      rcases ih piece (trash - rs.length) (by omega) with
        spent | ⟨o, rs', pieces', trash', found, same, some_trash', lengths, shorter, placed⟩ | ⟨trash', outside, some_trash', lengths⟩
      · exact .inl spent
      · refine .inr (.inl ⟨o, rs', pieces', trash', found, same, some_trash', ?_, ?_, fun chunks ts rest => ?_⟩)
        · rw [chunksLength_cons]
          omega
        · refine shorter.trans ?_
          simp [pieceText, chunksText_cons]
          omega
        · have behind := (placed chunks ts rest).star
          rw [← pieceTokens_star] at behind
          exact behind.skip_segment rs
      · refine .inr (.inr ⟨trash', outside, some_trash', ?_⟩)
        rw [chunksLength_cons]
        omega

structure ChunkInv (goal : Prop) (ts : List (Token Char)) (chunks : List (Segment Char)) (rs : Segment Char)
    (pieces : List (Segment Char)) (s : ChunkState) : Prop where
  w : s.w = chunksText chunks
  some_chunks : chunks ≠ []
  good : GoodChunks chunks
  r : s.r = pieceText rs pieces
  some_trash : 0 ≤ s.trash
  spare : s.trash + s.eat + chunksLength chunks ≤ rs.length + chunksLength pieces + minLength ts
  placed : Placed toLower s.eat chunks (pieceTokens rs pieces ts) → goal

theorem peek_pieceText_Z {rs : Segment Char} {pieces : List (Segment Char)} (star : peek (pieceText rs pieces) = 'Z') :
    rs = [] := by
  cases rs with
  | nil => rfl
  | cons o rs => exact absurd star (placeChar_ne_Z o)

theorem ChunkInv.turn {ts : List (Token Char)} {chunks : List (Segment Char)} {rs : Segment Char}
    {pieces : List (Segment Char)} {s : ChunkState} (inv : ChunkInv goal ts chunks rs pieces s) :
    (∃ s' chunks' rs' pieces', chunkTurn s = some (.inl s') ∧ ChunkInv goal ts chunks' rs' pieces' s' ∧
      s'.r.length < s.r.length) ∨ ∃ r, chunkTurn s = some (.inr r) ∧ LeavesWell goal 1 ts r := by
  obtain ⟨c, rest, chunks', rfl, clean, good, text, length⟩ := exists_chunk inv.good inv.some_chunks
  have spare := inv.spare
  have whole := inv.placed
  rw [length] at spare
  rw [chunkTurn, inv.w, text, inv.r, List.tail_cons, peek_cons, List.tail_cons]
  by_cases empty : pieceText rs pieces = []
  · obtain ⟨rfl, rfl⟩ := pieceText_nil empty
    rw [if_pos empty]
    refine .inr ⟨.inr _, rfl, _, ⟨text.symm, inv.some_chunks, inv.good, inv.some_trash, ?_, whole⟩⟩
    have none_left : chunksLength [] = 0 := rfl
    rw [length]
    rw [List.length_nil] at spare
    simp only
    omega
  rw [if_neg empty]
  obtain ⟨eat, rs₁, pieces₁, skipped, owed, lengths₁, shorter₁, placed₁⟩ := skipEaten_pieces s.eat rs pieces
  rw [skipped]
  dsimp only
  rcases seek_pieces (toLower_ne_Z c) rs₁ pieces₁ _ inv.some_trash with
    spent | ⟨o, rs₂, pieces₂, trash, found, same, some_trash, lengths₂, shorter₂, placed₂⟩ | ⟨trash, out, some_trash, lengths₂⟩
  · rw [spent]
    exact .inr ⟨.inl 1, rfl, by simp [LeavesWell]⟩
  · rw [found]
    have nothing_owed : eat = 0 := by
      by_contra some_owed
      obtain ⟨rfl, rfl⟩ := owed some_owed
      have nothing : pieceText [] [] = [] := rfl
      rw [nothing, seek] at found
      cases found
    subst nothing_owed
    have back (placed : Placed toLower 0 ((some c :: rest) :: chunks') (pieceTokens (o :: rs₂) pieces₂ ts)) : goal :=
      whole (placed₁ _ _ (placed₂ _ _ placed))
    have edge : chunksText pieces₂ = [] ∨ atStar (peek (chunksText pieces₂)) = true ∨
        rest.length ≤ rs₂.length ∧ peek (chunksText pieces₂) ≠ 'Z' :=
      (chunksText_ends pieces₂).imp_right fun star => .inl (decide_eq_true star)
    obtain ⟨n, few, few', met, pairs⟩ := meet_within atStar rest rs₂ (chunksText_ends chunks') edge
    have tail : (pieceText (o :: rs₂) pieces₂).tail = pieceText rs₂ pieces₂ := rfl
    change meet atStar (segmentText rest ++ chunksText chunks') (pieceText rs₂ pieces₂) =
      (segmentText (rest.drop n) ++ chunksText chunks', pieceText (rs₂.drop n) pieces₂) at met
    obtain ⟨k, seg, split, past, eaten⟩ := eaten_or_not (peek (pieceText (rs₂.drop n) pieces₂) = 'Z') (rest.drop n) chunks'
    have clean_seg : CleanSegment seg := fun mem =>
      clean.drop n (by rw [split]; exact List.mem_append_right _ mem)
    simp only [tail, met, eaten]
    have shorter : (pieceText rs₂ pieces₂).length < (pieceText rs pieces).length :=
      Nat.lt_of_lt_of_le (Nat.lt_succ_self _) (shorter₂.trans shorter₁)
    have ended := chunk_ended chunks' clean_seg
    have lengths := congrArg List.length split
    rw [List.length_drop, List.length_append, List.length_replicate] at lengths
    have compared {chunks : List (Segment Char)} {k : Nat} (split : rest.drop n = List.replicate k none)
        (placed : Placed toLower k chunks (pieceTokens (rs₂.drop n) pieces₂ ts)) :
        Placed toLower 0 ((some c :: rest) :: chunks) (pieceTokens (o :: rs₂) pieces₂ ts) :=
      placed_of_compare same pairs split placed
    by_cases at_end : peek (segmentText seg ++ chunksText chunks') = nul
    · obtain ⟨rfl, rfl⟩ := ended.1 at_end
      rw [if_pos at_end]
      rw [List.append_nil] at split
      refine .inr ⟨.inl 0, rfl, fun _ => back (compared split (.done ?_))⟩
      have rest_chunks : chunksLength [] = 0 := rfl
      rw [minLength_pieceTokens, List.length_drop]
      rw [List.length_nil] at lengths
      omega
    · rw [if_neg at_end]
      by_cases star : peek (segmentText seg ++ chunksText chunks') = 'Z'
      · obtain ⟨rfl, some_chunks⟩ := ended.2 star
        rw [if_neg (not_not.mpr star)]
        rw [List.append_nil] at split
        rw [List.length_nil] at lengths
        refine .inl ⟨_, chunks', rs₂.drop n, pieces₂, rfl, ⟨rfl, some_chunks, good, rfl, some_trash, ?_,
          fun placed => back (compared split placed)⟩, ?_⟩
        · simp only [List.length_drop]
          omega
        · refine Nat.lt_of_le_of_lt ?_ shorter
          simp only [pieceText, List.length_append, length_segmentText, List.length_drop]
          omega
      · rw [if_pos star]
        have again (left : trash - 1 ≥ 0) : ChunkInv goal ts ((some c :: rest) :: chunks') rs₂ pieces₂
            ⟨chunksText ((some c :: rest) :: chunks'), pieceText rs₂ pieces₂, 0, trash - 1⟩ := by
          refine ⟨rfl, inv.some_chunks, inv.good, rfl, left, ?_, fun placed => back (.skip _ placed)⟩
          rw [length]
          simp only
          omega
        by_cases at_star : pieceText (rs₂.drop n) pieces₂ = [] ∨ peek (pieceText rs₂ pieces₂) = 'Z'
        · rw [if_pos at_star]
          by_cases out : trash - ((pieceText rs₂ pieces₂).length - (pieceText (rs₂.drop n) pieces₂).length) < 0
          · rw [if_pos out]
            exact .inr ⟨.inl 1, rfl, by simp [LeavesWell]⟩
          · rw [if_neg out]
            by_cases past : pieceText (rs₂.drop n) pieces₂ = []
            · -- The first character of this try is not taken off `trash`.
              rw [if_pos past]
              obtain ⟨-, rfl⟩ := pieceText_nil past
              have length_text : (pieceText rs₂ []).length = rs₂.length := by simp [pieceText, chunksText]
              have no_pieces : chunksLength [] = 0 := rfl
              rw [past, length_text, List.length_nil] at out ⊢
              refine .inr ⟨.inr _, rfl, _, ⟨text.symm, inv.some_chunks, inv.good, by simp only; omega, ?_, fun placed => ?_⟩⟩
              · rw [length]
                simp only
                omega
              · exact back (placed_after_pieces placed _ _)
            · rw [if_neg past]
              have star_here := at_star.resolve_left past
              have no_places := peek_pieceText_Z star_here
              subst no_places
              rw [List.drop_nil] at out ⊢
              rw [sub_self, sub_zero] at out ⊢
              by_cases spent : trash - 1 < 0
              · rw [if_pos spent]
                exact .inr ⟨.inl 1, rfl, by simp [LeavesWell]⟩
              · rw [if_neg spent]
                exact .inl ⟨_, _, [], pieces₂, rfl, text ▸ again (by omega), shorter⟩
        · rw [if_neg at_star]
          by_cases spent : trash - 1 < 0
          · rw [if_pos spent]
            exact .inr ⟨.inl 1, rfl, by simp [LeavesWell]⟩
          · rw [if_neg spent]
            exact .inl ⟨_, _, rs₂, pieces₂, rfl, text ▸ again (by omega), shorter⟩
  · rw [out]
    refine .inr ⟨.inr _, rfl, _, ⟨text.symm, inv.some_chunks, inv.good, some_trash, ?_, fun placed => whole (placed₁ _ _ ?_)⟩⟩
    · rw [length]
      simp only
      omega
    · by_cases some_owed : eat = 0
      · subst some_owed
        exact placed_after_pieces placed rs₁ pieces₁
      · obtain ⟨rfl, rfl⟩ := owed some_owed
        exact placed

theorem ChunkInv.ends {ts : List (Token Char)} {chunks : List (Segment Char)} {rs : Segment Char}
    {pieces : List (Segment Char)} {s : ChunkState} {fuel : Nat} (inv : ChunkInv goal ts chunks rs pieces s)
    (enough : s.r.length < fuel) : ∃ r, loop chunkTurn fuel s = some r ∧ LeavesWell goal 1 ts r := by
  refine loop_ends (fun k s => k = s.r.length ∧ ∃ chunks rs pieces, ChunkInv goal ts chunks rs pieces s)
    (LeavesWell goal 1 ts) ?_ ⟨rfl, chunks, rs, pieces, inv⟩ enough
  rintro k s ⟨rfl, chunks, rs, pieces, inv⟩
  rcases inv.turn with ⟨s', chunks', rs', pieces', next, inv', less⟩ | answer
  · exact .inl ⟨s', _, next, ⟨rfl, chunks', rs', pieces', inv'⟩, less⟩
  · exact .inr answer

theorem TailInv.ends {below : List Char} {chunks : List (Segment Char)} {rs : Segment Char} {s : TailState} {fuel : Nat}
    (inv : TailInv goal below chunks rs s) (some_below : below ≠ []) (enough : rs.length < fuel) :
    ∃ r, loop (tailTurn below.length) fuel s = some r ∧ (r = 0 → goal) := by
  refine loop_ends (fun k s => ∃ chunks rs, k = rs.length ∧ TailInv goal below chunks rs s) (fun r => r = 0 → goal) ?_
    ⟨chunks, rs, rfl, inv⟩ enough
  rintro k s ⟨chunks, rs, rfl, inv⟩
  rcases inv.turn some_below with ⟨s', chunks', rs', next, inv', less⟩ | answer
  · exact .inl ⟨s', _, next, ⟨chunks', rs', rfl, inv'⟩, less⟩
  · exact .inr answer

end

/-! ## Heads and tails -/

theorem mem_tokens {α : Type} {c : α} {seg : Segment α} (mem : some c ∈ seg) : .lit c ∈ seg.tokens :=
  List.mem_map.mpr ⟨some c, mem, rfl⟩

structure Sound (l : Layout) : Prop where
  clean : .lit nul ∉ l.tokens
  good : l.Good
  closed : l.Closed

theorem Sound.plain {head : Segment Char} (sound : Sound (.plain head)) : CleanSegment head :=
  fun mem => sound.clean (mem_tokens mem)

theorem Sound.starred {head tail : Segment Char} {chunks : List (Segment Char)} (sound : Sound (.starred head chunks tail)) :
    CleanSegment head ∧ CleanSegment tail ∧ GoodChunks chunks := by
  refine ⟨sound.good.1, sound.good.2.1, fun chunk mem => ⟨sound.good.2.2 chunk mem, fun some_nul => sound.clean ?_⟩⟩
  refine List.mem_append_right _ (List.mem_append_left _ (List.mem_flatMap.mpr ⟨chunk, mem, ?_⟩))
  exact List.mem_cons_of_mem _ (mem_tokens some_nul)

theorem meetHeads_places {hw : Segment Char} (hr : Segment Char) (wrest rrest : List Char) (clean : CleanSegment hw)
    (wends : wrest = [] ∨ peek wrest = 'Z') (rends : rrest = [] ∨ peek rrest = 'Z') :
    ∃ n k seg, n ≤ hw.length ∧ n ≤ hr.length ∧ hw.drop n = List.replicate k none ++ seg ∧
      List.Forall₂ (Token.Covers toLower) (Segment.tokens (hw.take n)) (Segment.tokens (hr.take n)) ∧
      (k ≠ 0 → hr.drop n = [] ∧ peek rrest = 'Z') ∧ CleanSegment seg ∧
      meetHeads (segmentText hw ++ wrest) (segmentText hr ++ rrest) =
        if peek (segmentText seg ++ wrest) ≠ 'Z' then
          .inl (if peek (segmentText seg ++ wrest) ≠ nul ∨ peek (segmentText (hr.drop n) ++ rrest) ≠ nul then 1 else 0)
        else if peek (segmentText seg ++ wrest).tail = nul then .inl 0
        else .inr ⟨(segmentText seg ++ wrest).tail, segmentText (hr.drop n) ++ rrest, k⟩ := by
  obtain ⟨n, few, few', met, pairs⟩ := meet_within atEnd hw hr wends
    (rends.imp_right fun star => .inl (by rw [star]; decide))
  have not_one : peek wrest ≠ 'A' := by
    rcases wends with rfl | star
    · decide
    · rw [star]
      decide
  obtain ⟨k, seg, split, eaten⟩ := eatOnes_segmentText (hw.drop n) not_one 0
  by_cases at_star : peek (segmentText (hr.drop n) ++ rrest) = 'Z'
  · refine ⟨n, k, seg, few, few', split, pairs, fun _ => ?_, ?_, ?_⟩
    · cases places : hr.drop n with
      | nil =>
        rw [places] at at_star
        exact ⟨rfl, at_star⟩
      | cons o places' =>
        rw [places] at at_star
        exact absurd at_star (placeChar_ne_Z o)
    · exact fun mem => clean.drop n (by rw [split]; exact List.mem_append_right _ mem)
    · rw [Nat.zero_add] at eaten
      simp only [meetHeads, met, at_star, eaten, if_true]
  · refine ⟨n, 0, hw.drop n, few, few', rfl, pairs, fun nonzero => absurd rfl nonzero, clean.drop n, ?_⟩
    simp only [meetHeads, met, if_neg at_star]

def TailMet (tw rs : Segment Char) : Prop :=
  tw.length ≤ rs.length ∧
    List.Forall₂ (Token.Covers toLower) (Segment.tokens tw.reverse) (Segment.tokens (rs.take tw.length))

theorem TailMet.nil (rs : Segment Char) : TailMet [] rs := ⟨Nat.zero_le _, .nil⟩

theorem TailMet.covers {tw rs : Segment Char} (met : TailMet tw rs.reverse) :
    List.Forall₂ (Token.Covers toLower) tw.tokens (Segment.tokens (rs.drop (rs.length - tw.length))) := by
  have turned := List.rel_reverse met.2
  simp only [Segment.tokens] at turned ⊢
  rw [← List.map_reverse, ← List.map_reverse, List.reverse_reverse, List.take_reverse, List.reverse_reverse] at turned
  exact turned

theorem tailMet_of_meet {tw rs : Segment Char} {n : Nat} (few : n ≤ tw.reverse.length) (few' : n ≤ rs.length)
    (pairs : List.Forall₂ (Token.Covers toLower) (Segment.tokens (tw.reverse.take n)) (Segment.tokens (rs.take n)))
    (ended : tw.reverse.drop n = []) : TailMet tw rs ∧ n = tw.length := by
  have all := List.drop_eq_nil_iff.mp ended
  rw [List.length_reverse] at few all
  have same : n = tw.length := by omega
  subst same
  refine ⟨⟨few', ?_⟩, rfl⟩
  have whole : tw.reverse.take tw.length = tw.reverse := List.take_of_length_le (Nat.le_of_eq List.length_reverse)
  rwa [whole] at pairs

theorem meetFlatTail_places {tw : Segment Char} (rs : Segment Char) (chunks : List (Segment Char)) (clean : CleanSegment tw) :
    (∃ r, meetFlatTail (segmentText tw.reverse ++ chunksText chunks) (segmentText rs) = .inl r ∧
      (r = 0 → TailMet tw rs ∧ chunks = [])) ∨
      meetFlatTail (segmentText tw.reverse ++ chunksText chunks) (segmentText rs) = .inr (chunksText chunks) ∧
        chunks ≠ [] ∧ TailMet tw rs := by
  have clean_reverse : CleanSegment tw.reverse := fun mem => clean (List.mem_reverse.mp mem)
  by_cases star : peek (segmentText tw.reverse ++ chunksText chunks) = 'Z'
  · obtain ⟨empty, some_chunks⟩ := (chunk_ended _ clean_reverse).2 star
    rw [meetFlatTail, if_neg (not_not.mpr star), empty]
    rw [List.reverse_eq_nil_iff.mp empty]
    exact .inr ⟨rfl, some_chunks, .nil rs⟩
  · obtain ⟨n, few, few', met, pairs⟩ := meet_places never tw.reverse rs (chunksText_ends chunks)
    have ended := chunk_ended chunks (clean_reverse.drop n)
    rw [meetFlatTail, if_pos star, met]
    dsimp only
    by_cases at_star : peek (segmentText (tw.reverse.drop n) ++ chunksText chunks) = 'Z'
    · obtain ⟨empty, some_chunks⟩ := ended.2 at_star
      rw [if_neg (not_not.mpr at_star), empty]
      exact .inr ⟨rfl, some_chunks, (tailMet_of_meet few few' pairs empty).1⟩
    · rw [if_pos at_star]
      refine .inl ⟨_, rfl, fun zero => ?_⟩
      have at_end : peek (segmentText (tw.reverse.drop n) ++ chunksText chunks) = nul := by
        by_contra other
        rw [if_pos other] at zero
        cases zero
      obtain ⟨empty, no_chunks⟩ := ended.1 at_end
      exact ⟨(tailMet_of_meet few few' pairs empty).1, no_chunks⟩

theorem no_ones_left {tw : Segment Char} {n k : Nat} (closed : tw = [] ∨ Led tw)
    (ones : tw.reverse.drop n = List.replicate k none) : tw.reverse.drop n = [] := by
  rcases closed with rfl | ⟨c, rest, rfl⟩
  · simp
  · by_contra some_left
    have last := congrArg List.getLast? ones
    have short : n < (some c :: rest).reverse.length := by
      by_contra long
      exact some_left (List.drop_eq_nil_of_le (Nat.le_of_not_lt long))
    rw [List.getLast?_drop, if_neg (by omega), List.getLast?_reverse, List.head?_cons] at last
    cases k with
    | zero => cases last
    | succ k =>
      rw [List.getLast?_replicate] at last
      simp at last

theorem meetTails_places {tw tr : Segment Char} {chunks pieces : List (Segment Char)} (behind : List Char)
    (clean : CleanSegment tw) (closed : tw = [] ∨ Led tw)
    (stays : ¬ ((meet atStar (segmentText tw.reverse ++ chunksText chunks) (segmentText tr.reverse ++ chunksText pieces)).2 = [] ∧
      peek (meet atStar (segmentText tw.reverse ++ chunksText chunks) (segmentText tr.reverse ++ chunksText pieces)).1 = 'A')) :
    (∃ r, meetTails (segmentText tw.reverse ++ chunksText chunks)
        (segmentText tr.reverse ++ chunksText pieces ++ nul :: behind) = some (.inl r) ∧
      (r = 0 → TailMet tw tr.reverse ∧ chunks = [])) ∨
      meetTails (segmentText tw.reverse ++ chunksText chunks)
          (segmentText tr.reverse ++ chunksText pieces ++ nul :: behind) =
        some (.inr (chunksText chunks, segmentText (tr.reverse.drop tw.length) ++ chunksText pieces ++ nul :: behind)) ∧
        chunks ≠ [] ∧ TailMet tw tr.reverse := by
  have clean_reverse : CleanSegment tw.reverse := fun mem => clean (List.mem_reverse.mp mem)
  by_cases star : peek (segmentText tw.reverse ++ chunksText chunks) = 'Z'
  · obtain ⟨empty, some_chunks⟩ := (chunk_ended _ clean_reverse).2 star
    rw [meetTails, if_neg (not_not.mpr star), empty, List.reverse_eq_nil_iff.mp empty]
    exact .inr ⟨rfl, some_chunks, .nil _⟩
  · have edge : chunksText pieces = [] ∨ atStar (peek (chunksText pieces)) = true ∨
        tw.reverse.length ≤ tr.reverse.length ∧ peek (chunksText pieces) ≠ 'Z' :=
      (chunksText_ends pieces).imp_right fun star => .inl (decide_eq_true star)
    obtain ⟨n, few, few', met, pairs⟩ := meet_within atStar tw.reverse tr.reverse (chunksText_ends chunks) edge
    rw [met] at stays
    have ended := chunk_ended chunks (clean_reverse.drop n)
    -- The comparison goes no further than the terminator.
    have whole : meet atStar (segmentText tw.reverse ++ chunksText chunks)
        (segmentText tr.reverse ++ chunksText pieces ++ nul :: behind) =
          (segmentText (tw.reverse.drop n) ++ chunksText chunks,
            segmentText (tr.reverse.drop n) ++ chunksText pieces ++ nul :: behind) := by
      rw [meet_append, met]
      dsimp only
      by_cases past : segmentText (tr.reverse.drop n) ++ chunksText pieces = []
      · rw [if_pos past, past, List.nil_append]
        apply meet_stops
        intro _
        by_cases at_end : peek (segmentText (tw.reverse.drop n) ++ chunksText chunks) = nul
        · exact .inl at_end
        · exact .inr (.inr ⟨at_end, fun one => stays ⟨past, one⟩⟩)
      · rw [if_neg past]
    have some_text : segmentText (tr.reverse.drop n) ++ chunksText pieces ++ nul :: behind ≠ [] := by simp
    obtain ⟨k, seg, split, -, eaten⟩ := eaten_or_not
      (peek (segmentText (tr.reverse.drop n) ++ chunksText pieces ++ nul :: behind) = 'Z') (tw.reverse.drop n) chunks
    have clean_seg : CleanSegment seg := fun mem =>
      clean_reverse.drop n (by rw [split]; exact List.mem_append_right _ mem)
    have flushed : (if peek (segmentText (tr.reverse.drop n) ++ chunksText pieces ++ nul :: behind) = 'Z' then
          (segmentText (tw.reverse.drop n) ++ chunksText chunks).dropWhile (· = 'A')
        else segmentText (tw.reverse.drop n) ++ chunksText chunks) = segmentText seg ++ chunksText chunks := by
      have first := congrArg Prod.fst eaten
      split at first
      · rename_i at_star
        rw [if_pos at_star]
        exact first
      · rename_i at_star
        rw [if_neg at_star]
        exact first
    have ended := chunk_ended chunks clean_seg
    have reached (empty : seg = []) : TailMet tw tr.reverse ∧ n = tw.length := by
      rw [empty, List.append_nil] at split
      exact tailMet_of_meet few few' pairs (no_ones_left closed split)
    rw [meetTails, if_pos star, whole]
    dsimp only
    rw [if_neg some_text, flushed]
    by_cases at_star : peek (segmentText seg ++ chunksText chunks) = 'Z'
    · obtain ⟨rfl, some_chunks⟩ := ended.2 at_star
      obtain ⟨tail_met, rfl⟩ := reached rfl
      rw [if_neg (not_not.mpr at_star)]
      exact .inr ⟨rfl, some_chunks, tail_met⟩
    · rw [if_pos at_star]
      refine .inl ⟨_, rfl, fun zero => ?_⟩
      have at_end : peek (segmentText seg ++ chunksText chunks) = nul := by
        by_contra other
        rw [if_pos other] at zero
        cases zero
      obtain ⟨rfl, no_chunks⟩ := ended.1 at_end
      exact ⟨(reached rfl).1, no_chunks⟩

/-! ## The whole -/

theorem tokens_owed {hw tw : Segment Char} {chunks : List (Segment Char)} {n k : Nat} (ones : hw.drop n = List.replicate k none) :
    (Layout.starred hw chunks tw).tokens = Segment.tokens (hw.take n) ++ (owedTokens k chunks ++ tw.tokens) := by
  have head : hw.tokens = Segment.tokens (hw.take n) ++ List.replicate k .one := by
    rw [← tokens_replicate_none, ← ones, ← Segment.tokens_append, List.take_append_drop]
  rw [Layout.tokens, head, owedTokens]
  simp

theorem plain_cut (hr : Segment Char) {n t : Nat} (room : n + t ≤ hr.length) :
    ∃ mid, hr.drop n = mid ++ hr.drop (hr.length - t) ∧ mid.length = hr.length - n - t := by
  have back : (hr.drop n).drop (hr.length - n - t) = hr.drop (hr.length - t) := by
    rw [List.drop_drop]
    congr 1
    omega
  refine ⟨(hr.drop n).take (hr.length - n - t), ?_, ?_⟩
  · rw [← back, List.take_append_drop]
  · rw [List.length_take, List.length_drop]
    omega

theorem peek_segmentText_ne_Z (seg : Segment Char) : peek (segmentText seg) ≠ 'Z' := by
  cases seg with
  | nil => decide
  | cons o seg => exact placeChar_ne_Z o

theorem mmexec_flat {hw tw hr : Segment Char} {chunks : List (Segment Char)} {n : Nat} {trash : Int}
    (clean_tail : CleanSegment tw) (good : GoodChunks chunks) (ones : hw.drop n = List.replicate 0 none)
    (pairs : List.Forall₂ (Token.Covers toLower) (Segment.tokens (hw.take n)) (Segment.tokens (hr.take n)))
    (some_trash : 0 ≤ trash) (spare : trash + (n + chunksLength chunks + tw.length) = hr.length) :
    ∃ x, (match meetFlatTail (segmentText tw.reverse ++ chunksText chunks) (segmentText hr).reverse with
      | .inl result => some result
      | .inr w => loop flatTurn ((segmentText hr).length + 1) ⟨w, segmentText (hr.drop n), trash⟩) = some x ∧
      (x = 0 → Covers toLower (Layout.starred hw chunks tw).tokens hr.tokens) := by
  obtain ⟨mid, rest, length_mid⟩ := plain_cut hr (n := n) (t := tw.length) (by omega)
  have assembled (met : TailMet tw hr.reverse) (placed : Placed toLower 0 chunks (Segment.tokens mid ++ [])) :
      Covers toLower (Layout.starred hw chunks tw).tokens hr.tokens := by
    rw [List.append_nil] at placed
    have cover := placed.covers_between pairs met.covers
    rwa [← Segment.tokens_append, ← rest, ← Segment.tokens_append, List.take_append_drop, ← tokens_owed ones] at cover
  have reversed : (segmentText hr).reverse = segmentText hr.reverse := (List.map_reverse).symm
  rw [reversed]
  rcases meetFlatTail_places hr.reverse chunks clean_tail with ⟨r, result, zero⟩ | ⟨result, some_chunks, met⟩
  · rw [result]
    refine ⟨r, rfl, fun is_zero => ?_⟩
    obtain ⟨met, rfl⟩ := zero is_zero
    exact assembled met (.done (Nat.zero_le _))
  · rw [result]
    have text : segmentText (hr.drop n) = segmentText mid ++ segmentText (hr.drop (hr.length - tw.length)) := by
      rw [rest]
      exact List.map_append
    rw [text]
    refine FlatInv.ends ⟨rfl, some_chunks, good, rfl, some_trash, ?_, assembled met⟩ (peek_segmentText_ne_Z _) ?_
    · simp only
      omega
    · rw [length_segmentText]
      omega

theorem tokens_cut (seg : Segment Char) (n : Nat) :
    Segment.tokens seg = Segment.tokens (seg.take n) ++ Segment.tokens (seg.drop n) := by
  rw [← Segment.tokens_append, List.take_append_drop]

theorem starred_cut (hr tr : Segment Char) (pieces : List (Segment Char)) (n t : Nat) :
    (Layout.starred hr pieces tr).tokens = Segment.tokens (hr.take n) ++
      (Segment.tokens (hr.drop n) ++ (chunkTokens pieces ++ .star :: Segment.tokens (tr.take t)) ++
        Segment.tokens (tr.drop t)) := by
  rw [Layout.tokens, tokens_cut hr n, tokens_cut tr t]
  simp

theorem dropWhile_segmentText {seg : Segment Char} (clean : CleanSegment seg) {rest : List Char}
    (ends : rest = [] ∨ atEnd (peek rest) = true) :
    (segmentText seg ++ rest).dropWhile (fun c => !atEnd c) = rest ∧
      (segmentText seg ++ rest).takeWhile (fun c => !atEnd c) = segmentText seg := by
  induction seg with
  | nil =>
    rcases ends with rfl | ended
    · exact ⟨rfl, rfl⟩
    · cases rest with
      | nil => exact ⟨rfl, rfl⟩
      | cons c rest =>
        rw [peek_cons] at ended
        simp [ended]
  | cons o seg ih =>
    have place : atEnd (placeChar o) = false := by
      simp [atEnd, placeChar_ne_nul clean.head, placeChar_ne_Z]
    simp [place, ih clean.tail]

theorem takeWhile_pieceText {rs : Segment Char} {pieces : List (Segment Char)} (clean : CleanSegment rs)
    (good : GoodChunks pieces) (behind : List Char) :
    (pieceText rs pieces ++ nul :: behind).takeWhile (· ≠ nul) = pieceText rs pieces := by
  have nul_free : ∀ c ∈ pieceText rs pieces, (decide (c ≠ nul)) = true := by
    intro c mem
    rw [decide_eq_true_iff]
    rintro rfl
    have place {seg : Segment Char} (clean : CleanSegment seg) : nul ∉ segmentText seg := by
      intro mem
      obtain ⟨o, there, same⟩ := List.mem_map.mp mem
      exact placeChar_ne_nul (fun is_nul => clean (is_nul ▸ there)) same
    rcases List.mem_append.mp mem with mem | mem
    · exact place clean mem
    · obtain ⟨chunk, there, mem⟩ := List.mem_flatMap.mp mem
      rcases List.mem_cons.mp mem with same | mem
      · exact absurd same (by decide)
      · exact place (good chunk there).2 mem
  rw [List.takeWhile_append_of_pos nul_free]
  simp

section
variable {goal : Prop}

theorem tail_ends {below : List Char} {chunks : List (Segment Char)} {rs : Segment Char} {left : Left} {fuel : Nat}
    (inv : LeftInv goal 1 (.star :: rs.tokens) chunks left) (some_below : below ≠ []) (enough : rs.length < fuel) :
    ∃ r, loop (tailTurn below.length) fuel ⟨left.w, (segmentText rs ++ below).drop left.eat, left.trash⟩ = some r ∧
      (r = 0 → goal) := by
  by_cases room : left.eat ≤ rs.length
  · have spare := inv.spare
    have length := minLength_tokens rs []
    rw [List.append_nil] at length
    rw [minLength, length, minLength] at spare
    have back : (segmentText rs ++ below).drop left.eat = segmentText (rs.drop left.eat) ++ below := by
      rw [List.drop_append_of_le_length (by rwa [length_segmentText])]
      simp [segmentText]
    refine TailInv.ends ⟨inv.w, inv.some_chunks, inv.good, back, inv.some_trash, ?_, fun placed => inv.placed ?_⟩ some_below
      (Nat.lt_of_le_of_lt (List.length_drop ▸ Nat.sub_le _ _) enough)
    · rw [List.length_drop]
      simp only
      omega
    · rw [List.append_nil] at placed
      have eaten := Placed.eaten_segment (rs.take left.eat) placed
      rw [← Segment.tokens_append, List.take_append_drop, List.length_take, Nat.min_eq_left room, Nat.zero_add] at eaten
      exact .star eaten
  · cases fuel with
    | zero => exact absurd enough (Nat.not_lt_zero _)
    | succ fuel =>
      have short : ((segmentText rs ++ below).drop left.eat).length ≤ below.length := by
        rw [List.length_drop, List.length_append, length_segmentText]
        omega
      refine ⟨1, ?_, by simp⟩
      rw [loop, tailTurn, if_pos short]

theorem chunks_end {chunks pieces : List (Segment Char)} {ts : List (Token Char)} {left : Left} (good : GoodChunks pieces)
    (behind : List Char) (inv : LeftInv goal 0 (chunkTokens pieces ++ .star :: ts) chunks left) :
    ∃ r, loop chunkTurn ((chunkText (chunksText pieces ++ nul :: behind)).length + 1)
        ⟨left.w, chunkText (chunksText pieces ++ nul :: behind), left.eat, left.trash⟩ = some r ∧
      LeavesWell goal 1 (.star :: ts) r := by
  have spare := inv.spare
  rw [minLength_chunkTokens] at spare
  cases pieces with
  | nil =>
    have no_text : chunkText (chunksText [] ++ nul :: behind) = [] := if_pos rfl
    rw [no_text]
    refine @ChunkInv.ends _ _ _ [] [] _ _ ⟨inv.w, inv.some_chunks, inv.good, rfl, inv.some_trash, ?_, inv.placed⟩
      (Nat.lt_succ_self _)
    rw [List.length_nil]
    simp only
    omega
  | cons piece pieces =>
    have text : chunkText (chunksText (piece :: pieces) ++ nul :: behind) = pieceText piece pieces := by
      rw [chunkText, chunksText_cons, List.cons_append, peek_cons, if_neg (by decide), List.tail_cons]
      exact takeWhile_pieceText (good piece List.mem_cons_self).2 (fun other mem => good other (List.mem_cons_of_mem _ mem)) behind
    rw [text]
    refine ChunkInv.ends ⟨inv.w, inv.some_chunks, inv.good, rfl, inv.some_trash, ?_, fun placed => inv.placed ?_⟩
      (Nat.lt_succ_self _)
    · rw [chunksLength_cons] at spare
      simp only
      omega
    · have behind_star := placed.star
      rw [← pieceTokens_star] at behind_star
      exact behind_star

end

theorem atEnd_chunksText (pieces : List (Segment Char)) (behind : List Char) :
    atEnd (peek (chunksText pieces ++ nul :: behind)) = true := by
  cases pieces with
  | nil => rfl
  | cons piece pieces =>
    rw [chunksText_cons]
    rfl

theorem mmStars_ends {hw tw hr tr : Segment Char} {chunks pieces : List (Segment Char)} {n k : Nat} {trash : Int}
    (behind : List Char) (clean_w : CleanSegment tw) (closed : tw = [] ∨ Led tw) (good : GoodChunks chunks)
    (clean_r : CleanSegment tr) (good_r : GoodChunks pieces) (ones : hw.drop n = List.replicate k none)
    (pairs : List.Forall₂ (Token.Covers toLower) (Segment.tokens (hw.take n)) (Segment.tokens (hr.take n)))
    (owed : k ≠ 0 → hr.drop n = []) (some_trash : 0 ≤ trash)
    (spare : trash + (n + k + chunksLength chunks + tw.length) = hr.length + chunksLength pieces + tr.length)
    (few : n ≤ hr.length)
    (stays : ¬ ((meet atStar (segmentText tw.reverse ++ chunksText chunks) (segmentText tr.reverse ++ chunksText pieces)).2 = [] ∧
      peek (meet atStar (segmentText tw.reverse ++ chunksText chunks) (segmentText tr.reverse ++ chunksText pieces)).1 = 'A')) :
    ∃ x, mmStars (segmentText hr ++ 'Z' :: (segmentText tr.reverse ++ chunksText pieces)) behind
        (segmentText tw.reverse ++ chunksText chunks) (segmentText (hr.drop n)) (segmentText tr.reverse ++ chunksText pieces)
        k trash = some x ∧
      (x = 0 → Covers toLower (Layout.starred hw chunks tw).tokens (Layout.starred hr pieces tr).tokens) := by
  let mid := Segment.tokens (hr.drop n) ++
    (chunkTokens pieces ++ .star :: Segment.tokens (tr.take (tr.length - tw.length)))
  have assembled (met : TailMet tw tr.reverse) (placed : Placed toLower k chunks mid) :
      Covers toLower (Layout.starred hw chunks tw).tokens (Layout.starred hr pieces tr).tokens := by
    have cover := placed.covers_between pairs met.covers
    rwa [← starred_cut, ← tokens_owed ones] at cover
  have length_mid (met : TailMet tw tr.reverse) :
      minLength mid = hr.length - n + (chunksLength pieces + (tr.length - tw.length)) := by
    have length_tail := minLength_tokens (tr.take (tr.length - tw.length)) []
    rw [List.append_nil, List.length_take, Nat.min_eq_left (Nat.sub_le _ _)] at length_tail
    rw [minLength_tokens, minLength_chunkTokens, minLength, length_tail, List.length_drop]
    rfl
  unfold mmStars
  rcases meetTails_places behind clean_w closed stays with ⟨r, result, zero⟩ | ⟨result, some_chunks, met⟩
  · rw [result]
    refine ⟨r, rfl, fun is_zero => ?_⟩
    obtain ⟨met, rfl⟩ := zero is_zero
    have within := met.1
    have no_chunks : chunksLength [] = 0 := rfl
    rw [List.length_reverse] at within
    refine assembled met (.done ?_)
    rw [length_mid met]
    omega
  · have within := met.1
    rw [List.length_reverse] at within
    have kept : nul ∈ segmentText (tr.reverse.drop tw.length) ++ chunksText pieces ++ nul :: behind := by simp
    have length_rest := length_mid met
    rw [result]
    dsimp only
    rw [if_neg (not_not.mpr kept)]
    have head : HeadInv (Covers toLower (Layout.starred hw chunks tw).tokens (Layout.starred hr pieces tr).tokens)
        (chunkTokens pieces ++ .star :: Segment.tokens (tr.take (tr.length - tw.length))) chunks (hr.drop n)
        ⟨chunksText chunks, segmentText (hr.drop n), k, trash⟩ := by
      refine ⟨rfl, some_chunks, good, rfl, owed, some_trash, ?_, assembled met⟩
      have split : minLength mid = (hr.drop n).length + minLength
          (chunkTokens pieces ++ .star :: Segment.tokens (tr.take (tr.length - tw.length))) := minLength_tokens _ _
      simp only
      omega
    have enough : (hr.drop n).length < (segmentText (hr.drop n)).length + 1 := by
      rw [length_segmentText]
      exact Nat.lt_succ_self _
    obtain ⟨r, result, leaves⟩ := head.ends enough
    rw [result]
    cases r with
    | inl r => exact ⟨r, rfl, leaves⟩
    | inr left =>
      obtain ⟨chunks₁, inv⟩ := leaves
      have ends : (segmentText (tr.reverse.drop tw.length) ++ chunksText pieces ++ nul :: behind).dropWhile (fun c => !atEnd c) =
          chunksText pieces ++ nul :: behind := by
        rw [List.append_assoc]
        exact (dropWhile_segmentText (CleanSegment.drop (fun mem => clean_r (List.mem_reverse.mp mem)) _)
          (.inr (atEnd_chunksText pieces behind))).1
      obtain ⟨r, result, leaves⟩ := chunks_end good_r behind inv
      dsimp only
      rw [ends, result]
      cases r with
      | inl r => exact ⟨r, rfl, leaves⟩
      | inr left =>
        obtain ⟨chunks₂, inv⟩ := leaves
        obtain ⟨above, above_eq⟩ : ∃ above, above = segmentText hr ++ 'Z' :: segmentText (tr.reverse.take tw.length) := ⟨_, rfl⟩
        have memory : segmentText hr ++ 'Z' :: (segmentText tr.reverse ++ chunksText pieces) ++ nul :: behind =
            above ++ (segmentText (tr.reverse.drop tw.length) ++ (chunksText pieces ++ nul :: behind)) := by
          have text : segmentText tr.reverse =
              segmentText (tr.reverse.take tw.length) ++ segmentText (tr.reverse.drop tw.length) := by
            rw [segmentText, segmentText, segmentText, ← List.map_append, List.take_append_drop]
          rw [text, above_eq]
          simp
        have reversed : (segmentText (tr.reverse.drop tw.length)).reverse = segmentText (tr.take (tr.length - tw.length)) := by
          rw [segmentText, ← List.map_reverse, List.drop_reverse, List.reverse_reverse]
          rfl
        have back : ((above ++ (segmentText (tr.reverse.drop tw.length) ++ (chunksText pieces ++ nul :: behind))).take
            ((above ++ (segmentText (tr.reverse.drop tw.length) ++ (chunksText pieces ++ nul :: behind))).length -
              (chunksText pieces ++ nul :: behind).length)).reverse =
            segmentText (tr.take (tr.length - tw.length)) ++ above.reverse := by
          rw [← List.append_assoc, List.length_append, Nat.add_sub_cancel, List.take_left, List.reverse_append, reversed]
        have limit : (above ++ (segmentText (tr.reverse.drop tw.length) ++ (chunksText pieces ++ nul :: behind))).length -
            (segmentText (tr.reverse.drop tw.length) ++ chunksText pieces ++ nul :: behind).length = above.reverse.length := by
          rw [List.append_assoc, List.length_append, Nat.add_sub_cancel, List.length_reverse]
        dsimp only
        rw [memory, back, limit]
        refine tail_ends inv (by simp [above_eq]) ?_
        rw [List.length_append, length_segmentText]
        omega

theorem mmexec_plain {hw hr : Segment Char} (rrest : List Char) (clean_w : CleanSegment hw) (clean_r : CleanSegment hr)
    (rends : rrest = [] ∨ peek rrest = 'Z') :
    ∃ x, meetHeads (segmentText hw) (segmentText hr ++ rrest) = .inl x ∧
      (x = 0 → rrest = [] ∧ Covers toLower hw.tokens hr.tokens) := by
  obtain ⟨n, k, seg, few, few', split, pairs, owed, clean, result⟩ := meetHeads_places hr [] rrest clean_w (.inl rfl) rends
  rw [List.append_nil, List.append_nil, if_pos (peek_segmentText_ne_Z seg)] at result
  refine ⟨_, result, fun zero => ?_⟩
  have both : ¬ (peek (segmentText seg) ≠ nul ∨ peek (segmentText (hr.drop n) ++ rrest) ≠ nul) := by
    intro some_left
    rw [if_pos some_left] at zero
    cases zero
  rw [not_or, not_not, not_not] at both
  have no_places := (peek_segmentText (clean_r.drop n) rrest).1 both.2
  have at_end := both.2
  rw [no_places, segmentText_nil, List.nil_append] at at_end
  have no_rest : rrest = [] := by
    refine rends.resolve_right fun star => ?_
    rw [star] at at_end
    exact absurd at_end (by decide)
  have none_owed : k = 0 := by
    by_contra some_owed
    have star := (owed some_owed).2
    rw [no_rest] at star
    exact absurd star (by decide)
  have empty : seg = [] := (peek_segmentText clean []).1 (by rw [List.append_nil]; exact both.1)
  rw [none_owed, empty, List.append_nil] at split
  have all_w := List.take_append_drop n hw
  have all_r := List.take_append_drop n hr
  have nothing : List.replicate 0 (none : Option Char) = [] := rfl
  rw [split, nothing, List.append_nil] at all_w
  rw [no_places, List.append_nil] at all_r
  rw [all_w, all_r] at pairs
  have cover := Covers.append pairs (covers_refl [])
  rw [List.append_nil, List.append_nil] at cover
  exact ⟨no_rest, cover⟩

theorem meetHeads_starred {hw tw : Segment Char} (hr : Segment Char) (chunks : List (Segment Char)) (rrest : List Char)
    (clean_hw : CleanSegment hw) (clean_tw : CleanSegment tw) (rends : rrest = [] ∨ peek rrest = 'Z') :
    meetHeads (Layout.starred hw chunks tw).turned (segmentText hr ++ rrest) = .inl 1 ∨
      ∃ n k, n ≤ hr.length ∧ n + k = hw.length ∧ hw.drop n = List.replicate k none ∧
        List.Forall₂ (Token.Covers toLower) (Segment.tokens (hw.take n)) (Segment.tokens (hr.take n)) ∧
        (k ≠ 0 → hr.drop n = [] ∧ peek rrest = 'Z') ∧
        (meetHeads (Layout.starred hw chunks tw).turned (segmentText hr ++ rrest) = .inl 0 ∧ tw = [] ∧ chunks = [] ∨
          meetHeads (Layout.starred hw chunks tw).turned (segmentText hr ++ rrest) =
            .inr ⟨segmentText tw.reverse ++ chunksText chunks, segmentText (hr.drop n) ++ rrest, k⟩) := by
  obtain ⟨n, k, seg, few, few', split, pairs, owed, clean, result⟩ := meetHeads_places hr
    ('Z' :: (segmentText tw.reverse ++ chunksText chunks)) rrest clean_hw (.inr (peek_cons _ _)) rends
  rw [Layout.turned]
  cases seg with
  | cons o seg =>
    rw [segmentText_cons, List.cons_append, peek_cons, if_pos (placeChar_ne_Z o), if_pos (.inl (placeChar_ne_nul clean.head))]
      at result
    exact .inl result
  | nil =>
    rw [List.append_nil] at split
    have length := congrArg List.length split
    rw [List.length_drop, List.length_replicate] at length
    rw [segmentText_nil, List.nil_append, peek_cons, if_neg (not_not.mpr rfl), List.tail_cons] at result
    refine .inr ⟨n, k, few', by omega, split, pairs, owed, ?_⟩
    by_cases nothing : peek (segmentText tw.reverse ++ chunksText chunks) = nul
    · rw [if_pos nothing] at result
      obtain ⟨no_tail, no_chunks⟩ := (peek_turned_tail clean_tw).mp nothing
      exact .inl ⟨result, no_tail, no_chunks⟩
    · rw [if_neg nothing] at result
      exact .inr result

theorem dropWhile_head {hr : Segment Char} (rrest : List Char) (clean : CleanSegment hr) (n : Nat)
    (rends : rrest = [] ∨ peek rrest = 'Z') :
    (segmentText (hr.drop n) ++ rrest).dropWhile (fun c => !atEnd c) = rrest ∧
      (segmentText (hr.drop n) ++ rrest).takeWhile (fun c => !atEnd c) = segmentText (hr.drop n) :=
  dropWhile_segmentText (clean.drop n) (rends.imp_right fun star => by rw [star]; rfl)

theorem covers_open {hw : Segment Char} {pre : List (Token Char)} (ts : List (Token Char)) {n k : Nat} (ones : hw.drop n = List.replicate k none)
    (pairs : List.Forall₂ (Token.Covers toLower) (Segment.tokens (hw.take n)) pre) (room : k ≤ minLength ts) :
    Covers toLower (Layout.starred hw [] []).tokens (pre ++ ts) := by
  have placed : Placed toLower k [] ts := .done room
  have no_back : List.Forall₂ (Token.Covers toLower) (Segment.tokens []) [] := .nil
  have cover := placed.covers_between pairs no_back
  rwa [List.append_nil, ← tokens_owed ones] at cover

theorem mmexec_covers {wl rl : Layout} (sound_w : Sound wl) (sound_r : Sound rl) (behind : List Char)
    (stays : readsBehind wl.turned wl.minlen rl.turned rl.minlen = false) :
    ∃ x, mmexec wl.turned wl.minlen rl.turned rl.minlen behind = some x ∧ (x = 0 → Covers toLower wl.tokens rl.tokens) := by
  unfold mmexec
  unfold readsBehind at stays
  by_cases short : rl.minlen < wl.minlen
  · refine ⟨1, ?_, by simp⟩
    dsimp only
    rw [if_pos (by omega)]
  rw [if_neg short] at stays
  have spare : ¬ ((rl.minlen : Int) - wl.minlen < 0) := by omega
  dsimp only
  rw [if_neg spare]
  cases wl with
  | plain hw =>
    cases rl with
    | plain hr =>
      obtain ⟨x, result, zero⟩ := mmexec_plain [] sound_w.plain sound_r.plain (.inl rfl)
      rw [List.append_nil] at result
      rw [Layout.turned, Layout.turned, result]
      exact ⟨x, rfl, fun is_zero => (zero is_zero).2⟩
    | starred hr pieces tr =>
      obtain ⟨x, result, zero⟩ := mmexec_plain ('Z' :: (segmentText tr.reverse ++ chunksText pieces))
        sound_w.plain sound_r.starred.1 (.inr rfl)
      rw [Layout.turned, Layout.turned, result]
      exact ⟨x, rfl, fun is_zero => absurd (zero is_zero).1 (List.cons_ne_nil _ _)⟩
  | starred hw chunks tw =>
    obtain ⟨clean_hw, clean_tw, good⟩ := sound_w.starred
    have closed : tw = [] ∨ Led tw := sound_w.closed
    have min_w := minLength_starred hw chunks tw
    rw [← Layout.minlen] at min_w
    cases rl with
    | plain hr =>
      have min_r := minLength_tokens hr []
      rw [List.append_nil, minLength, Nat.add_zero] at min_r
      have min_r : (Layout.plain hr).minlen = hr.length := min_r
      have heads := meetHeads_starred hr chunks [] clean_hw clean_tw (.inl rfl)
      rw [List.append_nil] at heads
      rcases heads with one | ⟨n, k, few, length, ones, pairs, owed, heads⟩
      · rw [Layout.turned.eq_1 hr, one]
        exact ⟨1, rfl, by simp⟩
      · have none_owed : k = 0 := by
          by_contra some_owed
          exact absurd (owed some_owed).2 (by decide)
        subst none_owed
        rcases heads with ⟨zero, rfl, rfl⟩ | result
        · rw [Layout.turned.eq_1 hr, zero]
          refine ⟨0, rfl, fun _ => ?_⟩
          have cover := covers_open (Segment.tokens (hr.drop n)) ones pairs (Nat.zero_le _)
          rwa [← Segment.tokens_append, List.take_append_drop] at cover
        · rw [Layout.turned.eq_1 hr, result]
          have rest := (dropWhile_head [] sound_r.plain n (.inl rfl)).1
          dsimp only
          rw [List.append_nil] at rest ⊢
          rw [rest]
          exact mmexec_flat clean_tw good ones pairs (by omega) (by omega)
    | starred hr pieces tr =>
      have min_r := minLength_starred hr pieces tr
      rw [← Layout.minlen] at min_r
      have heads := meetHeads_starred hr chunks
        ('Z' :: (segmentText tr.reverse ++ chunksText pieces)) clean_hw clean_tw (.inr rfl)
      obtain ⟨clean_hr, clean_tr, good_r⟩ := sound_r.starred
      rw [← Layout.turned.eq_2] at heads
      rcases heads with one | ⟨n, k, few, length, ones, pairs, owed, heads⟩
      · rw [one]
        exact ⟨1, rfl, by simp⟩
      · rcases heads with ⟨zero, rfl, rfl⟩ | result
        · rw [zero]
          refine ⟨0, rfl, fun _ => ?_⟩
          have shape : (Layout.starred hr pieces tr).tokens =
              Segment.tokens (hr.take n) ++ (Layout.starred (hr.drop n) pieces tr).tokens := by
            rw [Layout.tokens, Layout.tokens, tokens_cut hr n]
            simp
          rw [shape]
          refine covers_open _ ones pairs ?_
          have no_chunks : chunksLength [] = 0 := rfl
          rw [minLength_starred, List.length_drop]
          omega
        · have rest := dropWhile_head ('Z' :: (segmentText tr.reverse ++ chunksText pieces)) clean_hr n (.inr rfl)
          rw [result] at stays ⊢
          dsimp only at stays ⊢
          rw [rest.1, decide_eq_false_iff_not] at stays
          rw [rest.1, rest.2]
          refine mmStars_ends behind clean_tw closed good clean_tr good_r ones pairs (fun some_owed => (owed some_owed).1)
            (by omega) (by omega) few stays

/-! ## Past the terminator -/

/-- Where the comparison of the tails goes past the terminator, the tail of the wider mask asks for a
literal further from the end. -/
theorem readsBehind_tail {wl rl : Layout} (sound_w : Sound wl) (sound_r : Sound rl)
    (reads : readsBehind wl.turned wl.minlen rl.turned rl.minlen = true) :
    ∃ hw chunks c tw hr tr, wl = .starred hw chunks (some c :: tw) ∧ rl = .starred hr [] tr ∧ tr.length ≤ tw.length := by
  unfold readsBehind at reads
  by_cases short : rl.minlen < wl.minlen
  · rw [if_pos short] at reads
    cases reads
  rw [if_neg short] at reads
  cases wl with
  | plain hw =>
    have no_head (rrest : List Char) {hr : Segment Char} (clean_r : CleanSegment hr) (rends : rrest = [] ∨ peek rrest = 'Z') :
        ∃ x, meetHeads (Layout.plain hw).turned (segmentText hr ++ rrest) = .inl x := by
      obtain ⟨x, result, -⟩ := mmexec_plain rrest sound_w.plain clean_r rends
      exact ⟨x, result⟩
    cases rl with
    | plain hr =>
      obtain ⟨x, result⟩ := no_head [] sound_r.plain (.inl rfl)
      rw [List.append_nil] at result
      rw [Layout.turned.eq_1 hr, result] at reads
      cases reads
    | starred hr pieces tr =>
      obtain ⟨x, result⟩ := no_head ('Z' :: (segmentText tr.reverse ++ chunksText pieces)) sound_r.starred.1 (.inr rfl)
      rw [Layout.turned.eq_2 hr, result] at reads
      cases reads
  | starred hw chunks tw =>
    obtain ⟨clean_hw, clean_tw, good⟩ := sound_w.starred
    have closed : tw = [] ∨ Led tw := sound_w.closed
    cases rl with
    | plain hr =>
      have heads := meetHeads_starred hr chunks [] clean_hw clean_tw (.inl rfl)
      rw [List.append_nil] at heads
      rw [Layout.turned.eq_1 hr] at reads
      rcases heads with one | ⟨n, k, few, length, ones, pairs, owed, ⟨zero, -⟩ | result⟩
      · rw [one] at reads
        cases reads
      · rw [zero] at reads
        cases reads
      · have rest := (dropWhile_head [] sound_r.plain n (.inl rfl)).1
        rw [List.append_nil] at result rest
        rw [result] at reads
        dsimp only at reads
        rw [rest] at reads
        cases reads
    | starred hr pieces tr =>
      obtain ⟨clean_hr, clean_tr, good_r⟩ := sound_r.starred
      have heads := meetHeads_starred hr chunks
        ('Z' :: (segmentText tr.reverse ++ chunksText pieces)) clean_hw clean_tw (.inr rfl)
      rw [← Layout.turned.eq_2] at heads
      rcases heads with one | ⟨n, k, few, length, ones, pairs, owed, ⟨zero, -⟩ | result⟩
      · rw [one] at reads
        cases reads
      · rw [zero] at reads
        cases reads
      · have rest := dropWhile_head ('Z' :: (segmentText tr.reverse ++ chunksText pieces)) clean_hr n (.inr rfl)
        rw [result] at reads
        dsimp only at reads
        rw [rest.1, decide_eq_true_iff] at reads
        have edge : chunksText pieces = [] ∨ atStar (peek (chunksText pieces)) = true ∨
            tw.reverse.length ≤ tr.reverse.length ∧ peek (chunksText pieces) ≠ 'Z' :=
          (chunksText_ends pieces).imp_right fun star => .inl (decide_eq_true star)
        obtain ⟨m, few, few', met, -⟩ := meet_within atStar tw.reverse tr.reverse (chunksText_ends chunks) edge
        rw [met] at reads
        obtain ⟨past, one⟩ := reads
        obtain ⟨no_places, rfl⟩ := pieceText_nil past
        have all := List.drop_eq_nil_iff.mp no_places
        rw [List.length_reverse] at all
        have some_left : tw.reverse.drop m ≠ [] := by
          intro none_left
          rw [none_left, segmentText_nil, List.nil_append] at one
          exact peek_chunksText_ne_A chunks one
        have more : m < tw.reverse.length := by
          by_contra few
          exact some_left (List.drop_eq_nil_of_le (Nat.le_of_not_lt few))
        rw [List.length_reverse] at more
        rcases closed with rfl | ⟨c, rest, rfl⟩
        · exact absurd more (Nat.not_lt_zero _)
        · rw [List.length_cons] at more
          exact ⟨hw, chunks, c, rest, hr, tr, rfl, rfl, by omega⟩

theorem not_covered_behind {wl rl : Layout} (sound_w : Sound wl) (sound_r : Sound rl)
    (reads : readsBehind wl.turned wl.minlen rl.turned rl.minlen = true) :
    ∃ s, Matches toLower rl.tokens s ∧ ¬ Matches toLower wl.tokens s ∧
      ∀ d ∈ s, d = 'a' ∨ d = 'b' ∨ .lit d ∈ rl.tokens := by
  obtain ⟨hw, chunks, c, tw, hr, tr, rfl, rfl, longer⟩ := readsBehind_tail sound_w sound_r reads
  have other : ∃ filler, (filler = 'a' ∨ filler = 'b') ∧ toLower c ≠ toLower filler := by
    by_cases same : toLower c = toLower 'a'
    · refine ⟨'b', .inr rfl, ?_⟩
      rw [same]
      decide
    · exact ⟨'a', .inl rfl, same⟩
  obtain ⟨filler, letter, other⟩ := other
  obtain ⟨s, inside, outside, letters⟩ := exists_missed (hw.tokens ++ (chunkTokens chunks ++ [.star])) hr other longer
  have tokens_w : (Layout.starred hw chunks (some c :: tw)).tokens =
      hw.tokens ++ (chunkTokens chunks ++ [.star]) ++ .lit c :: Segment.tokens tw := by
    simp [Layout.tokens, Segment.token]
  have tokens_r : (Layout.starred hr [] tr).tokens = hr.tokens ++ .star :: tr.tokens := rfl
  rw [tokens_w, tokens_r]
  refine ⟨s, inside, outside, fun d mem => ?_⟩
  rcases letters d mem with same | lit
  · rw [same]
    exact letter.imp_right .inl
  · exact .inr (.inr lit)

/-! ## Compiled masks -/

theorem matchcomp_sound (attr : Char → BitVec 32) (mask : CString) : ∃ l : Layout,
    (matchcomp attr mask.chars).cmask = l.turned ∧ (matchcomp attr mask.chars).minlen = l.minlen ∧ Sound l ∧
      (∀ name, InGlob mask.chars name ↔ Matches toLower l.tokens name) ∧ ∀ c, .lit c ∈ l.tokens → c ∈ mask.chars := by
  obtain ⟨l, cmask, minlen, good, closed, tokens⟩ := matchcomp_layout attr mask
  have letters : ∀ c, .lit c ∈ l.tokens → c ∈ mask.chars := by
    intro c mem
    rw [tokens] at mem
    exact mem_maskTokens (mem_normalize mem)
  refine ⟨l, cmask, minlen, ⟨fun mem => mask.nul_free (letters _ mem), good, closed⟩, fun name => ?_, letters⟩
  rw [tokens, matches_normalize]
  rfl

/-- Unless it compares past the terminator of the restricted mask, `mmexec` ends, and a 0 is a cover, whatever
lies behind. Where it does, the wider mask does not cover the other one, so that a 0 is wrong. -/
theorem mmexec_sound (attr : Char → BitVec 32) (wider restricted : CString) (behind : List Char) :
    let w := matchcomp attr wider.chars
    let r := matchcomp attr restricted.chars
    (readsBehind w.cmask w.minlen r.cmask r.minlen = false →
      ∃ x, mmexec w.cmask w.minlen r.cmask r.minlen behind = some x ∧
        (x = 0 → ∀ name, InGlob restricted.chars name → InGlob wider.chars name)) ∧
    (readsBehind w.cmask w.minlen r.cmask r.minlen = true →
      ∃ name : CString, InGlob restricted.chars name.chars ∧ ¬ InGlob wider.chars name.chars) := by
  obtain ⟨wl, cmask_w, minlen_w, sound_w, language_w, -⟩ := matchcomp_sound attr wider
  obtain ⟨rl, cmask_r, minlen_r, sound_r, language_r, letters⟩ := matchcomp_sound attr restricted
  dsimp only
  rw [cmask_w, minlen_w, cmask_r, minlen_r]
  constructor
  · intro stays
    obtain ⟨x, result, zero⟩ := mmexec_covers sound_w sound_r behind stays
    refine ⟨x, result, fun is_zero name matched => ?_⟩
    exact (language_w name).mpr (zero is_zero name ((language_r name).mp matched))
  · intro reads
    obtain ⟨s, inside, outside, chars⟩ := not_covered_behind sound_w sound_r reads
    have plain : ∀ d ∈ s, d ≠ nul ∧ d.toNat < 256 := by
      intro d mem
      rcases chars d mem with rfl | rfl | lit
      · decide
      · decide
      · have there := letters d lit
        exact ⟨fun is_nul => restricted.nul_free (is_nul ▸ there), restricted.byte d there⟩
    refine ⟨⟨s, fun mem => (plain nul mem).1 rfl, fun d mem => (plain d mem).2⟩, ?_, ?_⟩
    · exact (language_r s).mpr inside
    · exact fun matched => outside ((language_w s).mp matched)

/-- The masks `aa*a?` and `aaaa*`, the second one in a buffer that held `aaaaaaa` before. -/
theorem tailPastEnd_not_covered :
    ¬ (mmexec (matchcomp (fun _ => 0) ['a', 'a', '*', 'a', '?']).cmask (matchcomp (fun _ => 0) ['a', 'a', '*', 'a', '?']).minlen
        (matchcomp (fun _ => 0) ['a', 'a', 'a', 'a', '*']).cmask (matchcomp (fun _ => 0) ['a', 'a', 'a', 'a', '*']).minlen
        ['a', nul] = some 0 →
      ∀ name, InGlob ['a', 'a', 'a', 'a', '*'] name → InGlob ['a', 'a', '*', 'a', '?'] name) := by
  intro sound
  have fold : toLower 'a' = 'a' := by decide
  have wide : (matchcomp (fun _ => 0) ['a', 'a', '*', 'a', '?']).cmask = ['a', 'a', 'Z', 'A', 'a'] := by
    simp [matchcomp, Compiler.run, Compiler.turn, Compiler.literal, Compiler.question, Compiler.writeStar,
      BlockSwap.reverseBetween, BlockSwap.rotate, BlockSwap.swapAt, fold]
  have narrow : (matchcomp (fun _ => 0) ['a', 'a', 'a', 'a', '*']).cmask = ['a', 'a', 'a', 'a', 'Z'] := by
    simp [matchcomp, Compiler.run, Compiler.turn, Compiler.literal, Compiler.writeStar,
      BlockSwap.reverseBetween, BlockSwap.rotate, fold]
  rw [wide, narrow] at sound
  have matched := sound (by decide +kernel) ['a', 'a', 'a', 'a', 'b', 'b']
    (.lit rfl (.lit rfl (.lit rfl (.lit rfl (.more (.more (.skip .nil)))))))
  have tokens : maskTokens ['a', 'a', '*', 'a', '?'] = [.lit 'a', .lit 'a', .star, .lit 'a', .one] := rfl
  have other : toLower 'a' ≠ toLower 'b' := by decide
  rw [InGlob, tokens] at matched
  simp [matches_star_cons, matches_star_nil, other] at matched

end Ircd.Match

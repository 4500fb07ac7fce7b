import Ircd.Match.Compiled

/-! The compiled path decides the language of the mask.

`Layout` is a mask in parts: a head, and once a star was seen the chunks between the
stars and a tail. `matchcomp` builds the text of a layout and turns it over;
`matchexec` compares head and tail from the two ends and places the chunks in between
as far left as they go, `trash` being the characters it may still pass over.
-/

set_option autoImplicit false

namespace Ircd.Match
open Ircd.Library.BlockSwap Ircd.Library.Glob Ircd.Text

def placeChar : Option Char → Char
  | none => 'A'
  | some c => toLower c

def segmentText (seg : Segment Char) : List Char := seg.map placeChar

def CleanSegment (seg : Segment Char) : Prop := some nul ∉ seg

theorem toLower_ne_upper {c d : Char} (upper : isUpperCode d.toNat) : toLower c ≠ d := by
  rintro rfl
  exact toLower_not_upper c upper

theorem toLower_ne_A (c : Char) : toLower c ≠ 'A' := toLower_ne_upper (by unfold isUpperCode; decide)

theorem toLower_ne_Z (c : Char) : toLower c ≠ 'Z' := toLower_ne_upper (by unfold isUpperCode; decide)

theorem placeChar_ne_Z (o : Option Char) : placeChar o ≠ 'Z' := by
  cases o with
  | none => decide
  | some c => exact toLower_ne_Z c

theorem placeChar_ne_nul {o : Option Char} (clean : o ≠ some nul) : placeChar o ≠ nul := by
  cases o with
  | none => decide
  | some c => exact fun folded => clean (congrArg some (toLower_eq_nul.mp folded))

theorem CleanSegment.tail {o : Option Char} {seg : Segment Char} (clean : CleanSegment (o :: seg)) :
    CleanSegment seg := fun mem => clean (List.mem_cons_of_mem o mem)

theorem CleanSegment.head {o : Option Char} {seg : Segment Char} (clean : CleanSegment (o :: seg)) :
    o ≠ some nul := fun same => clean (same ▸ List.mem_cons_self)

@[simp] theorem segmentText_nil : segmentText [] = [] := rfl

@[simp] theorem segmentText_cons (o : Option Char) (seg : Segment Char) :
    segmentText (o :: seg) = placeChar o :: segmentText seg := rfl

@[simp] theorem length_segmentText (seg : Segment Char) : (segmentText seg).length = seg.length :=
  List.length_map _

theorem fits_take_cons {o : Option Char} {seg : Segment Char} {x : Char} {s : List Char} :
    Fits toLower (o :: seg) ((x :: s).take (o :: seg).length) ↔
      (∀ c ∈ o, toLower c = toLower x) ∧ Fits toLower seg (s.take seg.length) := by
  simp

structure Compares {γ : Type} (f : List Char → List Char → γ) (stop : γ) : Prop where
  hit : ∀ {o x s b}, (∀ c ∈ o, toLower c = toLower x) → f (x :: s) (placeChar o :: b) = f s b
  miss : ∀ {o x s b}, ¬ (∀ c ∈ o, toLower c = toLower x) → f (x :: s) (placeChar o :: b) = stop

section
variable {γ : Type} {f : List Char → List Char → γ} {stop : γ} {seg : Segment Char} {s rest : List Char}

variable (rest) in
theorem Compares.fits (compares : Compares f stop) (fits : Fits toLower seg (s.take seg.length)) :
    f s (segmentText seg ++ rest) = f (s.drop seg.length) rest := by
  induction seg generalizing s with
  | nil => rfl
  | cons o seg ih =>
    cases s with
    | nil => exact absurd fits not_fits_cons_nil
    | cons x s =>
      rw [fits_take_cons] at fits
      rw [segmentText_cons, List.cons_append, compares.hit fits.1, ih fits.2, List.length_cons, List.drop_succ_cons]

variable (rest) in
theorem Compares.misses (compares : Compares f stop)
    (ends : seg.length ≤ s.length ∨ ∀ o ∈ seg, ∀ b, f [] (placeChar o :: b) = stop)
    (misses : ¬ Fits toLower seg (s.take seg.length)) : f s (segmentText seg ++ rest) = stop := by
  induction seg generalizing s with
  | nil => simp at misses
  | cons o seg ih =>
    cases s with
    | nil =>
      rcases ends with room | ends
      · simp at room
      · exact ends o List.mem_cons_self _
    | cons x s =>
      rw [fits_take_cons] at misses
      rw [segmentText_cons, List.cons_append]
      by_cases here : ∀ c ∈ o, toLower c = toLower x
      · rw [compares.hit here]
        apply ih
        · exact ends.imp Nat.le_of_succ_le_succ fun ends o mem => ends o (List.mem_cons_of_mem _ mem)
        · exact fun later => misses ⟨here, later⟩
      · exact compares.miss here

end

theorem fits_some {c x : Char} : (∀ d ∈ some c, toLower d = toLower x) ↔ toLower x = toLower c := by
  simp [eq_comm]

theorem compares_tryHead : Compares tryHead (.inl 1) where
  hit := by
    intro o x s b here
    rw [tryHead, peek_cons, List.tail_cons]
    cases o with
    | none => simp [placeChar, toLower_ne_A]
    | some c => simp [placeChar, fits_some.mp here]
  miss := by
    intro o x s b differs
    rw [tryHead, peek_cons]
    cases o with
    | none => simp at differs
    | some c => simp [placeChar, mt fits_some.mpr differs, toLower_ne_A, toLower_ne_Z]

theorem compares_tryTail : Compares tryTail (some (.inl 1)) where
  hit := by
    intro o x s b here
    rw [tryTail]
    cases o with
    | none => simp [placeChar, toLower_ne_A]
    | some c => simp [placeChar, fits_some.mp here]
  miss := by
    intro o x s b differs
    rw [tryTail]
    cases o with
    | none => simp at differs
    | some c => simp [placeChar, mt fits_some.mpr differs, toLower_ne_A, toLower_ne_Z]

theorem compares_tryChunk : Compares tryChunk (some .failed) where
  hit := by
    intro o x s b here
    rw [tryChunk]
    cases o with
    | none => simp [placeChar, toLower_ne_A]
    | some c => simp [placeChar, fits_some.mp here]
  miss := by
    intro o x s b differs
    rw [tryChunk]
    cases o with
    | none => simp at differs
    | some c => simp [placeChar, mt fits_some.mpr differs, toLower_ne_A, toLower_ne_Z]

theorem tryHead_short {o : Option Char} (clean : o ≠ some nul) (b : List Char) :
    tryHead [] (placeChar o :: b) = .inl 1 := by
  simp [tryHead, placeChar_ne_nul clean, placeChar_ne_Z]

/-- The text of the chunks, a `Z` before each. -/
def chunksText (chunks : List (Segment Char)) : List Char := chunks.flatMap fun chunk => 'Z' :: segmentText chunk

def chunksLength (chunks : List (Segment Char)) : Nat := (chunks.map List.length).sum

def Led (seg : Segment Char) : Prop := ∃ c rest, seg = some c :: rest

theorem tryChunk_Z (s b : List Char) : tryChunk s ('Z' :: b) = some (.next s b) := by
  cases s with
  | nil => simp [tryChunk]
  | cons x s => simp [tryChunk, toLower_ne_Z]

theorem tryChunks_fits_last {chunk : Segment Char} {s : List Char} {trash : Int} (led : Led chunk)
    (fits : Fits toLower chunk (s.take chunk.length)) : tryChunks s (segmentText chunk) trash = some 0 := by
  obtain ⟨c, rest, rfl⟩ := led
  cases s with
  | nil => exact absurd fits not_fits_cons_nil
  | cons x s =>
    rw [fits_take_cons, fits_some] at fits
    have compared := compares_tryChunk.fits [] fits.2
    rw [List.append_nil, tryChunk] at compared
    rw [segmentText_cons, placeChar, tryChunks_cons, scanChunk, if_pos fits.1]
    simp only [compared]

theorem tryChunks_fits_next {chunk : Segment Char} {s b : List Char} (trash : Int) (led : Led chunk)
    (fits : Fits toLower chunk (s.take chunk.length)) :
    tryChunks s (segmentText chunk ++ 'Z' :: b) trash = tryChunks (s.drop chunk.length) b trash := by
  obtain ⟨c, rest, rfl⟩ := led
  cases s with
  | nil => exact absurd fits not_fits_cons_nil
  | cons x s =>
    rw [fits_take_cons, fits_some] at fits
    have compared := compares_tryChunk.fits ('Z' :: b) fits.2
    rw [tryChunk_Z] at compared
    rw [segmentText_cons, placeChar, List.cons_append, tryChunks_cons, scanChunk, if_pos fits.1]
    simp only [compared, List.length_cons, List.drop_succ_cons]

/-- A chunk that does not fit here costs one character, or the match where none is left. -/
theorem tryChunks_misses {chunk : Segment Char} {x : Char} {s b : List Char} {trash : Int} (led : Led chunk)
    (room : chunk.length ≤ (x :: s).length) (misses : ¬ Fits toLower chunk ((x :: s).take chunk.length)) :
    (trash < 1 ∧ ∃ r ≠ 0, tryChunks (x :: s) (segmentText chunk ++ b) trash = some r) ∨
      1 ≤ trash ∧ tryChunks (x :: s) (segmentText chunk ++ b) trash =
        tryChunks s (segmentText chunk ++ b) (trash - 1) := by
  obtain ⟨c, rest, rfl⟩ := led
  rw [fits_take_cons, fits_some] at misses
  rw [segmentText_cons, placeChar, List.cons_append, tryChunks_cons]
  by_cases same : toLower x = toLower c
  · have compared : tryChunk s (segmentText rest ++ b) = some .failed :=
      compares_tryChunk.misses _ (.inl (by simpa using room)) fun later => misses ⟨same, later⟩
    rw [scanChunk, if_pos same]
    simp only [compared]
    by_cases spent : trash < 1
    · rw [if_pos (by omega)]
      exact .inl ⟨spent, 5, by decide, rfl⟩
    · rw [if_neg (by omega)]
      exact .inr ⟨by omega, rfl⟩
  · by_cases spent : trash < 1
    · rw [scanChunk, if_neg same, if_pos (by omega)]
      exact .inl ⟨spent, 4, by decide, rfl⟩
    · -- The scan itself passes over the character and goes on.
      rw [tryChunks_cons s, scanChunk, if_neg same, if_neg (by omega)]
      exact .inr ⟨by omega, rfl⟩

theorem minLength_tokens (seg : Segment Char) (ts : List (Token Char)) :
    minLength (seg.tokens ++ ts) = seg.length + minLength ts := by
  induction seg with
  | nil => simp
  | cons o seg ih => cases o <;> simp [Segment.token, minLength, ih] <;> omega

theorem minLength_chunkTokens (chunks : List (Segment Char)) (ts : List (Token Char)) :
    minLength (chunkTokens chunks ++ ts) = chunksLength chunks + minLength ts := by
  induction chunks with
  | nil => simp [chunkTokens, chunksLength]
  | cons chunk chunks ih =>
    have shape : chunkTokens (chunk :: chunks) ++ ts = .star :: (chunk.tokens ++ (chunkTokens chunks ++ ts)) := by
      simp [chunkTokens]
    rw [shape, minLength, minLength_tokens, ih]
    simp [chunksLength, Nat.add_assoc]

variable {chunks : List (Segment Char)}

theorem tryChunks_decides {chunk : Segment Char} {mid after : List Char} {trash : Int}
    (led : ∀ c ∈ chunk :: chunks, Led c) (spare : trash = mid.length - chunksLength (chunk :: chunks))
    (some_spare : 0 ≤ trash) :
    ∃ r, tryChunks (mid ++ after) (segmentText chunk ++ chunksText chunks) trash = some r ∧
      (r = 0 ↔ Matches toLower (chunkTokens (chunk :: chunks) ++ [.star]) mid) := by
  induction length : mid.length using Nat.strongRecOn generalizing mid chunk chunks trash with
  | _ n ih =>
  have led_chunk := led chunk List.mem_cons_self
  have total : chunksLength (chunk :: chunks) = chunk.length + chunksLength chunks := by simp [chunksLength]
  have room : chunk.length ≤ mid.length := by omega
  have front : (mid ++ after).take chunk.length = mid.take chunk.length := List.take_append_of_le_length room
  have some_chunk : 0 < chunk.length := by
    obtain ⟨c, rest, rfl⟩ := led_chunk
    simp
  by_cases fits : Fits toLower chunk (mid.take chunk.length)
  · rw [matches_chunk_here fits]
    have fits_after : Fits toLower chunk ((mid ++ after).take chunk.length) := by rwa [front]
    cases chunks with
    | nil =>
      refine ⟨0, ?_, ?_⟩
      · simpa [chunksText] using tryChunks_fits_last led_chunk fits_after
      · have all : Matches toLower (chunkTokens [] ++ [.star]) (mid.drop chunk.length) :=
          matches_star.mpr ⟨(mid.drop chunk.length).length, by rw [List.drop_length]; exact .nil⟩
        simp [all]
    | cons next chunks =>
      have step := tryChunks_fits_next (b := segmentText next ++ chunksText chunks) trash led_chunk
        fits_after
      rw [List.drop_append_of_le_length room] at step
      have text : chunksText (next :: chunks) = 'Z' :: (segmentText next ++ chunksText chunks) := by
        simp [chunksText]
      rw [text, step]
      have dropped : (mid.drop chunk.length).length = mid.length - chunk.length := List.length_drop
      exact ih _ (by omega) (fun c mem => led c (List.mem_cons_of_mem chunk mem)) (by omega) some_spare rfl
  · cases mid with
    | nil =>
      rw [List.length_nil] at room
      omega
    | cons x mid =>
      rw [List.length_cons] at length spare room
      have misses : ¬ Fits toLower chunk ((x :: (mid ++ after)).take chunk.length) := by
        rwa [List.cons_append, ← front] at *
      rw [matches_chunk_later fits, List.cons_append]
      rcases tryChunks_misses (b := chunksText chunks) led_chunk (by simp; omega) misses with
        ⟨spent, r, some_r, result⟩ | ⟨more, result⟩
      · refine ⟨r, result, ?_⟩
        have short : ¬ Matches toLower (chunkTokens (chunk :: chunks) ++ [.star]) mid := by
          intro matched
          have least := matched.minLength_le
          rw [minLength_chunkTokens, minLength, minLength] at least
          omega
        simp [some_r, short]
      · rw [result]
        exact ih _ (by omega) led (by omega) (by omega) rfl

inductive Layout where
  | plain (head : Segment Char)
  | starred (head : Segment Char) (chunks : List (Segment Char)) (tail : Segment Char)

namespace Layout

def tokens : Layout → List (Token Char)
  | plain head => head.tokens
  | starred head chunks tail => head.tokens ++ (chunkTokens chunks ++ .star :: tail.tokens)

def text : Layout → List Char
  | plain head => segmentText head
  | starred head chunks tail => segmentText head ++ chunksText chunks ++ 'Z' :: segmentText tail

def turned : Layout → List Char
  | plain head => segmentText head
  | starred head chunks tail => segmentText head ++ 'Z' :: (segmentText tail.reverse ++ chunksText chunks)

def minlen (l : Layout) : Nat := minLength l.tokens

def firstStar : Layout → Option Nat
  | plain _ => none
  | starred head _ _ => some head.length

def lastStar : Layout → Option Nat
  | plain _ => none
  | starred head chunks _ => some (head.length + (chunksText chunks).length)

def push (o : Option Char) : Layout → Layout
  | plain head => plain (head ++ [o])
  | starred head chunks tail => starred head chunks (tail ++ [o])

def star : Layout → Layout
  | plain head => starred head [] []
  | starred head chunks tail => starred head (chunks ++ [tail]) []

def Good : Layout → Prop
  | plain head => CleanSegment head
  | starred head chunks tail => CleanSegment head ∧ CleanSegment tail ∧ ∀ c ∈ chunks, Led c

def Open : Layout → Prop
  | plain _ => True
  | starred _ _ tail => Led tail

def Closed : Layout → Prop
  | plain _ => True
  | starred _ _ tail => tail = [] ∨ Led tail

theorem Open.closed {l : Layout} (opens : l.Open) : l.Closed := by
  cases l with
  | plain head => trivial
  | starred head chunks tail => exact .inr opens

theorem star_closed (l : Layout) : l.star.Closed := by
  cases l <;> exact .inl rfl

end Layout

theorem tryHead_plain_end (s : List Char) (clean : nul ∉ s) :
    ∃ r, tryHead s [] = .inl r ∧ (r = 0 ↔ s = []) := by
  cases s with
  | nil => exact ⟨0, by simp [tryHead], by simp⟩
  | cons x s =>
    have some_x : x ≠ nul := fun same => clean (same ▸ List.mem_cons_self)
    have folded : toLower x ≠ nul := fun same => some_x (toLower_eq_nul.mp same)
    refine ⟨1, ?_, by simp⟩
    simp [tryHead, folded, show nul ≠ 'Z' by decide, show nul ≠ 'A' by decide]

theorem matchexec_plain {before : Char} {string : List Char} {head : Segment Char} (clean : nul ∉ string)
    (clean_head : CleanSegment head) (minlen : Nat) :
    ∃ r, matchexec before string (segmentText head) minlen = some r ∧
      (r = 0 ↔ Matches toLower head.tokens string) := by
  rw [matches_tokens]
  have text : segmentText head = segmentText head ++ [] := (List.append_nil _).symm
  by_cases fits : Fits toLower head (string.take head.length)
  · have compared := compares_tryHead.fits [] fits
    obtain ⟨r, result, decides⟩ := tryHead_plain_end (string.drop head.length)
      fun mem => clean (List.mem_of_mem_drop mem)
    refine ⟨r, by rw [matchexec, text, compared, result], decides.trans ?_⟩
    rw [List.drop_eq_nil_iff]
    constructor
    · intro short
      rwa [List.take_of_length_le short] at fits
    · exact fun whole => le_of_eq whole.length_eq.symm
  · have compared := compares_tryHead.misses []
      (.inr fun o mem => tryHead_short fun same => clean_head (same ▸ mem)) fits
    refine ⟨1, by rw [matchexec, text, compared], ?_⟩
    constructor
    · intro zero
      cases zero
    · intro whole
      rw [whole.length_eq, List.take_length] at fits
      exact absurd whole fits

theorem minLength_starred (head : Segment Char) (chunks : List (Segment Char)) (tail : Segment Char) :
    minLength (Layout.starred head chunks tail).tokens = head.length + chunksLength chunks + tail.length := by
  have last := minLength_tokens tail []
  rw [List.append_nil, minLength, Nat.add_zero] at last
  rw [Layout.tokens, minLength_tokens, minLength_chunkTokens, minLength, last, Nat.add_assoc]

theorem peek_turned_tail {tail : Segment Char} (clean : CleanSegment tail) :
    peek (segmentText tail.reverse ++ chunksText chunks) = nul ↔ tail = [] ∧ chunks = [] := by
  cases shape : tail.reverse with
  | nil =>
    have empty := List.reverse_eq_nil_iff.mp shape
    cases chunks with
    | nil => simp [chunksText, empty]
    | cons c chunks => simp [chunksText, show 'Z' ≠ nul by decide]
  | cons o rest =>
    have some_tail : tail ≠ [] := by
      rintro rfl
      cases shape
    have clean_o : o ≠ some nul := by
      rintro rfl
      exact clean (List.mem_reverse.mp (shape ▸ List.mem_cons_self))
    simp [placeChar_ne_nul clean_o, some_tail]

theorem tryHead_Z_nil {q : List Char} (some_q : peek q ≠ nul) : tryHead [] ('Z' :: q) = .inl 1 := by
  simp [tryHead, some_q, show 'Z' ≠ nul by decide]

theorem tryHead_Z_cons (x : Char) (s q : List Char) : tryHead (x :: s) ('Z' :: q) = .inr (x :: s, q) := by
  simp [tryHead, toLower_ne_Z]

theorem matchexec_short {before : Char} {string : List Char} {head tail : Segment Char}
    (clean_head : CleanSegment head) (clean_tail : CleanSegment tail)
    (short : string.length < head.length + chunksLength chunks + tail.length) :
    ∃ r ≠ 0, matchexec before string (segmentText head ++ 'Z' :: (segmentText tail.reverse ++ chunksText chunks))
      (head.length + chunksLength chunks + tail.length) = some r := by
  by_cases fits : Fits toLower head (string.take head.length)
  · have compared := compares_tryHead.fits ('Z' :: (segmentText tail.reverse ++ chunksText chunks)) fits
    cases left : string.drop head.length with
    | nil =>
      have whole := fits.length_eq
      rw [List.length_take] at whole
      have exact_head := List.drop_eq_nil_iff.mp left
      have some_q : peek (segmentText tail.reverse ++ chunksText chunks) ≠ nul := by
        intro empty
        obtain ⟨rfl, rfl⟩ := (peek_turned_tail clean_tail).mp empty
        simp [chunksLength] at short
        omega
      exact ⟨1, by decide, by rw [matchexec, compared, left, tryHead_Z_nil some_q]⟩
    | cons x s =>
      refine ⟨2, by decide, ?_⟩
      rw [matchexec, compared, left, tryHead_Z_cons]
      simp only
      rw [if_pos (by omega)]
  · have compared := compares_tryHead.misses ('Z' :: (segmentText tail.reverse ++ chunksText chunks))
      (.inr fun o mem => tryHead_short fun same => clean_head (same ▸ mem)) fits
    exact ⟨1, by decide, by rw [matchexec, compared]⟩

theorem matchexec_after_head (before : Char) {h m t : List Char} {tail : Segment Char}
    (length_tail : tail.length = t.length) (led : ∀ c ∈ chunks, Led c) (room : chunksLength chunks ≤ m.length)
    {trash : Int} (spare : trash = m.length - chunksLength chunks) :
    ∃ r, (match tryTail ((h ++ m ++ t).reverse ++ [before]) (segmentText tail.reverse ++ chunksText chunks) with
        | none => none
        | some (.inl r) => some r
        | some (.inr b) => tryChunks (m ++ t) b trash) = some r ∧
      (r = 0 ↔ Fits toLower tail t ∧ Matches toLower (chunkTokens chunks ++ [.star]) m) := by
  obtain ⟨y, below, rest⟩ : ∃ y below, (h ++ m).reverse ++ [before] = y :: below := by
    cases (h ++ m).reverse with
    | nil => exact ⟨before, [], rfl⟩
    | cons y ys => exact ⟨y, ys ++ [before], rfl⟩
  have backwards : (h ++ m ++ t).reverse ++ [before] = t.reverse ++ y :: below := by
    rw [← rest, List.reverse_append, List.append_assoc]
  have length : tail.reverse.length = t.reverse.length := by simpa using length_tail
  have front : (t.reverse ++ y :: below).take tail.reverse.length = t.reverse := by rw [length, List.take_left]
  have back : (t.reverse ++ y :: below).drop tail.reverse.length = y :: below := by rw [length, List.drop_left]
  rw [backwards]
  by_cases fits : Fits toLower tail t
  · have compared := compares_tryTail.fits (chunksText chunks) (front ▸ fits_reverse.mpr fits)
    rw [back] at compared
    rw [compared]
    cases chunks with
    | nil =>
      have all : Matches toLower (chunkTokens [] ++ [.star]) m := matches_star.mpr ⟨m.length, by simp⟩
      exact ⟨0, by simp [chunksText, tryTail], by simp [fits, all]⟩
    | cons c chunks =>
      have text : chunksText (c :: chunks) = 'Z' :: (segmentText c ++ chunksText chunks) := by simp [chunksText]
      have found : tryTail (y :: below) ('Z' :: (segmentText c ++ chunksText chunks)) =
          some (.inr (segmentText c ++ chunksText chunks)) := by
        simp [tryTail, toLower_ne_Z]
      rw [text, found]
      simpa [fits] using tryChunks_decides led spare (by omega)
  · have enough : tail.reverse.length ≤ (t.reverse ++ y :: below).length := by simp; omega
    have misses := compares_tryTail.misses (chunksText chunks) (.inl enough)
      (by rw [front, fits_reverse]; exact fits)
    rw [misses]
    exact ⟨1, rfl, by simp [fits]⟩

theorem matchexec_starred {before : Char} {string : List Char} {head tail : Segment Char}
    (clean_head : CleanSegment head) (clean_tail : CleanSegment tail) (led : ∀ c ∈ chunks, Led c) :
    ∃ r, matchexec before string (Layout.starred head chunks tail).turned (Layout.starred head chunks tail).minlen =
        some r ∧ (r = 0 ↔ Matches toLower (Layout.starred head chunks tail).tokens string) := by
  have least := minLength_starred head chunks tail
  rw [Layout.minlen, Layout.turned, least]
  by_cases short : string.length < head.length + chunksLength chunks + tail.length
  · obtain ⟨r, some_r, result⟩ := matchexec_short clean_head clean_tail short
    refine ⟨r, result, ?_⟩
    have never : ¬ Matches toLower (Layout.starred head chunks tail).tokens string := by
      intro matched
      have length := matched.minLength_le
      omega
    simp [some_r, never]
  · obtain ⟨h, m, t, rfl, length_head, length_tail⟩ : ∃ h m t, string = h ++ m ++ t ∧
        head.length = h.length ∧ tail.length = t.length := by
      refine ⟨string.take head.length, (string.drop head.length).take (string.length - head.length - tail.length),
        (string.drop head.length).drop (string.length - head.length - tail.length), ?_, ?_, ?_⟩
      · rw [List.append_assoc, List.take_append_drop, List.take_append_drop]
      · simp; omega
      · simp; omega
    have room : chunksLength chunks ≤ m.length := by
      simp only [List.length_append] at short
      omega
    rw [Layout.tokens, matches_framed_split length_head length_tail]
    have front : (h ++ m ++ t).take head.length = h := by rw [length_head, List.append_assoc, List.take_left]
    have back : (h ++ m ++ t).drop head.length = m ++ t := by rw [length_head, List.append_assoc, List.drop_left]
    by_cases fits : Fits toLower head h
    · have compared := compares_tryHead.fits ('Z' :: (segmentText tail.reverse ++ chunksText chunks))
        (front ▸ fits)
      rw [back] at compared
      simp only [fits, true_and]
      cases left : m ++ t with
      | nil =>
        -- The whole string is the head: only an empty tail and no chunk are left to match.
        obtain ⟨rfl, rfl⟩ := List.append_eq_nil_iff.mp left
        have empty : tail = [] := List.length_eq_zero_iff.mp length_tail
        have no_chunks : chunks = [] := by
          cases chunks with
          | nil => rfl
          | cons c chunks =>
            obtain ⟨d, rest, rfl⟩ := led c List.mem_cons_self
            simp [chunksLength] at room
        subst empty no_chunks
        rw [matchexec, compared]
        refine ⟨0, ?_, ?_⟩
        · simp [tryHead, chunksText]
        · simpa [chunkTokens] using matches_star_nil.mpr Matches.nil
      | cons x s =>
        rw [left, tryHead_Z_cons] at compared
        have after := matchexec_after_head before (h := h) length_tail led room rfl
        rw [left] at after
        rw [matchexec, compared]
        simp only
        have spare : ((h ++ m ++ t).length : Int) - ↑(head.length + chunksLength chunks + tail.length) =
            m.length - chunksLength chunks := by
          simp only [List.length_append]
          omega
        rw [spare, if_neg (by omega)]
        exact after
    · have compared := compares_tryHead.misses (s := h ++ m ++ t)
        ('Z' :: (segmentText tail.reverse ++ chunksText chunks))
        (.inr fun o mem => tryHead_short fun same => clean_head (same ▸ mem)) (by rwa [front])
      exact ⟨1, by rw [matchexec, compared], by simp [fits]⟩

namespace Layout

theorem tokens_push (l : Layout) (o : Option Char) : (l.push o).tokens = l.tokens ++ [Segment.token o] := by
  cases l <;> simp [push, tokens, Segment.tokens]

theorem tokens_star (l : Layout) : l.star.tokens = l.tokens ++ [.star] := by
  cases l <;> simp [star, tokens, Segment.tokens, chunkTokens]

theorem text_push (l : Layout) (o : Option Char) : (l.push o).text = l.text ++ [placeChar o] := by
  cases l <;> simp [push, text, segmentText]

theorem text_star (l : Layout) : l.star.text = l.text ++ ['Z'] := by
  cases l <;> simp [star, text, segmentText, chunksText]

theorem minlen_push (l : Layout) (o : Option Char) : (l.push o).minlen = l.minlen + 1 := by
  rw [minlen, tokens_push, minLength_append]
  cases o <;> rfl

theorem minlen_star (l : Layout) : l.star.minlen = l.minlen := by
  rw [minlen, tokens_star, minLength_append]
  rfl

theorem firstStar_push (l : Layout) (o : Option Char) : (l.push o).firstStar = l.firstStar := by
  cases l <;> rfl

theorem lastStar_push (l : Layout) (o : Option Char) : (l.push o).lastStar = l.lastStar := by
  cases l <;> rfl

theorem firstStar_star (l : Layout) : l.star.firstStar = l.firstStar.or (some l.text.length) := by
  cases l <;> simp [star, firstStar, text]

theorem lastStar_star (l : Layout) : l.star.lastStar = some l.text.length := by
  cases l with
  | plain head => simp [star, lastStar, text, chunksText]
  | starred head chunks tail => simp [star, lastStar, text, chunksText]

theorem Good.push {l : Layout} {o : Option Char} (good : l.Good) (clean : o ≠ some nul) : (l.push o).Good := by
  cases l with
  | plain head => simpa [Good, Layout.push, CleanSegment, clean.symm] using good
  | starred head chunks tail => simpa [Good, Layout.push, CleanSegment, clean.symm] using good

theorem Good.star {l : Layout} (good : l.Good) (opens : l.Open) : l.star.Good := by
  cases l with
  | plain head => exact ⟨good, by simp [CleanSegment], by simp⟩
  | starred head chunks tail =>
    refine ⟨good.1, by simp [CleanSegment], fun c mem => ?_⟩
    rcases List.mem_append.mp mem with old | new
    · exact good.2.2 c old
    · rw [List.mem_singleton.mp new]
      exact opens

theorem Open.push {l : Layout} (opens : l.Open) (o : Option Char) : (l.push o).Open := by
  cases l with
  | plain head => trivial
  | starred head chunks tail =>
    obtain ⟨c, rest, rfl⟩ := opens
    exact ⟨c, rest ++ [o], rfl⟩

theorem open_star_push (l : Layout) (c : Char) : (l.star.push (some c)).Open := by
  cases l <;> exact ⟨c, [], rfl⟩

end Layout

structure Builds (st : Compiler) (l : Layout) : Prop where
  out : st.out = l.text
  fs : st.fs = l.firstStar
  ls : st.ls = l.lastStar
  cnt : st.cnt = l.minlen
  good : l.Good

theorem Builds.writeStar {st : Compiler} {l : Layout} (builds : Builds st l) (opens : l.Open) :
    Builds st.writeStar l.star where
  out := by rw [Compiler.writeStar, l.text_star, builds.out]
  fs := by rw [Compiler.writeStar, l.firstStar_star, builds.out, builds.fs]
  ls := by rw [Compiler.writeStar, l.lastStar_star, builds.out]
  cnt := by rw [Compiler.writeStar, l.minlen_star, builds.cnt]
  good := builds.good.star opens

theorem Builds.question {st : Compiler} {l : Layout} (builds : Builds st l) :
    Builds st.question (l.push none) where
  out := by rw [Compiler.question, l.text_push, builds.out]; rfl
  fs := by rw [Compiler.question, l.firstStar_push, builds.fs]
  ls := by rw [Compiler.question, l.lastStar_push, builds.ls]
  cnt := by rw [Compiler.question, l.minlen_push, builds.cnt]
  good := builds.good.push (by simp)

theorem Builds.literal {attr : Char → BitVec 32} {st : Compiler} {l : Layout} {ch : Char}
    (builds : Builds st l) (opens : l.Open) (some_ch : ch ≠ nul) :
    Builds (st.literal attr ch) ((if st.star then l.star else l).push (some ch)) := by
  have clean : some ch ≠ some nul := by simpa using some_ch
  cases star : st.star with
  | false =>
    simp only [Compiler.literal, star, Bool.false_eq_true, if_false]
    exact ⟨by rw [l.text_push, builds.out]; rfl, by rw [l.firstStar_push, builds.fs],
      by rw [l.lastStar_push, builds.ls], by rw [l.minlen_push, builds.cnt], builds.good.push clean⟩
  | true =>
    have starred := builds.writeStar opens
    simp only [Compiler.literal, star, if_true]
    exact ⟨by rw [l.star.text_push, starred.out]; rfl, by rw [l.star.firstStar_push, starred.fs],
      by rw [l.star.lastStar_push, starred.ls], by rw [l.star.minlen_push, starred.cnt], starred.good.push clean⟩

theorem literal_star (attr : Char → BitVec 32) (st : Compiler) (ch : Char) :
    (st.literal attr ch).star = false := by
  cases star : st.star <;> simp [Compiler.literal, Compiler.writeStar, star]

def starTokens (star : Bool) : List (Token Char) := if star then [.star] else []

theorem tokens_literal (star : Bool) (l : Layout) (ch : Char) :
    ((if star then l.star else l).push (some ch)).tokens = l.tokens ++ (starTokens star ++ [.lit ch]) := by
  cases star <;> simp [starTokens, Layout.tokens_push, Layout.tokens_star, Segment.token]

theorem open_literal {star : Bool} {l : Layout} (opens : l.Open) (ch : Char) :
    ((if star then l.star else l).push (some ch)).Open := by
  cases star with
  | false => exact opens.push _
  | true => exact l.open_star_push ch

theorem run_builds (attr : Char → BitVec 32) {m : List Char} {st : Compiler} {l : Layout} (clean : nul ∉ m)
    (builds : Builds st l) (opens : l.Open) :
    ∃ l', Builds (Compiler.run attr m st) l' ∧ l'.Open ∧
      l'.tokens ++ starTokens (Compiler.run attr m st).star =
        l.tokens ++ normalize st.star (maskTokens m) := by
  -- One literal of the mask, read with or without its backslash.
  have literal {m : List Char} {st : Compiler} {l : Layout} (ch : Char) (some_ch : ch ≠ nul) (builds : Builds st l)
      (opens : l.Open)
      (ih : ∀ {l : Layout}, Builds (st.literal attr ch) l → l.Open →
        ∃ l', Builds (Compiler.run attr m (st.literal attr ch)) l' ∧ l'.Open ∧
          l'.tokens ++ starTokens (Compiler.run attr m (st.literal attr ch)).star =
            l.tokens ++ normalize (st.literal attr ch).star (maskTokens m)) :
      ∃ l', Builds (Compiler.run attr m (st.literal attr ch)) l' ∧ l'.Open ∧
        l'.tokens ++ starTokens (Compiler.run attr m (st.literal attr ch)).star =
          l.tokens ++ normalize st.star (.lit ch :: maskTokens m) := by
    obtain ⟨l', built, opened, tokens⟩ := ih (builds.literal opens some_ch) (open_literal opens ch)
    refine ⟨l', built, opened, ?_⟩
    rw [tokens, tokens_literal, literal_star, Library.Glob.normalize]
    cases st.star <;> simp [starTokens]
  induction m, st using Compiler.run.induct attr generalizing l with
  | case1 st =>
    refine ⟨l, builds, opens, ?_⟩
    rw [Compiler.run, maskTokens, Library.Glob.normalize, starTokens]
  | case2 m st ih =>
    rw [Compiler.run, maskTokens, Library.Glob.normalize]
    have pending : Builds { st with star := true } l :=
      ⟨builds.out, builds.fs, builds.ls, builds.cnt, builds.good⟩
    exact ih (fun mem => clean (List.mem_cons_of_mem _ mem)) pending opens
  | case3 m st ih =>
    rw [Compiler.run, maskTokens, Library.Glob.normalize]
    obtain ⟨l', built, opened, tokens⟩ := ih (fun mem => clean (List.mem_cons_of_mem _ mem)) builds.question
      (opens.push none)
    refine ⟨l', built, opened, ?_⟩
    rw [tokens, Layout.tokens_push]
    simp [Segment.token, Compiler.question]
  | case4 m st ih =>
    rw [Compiler.run, maskTokens]
    exact literal '*' (by decide) builds opens (ih fun mem => clean (by simp [mem]))
  | case5 m st ih =>
    rw [Compiler.run, maskTokens]
    exact literal '?' (by decide) builds opens (ih fun mem => clean (by simp [mem]))
  | case6 ch m st notStar notOne notEscStar notEscOne ih =>
    have some_ch : ch ≠ nul := fun same => clean (same ▸ List.mem_cons_self)
    rw [Compiler.run, maskTokens]
    · exact literal ch some_ch builds opens (ih fun mem => clean (List.mem_cons_of_mem _ mem))
    all_goals assumption

theorem turn_eq {st : Compiler} {l : Layout} (builds : Builds st l) : st.turn = l.turned := by
  unfold Compiler.turn
  rw [builds.out, builds.fs, builds.ls]
  cases l with
  | plain head => rfl
  | starred head chunks tail =>
    simp only [Layout.firstStar, Layout.lastStar, Layout.text, Layout.turned]
    have reversed := reverseBetween_append (segmentText head ++ chunksText chunks ++ ['Z']) (segmentText tail) []
    have rotated := rotate_append (segmentText head) (chunksText chunks) ('Z' :: (segmentText tail).reverse) []
    have text : segmentText head ++ chunksText chunks ++ 'Z' :: segmentText tail =
        segmentText head ++ chunksText chunks ++ ['Z'] ++ segmentText tail ++ [] := by simp
    have start : head.length + (chunksText chunks).length + 1 =
        (segmentText head ++ chunksText chunks ++ ['Z']).length := by simp; omega
    have stop : (segmentText head ++ chunksText chunks ++ ['Z'] ++ segmentText tail ++ []).length - 1 =
        (segmentText head ++ chunksText chunks ++ ['Z']).length + (segmentText tail).length - 1 := by simp; omega
    have first : head.length + (chunksText chunks).length - head.length = (chunksText chunks).length := by omega
    have second : (segmentText head ++ chunksText chunks ++ ['Z'] ++ segmentText tail ++ []).length -
        (head.length + (chunksText chunks).length) = ('Z' :: (segmentText tail).reverse).length := by
      simp; omega
    rw [text, start, stop, reversed, first, second]
    rw [length_segmentText] at rotated
    simpa [segmentText] using rotated

theorem matchcomp_layout (attr : Char → BitVec 32) (mask : CString) : ∃ l : Layout,
    (matchcomp attr mask.chars).cmask = l.turned ∧ (matchcomp attr mask.chars).minlen = l.minlen ∧ l.Good ∧ l.Closed ∧
      l.tokens = normalize false (maskTokens mask.chars) := by
  have start : Builds {} (.plain []) := ⟨rfl, rfl, rfl, rfl, by simp [Layout.Good, CleanSegment]⟩
  obtain ⟨l, builds, opens, tokens⟩ := run_builds attr mask.nul_free start trivial
  rw [Layout.tokens, Segment.tokens_nil, List.nil_append] at tokens
  unfold matchcomp
  generalize Compiler.run attr mask.chars {} = st at builds tokens ⊢
  rw [← tokens]
  cases star : st.star with
  | false =>
    simp only [star, Bool.false_eq_true, if_false]
    exact ⟨l, turn_eq builds, builds.cnt, builds.good, opens.closed, by simp [starTokens]⟩
  | true =>
    have starred := builds.writeStar opens
    simp only [star, if_true]
    exact ⟨l.star, turn_eq starred, starred.cnt, starred.good, l.star_closed, by simp [starTokens, Layout.tokens_star]⟩

/-- The compiled path agrees with the language of the mask on every string; `before` is
whatever byte lies below the string. -/
theorem matchexec_matchcomp (attr : Char → BitVec 32) (before : Char) (mask string : CString) :
    ∃ r, matchexec before string.chars (matchcomp attr mask.chars).cmask (matchcomp attr mask.chars).minlen =
        some r ∧ (r = 0 ↔ InGlob mask.chars string.chars) := by
  obtain ⟨l, cmask, minlen, good, -, tokens⟩ := matchcomp_layout attr mask
  have language : InGlob mask.chars string.chars ↔ Matches toLower l.tokens string.chars := by
    rw [tokens, matches_normalize]
    rfl
  rw [cmask, minlen, language]
  cases l with
  | plain head => exact matchexec_plain string.nul_free good _
  | starred head chunks tail => exact matchexec_starred good.1 good.2.1 good.2.2

end Ircd.Match

import Ircd.Library.GlobNormal
import Ircd.Match.CompiledLanguage

/-! `matchdecomp` of `match.c`: a compiled mask as a mask.

It prints the tokens of the compiled mask one by one. Compiled again, what it prints has the same
tokens, for their stars stand already where `matchcomp` moves them.
-/

set_option autoImplicit false

namespace Ircd.Match
open Ircd.Library.Glob Ircd.Text

def decompChar (c : Char) : List Char :=
  (if c = '?' ∨ c = '*' then ['\\'] else []) ++ [if c = 'A' then '?' else c]

/-- The `switch` for a character behind the second star. -/
def decompChunkChar (c : Char) : List Char := if c = 'Z' then ['*'] else decompChar c

/-- `matchdecomp`; it returns the length of the text. -/
def matchdecomp (cmask : List Char) : List Char :=
  let head := cmask.takeWhile (· ≠ 'Z')
  match cmask.dropWhile (· ≠ 'Z') with
  | [] => head.flatMap decompChar
  | _ :: rcm =>
    let tail := rcm.takeWhile (· ≠ 'Z')
    let chunks := match rcm.dropWhile (· ≠ 'Z') with
      | [] => []
      | _ :: chunks => chunks.flatMap decompChunkChar ++ ['*']
    head.flatMap decompChar ++ '*' :: (chunks ++ tail.reverse.flatMap decompChar)

def printToken : Token Char → List Char
  | .star => ['*']
  | .one => ['?']
  | .lit c => decompChar (toLower c)

theorem decompChar_placeChar (o : Option Char) : decompChar (placeChar o) = printToken (Segment.token o) := by
  cases o with
  | none => rfl
  | some c => rfl

theorem decomp_segmentText (seg : Segment Char) : (segmentText seg).flatMap decompChar = seg.tokens.flatMap printToken := by
  induction seg with
  | nil => rfl
  | cons o seg ih =>
    rw [segmentText_cons, List.flatMap_cons, decompChar_placeChar, ih]
    rfl

theorem decompChunk_segmentText (seg : Segment Char) :
    (segmentText seg).flatMap decompChunkChar = seg.tokens.flatMap printToken := by
  rw [← decomp_segmentText]
  refine List.flatMap_congr fun c mem => ?_
  obtain ⟨o, -, rfl⟩ := List.mem_map.mp mem
  rw [decompChunkChar, if_neg (placeChar_ne_Z o)]

theorem decompChunk_chunksText (chunks : List (Segment Char)) :
    (chunksText chunks).flatMap decompChunkChar = (chunkTokens chunks).flatMap printToken := by
  induction chunks with
  | nil => rfl
  | cons chunk chunks ih =>
    have text : chunksText (chunk :: chunks) = 'Z' :: (segmentText chunk ++ chunksText chunks) := by simp [chunksText]
    have tokens : chunkTokens (chunk :: chunks) = .star :: (chunk.tokens ++ chunkTokens chunks) := by simp [chunkTokens]
    rw [text, tokens, List.flatMap_cons, List.flatMap_append, decompChunk_segmentText, ih, List.flatMap_cons,
      List.flatMap_append]
    rfl

theorem segmentText_split (seg : Segment Char) (rest : List Char) (ends : rest = [] ∨ peek rest = 'Z') :
    (segmentText seg ++ rest).takeWhile (· ≠ 'Z') = segmentText seg ∧
      (segmentText seg ++ rest).dropWhile (· ≠ 'Z') = rest := by
  induction seg with
  | nil =>
    cases rest with
    | nil => exact ⟨rfl, rfl⟩
    | cons c rest =>
      have star : c = 'Z' := ends.resolve_left nofun
      subst star
      exact ⟨rfl, rfl⟩
  | cons o seg ih =>
    have place : decide (placeChar o ≠ 'Z') = true := decide_eq_true (placeChar_ne_Z o)
    rw [segmentText_cons, List.cons_append, List.takeWhile_cons, List.dropWhile_cons, if_pos place, if_pos place, ih.1, ih.2]
    exact ⟨rfl, rfl⟩

theorem matchdecomp_turned (l : Layout) : matchdecomp l.turned = l.tokens.flatMap printToken := by
  cases l with
  | plain head =>
    obtain ⟨front, back⟩ := segmentText_split head [] (.inl rfl)
    rw [List.append_nil] at front back
    rw [matchdecomp, Layout.turned, back, front]
    exact decomp_segmentText head
  | starred head chunks tail =>
    obtain ⟨front, back⟩ := segmentText_split head ('Z' :: (segmentText tail.reverse ++ chunksText chunks)) (.inr rfl)
    have ends : chunksText chunks = [] ∨ peek (chunksText chunks) = 'Z' := by
      cases chunks with
      | nil => exact .inl rfl
      | cons chunk chunks => exact .inr rfl
    obtain ⟨tail_front, tail_back⟩ := segmentText_split tail.reverse _ ends
    have reversed : (segmentText tail.reverse).reverse = segmentText tail := by
      rw [segmentText, ← List.map_reverse, List.reverse_reverse]
      rfl
    rw [matchdecomp, Layout.turned, front, back]
    dsimp only
    rw [tail_front, tail_back, reversed, decomp_segmentText, decomp_segmentText, Layout.tokens, List.flatMap_append,
      List.flatMap_append, List.flatMap_cons]
    congr 1
    cases chunks with
    | nil => rfl
    | cons chunk chunks =>
      have printed := decompChunk_chunksText (chunk :: chunks)
      have text : chunksText (chunk :: chunks) = 'Z' :: (segmentText chunk ++ chunksText chunks) := by simp [chunksText]
      rw [text, List.flatMap_cons] at printed
      rw [← printed, text]
      simp [decompChunkChar, printToken]

theorem toLower_ne_quote (c : Char) : toLower c ≠ '\\' := toLower_ne_upper (by unfold isUpperCode; decide)

theorem maskTokens_printed (ts : List (Token Char)) : maskTokens (ts.flatMap printToken) = ts.map (Token.map toLower) := by
  induction ts with
  | nil => rfl
  | cons t ts ih =>
    rw [List.flatMap_cons, List.map_cons, ← ih]
    cases t with
    | star => rfl
    | one => rfl
    | lit c =>
      have letter : (if toLower c = 'A' then '?' else toLower c) = toLower c := if_neg (toLower_ne_A c)
      rw [printToken, decompChar, letter]
      by_cases wild : toLower c = '?' ∨ toLower c = '*'
      · rw [if_pos wild]
        exact maskTokens_escape (isWild_iff.mpr wild.symm)
      · rw [if_neg wild]
        refine maskTokens_plain (not_isWild_iff.mpr ?_) ?_
        · exact ⟨fun star => wild (.inr star), fun one => wild (.inl one)⟩
        · exact Bool.eq_false_iff.mpr fun quoted => toLower_ne_quote c (startsEscape_cons.mp quoted).1

theorem mem_printed {ts : List (Token Char)} {c : Char} (mem : c ∈ ts.flatMap printToken) :
    c ∈ ['*', '?', '\\'] ∨ ∃ d, .lit d ∈ ts ∧ c = toLower d := by
  obtain ⟨t, there, mem⟩ := List.mem_flatMap.mp mem
  cases t with
  | star => exact .inl (by simp [List.mem_singleton.mp mem])
  | one => exact .inl (by simp [List.mem_singleton.mp mem])
  | lit d =>
    rw [printToken, decompChar, if_neg (toLower_ne_A d)] at mem
    rcases List.mem_append.mp mem with quote | letter
    · refine .inl ?_
      split at quote
      · simp [List.mem_singleton.mp quote]
      · cases quote
    · exact .inr ⟨d, there, List.mem_singleton.mp letter⟩

def Layout.lower : Layout → Layout
  | .plain head => .plain (head.map (Option.map toLower))
  | .starred head chunks tail =>
    .starred (head.map (Option.map toLower)) (chunks.map (List.map (Option.map toLower))) (tail.map (Option.map toLower))

theorem segmentText_lower (seg : Segment Char) : segmentText (seg.map (Option.map toLower)) = segmentText seg := by
  rw [segmentText, List.map_map]
  refine List.map_congr_left fun o _ => ?_
  cases o with
  | none => rfl
  | some c => exact toLower_idem c

theorem Layout.turned_lower (l : Layout) : l.lower.turned = l.turned := by
  cases l with
  | plain head => exact segmentText_lower head
  | starred head chunks tail =>
    have others : chunksText (chunks.map (List.map (Option.map toLower))) = chunksText chunks := by
      rw [chunksText, List.flatMap_map]
      exact List.flatMap_congr fun chunk _ => congrArg _ (segmentText_lower chunk)
    rw [Layout.lower, Layout.turned, Layout.turned, ← List.map_reverse, segmentText_lower, segmentText_lower, others]

theorem Layout.tokens_lower (l : Layout) : l.lower.tokens = l.tokens.map (Token.map toLower) := by
  cases l with
  | plain head => exact (Segment.tokens_map toLower head).symm
  | starred head chunks tail =>
    have others : chunkTokens (chunks.map (List.map (Option.map toLower))) = (chunkTokens chunks).map (Token.map toLower) := by
      rw [chunkTokens, chunkTokens, List.flatMap_map, List.map_flatMap]
      refine List.flatMap_congr fun chunk _ => ?_
      rw [List.map_cons, Segment.tokens_map]
      rfl
    rw [Layout.lower, Layout.tokens, Layout.tokens, List.map_append, List.map_append, List.map_cons, Segment.tokens_map,
      Segment.tokens_map, others]
    rfl

theorem Layout.tokens_injective {l l' : Layout} (same : l.tokens = l'.tokens) : l = l' := by
  cases l with
  | plain head =>
    cases l' with
    | plain head' => exact congrArg _ (Segment.tokens_injective same)
    | starred head' chunks' tail' =>
      refine absurd ?_ (Segment.star_free head)
      rw [Layout.tokens] at same
      rw [same, Layout.tokens]
      simp
  | starred head chunks tail =>
    cases l' with
    | plain head' =>
      refine absurd ?_ (Segment.star_free head')
      rw [Layout.tokens.eq_1 head'] at same
      rw [← same, Layout.tokens]
      simp
    | starred head' chunks' tail' =>
      obtain ⟨heads, others, tails⟩ := segments_of_tokens same
      rw [heads, others, tails]

/-- A mask that is compiled, printed and compiled again is the same compiled mask. -/
theorem matchcomp_matchdecomp (attr : Char → BitVec 32) (mask : CString) :
    let first := matchcomp attr mask.chars
    let again := matchcomp attr (matchdecomp first.cmask)
    again.cmask = first.cmask ∧ again.minlen = first.minlen := by
  obtain ⟨l, cmask, minlen, -, -, tokens⟩ := matchcomp_layout attr mask
  dsimp only
  rw [cmask, minlen, matchdecomp_turned]
  have plain : ∀ c ∈ l.tokens.flatMap printToken, c ≠ nul ∧ c.toNat < 256 := by
    intro c mem
    rcases mem_printed mem with sign | ⟨d, lit, rfl⟩
    · exact (by decide : ∀ c ∈ ['*', '?', '\\'], c ≠ nul ∧ c.toNat < 256) c sign
    · have there : d ∈ mask.chars := by
        rw [tokens] at lit
        exact mem_maskTokens (mem_normalize lit)
      exact ⟨fun is_nul => mask.nul_free (toLower_eq_nul.mp is_nul ▸ there), toLower_byte (mask.byte d there)⟩
  obtain ⟨l', cmask', minlen', -, -, tokens'⟩ := matchcomp_layout attr
    ⟨l.tokens.flatMap printToken, fun mem => (plain nul mem).1 rfl, fun c mem => (plain c mem).2⟩
  dsimp only at cmask' minlen' tokens'
  have lower : l'.tokens = l.lower.tokens := by
    rw [tokens', maskTokens_printed, normalize_map, Layout.tokens_lower, tokens, normalize_idem]
  have same := Layout.tokens_injective lower
  rw [cmask', minlen', same]
  refine ⟨l.turned_lower, ?_⟩
  rw [Layout.minlen, Layout.minlen, Layout.tokens_lower, minLength_map]

end Ircd.Match

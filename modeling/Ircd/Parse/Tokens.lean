import Ircd.Parse.Parameters
import Ircd.Text.Lines
import Ircd.Text.Strhash

/-! The tokenizer of `ircd_string.c`: `ircd_strtok` over a buffer that it writes terminators into. -/

set_option autoImplicit false

namespace Ircd.Parse
open Ircd.Text

/-- What `ircd_strtok` keeps between two calls: the buffer with the position of the scan, and whether `*save`
points there or is null. -/
structure Tokens where
  cursor : Cursor
  save : Bool

/-- `strchr(fs, c) != NULL`, for a character that is not the terminator. -/
def isSep (fs : List Char) (c : Char) : Bool := c ≠ nul && fs.contains c

def ircdStrtok (fs : List Char) (t : Tokens) : Option Nat × Tokens :=
  if !t.save then (none, t)
  else
    let pos := walk (isSep fs) id t.cursor.passed t.cursor.rest
    if peek pos.rest = nul then (none, ⟨pos, false⟩)
    else
      let tmp := pos.place
      let pos := walk (fun c => c ≠ nul && !fs.contains c) id pos.passed pos.rest
      if peek pos.rest ≠ nul then (some tmp, ⟨pos.terminate, true⟩) else (some tmp, ⟨pos, false⟩)

def foldSame (a b : List Char) : Bool := a.map toLower = b.map toLower

structure Clean (word : List Char) : Prop where
  nul_free : nul ∉ word
  byte : ∀ c ∈ word, c.toNat < 256

theorem ircdStrcmp_foldSame {a b : List Char} (clean_a : Clean a) (clean_b : Clean b) :
    ircdStrcmp a b = 0 ↔ foldSame a b = true := by
  rw [foldSame, decide_eq_true_eq]
  exact ircdStrcmp_eq_zero clean_a.byte clean_b.byte clean_a.nul_free clean_b.nul_free

theorem strtok_append (sep : Char) (front rest : List Char) :
    strtok sep (front ++ sep :: rest) = strtok sep front ++ strtok sep rest := by
  rw [strtok, List.splitOn_append_cons_of_beq front rest (beq_self_eq_true sep), List.filter_append]
  rfl

theorem strtok_sep (sep : Char) (rest : List Char) : strtok sep (sep :: rest) = strtok sep rest :=
  strtok_append sep [] rest

theorem strtok_seps {token : Char} {seps : List Char} (all : ∀ c ∈ seps, c = token) (rest : List Char) :
    strtok token (seps ++ rest) = strtok token rest := by
  induction seps with
  | nil => rfl
  | cons c seps ih =>
    obtain rfl : c = token := all c List.mem_cons_self
    rw [List.cons_append, strtok_sep, ih fun d mem => all d (List.mem_cons_of_mem _ mem)]

theorem strtok_word {sep : Char} {word : List Char} (some_word : word ≠ []) (whole : sep ∉ word) :
    strtok sep word = [word] := by
  rw [strtok, List.splitOn_eq_singleton whole]
  simpa using some_word

theorem strtok_cases (sep : Char) (text : List Char) :
    (strtok sep text = [] ∧ ∀ c ∈ text, c = sep) ∨
      ∃ seps word tail, text = seps ++ word ++ tail ∧ (∀ c ∈ seps, c = sep) ∧ word ≠ [] ∧ sep ∉ word ∧
        (tail = [] ∨ ∃ more, tail = sep :: more) ∧ strtok sep text = word :: strtok sep tail.tail := by
  induction text with
  | nil => exact .inl ⟨rfl, nofun⟩
  | cons c text ih =>
    by_cases skipped : c = sep
    · subst skipped
      rw [strtok_sep]
      rcases ih with ⟨none, all⟩ | ⟨seps, word, tail, rfl, all, others⟩
      · refine .inl ⟨none, fun d mem => ?_⟩
        rcases List.mem_cons.mp mem with rfl | mem
        · rfl
        · exact all d mem
      · refine .inr ⟨c :: seps, word, tail, rfl, fun d mem => ?_, others⟩
        rcases List.mem_cons.mp mem with rfl | mem
        · rfl
        · exact all d mem
    · right
      by_cases more : sep ∈ c :: text
      · obtain ⟨word, rest, shape, whole⟩ := List.eq_append_cons_of_mem more
        have some_word : word ≠ [] := by
          rintro rfl
          exact skipped (List.cons.inj shape).1
        refine ⟨[], word, sep :: rest, shape, nofun, some_word, whole, .inr ⟨rest, rfl⟩, ?_⟩
        rw [shape, strtok_append, strtok_word some_word whole]
        rfl
      · exact ⟨[], c :: text, [], by simp, nofun, nofun, more, .inl rfl, strtok_word nofun more⟩

theorem mem_splitOn {sep : Char} {text part : List Char} (mem : part ∈ text.splitOn sep) : ∀ c ∈ part, c ∈ text := by
  induction text generalizing part with
  | nil =>
    rw [List.splitOn_nil, List.mem_singleton] at mem
    rw [mem]
    exact fun c => id
  | cons d text ih =>
    rw [List.splitOn_cons_eq_if_modifyHead] at mem
    split at mem
    · rcases List.mem_cons.mp mem with rfl | mem
      · nofun
      · exact fun c here => List.mem_cons_of_mem _ (ih mem c here)
    · obtain ⟨first, parts, shape⟩ := List.exists_cons_of_ne_nil (List.splitOn_ne_nil sep text)
      rw [shape, List.modifyHead_cons] at mem
      rcases List.mem_cons.mp mem with rfl | mem
      · intro c here
        rcases List.mem_cons.mp here with rfl | here
        · exact List.mem_cons_self
        · exact List.mem_cons_of_mem _ (ih (shape ▸ List.mem_cons_self) c here)
      · exact fun c here => List.mem_cons_of_mem _ (ih (shape ▸ List.mem_cons_of_mem _ mem) c here)

theorem mem_strtok {sep : Char} {text word : List Char} (mem : word ∈ strtok sep text) :
    word ≠ [] ∧ ∀ c ∈ word, c ∈ text := by
  obtain ⟨part, some_word⟩ := List.mem_filter.mp mem
  exact ⟨of_decide_eq_true some_word, mem_splitOn part⟩

def keep (kept : List (List Char)) (word : List Char) : List (List Char) :=
  if kept.any (foldSame word) then kept else kept ++ [word]

theorem eraseDupsBy_keep (kept rest : List (List Char)) (word : List Char) :
    List.eraseDupsBy.loop foldSame (word :: rest) kept.reverse =
      List.eraseDupsBy.loop foldSame rest (keep kept word).reverse := by
  rw [List.eraseDupsBy.loop, List.any_reverse]
  unfold keep
  cases kept.any (foldSame word) with
  | true => rfl
  | false => simp

theorem take_eraseDupsBy (kept rest : List (List Char)) :
    (List.eraseDupsBy.loop foldSame rest kept.reverse).take kept.length = kept := by
  induction rest generalizing kept with
  | nil => rw [List.eraseDupsBy.loop, List.reverse_reverse, List.take_length]
  | cons word rest ih =>
    rw [eraseDupsBy_keep]
    have longer := ih (keep kept word)
    unfold keep at longer ⊢
    split
    · rename_i repeated
      rwa [if_pos repeated] at longer
    · rename_i new
      rw [if_neg new] at longer
      have front := congrArg (List.take kept.length) longer
      rwa [List.take_take, List.take_left, List.length_append, Nat.min_eq_left (Nat.le_add_right _ _)] at front

theorem walk_over {goes : Char → Bool} {front rest : List Char} (passed : List Char)
    (all : ∀ c ∈ front, goes c = true) (stop : goes (peek rest) = false) :
    walk goes id passed (front ++ rest) = ⟨passed ++ front, rest⟩ := by
  have stops : rest.takeWhile goes = [] ∧ rest.dropWhile goes = rest := by
    cases rest with
    | nil => exact ⟨rfl, rfl⟩
    | cons c rest =>
      rw [peek_cons] at stop
      exact ⟨List.takeWhile_cons_of_neg (by simp [stop]), List.dropWhile_cons_of_neg (by simp [stop])⟩
  rw [walk_eq, List.map_id, List.takeWhile_append_of_pos all, List.dropWhile_append_of_pos all, stops.1, stops.2,
    List.append_nil]

section
variable {sep : Char} {passed seps word more junk : List Char}

theorem skip_seps (some_sep : sep ≠ nul) (all : ∀ c ∈ seps, c = sep) (stop : peek more ≠ sep) :
    walk (isSep [sep]) id passed (seps ++ more) = ⟨passed ++ seps, more⟩ := by
  refine walk_over passed (fun c mem => ?_) ?_
  · rw [all c mem]
    simpa [isSep] using some_sep
  · simp [isSep, stop]

theorem skip_word (clean : nul ∉ word) (whole : sep ∉ word) (stop : peek more = nul ∨ peek more = sep) :
    walk (fun c => c ≠ nul && !(List.contains [sep] c)) id passed (word ++ more) = ⟨passed ++ word, more⟩ := by
  refine walk_over passed (fun c mem => ?_) ?_
  · have some_c : c ≠ nul := fun same => clean (same ▸ mem)
    have other : c ≠ sep := fun same => whole (same ▸ mem)
    simp [some_c, other]
  · rcases stop with stop | stop
    · simp [stop]
    · simp [stop]

theorem ircdStrtok_none (some_sep : sep ≠ nul) (all : ∀ c ∈ seps, c = sep) :
    ircdStrtok [sep] ⟨⟨passed, seps ++ nul :: junk⟩, true⟩ = (none, ⟨⟨passed ++ seps, nul :: junk⟩, false⟩) := by
  have skip : walk (isSep [sep]) id passed (seps ++ nul :: junk) = _ := skip_seps some_sep all (Ne.symm some_sep)
  simp only [ircdStrtok, skip, peek_cons, if_true, Bool.not_true, Bool.false_eq_true, if_false]

theorem peek_word (some_word : word ≠ []) (clean : nul ∉ word) (whole : sep ∉ word) :
    peek (word ++ more) ≠ nul ∧ peek (word ++ more) ≠ sep := by
  cases word with
  | nil => exact absurd rfl some_word
  | cons c word =>
    rw [List.cons_append, peek_cons]
    exact ⟨fun same => clean (same ▸ List.mem_cons_self), fun same => whole (same ▸ List.mem_cons_self)⟩

theorem ircdStrtok_last (some_sep : sep ≠ nul) (all : ∀ c ∈ seps, c = sep) (some_word : word ≠ [])
    (clean : nul ∉ word) (whole : sep ∉ word) :
    ircdStrtok [sep] ⟨⟨passed, seps ++ (word ++ nul :: junk)⟩, true⟩ =
      (some (passed ++ seps).length, ⟨⟨passed ++ seps ++ word, nul :: junk⟩, false⟩) := by
  have ⟨not_nul, not_sep⟩ : peek (word ++ nul :: junk) ≠ nul ∧ _ := peek_word some_word clean whole
  have skip : walk (isSep [sep]) id passed (seps ++ (word ++ nul :: junk)) = _ := skip_seps some_sep all not_sep
  have pass : walk _ id (passed ++ seps) (word ++ nul :: junk) = _ := skip_word clean whole (.inl rfl)
  simp only [ircdStrtok, skip, not_nul, pass, peek_cons, Cursor.place, Bool.not_true, Bool.false_eq_true, if_false,
    ne_eq, not_true_eq_false]

theorem ircdStrtok_word (some_sep : sep ≠ nul) (all : ∀ c ∈ seps, c = sep) (some_word : word ≠ [])
    (clean : nul ∉ word) (whole : sep ∉ word) :
    ircdStrtok [sep] ⟨⟨passed, seps ++ (word ++ sep :: more)⟩, true⟩ =
      (some (passed ++ seps).length, ⟨⟨passed ++ seps ++ word ++ [nul], more⟩, true⟩) := by
  have ⟨not_nul, not_sep⟩ : peek (word ++ sep :: more) ≠ nul ∧ _ := peek_word some_word clean whole
  have skip : walk (isSep [sep]) id passed (seps ++ (word ++ sep :: more)) = _ := skip_seps some_sep all not_sep
  have pass : walk _ id (passed ++ seps) (word ++ sep :: more) = _ := skip_word clean whole (.inr rfl)
  simp only [ircdStrtok, skip, not_nul, pass, peek_cons, Cursor.place, Cursor.terminate, some_sep, Bool.not_true,
    Bool.false_eq_true, if_false, ne_eq, not_false_eq_true, if_true, List.drop_succ_cons, List.drop_zero]

end

theorem ircdStrtok_null (fs : List Char) (cursor : Cursor) :
    ircdStrtok fs ⟨cursor, false⟩ = (none, ⟨cursor, false⟩) := rfl

theorem stringAt_token {front word behind : List Char} (clean : nul ∉ word) :
    stringAt (front ++ word ++ nul :: behind) front.length = word := by
  rw [List.append_assoc, stringAt_append, takeWhile_append_nul clean]

def tokenTexts (fs : List Char) : Nat → Tokens → Option (List (List Char))
  | 0, _ => none
  | fuel + 1, t =>
    match ircdStrtok fs t with
    | (none, _) => some []
    | (some start, t) => (tokenTexts fs fuel t).map (stringAt t.cursor.buffer start :: ·)

theorem tokenTexts_strtok {sep : Char} (some_sep : sep ≠ nul) (fuel : Nat) (text passed behind : List Char)
    (enough : text.length < fuel) (clean : nul ∉ text) :
    tokenTexts [sep] fuel ⟨⟨passed, text ++ nul :: behind⟩, true⟩ = some (strtok sep text) := by
  induction fuel generalizing text passed with
  | zero => exact absurd enough (Nat.not_lt_zero _)
  | succ fuel ih =>
    rw [tokenTexts]
    rcases strtok_cases sep text with ⟨none, all⟩ | ⟨seps, word, tail, rfl, all, some_word, whole, ends, tokens⟩
    · rw [ircdStrtok_none some_sep all, none]
    · simp only [List.mem_append, not_or] at clean
      rw [tokens]
      rcases ends with rfl | ⟨more, rfl⟩
      · have token : ircdStrtok [sep] ⟨⟨passed, seps ++ (word ++ nul :: behind)⟩, true⟩ = _ :=
          ircdStrtok_last some_sep all some_word clean.1.2 whole
        obtain ⟨fuel, rfl⟩ : ∃ n, fuel = n + 1 := by
          have := List.length_pos_iff.mpr some_word
          simp only [List.length_append] at *
          exact Nat.exists_eq_add_one.mpr (by omega)
        rw [List.append_nil, List.append_assoc, token]
        simp only [Cursor.buffer]
        rw [tokenTexts, ircdStrtok_null, stringAt_token clean.1.2, List.tail_nil, strtok, List.splitOn_nil]
        rfl
      · have token : ircdStrtok [sep] ⟨⟨passed, seps ++ (word ++ sep :: (more ++ nul :: behind))⟩, true⟩ = _ :=
          ircdStrtok_word some_sep all some_word clean.1.2 whole
        have shorter : more.length < fuel := by
          simp only [List.length_append, List.length_cons] at enough
          omega
        have string : stringAt (passed ++ seps ++ word ++ [nul] ++ (more ++ nul :: behind)) (passed ++ seps).length =
            word := by
          rw [List.append_assoc (passed ++ seps ++ word), List.singleton_append]
          exact stringAt_token clean.1.2
        rw [List.append_assoc, List.append_assoc, List.cons_append, token]
        simp only [Cursor.buffer]
        rw [string, ih more _ shorter fun mem => clean.2 (List.mem_cons_of_mem _ mem)]
        rfl

end Ircd.Parse

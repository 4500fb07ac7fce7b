import Ircd.Parse.Tokens

/-! `unique_name_vector`: pointers to the distinct names of a list. -/

set_option autoImplicit false

namespace Ircd.Parse
open Ircd.Text

/-- `strchr(start, token)`: what stands before the delimiter and what stands behind it. -/
def strchr (token : Char) : List Char → Option (List Char × List Char)
  | [] => none
  | c :: rest =>
    if c = token then some ([], rest)
    else if c = nul then none
    else (strchr token rest).map fun parts => (c :: parts.1, parts.2)

/-- The name at a place is one of those in `vector`. -/
def repeated (buffer : List Char) (vector : List Nat) (start : Nat) : Bool :=
  vector.any fun name => ircdStrcmp (stringAt buffer name) (stringAt buffer start) = 0

def namesLoop (token : Char) (size : Nat) : Nat → Cursor → List Nat → Option (List Char × List Nat)
  | 0, _, _ => none
  | fuel + 1, start, vector =>
    match strchr token start.rest with
    | some (front, behind) =>
      let next := walk (· = token) id (start.passed ++ front ++ [nul]) behind
      if repeated next.buffer vector start.place then namesLoop token size fuel next vector
      else if (vector ++ [start.place]).length = size then some (next.buffer, vector ++ [start.place])
      else namesLoop token size fuel next (vector ++ [start.place])
    | none =>
      if peek start.rest ≠ nul ∧ !repeated start.buffer vector start.place then
        some (start.buffer, vector ++ [start.place])
      else some (start.buffer, vector)

/-- `unique_name_vector`: the buffer as it leaves it and the entries of `vector`, which it returns the number of. -/
def uniqueNameVector (names : List Char) (token : Char) (size : Nat) : Option (List Char × List Nat) :=
  namesLoop token size (names.length + 1) (walk (· = token) id [] names) []

theorem strchr_some {token : Char} {word : List Char} (clean : nul ∉ word) (whole : token ∉ word) (more : List Char) :
    strchr token (word ++ token :: more) = some (word, more) := by
  induction word with
  | nil => exact if_pos rfl
  | cons c word ih =>
    simp only [List.mem_cons, not_or] at clean whole
    rw [List.cons_append, strchr, if_neg (Ne.symm whole.1), if_neg (Ne.symm clean.1), ih clean.2 whole.2]
    rfl

theorem strchr_none {token : Char} (some_token : token ≠ nul) {word : List Char} (clean : nul ∉ word)
    (whole : token ∉ word) (more : List Char) : strchr token (word ++ nul :: more) = none := by
  induction word with
  | nil => rw [List.nil_append, strchr, if_neg (Ne.symm some_token), if_pos rfl]
  | cons c word ih =>
    simp only [List.mem_cons, not_or] at clean whole
    rw [List.cons_append, strchr, if_neg (Ne.symm whole.1), if_neg (Ne.symm clean.1), ih clean.2 whole.2]
    rfl

def Points (passed : List Char) (vector : List Nat) (kept : List (List Char)) : Prop :=
  ∀ rest, vector.map (stringAt (passed ++ rest)) = kept

section
variable {passed word : List Char} {vector : List Nat} {kept : List (List Char)}

theorem Points.longer (points : Points passed vector kept) (more : List Char) :
    Points (passed ++ more) vector kept := by
  intro rest
  rw [List.append_assoc]
  exact points _

theorem Points.length (points : Points passed vector kept) : vector.length = kept.length := by
  rw [← points [], List.length_map]

theorem Points.add (points : Points passed vector kept) (clean : nul ∉ word) :
    Points (passed ++ (word ++ [nul])) (vector ++ [passed.length]) (kept ++ [word]) := by
  intro rest
  have text : stringAt (passed ++ word ++ nul :: rest) passed.length = word := stringAt_token clean
  rw [List.map_append, (points.longer (word ++ [nul])) rest, List.map_singleton]
  simp only [List.append_assoc, List.singleton_append] at text ⊢
  rw [text]

theorem Points.repeated (points : Points passed vector kept) (good : ∀ other ∈ kept, Clean other) (clean : Clean word)
    (rest : List Char) :
    Parse.repeated (passed ++ (word ++ nul :: rest)) vector passed.length = kept.any (foldSame word) := by
  have text : stringAt (passed ++ (word ++ nul :: rest)) passed.length = word := by
    rw [← List.append_assoc]
    exact stringAt_token clean.nul_free
  rw [Parse.repeated, ← points (word ++ nul :: rest), List.any_map, text, Bool.eq_iff_iff, List.any_eq_true,
    List.any_eq_true]
  refine exists_congr fun name => and_congr_right fun mem => ?_
  have old : Clean (stringAt (passed ++ (word ++ nul :: rest)) name) := by
    apply good
    rw [← points (word ++ nul :: rest)]
    exact List.mem_map_of_mem mem
  rw [decide_eq_true_eq, ircdStrcmp_foldSame old clean, Function.comp_apply]
  simp only [foldSame, eq_comm]

end

theorem exists_seps (token : Char) (text : List Char) :
    ∃ seps rest, text = seps ++ rest ∧ (∀ c ∈ seps, c = token) ∧ (rest = [] ∨ peek rest ≠ token) := by
  induction text with
  | nil => exact ⟨[], [], rfl, nofun, .inl rfl⟩
  | cons c text ih =>
    by_cases sep : c = token
    · obtain ⟨seps, rest, rfl, all, stop⟩ := ih
      refine ⟨c :: seps, rest, rfl, fun d mem => ?_, stop⟩
      rcases List.mem_cons.mp mem with rfl | mem
      · exact sep
      · exact all d mem
    · exact ⟨[], c :: text, rfl, nofun, .inr sep⟩

theorem skip_delimiters {token : Char} (some_token : token ≠ nul) {seps rest : List Char}
    (all : ∀ c ∈ seps, c = token) (stop : rest = [] ∨ peek rest ≠ token) (passed behind : List Char) :
    walk (· = token) id passed (seps ++ rest ++ nul :: behind) = ⟨passed ++ seps, rest ++ nul :: behind⟩ := by
  rw [List.append_assoc]
  refine walk_over passed (fun c mem => decide_eq_true (all c mem)) ?_
  cases rest with
  | nil => exact decide_eq_false (Ne.symm some_token)
  | cons c rest => simpa using stop

theorem Clean.part {text part : List Char} (clean : Clean text) (inside : ∀ c ∈ part, c ∈ text) : Clean part :=
  ⟨fun mem => clean.nul_free (inside _ mem), fun c mem => clean.byte c (inside c mem)⟩

/-- From the start of a name on, the loop finds what is left of the names, up to the size of the vector. -/
theorem namesLoop_words {token : Char} (some_token : token ≠ nul) {size : Nat} (fuel : Nat)
    (text passed behind : List Char) {vector : List Nat} {kept : List (List Char)} (enough : text.length < fuel)
    (clean : Clean text) (starts : text = [] ∨ peek text ≠ token) (points : Points passed vector kept)
    (good : ∀ other ∈ kept, Clean other) (room : kept.length < size) :
    ∃ buffer entries, namesLoop token size fuel ⟨passed, text ++ nul :: behind⟩ vector = some (buffer, entries) ∧
      entries.map (stringAt buffer) = (List.eraseDupsBy.loop foldSame (strtok token text) kept.reverse).take size := by
  induction fuel generalizing text passed vector kept with
  | zero => exact absurd enough (Nat.not_lt_zero _)
  | succ fuel ih =>
    rw [namesLoop]
    by_cases delimited : token ∈ text
    · obtain ⟨word, more, rfl, whole⟩ := List.eq_append_cons_of_mem delimited
      obtain ⟨seps, rest, rfl, all, stop⟩ := exists_seps token more
      have word_clean : Clean word := clean.part fun c mem => List.mem_append_left _ mem
      have rest_clean : Clean rest :=
        clean.part fun c mem => List.mem_append_right _ (List.mem_cons_of_mem _ (List.mem_append_right _ mem))
      have some_word : word ≠ [] := by
        rintro rfl
        exact starts.elim nofun fun other => other rfl
      have names : strtok token (word ++ token :: (seps ++ rest)) = word :: strtok token rest := by
        rw [strtok_append, strtok_word some_word whole, strtok_seps all, List.singleton_append]
      have shorter : rest.length < fuel := by
        simp only [List.length_append, List.length_cons] at enough
        omega
      have found : strchr token (word ++ token :: (seps ++ rest) ++ nul :: behind) =
          some (word, seps ++ rest ++ nul :: behind) := by
        rw [List.append_assoc, List.cons_append]
        exact strchr_some word_clean.nul_free whole _
      have next := skip_delimiters some_token all stop (passed ++ word ++ [nul]) behind
      have buffer : Cursor.buffer ⟨passed ++ word ++ [nul] ++ seps, rest ++ nul :: behind⟩ =
          passed ++ (word ++ nul :: (seps ++ (rest ++ nul :: behind))) := by
        simp [Cursor.buffer]
      have old : Points (passed ++ word ++ [nul] ++ seps) vector kept := by
        simp only [List.append_assoc]
        exact points.longer _
      have new : Points (passed ++ word ++ [nul] ++ seps) (vector ++ [passed.length]) (kept ++ [word]) := by
        rw [List.append_assoc passed]
        exact (points.add word_clean.nul_free).longer seps
      simp only [found, next, Cursor.place, buffer, points.repeated good word_clean, names]
      rw [eraseDupsBy_keep, keep]
      cases again : kept.any (foldSame word) with
      | true => exact ih rest _ shorter rest_clean stop old good room
      | false =>
        have all_clean : ∀ other ∈ kept ++ [word], Clean other := by
          intro other mem
          rcases List.mem_append.mp mem with mem | mem
          · exact good other mem
          · rw [List.mem_singleton.mp mem]
            exact word_clean
        have count := new.length
        simp only [Bool.false_eq_true, if_false]
        split
        · rename_i full
          refine ⟨_, _, rfl, ?_⟩
          rw [← buffer, ← full, count, take_eraseDupsBy]
          exact new _
        · rename_i not_full
          refine ih rest _ shorter rest_clean stop new all_clean ?_
          rw [count, List.length_append, List.length_singleton] at not_full
          rw [List.length_append, List.length_singleton]
          omega
    · rw [strchr_none some_token clean.nul_free delimited]
      cases text with
      | nil =>
        refine ⟨passed ++ nul :: behind, vector, by simp [Cursor.buffer], ?_⟩
        rw [strtok, List.splitOn_nil, List.filter_cons_of_neg (by simp), List.filter_nil, List.eraseDupsBy.loop,
          List.reverse_reverse, List.take_of_length_le (Nat.le_of_lt room)]
        exact points _
      | cons c text =>
        have some_c : c ≠ nul := fun same => clean.nul_free (same ▸ List.mem_cons_self)
        rw [strtok_word (List.cons_ne_nil c text) delimited, eraseDupsBy_keep, List.eraseDupsBy.loop,
          List.reverse_reverse, keep]
        have same := points.repeated good clean behind
        simp only [Cursor.buffer, Cursor.place, List.cons_append, peek_cons, ne_eq, some_c, not_false_eq_true,
          true_and, Bool.not_eq_true'] at same ⊢
        cases again : kept.any (foldSame (c :: text)) with
        | true =>
          rw [again] at same
          refine ⟨passed ++ c :: (text ++ nul :: behind), vector, by simp [same], ?_⟩
          rw [if_pos rfl, List.take_of_length_le (Nat.le_of_lt room)]
          exact points _
        | false =>
          rw [again] at same
          refine ⟨passed ++ c :: (text ++ nul :: behind), vector ++ [passed.length], by simp [same], ?_⟩
          have added := points.add clean.nul_free behind
          rw [if_neg Bool.false_ne_true, List.take_of_length_le (by rw [List.length_append]; exact room)]
          simpa using added

/-- The entries point to the names that do not repeat an earlier one, as many of them as there is room for. -/
theorem uniqueNameVector_distinct (names : CString) (token : Char) (some_token : token ≠ nul) (size : Nat)
    (room : 1 ≤ size) :
    ∃ buffer vector, uniqueNameVector (names.chars ++ [nul]) token size = some (buffer, vector) ∧
      vector.map (stringAt buffer) = ((strtok token names.chars).eraseDupsBy foldSame).take size ∧
      vector.length = min size ((strtok token names.chars).eraseDupsBy foldSame).length ∧ vector.length ≤ size := by
  have clean : Clean names.chars := ⟨names.nul_free, names.byte⟩
  generalize names.chars = text at clean ⊢
  obtain ⟨seps, rest, rfl, all, stop⟩ := exists_seps token text
  have start := skip_delimiters some_token all stop [] []
  have enough : rest.length < (seps ++ rest ++ [nul]).length + 1 := by
    simp only [List.length_append]
    omega
  obtain ⟨buffer, entries, looped, texts⟩ := namesLoop_words some_token _ rest ([] ++ seps) [] enough
    (clean.part fun c mem => List.mem_append_right _ mem) stop (fun _ => rfl : Points _ [] []) nofun room
  have count := congrArg List.length texts
  rw [List.length_map, List.length_take] at count
  rw [uniqueNameVector, start, strtok_seps all]
  exact ⟨buffer, entries, looped, texts, count, count.trans_le (Nat.min_le_left _ _)⟩

theorem uniqueNameVector_distinct_two :
    (uniqueNameVector ([',', 'a', ',', 'B', ',', 'A', ',', ',', 'c'] ++ [nul]) ',' 2).map
      (fun found => found.2.map (stringAt found.1)) = some [['a'], ['B']] := by
  obtain ⟨buffer, vector, run, texts, -⟩ := uniqueNameVector_distinct
    ⟨[',', 'a', ',', 'B', ',', 'A', ',', ',', 'c'], by decide, by decide⟩ ',' (by decide) 2 (by decide)
  rw [run]
  exact congrArg some (texts.trans (by decide +kernel))

end Ircd.Parse

import Ircd.Ddb.Resident
import Ircd.Ddb.TableFile
import Ircd.Library.Lines

/-! `ddb_seek` finds the first register whose id is not below the one that is asked for, as
long as the ids fit a `long`.

The search bisects offsets. The bounds are always starts of lines, and a line of at least
three characters between them keeps the place in the middle away from the end of the last.
-/

set_option autoImplicit false

namespace Ircd.Ddb
open Ircd.Library Ircd.Match Ircd.Text

section
variable {file : List Char}

theorem charAt_eol {p : Nat} : charAt file p = '\n' ↔ file[p]? = some '\n' := by
  rw [charAt, List.getD_eq_getElem?_getD]
  cases file[p]? with
  | none => simp [nul]
  | some c => simp

theorem backToEol_none {ptrlo p : Nat} (clean : ∀ q, ptrlo ≤ q → q ≤ p → charAt file q ≠ '\n') :
    backToEol file ptrlo p = none := by
  induction p with
  | zero =>
    rw [backToEol, if_neg]
    rintro ⟨rfl, eol⟩
    exact clean 0 (Nat.le_refl _) (Nat.le_refl _) eol
  | succ p ih =>
    rw [backToEol]
    by_cases passed : p + 1 < ptrlo
    · rw [if_pos passed]
    · rw [if_neg passed, if_neg (clean (p + 1) (by omega) (Nat.le_refl _))]
      exact ih fun q above below => clean q above (by omega)

theorem backToEol_some {ptrlo e p : Nat} (inside : ptrlo ≤ e) (before : e ≤ p) (eol : charAt file e = '\n')
    (clean : ∀ q, e < q → q ≤ p → charAt file q ≠ '\n') : backToEol file ptrlo p = some e := by
  induction p with
  | zero =>
    have here : e = 0 := by omega
    subst here
    rw [backToEol, if_pos ⟨by omega, eol⟩]
  | succ p ih =>
    rw [backToEol, if_neg (by omega)]
    by_cases here : e = p + 1
    · subst here
      rw [if_pos eol]
    · rw [if_neg (clean (p + 1) (by omega) (Nat.le_refl _))]
      exact ih (by omega) fun q above below => clean q above (by omega)

theorem behindEol_eq {left e p : Nat} (before : p ≤ e) (near : e < p + left) (eol : charAt file e = '\n')
    (clean : ∀ q, p ≤ q → q < e → charAt file q ≠ '\n') : behindEol file left p = e + 1 := by
  induction left generalizing p with
  | zero => omega
  | succ left ih =>
    rw [behindEol]
    by_cases here : p = e
    · subst here
      rw [if_pos eol]
    · rw [if_neg (clean p (Nat.le_refl _) (by omega))]
      exact ih (by omega) (by omega) fun q above below => clean q (by omega) below

end

section
variable {lines : List (List Char)}

/-- The line of a place between two starts of lines, as `ddb_seek` sees it: the start of that
line and of the next one, or, at the end of a line, twice the start of the next one. -/
theorem probe_lines (line : ∀ l ∈ lines, Line '\n' l) (long : ∀ l ∈ lines, 3 ≤ l.length) {a b : Nat}
    (less : a < b) (bound : b ≤ lines.length) {mid : Nat}
    (middle : mid = offset lines a + (offset lines b - offset lines a) / 2) :
    ∃ j, a ≤ j ∧ j < b ∧
      (let ptr := (backToEol lines.flatten (offset lines a) mid).getD (offset lines a)
       (if charAt lines.flatten ptr = '\n' then ptr + 1 else ptr) = offset lines j) ∧
      (behindEol lines.flatten (offset lines b - mid) mid = offset lines (j + 1) ∨
        behindEol lines.flatten (offset lines b - mid) mid = offset lines j ∧ a < j) := by
  have grows := offset_mono lines (Nat.le_of_lt less)
  -- The last line between the bounds has room for the middle before its end.
  have last_inside : b - 1 < lines.length := by omega
  have last : offset lines b = offset lines (b - 1) + lines[b - 1].length := by
    have next := offset_succ last_inside
    rwa [Nat.sub_add_cancel (by omega)] at next
  have last_long := long _ (List.getElem_mem last_inside)
  have last_start := offset_mono lines (show a ≤ b - 1 by omega)
  have inside : mid < lines.flatten.length := by
    have := offset_le lines b
    omega
  obtain ⟨m, m_inside, start, below⟩ := exists_offset inside
  have eol : ∀ q, offset lines m ≤ q → q < offset lines (m + 1) →
      (charAt lines.flatten q = '\n' ↔ q + 1 = offset lines (m + 1)) := by
    intro q above under
    rw [charAt_eol]
    exact getElem?_flatten_sep m_inside (line _ (List.getElem_mem m_inside)) above under
  have a_le : a ≤ m := by
    by_contra before
    have := offset_mono lines (show m + 1 ≤ a by omega)
    omega
  have m_lt : m < b := by
    by_contra behind
    have := offset_mono lines (show b ≤ m by omega)
    omega
  have to_b := offset_mono lines (show m + 1 ≤ b by omega)
  by_cases at_end : mid + 1 = offset lines (m + 1)
  · -- The middle is the end of a line, which cannot be the last one.
    have not_last : m ≠ b - 1 := by
      rintro rfl
      rw [Nat.sub_add_cancel (by omega)] at at_end
      omega
    have here := (eol mid start below).mpr at_end
    refine ⟨m + 1, by omega, by omega, ?_, .inr ⟨?_, by omega⟩⟩
    · rw [backToEol_some (by omega) (Nat.le_refl _) here fun q above below => by omega]
      simp only [Option.getD_some, here, if_true, at_end]
    · rw [behindEol_eq (Nat.le_refl _) (by omega) here fun q above below => by omega, at_end]
  · refine ⟨m, a_le, m_lt, ?_, .inl ?_⟩
    · have clean : ∀ q, offset lines m ≤ q → q ≤ mid → charAt lines.flatten q ≠ '\n' := by
        intro q above under
        rw [Ne, eol q above (by omega)]
        omega
      by_cases first : m = a
      · subst first
        rw [backToEol_none clean]
        simp only [Option.getD_none]
        rw [if_neg (clean _ (Nat.le_refl _) start)]
      · -- The scan stops at the end of the line before.
        have previous := @offset_succ _ lines (m - 1) (by omega)
        rw [Nat.sub_add_cancel (by omega)] at previous
        have from_a := offset_mono lines (show a ≤ m - 1 by omega)
        have previous_long := long _ (List.getElem_mem (l := lines) (n := m - 1) (by omega))
        have end_before : charAt lines.flatten (offset lines m - 1) = '\n' := by
          rw [charAt_eol]
          apply (getElem?_flatten_sep (j := m - 1) (by omega) (line _ (List.getElem_mem _)) (by omega)
            (by rw [Nat.sub_add_cancel (by omega)]; omega)).mpr
          rw [Nat.sub_add_cancel (by omega), Nat.sub_add_cancel (by omega)]
        rw [backToEol_some (e := offset lines m - 1) (by omega) (by omega) end_before
          fun q above below => clean q (by omega) below]
        simp only [Option.getD_some, end_before, if_true]
        omega
    · have end_here : charAt lines.flatten (offset lines (m + 1) - 1) = '\n' :=
        (eol _ (by omega) (by omega)).mpr (by omega)
      rw [behindEol_eq (e := offset lines (m + 1) - 1) (by omega) (by omega) end_here]
      · omega
      · intro q above under
        rw [Ne, eol q (by omega) (by omega)]
        omega

end

def longId (n : Nat) : Nat := min n (2 ^ 63 - 1)

def TableFile.lines (f : TableFile) : List (List Char) := f.records.map fileLine

theorem line_fileLine {r : Register} (fits : r.Fits) : Line '\n' (fileLine r) :=
  ⟨lineText r, rfl, (oneLine_lineText fits).1⟩

theorem length_fileLine (r : Register) : 4 ≤ (fileLine r).length := by
  have digits : 0 < (decimal r.id).length := Nat.length_toDigits_pos
  have length := length_lineText r
  rw [fileLine, List.length_append, List.length_singleton]
  omega

theorem atol_fileLine {r : Register} (rest : List Char) :
    (atol (fileLine r ++ rest) % 2 ^ 64).toNat = longId r.id := by
  have text : ∃ behind, fileLine r ++ rest = decimal r.id ++ ' ' :: behind := by
    refine ⟨r.mask.chars ++ ' ' :: r.key.chars ++ (r.content.elim [] fun content => ' ' :: content.chars) ++
      '\n' :: rest, ?_⟩
    simp only [fileLine, lineText, List.append_assoc, List.cons_append, List.nil_append]
  obtain ⟨behind, text⟩ := text
  have stop : isDigit (peek (' ' :: behind)) = false := rfl
  rw [text, decimal, atol_printed r.id stop, longId]
  omega

section
variable (f : TableFile) (id : Nat)

theorem drop_offset_cons {j : Nat} (inside : j < f.records.length) :
    f.text.drop (offset f.lines j) = fileLine f.records[j] ++ ((f.records.drop (j + 1)).map fileLine).flatten := by
  have tail : f.records.drop j = f.records[j] :: f.records.drop (j + 1) := List.drop_eq_getElem_cons inside
  rw [f.text_eq, TableFile.lines, drop_offset, ← List.map_drop, tail, List.map_cons, List.flatten_cons]

variable {f id} in
theorem longId_mono {i j : Nat} (before : i ≤ j) (inside_i : i < f.records.length)
    (inside : j < f.records.length) : longId f.records[i].id ≤ longId f.records[j].id := by
  unfold longId
  rcases Nat.eq_or_lt_of_le before with rfl | less
  · exact Nat.le_refl _
  · have grows := List.pairwise_iff_getElem.mp f.increasing i j inside_i inside less
    omega

structure Between (a b : Nat) (s : Nat × Nat) : Prop where
  ordered : a ≤ b
  bound : b ≤ f.records.length
  lo : s.1 = offset f.lines a
  hi : s.2 = offset f.lines b
  below : ∀ i (inside : i < f.records.length), i < a → longId f.records[i].id < id
  above : ∀ i (inside : i < f.records.length), b ≤ i → id < longId f.records[i].id

def Found (ptr : Nat) : Prop :=
  ∃ j ≤ f.records.length, ptr = offset f.lines j ∧
    ((∀ i (inside : i < f.records.length),
        (i < j → longId f.records[i].id < id) ∧ (j ≤ i → id < longId f.records[i].id)) ∨
      ∃ inside : j < f.records.length, longId f.records[j].id = id)

theorem seekTurn_between {a b : Nat} {s : Nat × Nat} (between : Between f id a b s) :
    (∃ s', seekTurn f.text id s = some (.inl s') ∧ (∃ a b, Between f id a b s') ∧ s'.2 - s'.1 < s.2 - s.1) ∨
      ∃ ptr, seekTurn f.text id s = some (.inr ptr) ∧ Found f id ptr := by
  obtain ⟨lo, hi⟩ := s
  obtain ⟨ordered, bound, rfl, rfl, below, above⟩ := between
  have length : f.lines.length = f.records.length := List.length_map ..
  have line : ∀ l ∈ f.lines, Line '\n' l := by
    intro l mem
    obtain ⟨r, mem_r, rfl⟩ := List.mem_map.mp mem
    exact line_fileLine (f.fits r mem_r)
  have long : ∀ l ∈ f.lines, 3 ≤ l.length := by
    intro l mem
    obtain ⟨r, -, rfl⟩ := List.mem_map.mp mem
    have := length_fileLine r
    omega
  have text : f.text = f.lines.flatten := f.text_eq
  simp only [seekTurn]
  by_cases same : a = b
  · subst same
    rw [if_pos rfl]
    exact .inr ⟨_, rfl, a, bound, rfl, .inl fun i inside => ⟨below i inside, above i inside⟩⟩
  · have later : ∀ i, i < f.records.length → offset f.lines i < offset f.lines (i + 1) := by
      intro i inside
      have next := @offset_succ _ f.lines i (by omega)
      have := long _ (List.getElem_mem (l := f.lines) (n := i) (by omega))
      omega
    have grows : offset f.lines a < offset f.lines b := by
      have first := later a (by omega)
      have rest := offset_mono f.lines (show a + 1 ≤ b by omega)
      omega
    obtain ⟨j, from_a, to_b, start, next⟩ := probe_lines line long (by omega : a < b) (by omega) rfl
    have inside : j < f.records.length := by omega
    have to_start := offset_mono f.lines from_a
    have to_next := offset_mono f.lines (show j + 1 ≤ b by omega)
    have step := later j inside
    simp only at start
    rw [if_neg (by omega), text, start, ← text, drop_offset_cons f inside, atol_fileLine]
    rcases Nat.lt_trichotomy id (longId f.records[j].id) with higher | equal | under
    · rw [if_pos higher]
      refine .inl ⟨_, rfl, ⟨a, j, from_a, by omega, rfl, rfl, below, ?_⟩, by simp only; omega⟩
      intro i inside_i after
      have := longId_mono after inside inside_i
      omega
    · rw [if_neg (by omega), if_neg (by omega)]
      exact .inr ⟨_, rfl, j, by omega, rfl, .inr ⟨inside, equal.symm⟩⟩
    · rw [if_neg (by omega), if_pos under]
      have below_j : ∀ i (inside : i < f.records.length), i ≤ j → longId f.records[i].id < id := by
        intro i inside_i less
        have := longId_mono less inside_i inside
        omega
      rcases next with next | ⟨next, moved⟩
      · rw [text, next]
        exact .inl ⟨_, rfl, ⟨j + 1, b, by omega, bound, rfl, rfl,
          fun i inside less => below_j i inside (by omega), above⟩, by simp only; omega⟩
      · -- The middle was the end of a line: the line that was compared stays between the bounds.
        have gained := offset_mono f.lines (show a + 1 ≤ j by omega)
        have first := later a (by omega)
        rw [text, next]
        exact .inl ⟨_, rfl, ⟨j, b, by omega, bound, rfl, rfl,
          fun i inside less => below_j i inside (by omega), above⟩, by simp only; omega⟩

theorem seekPoint_found : ∃ ptr, seekPoint f.text id = some ptr ∧ Found f id ptr := by
  have length : f.lines.length = f.records.length := List.length_map ..
  have start : Between f id 0 f.records.length (0, f.text.length) := by
    refine ⟨Nat.zero_le _, Nat.le_refl _, rfl, ?_, fun i _ less => absurd less (Nat.not_lt_zero i),
      fun i inside behind => by omega⟩
    rw [← length, offset_length, f.text_eq]
    rfl
  refine loop_ends (fun k s => k = s.2 - s.1 ∧ ∃ a b, Between f id a b s) (Found f id) ?_
    ⟨rfl, 0, f.records.length, start⟩ (by simp only; omega)
  rintro k s ⟨rfl, a, b, between⟩
  rcases seekTurn_between f id between with ⟨s', turn, keeps, less⟩ | found
  · exact .inl ⟨s', _, turn, ⟨rfl, keeps⟩, less⟩
  · exact .inr found

/-- Where the ids are not cut to a `long`, the registers from the place found on are those
whose ids are not below. -/
theorem Found.filter_eq {ptr : Nat} (found : Found f id ptr)
    (uncut : id < 2 ^ 63 - 1 ∨ ∀ r ∈ f.records, r.id < 2 ^ 63) :
    f.text.drop ptr = ((f.records.filter fun r => id ≤ r.id).map fileLine).flatten := by
  obtain ⟨j, bound, rfl, place⟩ := found
  have apart : ∀ i, (inside : i < f.records.length) →
      (i < j → f.records[i].id < id) ∧ (j ≤ i → id ≤ f.records[i].id) := by
    intro i inside
    have long : longId f.records[i].id = min f.records[i].id (2 ^ 63 - 1) := rfl
    have small := uncut.imp_right fun all => all _ (List.getElem_mem inside)
    rcases place with between | ⟨inside_j, equal⟩
    · refine ⟨fun less => ?_, fun more => ?_⟩
      · have := (between i inside).1 less
        omega
      · have := (between i inside).2 more
        omega
    · have grows := List.pairwise_iff_getElem.mp f.increasing
      have small_j := uncut.imp_right fun all => all _ (List.getElem_mem inside_j)
      have long_j : longId f.records[j].id = min f.records[j].id (2 ^ 63 - 1) := rfl
      refine ⟨fun less => ?_, fun more => ?_⟩
      · have := grows i j inside inside_j less
        omega
      · rcases Nat.eq_or_lt_of_le more with rfl | after
        · omega
        · have := grows j i inside_j inside after
          omega
  have before : (f.records.take j).filter (fun r => id ≤ r.id) = [] := by
    rw [List.filter_eq_nil_iff]
    intro r mem
    obtain ⟨i, inside, rfl⟩ := List.mem_take_iff_getElem.mp mem
    have := (apart i (by omega)).1 (by omega)
    simp only [decide_eq_true_eq]
    omega
  have behind : (f.records.drop j).filter (fun r => id ≤ r.id) = f.records.drop j := by
    rw [List.filter_eq_self]
    intro r mem
    obtain ⟨i, inside, rfl⟩ := List.mem_drop_iff_getElem.mp mem
    exact decide_eq_true ((apart _ _).2 (by omega))
  have split : f.records.filter (fun r => id ≤ r.id) = f.records.drop j := by
    conv_lhs => rw [← List.take_append_drop j f.records]
    rw [List.filter_append, before, behind, List.nil_append]
  rw [split, f.text_eq, TableFile.lines, drop_offset, List.map_drop]

theorem Found.nothing {ptr : Nat} (found : Found f id ptr) (large : 2 ^ 63 ≤ id) : f.text.drop ptr = [] := by
  have long : ∀ n, longId n < id := by
    intro n
    unfold longId
    omega
  obtain ⟨j, bound, rfl, between | ⟨inside, equal⟩⟩ := found
  · have last : j = f.records.length := by
      by_contra before
      have inside : j < f.records.length := by omega
      have := (between j inside).2 (Nat.le_refl _)
      have := long f.records[j].id
      omega
    rw [f.text_eq, TableFile.lines, drop_offset, last, ← List.length_map (f := fileLine), List.drop_length,
      List.flatten_nil]
  · have := long f.records[j].id
    omega

/-- What is read at the first register whose id is not below, or at the end of the file. -/
theorem ddbSeek_eq (uncut : id < 2 ^ 63 - 1 ∨ ∀ r ∈ f.records, r.id < 2 ^ 63) :
    ddbSeek f.text id = some (ddbRead 0 ((f.records.filter fun r => id ≤ r.id).map fileLine).flatten) := by
  unfold ddbSeek
  by_cases start : id = 0
  · subst start
    have all : f.records.filter (fun r => 0 ≤ r.id) = f.records := by
      rw [List.filter_eq_self]
      exact fun r _ => decide_eq_true (Nat.zero_le r.id)
    rw [if_pos rfl, all, f.text_eq]
  · obtain ⟨ptr, ends, found⟩ := seekPoint_found f id
    rw [if_neg start, ends, Option.map_some, found.filter_eq f id uncut]

theorem ddbSeek_large (large : 2 ^ 63 ≤ id) : ddbSeek f.text id = some none := by
  obtain ⟨ptr, ends, found⟩ := seekPoint_found f id
  rw [ddbSeek, if_neg (by omega), ends, Option.map_some, found.nothing f id large, ddbRead]

def firstLine : List Register → Option (Nat × List Char × List Char)
  | [] => none
  | r :: later => some ((lineText r).length, lineText r, (later.map fileLine).flatten)

/-- `ddb_seek` ends at the first register whose id is not below, and fails if there is none. -/
def SeeksFirst : Prop := ddbSeek f.text id = some (firstLine (f.records.filter fun r => id ≤ r.id))

variable {f} in
theorem ddbRead_records {records : List Register} (among : ∀ r ∈ records, r ∈ f.records)
    (short : ∀ r ∈ f.records, (lineText r).length ≤ 500) :
    ddbRead 0 (records.map fileLine).flatten = firstLine records := by
  cases records with
  | nil => rfl
  | cons r later =>
    have mem := among r List.mem_cons_self
    rw [List.map_cons, List.flatten_cons, ddbRead_fileLine (f.fits r mem), if_pos (by have := short r mem; omega)]
    rfl

variable {f} in
theorem seeksFirst {id : Nat} (short : ∀ r ∈ f.records, (lineText r).length ≤ 500)
    (uncut : id < 2 ^ 63 - 1 ∨ ∀ r ∈ f.records, r.id < 2 ^ 63) : SeeksFirst f id := by
  rw [SeeksFirst, ddbSeek_eq f id uncut, ddbRead_records (fun r mem => List.mem_of_mem_filter mem) short]

end

/-- In a file of short lines an id below the largest `long` is always found. All ids are
found exactly if every id of the file fits a `long`. -/
theorem seeksFirst_iff (f : TableFile) (short : ∀ r ∈ f.records, (lineText r).length ≤ 500) :
    (∀ id < 2 ^ 63 - 1, SeeksFirst f id) ∧
      ((∀ id < 2 ^ 64, SeeksFirst f id) ↔ ∀ r ∈ f.records, r.id < 2 ^ 63) := by
  refine ⟨fun id small => seeksFirst short (.inl small), ?_, fun all id _ => seeksFirst short (.inr all)⟩
  intro sought r mem
  by_contra large
  have here := sought r.id (f.fits r mem).id_long
  rw [SeeksFirst, ddbSeek_large f r.id (by omega), Option.some.injEq] at here
  -- The register itself is among those that should have been found.
  have found : r ∈ f.records.filter fun x => r.id ≤ x.id :=
    List.mem_filter.mpr ⟨mem, decide_eq_true (Nat.le_refl _)⟩
  cases rest : f.records.filter fun x => r.id ≤ x.id with
  | nil =>
    rw [rest] at found
    cases found
  | cons first later =>
    rw [rest, firstLine] at here
    cases here

theorem starMask_word : ' ' ∉ starMask.chars ∧ OneLine starMask.chars := by decide

theorem keyZz_word : ' ' ∉ keyZz.chars ∧ OneLine keyZz.chars := by decide

theorem deletion_fits {id : Nat} (long : id < 2 ^ 64) : (⟨id, starMask, keyZz, none⟩ : Register).Fits where
  id_long := long
  mask_unbroken := starMask_word.1
  key_unbroken := keyZz_word.1
  mask_line := starMask_word.2
  key_line := keyZz_word.2
  content_line := by simp
  short := Nat.le_of_ble_eq_true rfl

def deletionFile (id : Nat) (long : id < 2 ^ 64) : TableFile where
  records := [⟨id, starMask, keyZz, none⟩]
  fits := by
    intro r mem
    rw [List.mem_singleton.mp mem]
    exact deletion_fits long
  increasing := List.pairwise_singleton _ _

theorem seeksFirst_small : SeeksFirst (deletionFile 7 (by decide)) 3 := by
  refine (seeksFirst_iff (deletionFile 7 (by decide)) ?_).2.mpr ?_ 3 (by decide)
  · intro r mem
    rw [List.mem_singleton.mp mem]
    decide
  · intro r mem
    rw [List.mem_singleton.mp mem]
    decide

/-- The id 2^63 is read back as 2^63 - 1, and not found. -/
theorem not_seeksFirst : ¬ SeeksFirst (deletionFile (2 ^ 63) (by decide)) (2 ^ 63) := by
  rw [SeeksFirst, ddbSeek_large _ _ (Nat.le_refl _)]
  decide +kernel

end Ircd.Ddb

import Ircd.Parse.Tokens

/-! `canonize`: a list of items without those that repeat an earlier one. -/

set_option autoImplicit false

namespace Ircd.Parse
open Ircd.Text

def bufSize : Nat := 512

def Tokens.mended (t : Tokens) : Tokens :=
  if t.save then ⟨⟨t.cursor.passed.dropLast ++ [','], t.cursor.rest⟩, true⟩ else t

/-- The loop over the items of `cbuf`, which puts back each comma that it has gone over. -/
def findItem (s : List Char) : Nat → Tokens → Option (Bool × Tokens)
  | 0, _ => none
  | fuel + 1, t =>
    match ircdStrtok [','] t with
    | (none, t) => some (false, t)
    | (some place, t) =>
      if ircdStrcmp s (stringAt t.cursor.buffer place) = 0 then some (true, t) else findItem s fuel t.mended

def copyAt (buffer : List Char) (cp : Nat) (s : List Char) : Option (List Char) :=
  if cp + s.length + 1 ≤ buffer.length then some (buffer.take cp ++ s ++ nul :: buffer.drop (cp + s.length + 1))
  else none

structure Canon where
  cbuf : List Char
  cp : Nat
  l : Bool

/-- The search for an item among those in `cbuf`; at the first there is nothing to search. -/
def Canon.search (st : Canon) (s : List Char) : Option (Bool × Tokens) :=
  if st.l then findItem s (st.cbuf.length + 1) ⟨⟨[], st.cbuf⟩, true⟩ else some (false, ⟨⟨[], st.cbuf⟩, false⟩)

def Canon.store (st : Canon) (cbuf s : List Char) (step : Nat) : Option Canon :=
  (copyAt (if st.l then cbuf.set (st.cp - 1) ',' else cbuf) st.cp s).map fun cbuf => ⟨cbuf, st.cp + step, true⟩

/-- What is done for the item at `start`; `p` is not null if another may follow. -/
def Canon.item (st : Canon) (start : Nat) (p : Tokens) : Option Canon := do
  let s := stringAt p.cursor.buffer start
  let (found, p2) ← st.search s
  if found then some { st with cbuf := p2.mended.cursor.buffer }
  else st.store p2.cursor.buffer s (if p.save then p.cursor.place - start else 0)

def canonizeLoop : Nat → Tokens → Canon → Option (List Char)
  | 0, _, _ => none
  | fuel + 1, t, st =>
    match ircdStrtok [','] t with
    | (none, _) => some st.cbuf
    | (some start, t) => do
      let st ← st.item start t
      canonizeLoop fuel t st

/-- `canonize`: what it returns, given what is left in `cbuf` from earlier calls. -/
def canonize (cbuf buffer : List Char) : Option (List Char) := do
  let cbuf ← canonizeLoop (buffer.length + 1) ⟨⟨[], buffer⟩, true⟩ ⟨cbuf.set 0 nul, 0, false⟩
  some (stringAt cbuf 0)

structure Item (word : List Char) : Prop where
  some_word : word ≠ []
  clean : Clean word
  whole : ',' ∉ word

abbrev joined (items : List (List Char)) : List Char := [','].intercalate items

theorem joined_concat {items : List (List Char)} (some_items : items ≠ []) (word : List Char) :
    joined (items ++ [word]) = joined items ++ ',' :: word := by
  unfold joined
  induction items with
  | nil => exact absurd rfl some_items
  | cons first items ih =>
    cases items with
    | nil => simp
    | cons second items =>
      rw [List.cons_append, List.cons_append, List.intercalate_cons_cons, ← List.cons_append, ih nofun,
        List.intercalate_cons_cons, List.append_assoc, List.append_assoc, List.append_assoc]

theorem comma_some : ',' ≠ nul := by decide

/-- The search says whether an item is there, and with the last comma put back the buffer is as it was. -/
theorem findItem_found {s : List Char} (clean_s : Clean s) {items : List (List Char)} (some_items : items ≠ [])
    (good : ∀ word ∈ items, Item word) (passed junk : List Char) (fuel : Nat) (enough : items.length < fuel) :
    ∃ t, findItem s fuel ⟨⟨passed, joined items ++ nul :: junk⟩, true⟩ = some (items.any (foldSame s), t) ∧
      t.mended.cursor.buffer = passed ++ (joined items ++ nul :: junk) ∧
      (items.any (foldSame s) = false → t.cursor.buffer = passed ++ (joined items ++ nul :: junk)) := by
  induction items generalizing passed fuel with
  | nil => exact absurd rfl some_items
  | cons word items ih =>
    obtain ⟨fuel, rfl⟩ : ∃ n, fuel = n + 1 := Nat.exists_eq_add_one.mpr (by omega)
    have item := good word List.mem_cons_self
    have same := ircdStrcmp_foldSame clean_s item.clean
    cases items with
    | nil =>
      have token : ircdStrtok [','] ⟨⟨passed, [] ++ (word ++ nul :: junk)⟩, true⟩ = _ :=
        ircdStrtok_last comma_some (List.forall_mem_nil _) item.some_word item.clean.nul_free item.whole
      have text : stringAt (passed ++ word ++ nul :: junk) passed.length = word :=
        stringAt_token item.clean.nul_free
      simp only [List.nil_append, List.append_nil] at token
      simp only [joined, List.intercalate_singleton, findItem, token, Cursor.buffer, text, same, List.any_cons,
        List.any_nil, Bool.or_false]
      cases found : foldSame s word with
      | true => exact ⟨_, rfl, by simp [Tokens.mended], (by rintro ⟨⟩)⟩
      | false =>
        obtain ⟨fuel, rfl⟩ : ∃ n, fuel = n + 1 := Nat.exists_eq_add_one.mpr (by simpa using enough)
        exact ⟨_, rfl, by simp [Tokens.mended], fun _ => by simp [Tokens.mended]⟩
    | cons second items =>
      have shape : joined (word :: second :: items) ++ nul :: junk =
          word ++ ',' :: (joined (second :: items) ++ nul :: junk) := by
        simp [joined, List.intercalate_cons_cons]
      have token : ircdStrtok [',']
          ⟨⟨passed, [] ++ (word ++ ',' :: (joined (second :: items) ++ nul :: junk))⟩, true⟩ = _ :=
        ircdStrtok_word comma_some (List.forall_mem_nil _) item.some_word item.clean.nul_free item.whole
      have text : stringAt (passed ++ word ++ nul :: (joined (second :: items) ++ nul :: junk)) passed.length =
          word := stringAt_token item.clean.nul_free
      simp only [List.nil_append, List.append_nil] at token
      rw [shape, findItem, token]
      simp only [Cursor.buffer, List.append_assoc, List.singleton_append] at text ⊢
      simp only [text, same, List.any_cons]
      cases found : foldSame s word with
      | true => exact ⟨_, rfl, by simp [Tokens.mended], (by rintro ⟨⟩)⟩
      | false =>
        obtain ⟨t, searched, mended, kept⟩ := ih (by rintro ⟨⟩) (fun other mem => good other (List.mem_cons_of_mem _ mem))
          (passed ++ (word ++ [','])) fuel (by simpa using enough)
        have again : Tokens.mended ⟨⟨passed ++ (word ++ [nul]), joined (second :: items) ++ nul :: junk⟩, true⟩ =
            ⟨⟨passed ++ (word ++ [',']), joined (second :: items) ++ nul :: junk⟩, true⟩ := by
          simp [Tokens.mended, ← List.append_assoc]
        have whole : passed ++ (word ++ [',']) ++ (joined (second :: items) ++ nul :: junk) =
            passed ++ (word ++ ',' :: (joined (second :: items) ++ nul :: junk)) := by
          simp
        rw [whole] at mended kept
        exact ⟨t, by rw [Bool.false_or, again]; exact searched, mended, kept⟩

def copyPlace (kept : List (List Char)) : Nat := if kept = [] then 0 else (joined kept).length + 1

theorem copyPlace_concat (kept : List (List Char)) (word : List Char) :
    copyPlace (kept ++ [word]) = copyPlace kept + (word.length + 1) := by
  unfold copyPlace
  rw [if_neg (List.concat_ne_nil word kept)]
  split
  · rename_i empty
    simp [empty, joined]
  · rename_i some_kept
    rw [joined_concat some_kept, List.length_append, List.length_cons]
    omega

structure Canon.Holds (st : Canon) (kept : List (List Char)) : Prop where
  size : st.cbuf.length = bufSize
  started : st.l = decide (kept ≠ [])
  content : ∃ junk, st.cbuf = joined kept ++ nul :: junk

theorem copyAt_front {front tail : List Char} {word : List Char} (room : word.length < tail.length) :
    copyAt (front ++ tail) front.length word = some (front ++ word ++ nul :: tail.drop (word.length + 1)) := by
  have inside : front.length + word.length + 1 ≤ (front ++ tail).length := by
    rw [List.length_append]
    omega
  rw [copyAt, if_pos inside, List.take_left, Nat.add_assoc, List.drop_append, List.drop_of_length_le (by omega),
    List.nil_append, Nat.add_sub_cancel_left]

theorem copyAt_joined {cbuf junk : List Char} {kept : List (List Char)} {word : List Char}
    (content : cbuf = joined kept ++ nul :: junk) (room : copyPlace kept + word.length < cbuf.length) :
    ∃ after rest, copyAt (if kept ≠ [] then cbuf.set (copyPlace kept - 1) ',' else cbuf) (copyPlace kept) word =
      some after ∧ after.length = cbuf.length ∧ after = joined (kept ++ [word]) ++ nul :: rest := by
  have copied {front tail : List Char} (whole : cbuf.length = (front ++ tail).length)
      (place : copyPlace kept = front.length) (items : front ++ word = joined (kept ++ [word])) :
      ∃ after rest, copyAt (front ++ tail) (copyPlace kept) word = some after ∧ after.length = cbuf.length ∧
        after = joined (kept ++ [word]) ++ nul :: rest := by
    have fits : word.length < tail.length := by
      rw [whole, place, List.length_append] at room
      omega
    refine ⟨_, tail.drop (word.length + 1), by rw [place]; exact copyAt_front fits, ?_, by rw [items]⟩
    simp only [whole, List.length_append, List.length_cons, List.length_drop]
    omega
  by_cases empty : kept = []
  · subst empty
    rw [if_neg (not_not.mpr rfl)]
    exact @copied [] cbuf rfl rfl (by simp [joined])
  · rw [if_pos empty]
    have place : copyPlace kept = (joined kept).length + 1 := if_neg empty
    have comma : cbuf.set (copyPlace kept - 1) ',' = (joined kept ++ [',']) ++ junk := by
      rw [content, place, Nat.add_sub_cancel, List.set_append_right _ _ (Nat.le_refl _), Nat.sub_self,
        List.set_cons_zero, List.append_assoc, List.singleton_append]
    rw [comma]
    refine copied ?_ ?_ ?_
    · rw [content]
      simp
    · rw [place]
      simp
    · rw [joined_concat empty, List.append_assoc, List.singleton_append]

theorem length_joined {kept : List (List Char)} (good : ∀ other ∈ kept, Item other) :
    kept.length ≤ (joined kept).length := by
  induction kept with
  | nil => exact Nat.zero_le _
  | cons word kept ih =>
    have some_char := List.length_pos_iff.mpr (good word List.mem_cons_self).some_word
    have behind := ih fun other mem => good other (List.mem_cons_of_mem _ mem)
    cases kept with
    | nil =>
      rw [joined, List.intercalate_singleton]
      exact some_char
    | cons second kept =>
      rw [joined, List.intercalate_cons_cons, List.length_append, List.length_append, List.length_singleton,
        List.length_cons]
      change _ ≤ _ + (joined (second :: kept)).length
      omega

section
variable {st : Canon} {kept : List (List Char)} {word : List Char}

theorem Canon.Holds.search (holds : st.Holds kept) (good : ∀ other ∈ kept, Item other) (clean : Clean word) :
    ∃ t, st.search word = some (kept.any (foldSame word), t) ∧ t.mended.cursor.buffer = st.cbuf ∧
      (kept.any (foldSame word) = false → t.cursor.buffer = st.cbuf) := by
  obtain ⟨junk, content⟩ := holds.content
  unfold Canon.search
  by_cases empty : kept = []
  · subst empty
    rw [holds.started]
    exact ⟨_, rfl, rfl, fun _ => rfl⟩
  · have fewer : kept.length < st.cbuf.length + 1 := by
      have := length_joined good
      rw [content, List.length_append]
      omega
    obtain ⟨t, searched, mended, untouched⟩ := findItem_found clean empty good [] junk _ fewer
    rw [← content] at searched
    rw [List.nil_append, ← content] at mended untouched
    rw [holds.started, if_pos (by simpa using empty)]
    exact ⟨t, searched, mended, untouched⟩

theorem Canon.Holds.store (holds : st.Holds kept) (place : st.cp = copyPlace kept)
    (room : copyPlace kept + word.length < bufSize) (step : Nat) :
    ∃ after, st.store st.cbuf word step = some after ∧ after.Holds (kept ++ [word]) ∧ after.cp = st.cp + step := by
  obtain ⟨junk, content⟩ := holds.content
  obtain ⟨cbuf, rest, copied, length, shape⟩ := copyAt_joined content (holds.size.symm ▸ room)
  unfold Canon.store
  simp only [holds.started, place, decide_eq_true_eq, copied, Option.map_some]
  exact ⟨_, rfl, ⟨length.trans holds.size, by simp, rest, shape⟩, rfl⟩

theorem Canon.Holds.item (holds : st.Holds kept) (place : st.cp = copyPlace kept)
    (good : ∀ other ∈ kept, Item other) (clean : Clean word) {start : Nat} {p : Tokens}
    (text : stringAt p.cursor.buffer start = word) (room : copyPlace kept + word.length < bufSize)
    (distance : p.save = true → p.cursor.place = start + (word.length + 1)) :
    ∃ after, st.item start p = some after ∧ after.Holds (keep kept word) ∧
      (p.save = true → after.cp = copyPlace (keep kept word)) := by
  obtain ⟨t, searched, mended, untouched⟩ := holds.search good clean
  unfold Canon.item keep
  simp only [text, searched, Option.bind_eq_bind, Option.bind_some]
  cases found : kept.any (foldSame word) with
  | true =>
    refine ⟨_, rfl, ⟨?_, holds.started, ?_⟩, fun _ => place⟩
    · rw [mended]
      exact holds.size
    · rw [mended]
      exact holds.content
  | false =>
    rw [untouched found]
    obtain ⟨after, stored, holds, moved⟩ := holds.store place room (if p.save then p.cursor.place - start else 0)
    refine ⟨after, stored, holds, fun save => ?_⟩
    rw [moved, if_pos save, distance save, place, Nat.add_sub_cancel_left]
    exact (copyPlace_concat kept word).symm

end

theorem Item.of_text {text seps word tail : List Char} (clean : Clean text) (shape : text = seps ++ word ++ tail)
    (some_word : word ≠ []) (whole : ',' ∉ word) : Item word where
  some_word := some_word
  whole := whole
  clean :=
    have inside : ∀ c ∈ word, c ∈ text := fun c mem => by
      rw [shape]
      exact List.mem_append_left _ (List.mem_append_right _ mem)
    ⟨fun mem => clean.nul_free (inside _ mem), fun c mem => clean.byte c (inside c mem)⟩

theorem Item.keep {kept : List (List Char)} (good : ∀ other ∈ kept, Item other) {word : List Char}
    (item : Item word) : ∀ other ∈ Parse.keep kept word, Item other := by
  unfold Parse.keep
  intro other mem
  split at mem
  · exact good other mem
  · rcases List.mem_append.mp mem with mem | mem
    · exact good other mem
    · rw [List.mem_singleton.mp mem]
      exact item

theorem canonizeLoop_items (fuel : Nat) (text passed behind : List Char) {st : Canon} {kept : List (List Char)}
    (enough : text.length < fuel) (clean : Clean text) (holds : st.Holds kept) (place : st.cp = copyPlace kept)
    (good : ∀ other ∈ kept, Item other) (lags : copyPlace kept ≤ passed.length)
    (short : passed.length + text.length < bufSize) :
    ∃ rest items, items = List.eraseDupsBy.loop foldSame (strtok ',' text) kept.reverse ∧
      canonizeLoop fuel ⟨⟨passed, text ++ nul :: behind⟩, true⟩ st = some (joined items ++ nul :: rest) ∧
      ∀ other ∈ items, Item other := by
  induction fuel generalizing text passed st kept with
  | zero => exact absurd enough (Nat.not_lt_zero _)
  | succ fuel ih =>
    rcases strtok_cases ',' text with ⟨none, all⟩ | ⟨seps, word, tail, shape, all, some_word, whole, ends, tokens⟩
    · obtain ⟨junk, content⟩ := holds.content
      refine ⟨junk, kept, ?_, ?_, good⟩
      · rw [none, List.eraseDupsBy.loop, List.reverse_reverse]
      · rw [canonizeLoop, ircdStrtok_none comma_some all, ← content]
    · have item := Item.of_text clean shape some_word whole
      have room : copyPlace kept + word.length < bufSize := by
        have := congrArg List.length shape
        simp only [List.length_append] at this
        omega
      rw [tokens, eraseDupsBy_keep]
      rcases ends with rfl | ⟨more, rfl⟩
      · have token : ircdStrtok [','] ⟨⟨passed, seps ++ (word ++ nul :: behind)⟩, true⟩ = _ :=
          ircdStrtok_last comma_some all some_word item.clean.nul_free whole
        have line : text ++ nul :: behind = seps ++ (word ++ nul :: behind) := by simp [shape]
        obtain ⟨after, stored, holds, -⟩ := holds.item place good item.clean
          (p := ⟨⟨passed ++ seps ++ word, nul :: behind⟩, false⟩) (stringAt_token item.clean.nul_free) room nofun
        obtain ⟨fuel, rfl⟩ : ∃ n, fuel = n + 1 := by
          have := congrArg List.length shape
          have := List.length_pos_iff.mpr some_word
          simp only [List.length_append] at *
          exact Nat.exists_eq_add_one.mpr (by omega)
        obtain ⟨junk, content⟩ := holds.content
        refine ⟨junk, keep kept word, ?_, ?_, Item.keep good item⟩
        · rw [List.tail_nil, strtok, List.splitOn_nil]
          simp [List.eraseDupsBy.loop]
        · rw [canonizeLoop, line, token]
          simp only [stored, Option.bind_eq_bind, Option.bind_some]
          rw [canonizeLoop, ircdStrtok_null, content]
      · have token : ircdStrtok [','] ⟨⟨passed, seps ++ (word ++ ',' :: (more ++ nul :: behind))⟩, true⟩ = _ :=
          ircdStrtok_word comma_some all some_word item.clean.nul_free whole
        have line : text ++ nul :: behind = seps ++ (word ++ ',' :: (more ++ nul :: behind)) := by simp [shape]
        have lengths := congrArg List.length shape
        simp only [List.length_append, List.length_cons] at lengths
        have rest_clean : Clean more := by
          have inside : ∀ c ∈ more, c ∈ text := fun c mem => by
            rw [shape]
            exact List.mem_append_right _ (List.mem_cons_of_mem _ mem)
          exact ⟨fun mem => clean.nul_free (inside _ mem), fun c mem => clean.byte c (inside c mem)⟩
        have string :
            stringAt (passed ++ seps ++ word ++ [nul] ++ (more ++ nul :: behind)) (passed ++ seps).length =
              word := by
          rw [List.append_assoc (passed ++ seps ++ word), List.singleton_append]
          exact stringAt_token item.clean.nul_free
        obtain ⟨after, stored, holds, moved⟩ := holds.item place good item.clean
          (p := ⟨⟨passed ++ seps ++ word ++ [nul], more ++ nul :: behind⟩, true⟩) string room fun _ => by
            simp only [Cursor.place, List.length_append, List.length_singleton]
            omega
        have kept_place : copyPlace (keep kept word) ≤ copyPlace kept + (word.length + 1) := by
          unfold keep
          split
          · omega
          · rw [copyPlace_concat]
        obtain ⟨rest, items, found, looped, others⟩ := ih more (passed ++ seps ++ word ++ [nul]) (by omega)
          rest_clean holds (moved rfl) (Item.keep good item)
          (by simp only [List.length_append, List.length_singleton]; omega)
          (by simp only [List.length_append, List.length_singleton]; omega)
        refine ⟨rest, items, found, ?_, others⟩
        rw [canonizeLoop, line, token]
        simp only [stored, Option.bind_eq_bind, Option.bind_some, looped]

theorem joined_nul_free {items : List (List Char)} (good : ∀ other ∈ items, Item other) : nul ∉ joined items := by
  induction items with
  | nil => exact List.not_mem_nil
  | cons word items ih =>
    have first := (good word List.mem_cons_self).clean.nul_free
    have others := ih fun other mem => good other (List.mem_cons_of_mem _ mem)
    cases items with
    | nil => simpa [joined] using first
    | cons second items =>
      rw [joined, List.intercalate_cons_cons]
      simp only [List.mem_append, List.mem_singleton, not_or]
      exact ⟨⟨first, by decide⟩, others⟩

/-- A list that is shorter than the buffer is returned without the items that repeat an earlier one, whatever was
left in the buffer; nothing is written outside of it. -/
theorem canonize_distinct (text : CString) (short : text.chars.length < bufSize) (cbuf : List Char)
    (static : cbuf.length = bufSize) :
    canonize cbuf (text.chars ++ [nul]) = some (joined ((strtok ',' text.chars).eraseDupsBy foldSame)) := by
  have start : Canon.Holds ⟨cbuf.set 0 nul, 0, false⟩ [] := by
    refine ⟨by simpa using static, rfl, cbuf.tail, ?_⟩
    cases cbuf with
    | nil => cases static
    | cons c cbuf => rfl
  have enough : text.chars.length < (text.chars ++ [nul]).length + 1 := by
    rw [List.length_append]
    omega
  obtain ⟨rest, items, found, looped, good⟩ := canonizeLoop_items _ text.chars [] [] enough
    ⟨text.nul_free, text.byte⟩ start rfl nofun (Nat.le_refl _) (by simpa using short)
  rw [canonize, looped, List.eraseDupsBy, ← List.reverse_nil, ← found]
  simp only [Option.bind_eq_bind, Option.bind_some, stringAt, List.drop_zero]
  rw [takeWhile_append_nul (joined_nul_free good)]

theorem canonize_distinct_three :
    canonize (List.replicate bufSize nul) (['a', ',', 'B', ',', ',', 'A', ',', 'c'] ++ [nul]) =
      some ['a', ',', 'B', ',', 'c'] := by
  have list := canonize_distinct ⟨['a', ',', 'B', ',', ',', 'A', ',', 'c'], by decide, by decide⟩ (by decide)
    (List.replicate bufSize nul) List.length_replicate
  exact list.trans (congrArg some (by decide +kernel))

end Ircd.Parse

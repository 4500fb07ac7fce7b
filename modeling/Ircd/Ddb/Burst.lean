import Ircd.Ddb.LineCodec

/-! The bounded burst of `ddb_db_read`.

The registers that are left to send are counted down from what `ddb_seek` returned, the
length of the first line, and not from the parameter `count`.
-/

set_option autoImplicit false

namespace Ircd.Ddb
open Ircd.Library Ircd.Match Ircd.Text

/-- The loop of `ddb_db_read` over registers: the one in the buffer and those behind it. -/
def handOut (burst : Bool) (cont : Int) (r : Register) : List Register → List Row × Int
  | [] =>
    let left := if burst && (handed r).isSome then cont - 1 else cont
    if burst && (handed r).isSome && left = 0 then ((handed r).toList, 0) else ((handed r).toList, 1)
  | next :: later =>
    let left := if burst && (handed r).isSome then cont - 1 else cont
    if burst && (handed r).isSome && left = 0 then ((handed r).toList, 0)
    else if (lineText next).length ≤ 501 then
      ((handed r).toList ++ (handOut burst left next later).1, (handOut burst left next later).2)
    else ((handed r).toList, 1)

theorem readLoop_handOut {burst : Bool} {later : List Register} {r : Register} (fits : ∀ x ∈ r :: later, x.Fits)
    {fuel : Nat} (enough : (later.map fileLine).flatten.length < fuel) (cont : Int) :
    readLoop burst fuel cont (lineText r) (later.map fileLine).flatten = some (handOut burst cont r later) := by
  induction later generalizing r cont fuel with
  | nil =>
    obtain ⟨fuel, rfl⟩ : ∃ n, fuel = n + 1 := ⟨fuel - 1, by omega⟩
    rw [readLoop, readRow_lineText (fits r List.mem_cons_self), List.map_nil, List.flatten_nil, ddbRead, handOut,
      apply_ite some]
  | cons next later ih =>
    rw [List.map_cons, List.flatten_cons, List.length_append] at enough
    obtain ⟨fuel, rfl⟩ : ∃ n, fuel = n + 1 := ⟨fuel - 1, by omega⟩
    have long := length_fileLine next
    have rest : ∀ cont, readLoop burst fuel cont (lineText next) (later.map fileLine).flatten =
        some (handOut burst cont next later) := by
      intro cont
      exact ih (fun x mem => fits x (List.mem_cons_of_mem r mem)) (by omega) cont
    rw [readLoop, readRow_lineText (fits r List.mem_cons_self), List.map_cons, List.flatten_cons,
      ddbRead_fileLine (fits next (by simp)), handOut, apply_ite some, apply_ite some]
    by_cases short : (lineText next).length ≤ 501
    · simp only [if_pos short, rest, Option.map_some]
    · simp only [if_neg short]

/-- A register that arrives as it is: its id fits 32 bits and its line can be read. -/
structure Sendable (r : Register) : Prop where
  positive : 0 < r.id
  small : r.id < 2 ^ 32
  short : (lineText r).length ≤ 501

theorem handed_isSome {r : Register} (positive : 0 < r.id) (small : r.id < 2 ^ 32) :
    handed r = some (rowOf r) := by
  rw [handed, if_neg]
  rw [readId_zero, longId]
  omega

theorem filterMap_take_one (r : Register) (later : List Register) :
    ((r :: later).take 1).filterMap handed = (handed r).toList := by
  rw [List.take_succ_cons, List.take_zero]
  cases one : handed r <;> simp [one]

theorem handOut_prefix (burst : Bool) (cont : Int) (r : Register) (later : List Register) :
    ∃ m, (handOut burst cont r later).1 = ((r :: later).take (m + 1)).filterMap handed ∧
      ∀ x ∈ later.take m, (lineText x).length ≤ 501 := by
  have none_more : ∀ rest : List Register, ∀ x ∈ rest.take 0, (lineText x).length ≤ 501 := by
    intro rest x mem
    rw [List.take_zero] at mem
    cases mem
  induction later generalizing r cont with
  | nil =>
    refine ⟨0, ?_, none_more _⟩
    rw [handOut, apply_ite Prod.fst, ite_self, filterMap_take_one]
  | cons next later ih =>
    rw [handOut]
    generalize (if (burst && (handed r).isSome) = true then cont - 1 else cont) = left
    by_cases stop : (burst && (handed r).isSome && decide (left = 0)) = true
    · rw [if_pos stop]
      refine ⟨0, ?_, none_more _⟩
      rw [filterMap_take_one]
    · rw [if_neg stop]
      by_cases short : (lineText next).length ≤ 501
      · obtain ⟨m, rows, shorts⟩ := ih left next
        rw [if_pos short, rows]
        refine ⟨m + 1, ?_, ?_⟩
        · have whole : (r :: next :: later).take (m + 1 + 1) = [r] ++ (next :: later).take (m + 1) := rfl
          rw [whole, List.filterMap_append, ← filterMap_take_one r []]
          rfl
        · intro x mem
          rw [List.take_succ_cons, List.mem_cons] at mem
          rcases mem with rfl | mem
          · exact short
          · exact shorts x mem
      · rw [if_neg short]
        refine ⟨0, ?_, none_more _⟩
        rw [filterMap_take_one]

theorem length_handOut (cont : Int) (r : Register) (later : List Register)
    (stopped : (handOut true cont r later).2 = 0) : ((handOut true cont r later).1.length : Int) = cont := by
  induction later generalizing r cont with
  | nil =>
    rw [handOut] at stopped ⊢
    cases one : handed r with
    | none => simp [one] at stopped
    | some row =>
      by_cases last : cont - 1 = 0
      · simp [last]
        omega
      · simp [one, last] at stopped
  | cons next later ih =>
    rw [handOut] at stopped ⊢
    cases one : handed r with
    | none =>
      by_cases short : (lineText next).length ≤ 501
      · simp only [one, Option.isSome_none, Bool.and_false, Bool.false_and, Bool.false_eq_true, if_false,
          if_pos short, Option.toList_none, List.nil_append] at stopped ⊢
        exact ih _ next stopped
      · simp [one, short] at stopped
    | some row =>
      by_cases last : cont - 1 = 0
      · simp [last]
        omega
      · by_cases short : (lineText next).length ≤ 501
        · simp only [one, Option.isSome_some, Bool.and_self, if_true, decide_eq_true_eq, Bool.true_and,
            if_neg last, if_pos short, Option.toList_some, List.singleton_append, List.length_cons] at stopped ⊢
          have rest := ih _ next stopped
          omega
        · simp [one, last, short] at stopped

/-- As long as the registers can be sent they are sent, and the burst reports that there is
more as soon as its number is reached. -/
theorem handOut_sendable {c : Nat} (some_c : 0 < c) (r : Register) (later : List Register)
    (sendable : ∀ x ∈ (r :: later).take c, Sendable x) :
    handOut true c r later = (((r :: later).take c).map rowOf, if c ≤ (r :: later).length then 0 else 1) := by
  induction later generalizing r c with
  | nil =>
    obtain ⟨c, rfl⟩ : ∃ n, c = n + 1 := ⟨c - 1, by omega⟩
    have first := sendable r (by simp)
    have one := handed_isSome first.positive first.small
    rw [handOut]
    by_cases last : c = 0
    · simp [one, last]
    · simp [one, last]
  | cons next later ih =>
    obtain ⟨c, rfl⟩ : ∃ n, c = n + 1 := ⟨c - 1, by omega⟩
    have first := sendable r (by simp)
    have one := handed_isSome first.positive first.small
    have left : ((c + 1 : Nat) : Int) - 1 = c := by omega
    rw [handOut]
    simp only [one, Option.isSome_some, Bool.and_self, if_true, left, Bool.true_and, decide_eq_true_eq,
      Option.toList_some]
    cases c with
    | zero => simp
    | succ c =>
      have second := sendable next (by simp)
      have rest := ih (Nat.succ_pos c) next fun x mem => sendable x (by
        rw [List.take_succ_cons]
        exact List.mem_cons_of_mem r mem)
      rw [if_neg (by omega), if_pos second.short, rest]
      simp

/-- A register as `ms_db` passes it on: `%s %lu %s %s` and, with a content, ` :%s`. -/
def registerMessage (table : Char) (r : Register) : List Char :=
  r.mask.chars ++ ' ' :: decimal r.id ++ ' ' :: table :: ' ' :: r.key.chars ++
    r.content.elim [] fun content => ' ' :: ':' :: content.chars

theorem message_rowOf (table : Char) {r : Register} (small : r.id < 2 ^ 32) :
    (rowOf r).message table = registerMessage table r := by
  have printed := (printed_readId_eq (n := r.id) (by omega)).mpr small
  simp only [Row.message, rowOf, printed, registerMessage]
  cases r.content <;> rfl

theorem message_id {table : Char} {row : Row} {r : Register} (unbroken : ' ' ∉ row.mask) (fits : r.Fits)
    (same : row.message table = registerMessage table r) : (row.cid % 2 ^ 32).toNat = r.id := by
  have cut := congrArg cutBlank same
  simp only [Row.message, registerMessage, List.append_assoc, List.cons_append] at cut
  rw [cutBlank_word unbroken, cutBlank_word fits.mask_unbroken, Prod.mk.injEq, Option.some.injEq] at cut
  have cut := congrArg cutBlank cut.2
  rw [cutBlank_word (decimal_unbroken _), cutBlank_word (decimal_unbroken _), Prod.mk.injEq] at cut
  have value := congrArg (readNumber 0) cut.1
  rwa [decimal, decimal, readNumber_toDigits, readNumber_toDigits] at value

theorem cutBlank_unbroken (s : List Char) : ' ' ∉ (cutBlank s).1 := by
  induction s with
  | nil => exact List.not_mem_nil
  | cons c s ih =>
    rw [cutBlank]
    by_cases blank : c = ' '
    · rw [if_pos blank]
      exact List.not_mem_nil
    · rw [if_neg blank]
      simp only [List.mem_cons, not_or]
      exact ⟨Ne.symm blank, ih⟩

structure Row.Read (row : Row) : Prop where
  positive : 0 < (row.cid % 2 ^ 32).toNat
  small : (row.cid % 2 ^ 32).toNat < 2 ^ 32
  unbroken : ' ' ∉ row.mask

theorem readRow_read {buf : List Char} {row : Row} (split : readRow buf = some row) : row.Read := by
  unfold readRow at split
  have emod : ∀ x : Int, x.bmod (2 ^ 32) % 4294967296 = x % 4294967296 := fun x => Int.bmod_emod
  have low : ∀ x : Int, -2147483648 ≤ x.bmod (2 ^ 32) := fun x => Int.le_bmod (by decide)
  have high : ∀ x : Int, x.bmod (2 ^ 32) < 2147483648 := fun x => Int.bmod_lt (by decide)
  have low := low (atol buf)
  have high := high (atol buf)
  simp only at split
  by_cases zero : (atol buf).bmod (2 ^ 32) = 0
  · rw [if_pos zero] at split
    cases split
  · rw [if_neg zero] at split
    split at split
    · cases split
    · rename_i mask _
      have unbroken := cutBlank_unbroken mask
      split at split
      · cases split
      · rename_i word key cut
        rw [cut] at unbroken
        obtain rfl := (Option.some.inj split).symm
        exact ⟨by simp only; omega, by simp only; omega, unbroken⟩

theorem readLoop_read {fuel : Nat} {burst : Bool} {cont ret : Int} {buf rest : List Char} {rows : List Row}
    (ends : readLoop burst fuel cont buf rest = some (rows, ret)) :
    (∀ row ∈ rows, row.Read) ∧ (ret = 0 → rows ≠ []) := by
  have own : ∀ row ∈ (readRow buf).toList, row.Read := by
    intro row mem
    exact readRow_read (by simpa using mem)
  induction fuel generalizing cont buf rest rows with
  | zero => cases ends
  | succ fuel ih =>
    rw [readLoop] at ends
    generalize (if (burst && (readRow buf).isSome) = true then cont - 1 else cont) = left at ends
    simp only at ends
    by_cases stop : (burst && (readRow buf).isSome && decide (left = 0)) = true
    · rw [if_pos stop, Option.some.injEq, Prod.mk.injEq] at ends
      obtain ⟨rfl, -⟩ := ends
      refine ⟨own, fun _ nothing => ?_⟩
      cases one : readRow buf with
      | none => simp [one] at stop
      | some row => simp [one] at nothing
    · rw [if_neg stop] at ends
      cases next : ddbRead 0 rest with
      | none =>
        rw [next, Option.some.injEq, Prod.mk.injEq] at ends
        obtain ⟨rfl, rfl⟩ := ends
        exact ⟨own, fun zero => absurd zero (by decide)⟩
      | some line =>
        obtain ⟨len, buf', rest'⟩ := line
        rw [next] at ends
        obtain ⟨⟨rows', ret'⟩, ends', both⟩ := Option.map_eq_some_iff.mp ends
        obtain ⟨rfl, rfl⟩ := Prod.mk.inj both
        obtain ⟨reads, some_rows⟩ := ih ends' fun row mem => readRow_read (by simpa using mem)
        refine ⟨fun row mem => ?_, fun zero nothing => some_rows zero (List.append_eq_nil_iff.mp nothing).2⟩
        rcases List.mem_append.mp mem with mem | mem
        · exact own row mem
        · exact reads row mem

section
variable (f : TableFile) (table : Char) (id n : Nat)

def TableFile.wanted : List Register := f.records.filter fun r => id ≤ r.id

/-- A burst of at most `n` registers sends the first `n` that are asked for, and reports
that there is more exactly if there is. -/
def SendsFirst : Prop :=
  ∃ rows ret, ddbDbRead f.text true id n = some (rows, ret) ∧
    rows.map (Row.message table) = ((f.wanted id).take n).map (registerMessage table) ∧
    (ret = 0 ↔ n < (f.wanted id).length)

def budget : List Register → Nat
  | [] => 0
  | r :: _ => (lineText r).length

variable {f id} in
theorem wanted_fits {r : Register} (mem : r ∈ f.wanted id) : r.Fits := f.fits r (List.mem_of_mem_filter mem)

variable {f id} in
theorem ddbDbRead_nothing (none_wanted : f.wanted id = []) : ddbDbRead f.text true id n = some ([], -1) := by
  have sought : ddbSeek f.text id = some none := by
    by_cases large : 2 ^ 63 ≤ id
    · exact ddbSeek_large f id large
    · rw [ddbSeek_eq f id]
      · unfold TableFile.wanted at none_wanted
        rw [none_wanted]
        rfl
      · -- The ids of the file are all below.
        refine .inr fun r mem => ?_
        have below := List.filter_eq_nil_iff.mp none_wanted r mem
        simp only [decide_eq_true_eq] at below
        omega
  rw [ddbDbRead, sought]

variable {f id} in
theorem ddbDbRead_wanted {r : Register} {later : List Register} (some_wanted : f.wanted id = r :: later)
    (small : id < 2 ^ 63 - 1) : ddbDbRead f.text true id n =
      if (lineText r).length ≤ 501 then some (handOut true (lineText r).length r later) else some ([], -1) := by
  have fits : ∀ x ∈ r :: later, x.Fits := fun x mem => wanted_fits (some_wanted ▸ mem)
  have sought := ddbSeek_eq f id (.inl small)
  unfold TableFile.wanted at some_wanted
  rw [some_wanted, List.map_cons, List.flatten_cons, ddbRead_fileLine (fits r List.mem_cons_self)] at sought
  rw [ddbDbRead, sought]
  by_cases short : (lineText r).length ≤ 501
  · rw [if_pos short, if_pos short]
    exact readLoop_handOut fits (Nat.lt_succ_self _) _
  · rw [if_neg short, if_neg short]

variable {f table id n}

theorem le_of_wanted {r : Register} {later : List Register} (some_wanted : f.wanted id = r :: later) :
    id ≤ r.id := by
  have mem : r ∈ f.wanted id := some_wanted ▸ List.mem_cons_self
  simpa using (List.mem_filter.mp mem).2

theorem three_le_lineText (r : Register) : 3 ≤ (lineText r).length := by
  have line := length_fileLine r
  rw [fileLine, List.length_append, List.length_singleton] at line
  omega

theorem SendsFirst.ids (sends : SendsFirst f table id n) {r : Register} (mem : r ∈ (f.wanted id).take n) :
    0 < r.id ∧ r.id < 2 ^ 32 := by
  obtain ⟨rows, ret, ends, messages, -⟩ := sends
  have read : ∀ row ∈ rows, row.Read := by
    unfold ddbDbRead at ends
    split at ends
    · cases ends
    · obtain ⟨rfl, -⟩ := Prod.mk.inj (Option.some.inj ends)
      simp
    · exact (readLoop_read ends).1
  have sent : registerMessage table r ∈ rows.map (Row.message table) := messages ▸ List.mem_map_of_mem mem
  obtain ⟨row, mem_row, same⟩ := List.mem_map.mp sent
  have one := read row mem_row
  have fits := wanted_fits (List.mem_of_mem_take mem)
  rw [← message_id one.unbroken fits same]
  exact ⟨one.positive, one.small⟩

theorem SendsFirst.positive (sends : SendsFirst f table id n) (some_wanted : f.wanted id ≠ []) : 0 < n := by
  by_contra none_asked
  obtain rfl : n = 0 := by omega
  obtain ⟨rows, ret, ends, messages, more⟩ := sends
  have pending := more.mpr (List.length_pos_iff.mpr some_wanted)
  rw [List.take_zero, List.map_nil, List.map_eq_nil_iff] at messages
  unfold ddbDbRead at ends
  split at ends
  · cases ends
  · obtain ⟨-, rfl⟩ := Prod.mk.inj (Option.some.inj ends)
    exact absurd pending (by decide)
  · exact (readLoop_read ends).2 pending messages

/-- The burst is right exactly if nothing is asked for, or each register to be sent is
`Sendable` and the length of the first line happens to stop the burst where `n` would. -/
theorem sendsFirst_iff (f : TableFile) (table : Char) (id n : Nat) :
    SendsFirst f table id n ↔ f.wanted id = [] ∨
      (∀ r ∈ (f.wanted id).take n, Sendable r) ∧
        ((f.wanted id).length < budget (f.wanted id) ∧ (f.wanted id).length ≤ n ∨
          n = budget (f.wanted id) ∧ budget (f.wanted id) < (f.wanted id).length) := by
  cases some_wanted : f.wanted id with
  | nil =>
    refine ⟨fun _ => .inl rfl, fun _ => ⟨[], -1, ddbDbRead_nothing n some_wanted, ?_, ?_⟩⟩
    · rw [some_wanted]
      simp
    · rw [some_wanted]
      simp
  | cons r later =>
    have three := three_le_lineText r
    have from_id := le_of_wanted some_wanted
    simp only [reduceCtorEq, false_or, budget]
    constructor
    · intro sends
      have some_n := sends.positive (by rw [some_wanted]; exact List.cons_ne_nil _ _)
      have ids := fun x mem => sends.ids (r := x) mem
      obtain ⟨rows, ret, ends, messages, more⟩ := sends
      rw [some_wanted] at ids messages more
      have mem_r : r ∈ (r :: later).take n := by
        obtain ⟨m, rfl⟩ : ∃ m, n = m + 1 := ⟨n - 1, by omega⟩
        exact List.mem_cons_self
      have lengths := congrArg List.length messages
      rw [List.length_map, List.length_map, List.length_take] at lengths
      have some_length : 0 < (r :: later).length := Nat.succ_pos _
      have small := (ids r mem_r).2
      rw [ddbDbRead_wanted n some_wanted (by omega)] at ends
      by_cases short : (lineText r).length ≤ 501
      · rw [if_pos short] at ends
        obtain ⟨m, prefix_rows, shorts⟩ := handOut_prefix true (lineText r).length r later
        have stopped := length_handOut (lineText r).length r later
        rw [Option.some.inj ends] at prefix_rows stopped
        simp only at prefix_rows stopped
        -- As many registers were read as were to be sent, so all of these have short lines.
        have reached : rows.length ≤ ((r :: later).take (m + 1)).length := by
          rw [prefix_rows]
          exact List.length_filterMap_le _ _
        rw [List.length_take] at reached
        have sendable : ∀ x ∈ (r :: later).take n, Sendable x := by
          intro x mem
          refine ⟨(ids x mem).1, (ids x mem).2, ?_⟩
          have same : (r :: later).take n = (r :: later).take (min n (r :: later).length) := by
            rw [List.take_eq_take_min]
          rw [same] at mem
          have mem := List.take_subset_take_left (r :: later) (by omega : min n (r :: later).length ≤ m + 1) mem
          rw [List.take_succ_cons, List.mem_cons] at mem
          rcases mem with rfl | mem
          · exact short
          · exact shorts x mem
        refine ⟨sendable, ?_⟩
        by_cases within : (lineText r).length ≤ n
        · have sent := handOut_sendable (c := (lineText r).length) (by omega) r later fun x mem =>
            sendable x (List.take_subset_take_left _ within mem)
          rw [Option.some.inj ends, Prod.mk.injEq] at sent
          have count := congrArg List.length sent.1
          rw [List.length_map, List.length_take] at count
          by_cases all : (lineText r).length ≤ (r :: later).length
          · rw [if_pos all] at sent
            have := more.mp sent.2
            omega
          · omega
        · -- Fewer than the length of the first line are to be sent: no report can come from the count.
          by_cases rest : n < (r :: later).length
          · have := stopped (more.mpr rest)
            omega
          · omega
      · rw [if_neg short, Option.some.injEq, Prod.mk.injEq] at ends
        rw [← ends.1, List.length_nil] at lengths
        omega
    · rintro ⟨sendable, stops⟩
      have some_n : 0 < n := by
        have : 0 < (r :: later).length := Nat.succ_pos _
        omega
      have mem_r : r ∈ (r :: later).take n := by
        obtain ⟨m, rfl⟩ : ∃ m, n = m + 1 := ⟨n - 1, by omega⟩
        exact List.mem_cons_self
      have first := sendable r mem_r
      -- Both counts take the same registers.
      have same : (r :: later).take (lineText r).length = (r :: later).take n := by
        rcases stops with ⟨few, all⟩ | ⟨rfl, -⟩
        · rw [List.take_of_length_le (by omega), List.take_of_length_le all]
        · rfl
      have sent := handOut_sendable (c := (lineText r).length) (by omega) r later (by rwa [same])
      refine ⟨((r :: later).take n).map rowOf, if (lineText r).length ≤ (r :: later).length then 0 else 1,
        ?_, ?_, ?_⟩
      · rw [ddbDbRead_wanted n some_wanted (by have := first.small; omega), if_pos first.short, sent, same]
      · rw [some_wanted, List.map_map]
        apply List.map_congr_left
        intro x mem
        exact message_rowOf table (sendable x mem).small
      · rw [some_wanted]
        split <;> omega

end

/-- A file with the deletions 1 to `count` of one key. -/
def deletionsFile (count : Nat) (long : count < 2 ^ 64) : TableFile where
  records := (List.range count).map fun i => ⟨i + 1, starMask, keyZz, none⟩
  fits := by
    intro r mem
    obtain ⟨i, inside, rfl⟩ := List.mem_map.mp mem
    exact deletion_fits (by have := List.mem_range.mp inside; omega)
  increasing := List.pairwise_map.mpr (List.pairwise_lt_range.imp fun less => Nat.succ_lt_succ less)

/-- Of seven deletions with lines of six characters, a burst of a thousand sends six. -/
theorem not_sendsFirst : ¬ SendsFirst (deletionsFile 7 (by decide)) 'b' 1 1000 := by
  rintro ⟨rows, ret, ends, -, more⟩
  have result : (ddbDbRead (deletionsFile 7 (by decide)).text true 1 1000).map Prod.snd = some 0 := by
    decide +kernel
  have pending : ret = 0 := by
    have same := congrArg (Option.map Prod.snd) ends
    simp only [Nat.cast_ofNat] at same
    rw [result, Option.map_some] at same
    exact (Option.some.inj same).symm
  have fewer : (TableFile.wanted (deletionsFile 7 (by decide)) 1).length = 7 := by decide +kernel
  have := more.mp pending
  omega

end Ircd.Ddb

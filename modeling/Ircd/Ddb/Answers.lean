import Ircd.Ddb.RelayedLines

/-! The answer of a hub to a request.

What the file has for a request goes on where the leaf stands, as long as each line of the file can be read: a line
that is too long looks like the end of the file. A request for an id that is no `int` looks like one for nothing.
-/

set_option autoImplicit false

namespace Ircd.Ddb
open Ircd.Library Ircd.Match Ircd.Text

theorem requestedId_decimal {x : Nat} (small : x < 2 ^ 31) : requestedId (decimal x) = x := by
  have value := @atol_printed x [] rfl
  have number : min x (2 ^ 63 - 1) = x := by omega
  rw [List.append_nil, number] at value
  have int : (x : Int).bmod (2 ^ 32) = x := by
    rw [Int.bmod_def]
    omega
  rw [requestedId, decimal, value, int]
  omega

section
variable {crc32hash : Nat → Nat} {me : CString} {s : Server} {table : Char} {log : List Register}
  {ddbOpen : UInt32} {hash : HashPair} {ddbBuf : List Char} {x : Nat}

/-- What the file of a table has for a request is the next part of the log, and a burst that reports no more has
come to its end. -/
theorem request_read (kept : Kept crc32hash me s table log) (carried : ∀ r ∈ written log, Sendable r)
    (small : x < 2 ^ 31) : ∃ front part back ret, written log = front ++ part ++ back ∧ (∀ r ∈ front, r.id ≤ x) ∧
      ddbDbRead (s.files table) true ((x + 1) % 2 ^ 64) 1000 = some (part.map rowOf, ret) ∧
        (ret = 1 → back = []) := by
  obtain ⟨f, text, records⟩ := kept.file_records
  have next : (x + 1) % 2 ^ 64 = x + 1 := by omega
  have increasing : (written log).Pairwise (·.id < ·.id) := kept.increasing.filter _
  have whole : (written log).filter (fun r => r.id ≤ x) ++ f.wanted (x + 1) = written log := by
    rw [TableFile.wanted, records]
    exact filter_split increasing x
  have low : ∀ r ∈ (written log).filter (fun r => r.id ≤ x), r.id ≤ x := fun r mem => by
    simpa using (List.mem_filter.mp mem).2
  rw [next, ← text]
  cases wanted : f.wanted (x + 1) with
  | nil =>
    rw [wanted] at whole
    refine ⟨_, [], [], -1, ?_, low, ddbDbRead_nothing 1000 wanted, fun _ => rfl⟩
    rw [List.append_nil]
    exact whole.symm
  | cons r later =>
    have inside (y : Register) (mem : y ∈ r :: later) : Sendable y :=
      carried y (whole ▸ List.mem_append_right _ (wanted ▸ mem))
    have long := three_le_lineText r
    have read := ddbDbRead_wanted 1000 wanted (by omega)
    rw [if_pos (inside r List.mem_cons_self).short, handOut_sendable (by omega) r later
      fun y mem => inside y (List.mem_of_mem_take mem)] at read
    refine ⟨_, (r :: later).take (lineText r).length, (r :: later).drop (lineText r).length, _, ?_, low, read, ?_⟩
    · rw [List.append_assoc, List.take_append_drop, ← wanted]
      exact whole.symm
    · intro all
      split_ifs at all with more
      · cases all
      · exact List.drop_eq_nil_of_le (by omega)

def partReplies (table : Char) (part : List Register) : List Reply :=
  part.map fun r => .register (registerMessage table r)

inductive Answer (log : List Register) (table : Char) (ddbOpen : UInt32) (x : Nat) : UInt32 → List Reply → Prop
  | current (all : lastId log ≤ x) : Answer log table ddbOpen x (ddbOpen ||| ddbMask table) []
  | corrupt (opened : ddbOpen &&& ddbMask table ≠ 0) :
      Answer log table ddbOpen x (ddbOpen &&& ~~~ddbMask table) [.drop]
  | last {front part : List Register} (opened : ddbOpen &&& ddbMask table = 0)
      (whole : written log = front ++ part) (low : ∀ r ∈ front, r.id ≤ x) (parameter : List Char) :
      Answer log table ddbOpen x (ddbOpen ||| ddbMask table) (partReplies table part ++ [.hash parameter])
  | more {front part back : List Register} (opened : ddbOpen &&& ddbMask table = 0)
      (whole : written log = front ++ part ++ back) (low : ∀ r ∈ front, r.id ≤ x) (id : Nat) :
      Answer log table ddbOpen x ddbOpen (partReplies table part ++ [.burst id])
  | silent {front part back : List Register} (opened : ddbOpen &&& ddbMask table = 0)
      (whole : written log = front ++ part ++ back) (low : ∀ r ∈ front, r.id ≤ x) :
      Answer log table ddbOpen x ddbOpen (partReplies table part)

theorem joinRequest_answer (kept : Kept crc32hash me s table log) (carried : ∀ r ∈ written log, Sendable r)
    (fits : lastId log < 2 ^ 31) (small : x < 2 ^ 31) : ∃ ddbOpen' replies,
      joinRequest false ddbOpen (UInt64.ofNat (s.tables.idTable table)) hash ddbBuf (s.files table) table
        (decimal x) = some (ddbOpen', replies) ∧ Answer log table ddbOpen x ddbOpen' replies := by
  have id : (UInt64.ofNat (s.tables.idTable table)).toNat = lastId log := by
    rw [kept.id, UInt64.toNat_ofNat']
    omega
  rw [joinRequest, requestedId_decimal small, id]
  by_cases all : x ≥ lastId log
  · rw [if_pos all]
    exact ⟨_, _, rfl, .current all⟩
  rw [if_neg all]
  by_cases opened : ddbOpen &&& ddbMask table ≠ 0
  · rw [if_pos opened]
    exact ⟨_, _, rfl, .corrupt opened⟩
  rw [if_neg opened]
  have opened := not_not.mp opened
  obtain ⟨front, part, back, ret, whole, low, read, ends⟩ := request_read kept carried small
  have messages : (part.map rowOf).map (fun row => Reply.register (row.message table)) =
      partReplies table part := by
    rw [List.map_map]
    refine List.map_congr_left fun r mem => congrArg Reply.register (message_rowOf table ?_)
    exact (carried r (by simp [whole, mem])).small
  rw [read, Option.map_some, afterRead, messages]
  by_cases closed : ret = 1
  · obtain rfl := ends closed
    rw [List.append_nil] at whole
    rw [if_pos closed, if_neg Bool.false_ne_true]
    exact ⟨_, _, rfl, .last opened whole low _⟩
  · rw [if_neg closed]
    by_cases more : ret = 0
    · rw [if_pos more]
      exact ⟨_, _, rfl, .more opened whole low _⟩
    · rw [if_neg more]
      exact ⟨_, _, rfl, .silent opened whole low⟩

end

end Ircd.Ddb

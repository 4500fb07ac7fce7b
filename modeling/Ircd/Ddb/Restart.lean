import Ircd.Ddb.Reload

/-! The tables of a server that starts again.

Over all messages that a server takes, its file and its memory are the same registers, written one way and
kept another. A table is read back as it was exactly if no register packed it after the last one written.
-/

set_option autoImplicit false

namespace Ircd.Ddb
open Ircd.Match Ircd.Text Ircd.Numnicks

section
variable {crc32hash : Nat → Nat} {me : CString} {s : Server} {m : Message} {table : Char} {r : Register}
  {regs : List Register}

theorem Message.register_fits (given : m.register = some (table, r)) (unbroken : ' ' ∉ r.key.chars) :
    r.Fits ∧ (r.content.isSome → r.key.chars ≠ []) := by
  unfold Message.register at given
  split at given
  case h_2 => cases given
  case h_1 mask number name key rest parv =>
    dsimp only at given
    split at given
    case h_2 => cases given
    case h_1 c one =>
      split at given
      · cases given
      · obtain ⟨t, -, same⟩ := Option.map_eq_some_iff.mp given
        cases same
        have middle := m.middle
        have line := m.line
        have short := m.short
        rw [parv] at middle line short
        have mask_word := middle mask List.mem_cons_self
        refine ⟨⟨?_, mask_word.2, unbroken, ?_, ?_, ?_, ?_⟩, ?_⟩
        · change (atol number.chars % 2 ^ 64).toNat < 2 ^ 64
          omega
        · exact line mask List.mem_cons_self
        · exact line key (by simp)
        · intro content mem
          exact line content (by simp [List.mem_of_head? mem])
        · cases rest with
          | nil =>
            simp only [List.map_cons, List.map_nil, List.sum_cons, List.sum_nil] at short
            simp only [List.head?_nil, Option.elim_none]
            omega
          | cons content more =>
            simp only [List.map_cons, List.sum_cons] at short
            simp only [List.head?_cons, Option.elim_some]
            omega
        · cases rest with
          | nil => exact fun there => absurd there Bool.false_ne_true
          | cons content more => exact fun _ => (middle key (by simp [List.dropLast])).1

theorem taken_register (taken : s.taken m = some (table, r)) :
    m.register = some (table, r) ∧ s.tables.idTable table < r.id := by
  obtain ⟨given, condition⟩ := Option.filter_eq_some_iff.mp taken
  exact ⟨given, by simpa using (Bool.and_eq_true_iff.mp condition).2⟩

theorem msDb_none (taken : s.taken m = none) : s.msDb crc32hash me m = s := by
  rw [Server.msDb, taken]

theorem msDb_some (taken : s.taken m = some (table, r)) :
    s.msDb crc32hash me m = if packs r then s.compact table r.id else s.newRegister crc32hash me table r := by
  rw [Server.msDb, taken]

theorem Kept.other (kept : Kept crc32hash me s table regs) {table' : Char} (other : table ≠ table') (r : Register) :
    Kept crc32hash me (if packs r then s.compact table' r.id else s.newRegister crc32hash me table' r) table regs := by
  split
  · refine kept.of_same rfl ⟨rfl, rfl, rfl⟩ ?_ ?_
    · exact Function.update_of_ne other _ _
    · exact Function.update_of_ne other _ _
  · obtain ⟨same, id⟩ := @newRegister_other crc32hash me _ s.tables _ other r
    refine kept.of_same ?_ same ?_ id
    · exact Function.update_of_ne other _ _
    · exact Function.update_of_ne other _ _

theorem Kept.run (kept : Kept crc32hash me s table regs) (messages : List Message)
    (unbroken : ∀ r ∈ accepted crc32hash me s messages table, packs r = false → ' ' ∉ r.key.chars) :
    Kept crc32hash me (messages.foldl (Server.msDb crc32hash me) s) table
      (regs ++ accepted crc32hash me s messages table) := by
  induction messages generalizing s regs with
  | nil =>
    rw [accepted, List.append_nil]
    exact kept
  | cons m messages ih =>
    rw [accepted] at unbroken ⊢
    rw [List.foldl_cons]
    cases taken : s.taken m with
    | none =>
      rw [taken, msDb_none taken] at unbroken
      rw [msDb_none taken]
      exact ih kept unbroken
    | some given =>
      obtain ⟨table', r⟩ := given
      rw [taken] at unbroken
      rw [msDb_some taken] at unbroken ⊢
      dsimp only at unbroken ⊢
      by_cases own : table' = table
      · subst own
        rw [if_pos rfl] at unbroken ⊢
        obtain ⟨given, later⟩ := taken_register taken
        have first := unbroken r List.mem_cons_self
        have rest := fun x mem => unbroken x (List.mem_cons_of_mem r mem)
        rw [List.append_cons]
        cases packing : packs r
        · obtain ⟨fits, some_key⟩ := Message.register_fits given (first packing)
          rw [packing] at rest
          exact ih (kept.newRegister later packing fits some_key) rest
        · rw [packing] at rest
          exact ih (kept.compact later packing) rest
      · rw [if_neg own] at unbroken ⊢
        exact ih (kept.other (Ne.symm own) r) unbroken

theorem replay_id (t : Tables) (regs : List Register) :
    (replay crc32hash me t table regs).idTable table = lastId regs := by
  rcases List.eq_nil_or_concat regs with rfl | ⟨earlier, r, rfl⟩
  · exact Function.update_self ..
  · rw [List.concat_eq_append, lastId_append, replay, List.foldl_append]
    exact newRegister_id _ r

theorem hashRead_digits {hash : HashPair} (digits : s.hashes table = hashDigits hash) : s.hashRead table = hash := by
  have number (v : UInt32) : UInt32.ofNat (base64toint (inttobase64 v.toNat 6)) = v := by
    have small := v.toNat_lt
    rw [base64toint_inttobase64 (by decide) (by omega) small, UInt32.ofNat_toNat]
  have length : (inttobase64 hash.1.toNat 6).length = 6 := length_inttobase64 ..
  rw [Server.hashRead, digits, hashDigits, List.take_left' length, List.drop_left' length, number, number]

theorem rows_register {regs : List Register} (storable : ∀ r ∈ regs, Storable r) :
    (regs.map rowOf).map Row.register = regs := by
  rw [List.map_map]
  calc regs.map (Row.register ∘ rowOf) = regs.map id :=
        List.map_congr_left fun r mem => register_rowOf (storable r mem).id_int
    _ = regs := List.map_id regs

theorem Kept.file_records (kept : Kept crc32hash me s table regs) :
    ∃ f : TableFile, f.text = s.files table ∧ f.records = written regs := by
  have increasing : (written regs).Pairwise (·.id < ·.id) := kept.increasing.filter _
  exact ⟨⟨written regs, kept.fits, increasing⟩, kept.file.symm, rfl⟩

theorem Kept.reload (kept : Kept crc32hash me s table regs) (storable : ∀ r ∈ written regs, Storable r) :
    ∃ read, ddbTableInit crc32hash me s table = some read ∧ SameTable table s.tables read.tables ∧
      read.tables.idTable table = lastId (written regs) := by
  obtain ⟨f, text, records⟩ := kept.file_records
  have positive : ∀ r ∈ f.records, 0 < r.id := by
    intro r mem
    rw [records] at mem
    exact (kept.bounded r (List.mem_of_mem_filter mem)).1
  obtain ⟨ret, rows⟩ := ddbDbRead_all f positive (records ▸ storable)
  rw [text, records] at rows
  have replayed : (written regs |>.map rowOf).foldl (fun t row => ddbNewRegister crc32hash me t table row.register)
      (ddbDropMemory s.tables table) = replay crc32hash me s.tables table (written regs) := by
    rw [replay]
    conv_rhs => rw [← rows_register storable, List.foldl_map]
  have same := kept.memory s.tables
  have hash : Server.hashRead { s with tables := replay crc32hash me s.tables table (written regs) } table =
      (replay crc32hash me s.tables table (written regs)).hashTable table := by
    rw [← same.hash]
    exact hashRead_digits kept.hashes
  have unpacked : (ddbDelKey crc32hash (replay crc32hash me s.tables table (written regs)) table starMask
      ['*', nul]).2 = replay crc32hash me s.tables table (written regs) :=
    delKey_absent (kept.named.of_same same) (.inr rfl) _
  unfold ddbTableInit
  rw [rows, Option.bind_eq_bind, Option.bind_some]
  dsimp only
  rw [replayed, if_neg (not_not_intro hash)]
  split
  · refine ⟨_, rfl, ?_⟩
    dsimp only [Server.hashWrite]
    rw [unpacked]
    exact ⟨same, replay_id _ _⟩
  · exact ⟨_, rfl, same, replay_id _ _⟩

theorem findKey_same {t u : Tables} (same : SameTable table t u) (buffer : List Char) (key : CString) :
    ddbFindKey crc32hash u buffer table key = ddbFindKey crc32hash t buffer table key := by
  unfold ddbFindKey
  rw [same.data]

theorem lastId_written (bounded : ∀ r ∈ regs, 0 < r.id) (increasing : regs.Pairwise (·.id < ·.id)) :
    lastId (written regs) = lastId regs ↔ ∀ r ∈ regs.getLast?, packs r = false := by
  rcases List.eq_nil_or_concat regs with rfl | ⟨earlier, last, rfl⟩
  · simp [written]
  rw [List.concat_eq_append] at bounded increasing ⊢
  rw [lastId_append, List.getLast?_append, List.getLast?_singleton, written_append]
  cases packing : packs last
  · rw [if_neg Bool.false_ne_true, lastId_append]
    simpa using packing
  · rw [if_pos rfl]
    have below : lastId (written earlier) < last.id := by
      rcases List.eq_nil_or_concat (written earlier) with none_left | ⟨rest, r, some_left⟩
      · rw [none_left]
        exact bounded last (List.mem_append_right earlier (List.mem_singleton_self last))
      · rw [List.concat_eq_append] at some_left
        rw [some_left, lastId_append]
        have mem : r ∈ written earlier := some_left ▸ List.mem_append_right rest (List.mem_singleton_self r)
        exact (List.pairwise_append.mp increasing).2.2 r (List.mem_of_mem_filter mem) last
          (List.mem_singleton_self last)
    simpa [packing] using below.ne

theorem Kept.reproduced_iff (kept : Kept crc32hash me s table regs)
    (storable : ∀ r ∈ regs, packs r = false → Storable r) :
    Reproduced crc32hash me s table ↔ ∀ r ∈ regs.getLast?, packs r = false := by
  have lines : ∀ r ∈ written regs, Storable r := by
    intro r mem
    obtain ⟨taken, plain⟩ := List.mem_filter.mp mem
    exact storable r taken (by simpa using plain)
  obtain ⟨read, ends, same, id⟩ := kept.reload lines
  rw [← lastId_written (fun r mem => (kept.bounded r mem).1) kept.increasing]
  constructor
  · rintro ⟨read', ends', id', -⟩
    obtain rfl := Option.some.inj (ends.symm.trans ends')
    rw [← id, id', kept.id]
  · intro last
    refine ⟨read, ends, ?_, same.hash.symm, same.count.symm, fun buffer key => findKey_same same buffer key⟩
    rw [id, last, kept.id]

end

theorem kept_run (crc32hash : Nat → Nat) (me : CString) (messages : List Message) (table : Char)
    (storable : ∀ r ∈ accepted crc32hash me {} messages table, packs r = false → Storable r) :
    Kept crc32hash me (messages.foldl (Server.msDb crc32hash me) {}) table (accepted crc32hash me {} messages table) :=
  (Kept.start table).run messages fun r mem plain => (storable r mem plain).key_unbroken

/-- A server reads a table back as it is in memory, if all lines are read as they were written, exactly if the
last register it took for the table did not pack it. -/
theorem table_reproduced (crc32hash : Nat → Nat) (me : CString) (messages : List Message) (table : Char)
    (storable : ∀ r ∈ accepted crc32hash me {} messages table, packs r = false → Storable r) :
    Reproduced crc32hash me (messages.foldl (Server.msDb crc32hash me) {}) table ↔
      ∀ r ∈ (accepted crc32hash me {} messages table).getLast?, packs r = false :=
  (kept_run crc32hash me messages table storable).reproduced_iff storable

def digitSeven : CString := ⟨['7'], by decide, by decide⟩

/-- A hub sends register 7 of table `b` with a key and no content. -/
def hubMessage (key : CString) (middle : ∀ p ∈ [starMask, digitSeven, textB], p.chars ≠ [] ∧ ' ' ∉ p.chars)
    (line : ∀ p ∈ [starMask, digitSeven, textB, key], OneLine p.chars)
    (short : ([starMask, digitSeven, textB, key].map fun p => p.chars.length).sum ≤ 510) : Message :=
  ⟨true, [starMask, digitSeven, textB, key], middle, line, short⟩

def deletionMessage : Message := hubMessage keyZz (by decide) (by decide) (by decide)
def packMessage : Message := hubMessage starMask (by decide) (by decide) (by decide)

theorem accepted_deletion : accepted crc32Table textA {} [deletionMessage] 'b' = [⟨7, starMask, keyZz, none⟩] := rfl

theorem accepted_pack : accepted crc32Table textA {} [packMessage] 'b' = [⟨7, starMask, starMask, none⟩] := rfl

theorem table_reproduced_deletion :
    Reproduced crc32Table textA ([deletionMessage].foldl (Server.msDb crc32Table textA) {}) 'b' := by
  refine (table_reproduced crc32Table textA [deletionMessage] 'b' ?_).mpr ?_
  · rw [accepted_deletion]
    intro r mem _
    rw [List.mem_singleton.mp mem]
    exact ⟨by decide, by decide, by decide⟩
  · rw [accepted_deletion]
    decide

/-- A table that was packed by its last register has lost the id of that register. -/
theorem table_packed : ¬ Reproduced crc32Table textA ([packMessage].foldl (Server.msDb crc32Table textA) {}) 'b' := by
  have plain : ∀ r ∈ accepted crc32Table textA {} [packMessage] 'b', packs r = false → Storable r := by
    rw [accepted_pack]
    intro r mem plain
    rw [List.mem_singleton.mp mem] at plain
    exact absurd plain (by decide)
  rw [(kept_run crc32Table textA [packMessage] 'b' plain).reproduced_iff plain, accepted_pack]
  decide

end Ircd.Ddb

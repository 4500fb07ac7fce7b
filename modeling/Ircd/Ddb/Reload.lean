import Ircd.Ddb.Store

/-! What is read back of a table.

The registers are replayed from the file in the order in which they came, so a table is read back as it is
in memory as long as every line is read as the register that was written. A register that packs the table
is not written: the id of such a register is lost unless another one comes behind it.
-/

set_option autoImplicit false

namespace Ircd.Ddb
open Ircd.Library Ircd.Match Ircd.Text Ircd.Numnicks

structure SameTable (table : Char) (t u : Tables) : Prop where
  hash : t.hashTable table = u.hashTable table
  count : t.countTable table = u.countTable table
  data : t.dataTable table = u.dataTable table

def Named (table : Char) (t : Tables) : Prop :=
  ∀ i, ∀ e ∈ t.dataTable table i, e.key.chars ≠ [] ∧ e.key.chars ≠ ['*']

theorem toLower_star {c : Char} (star : toLower c = '*') : c = '*' := by
  rcases toLower_cases c with ⟨upper, image⟩ | ⟨-, image⟩
  · have code := congrArg Char.toNat (image.symm.trans star)
    unfold isUpperCode at upper
    rw [toNat_ofNat_small (by omega)] at code
    have value : '*'.toNat = 42 := rfl
    omega
  · exact image.symm.trans star

theorem lower_ne_star {key : CString} (other : key.chars ≠ ['*']) : (lower key).chars ≠ ['*'] := by
  intro star
  obtain ⟨c, one, folded⟩ := List.map_eq_singleton_iff.mp star
  exact other (by rw [one, toLower_star folded])

section
variable {crc32hash : Nat → Nat} {me : CString} {table : Char} {t u : Tables}

theorem Named.absent (named : Named table t) {key : CString} (unnamed : key.chars = [] ∨ key.chars = ['*']) (i : Nat) :
    ((t.dataTable table i).any fun e => e.key = key) = false := by
  rw [Bool.eq_false_iff]
  intro there
  obtain ⟨e, mem, same⟩ := List.any_eq_true.mp there
  have same : e.key = key := by simpa using same
  obtain ⟨some_key, other⟩ := named i e mem
  rcases unnamed with empty | star
  · exact some_key (same ▸ empty)
  · exact other (same ▸ star)

theorem Named.of_same (named : Named table t) (same : SameTable table t u) : Named table u := by
  unfold Named
  rw [← same.data]
  exact named

theorem delKey_absent {key : CString} (named : Named table t) (unnamed : key.chars = [] ∨ key.chars = ['*'])
    (memory : List Char) : (ddbDelKey crc32hash t table key memory).2 = t := by
  unfold ddbDelKey
  dsimp only
  rw [named.absent unnamed, if_neg Bool.false_ne_true]

theorem delKey_same (same : SameTable table t u) (named : Named table t) {key : CString} {memory memory' : List Char}
    (hashed : key.chars ≠ [] → ddbHashRegister crc32hash memory (residentTable table) =
      ddbHashRegister crc32hash memory' (residentTable table)) :
    SameTable table (ddbDelKey crc32hash t table key memory).2 (ddbDelKey crc32hash u table key memory').2 ∧
      Named table (ddbDelKey crc32hash t table key memory).2 := by
  by_cases empty : key.chars = []
  · rw [delKey_absent named (.inl empty), delKey_absent (named.of_same same) (.inl empty)]
    exact ⟨same, named⟩
  unfold ddbDelKey
  dsimp only
  rw [← hashed empty, ← same.data]
  split
  · refine ⟨⟨same.hash, ?_, ?_⟩, fun i e mem => ?_⟩
    · simp only [Function.update_self, same.count]
    · simp only [Function.update_self]
    · simp only [Function.update_self] at mem
      exact named i e (mem_of_mem_eraseFirst mem)
  · exact ⟨same, named⟩

theorem addKey_same (same : SameTable table t u) (named : Named table t) {key : CString} (content : CString)
    (some_key : key.chars ≠ []) (other : key.chars ≠ ['*']) {memory memory' : List Char}
    (hashed : ddbHashRegister crc32hash memory (residentTable table) =
      ddbHashRegister crc32hash memory' (residentTable table)) :
    SameTable table (ddbAddKey crc32hash t table key content memory).2 (ddbAddKey crc32hash u table key content memory').2 ∧
      Named table (ddbAddKey crc32hash t table key content memory).2 := by
  have hashed (_ : key.chars ≠ []) := hashed
  obtain ⟨deleted, left⟩ := delKey_same same named hashed
  unfold ddbAddKey
  dsimp only
  refine ⟨⟨deleted.hash, ?_, ?_⟩, fun i e mem => ?_⟩
  · simp only [Function.update_self, deleted.count]
  · simp only [Function.update_self, deleted.data]
  · simp only [Function.update_self, pushFront, Function.update_apply] at mem
    split at mem
    · rcases List.mem_cons.mp mem with rfl | old
      · exact ⟨some_key, other⟩
      · exact left _ e old
    · exact left i e mem

theorem newRegister_same (same : SameTable table t u) (named : Named table t) {r : Register}
    (some_key : r.content.isSome → r.key.chars ≠ []) (other : r.key.chars ≠ ['*']) :
    SameTable table (ddbNewRegister crc32hash me t table r) (ddbNewRegister crc32hash me u table r) ∧
      Named table (ddbNewRegister crc32hash me t table r) := by
  have hash : Function.update t.hashTable table (ddbHashCalculate (registerText table r) (t.hashTable table)) table =
      Function.update u.hashTable table (ddbHashCalculate (registerText table r) (u.hashTable table)) table := by
    rw [Function.update_self, Function.update_self, same.hash]
  unfold ddbNewRegister
  dsimp only
  split
  · unfold keepRegister
    dsimp only
    have hashed (some_key : (lower r.key).chars ≠ []) :
        ddbHashRegister crc32hash (copyTo t.keytemp (lower r.key)) (residentTable table) =
          ddbHashRegister crc32hash (copyTo u.keytemp (lower r.key)) (residentTable table) := by
      rw [ddbHashRegister_copyTo some_key, ddbHashRegister_copyTo some_key]
    cases content : r.content with
    | none =>
      refine delKey_same ?_ ?_ hashed
      · exact ⟨hash, same.count, same.data⟩
      · exact named
    | some text =>
      have some_key := lower_chars_ne_nil (some_key (by rw [content]; rfl))
      refine addKey_same ?_ ?_ text some_key (lower_ne_star other) (hashed some_key)
      · exact ⟨hash, same.count, same.data⟩
      · exact named
  · exact ⟨⟨hash, same.count, same.data⟩, named⟩

theorem delKey_other {table' : Char} (other : table ≠ table') (key : CString) (memory : List Char) :
    SameTable table t (ddbDelKey crc32hash t table' key memory).2 ∧
      (ddbDelKey crc32hash t table' key memory).2.idTable table = t.idTable table := by
  unfold ddbDelKey
  dsimp only
  split
  · exact ⟨⟨rfl, (Function.update_of_ne other _ _).symm, (Function.update_of_ne other _ _).symm⟩, rfl⟩
  · exact ⟨⟨rfl, rfl, rfl⟩, rfl⟩

theorem delKey_id (key : CString) (memory : List Char) : (ddbDelKey crc32hash t table key memory).2.idTable = t.idTable := by
  unfold ddbDelKey
  dsimp only
  split
  · rfl
  · rfl

theorem newRegister_id (t : Tables) (r : Register) : (ddbNewRegister crc32hash me t table r).idTable table = r.id := by
  have entered : Function.update t.idTable table r.id table = r.id := Function.update_self ..
  unfold ddbNewRegister
  dsimp only
  split
  · unfold keepRegister
    dsimp only
    cases r.content with
    | none => exact (congrFun (delKey_id _ _) table).trans entered
    | some text =>
      unfold ddbAddKey
      exact (congrFun (delKey_id _ _) table).trans entered
  · exact entered

theorem newRegister_other {table' : Char} (other : table ≠ table') (r : Register) :
    SameTable table t (ddbNewRegister crc32hash me t table' r) ∧
      (ddbNewRegister crc32hash me t table' r).idTable table = t.idTable table := by
  have hash : t.hashTable table =
      Function.update t.hashTable table' (ddbHashCalculate (registerText table' r) (t.hashTable table')) table :=
    (Function.update_of_ne other _ _).symm
  have id : Function.update t.idTable table' r.id table = t.idTable table := Function.update_of_ne other _ _
  unfold ddbNewRegister
  dsimp only
  split
  · unfold keepRegister
    dsimp only
    cases r.content with
    | none =>
      refine (delKey_other other _ _).imp (fun same => ⟨?_, same.count, same.data⟩) fun kept => kept.trans id
      exact hash.trans same.hash
    | some text =>
      unfold ddbAddKey
      dsimp only
      refine (delKey_other other _ _).imp (fun same => ⟨?_, ?_, ?_⟩) fun kept => kept.trans id
      · exact hash.trans same.hash
      · exact same.count.trans (Function.update_of_ne other _ _).symm
      · exact same.data.trans (Function.update_of_ne other _ _).symm
  · exact ⟨⟨hash, rfl, rfl⟩, id⟩

end

/-- A register that a line of the file gives back: `atoi` takes its id, `ddb_read` its line, and its key
ends at the first blank. -/
structure Storable (r : Register) : Prop where
  id_int : r.id < 2 ^ 31
  short : (lineText r).length ≤ 501
  key_unbroken : ' ' ∉ r.key.chars

theorem stringOf_chars (s : CString) : stringOf s.chars = s := by
  have whole : s.chars.takeWhile (· ≠ nul) = s.chars :=
    List.takeWhile_eq_self_iff.mpr fun c mem => by
      have other : c ≠ nul := fun same => s.nul_free (same ▸ mem)
      simpa using other
  have bytes : s.chars.filter (·.toNat < 256) = s.chars :=
    List.filter_eq_self.mpr fun c mem => by simpa using s.byte c mem
  cases s
  simp only [stringOf, CString.mk.injEq] at whole bytes ⊢
  rw [whole, bytes]

theorem register_rowOf {r : Register} (small : r.id < 2 ^ 31) : (rowOf r).register = r := by
  have id : (readId r.id % 2 ^ 64).toNat = r.id := by
    have same : readId r.id = r.id := (readId_eq (by omega)).mpr small
    omega
  have content : (r.content.map CString.chars).map stringOf = r.content := by
    cases r.content with
    | none => rfl
    | some text => exact congrArg some (stringOf_chars text)
  rw [Row.register, rowOf, id, stringOf_chars, stringOf_chars, content]

theorem handOut_all {r : Register} {later : List Register} (cont : Int)
    (positive : ∀ x ∈ r :: later, 0 < x.id) (storable : ∀ x ∈ r :: later, Storable x) :
    (handOut false cont r later).1 = (r :: later).map rowOf := by
  induction later generalizing r cont with
  | nil =>
    have first := storable r List.mem_cons_self
    rw [handOut, handed_isSome (positive r List.mem_cons_self) (by have := first.id_int; omega)]
    rfl
  | cons next later ih =>
    have first := storable r List.mem_cons_self
    have second := storable next (List.mem_cons_of_mem r List.mem_cons_self)
    have rest := ih cont (fun x mem => positive x (List.mem_cons_of_mem r mem))
      fun x mem => storable x (List.mem_cons_of_mem r mem)
    rw [handOut, handed_isSome (positive r List.mem_cons_self) (by have := first.id_int; omega)]
    simp only [Bool.false_and, Bool.false_eq_true, if_false, if_pos second.short]
    rw [rest]
    rfl

theorem ddbDbRead_all (f : TableFile) (positive : ∀ r ∈ f.records, 0 < r.id) (storable : ∀ r ∈ f.records, Storable r) :
    ∃ ret, ddbDbRead f.text false 0 0 = some (f.records.map rowOf, ret) := by
  unfold ddbDbRead ddbSeek
  rw [if_pos rfl, f.text_eq]
  cases records : f.records with
  | nil => exact ⟨-1, rfl⟩
  | cons r later =>
    rw [records] at positive storable
    have fits : ∀ x ∈ r :: later, x.Fits := records ▸ f.fits
    rw [List.map_cons, List.flatten_cons, ddbRead_fileLine (fits r List.mem_cons_self),
      if_pos (storable r List.mem_cons_self).short]
    dsimp only
    rw [readLoop_handOut fits (Nat.lt_succ_self _)]
    exact ⟨_, congrArg some (Prod.ext (handOut_all _ positive storable) rfl)⟩

def written (regs : List Register) : List Register := regs.filter fun r => !packs r

def lastId (regs : List Register) : Nat := regs.getLast?.elim 0 Register.id

theorem lastId_append (regs : List Register) (r : Register) : lastId (regs ++ [r]) = r.id := by
  rw [lastId, List.getLast?_append, List.getLast?_singleton]
  rfl

theorem written_append (regs : List Register) (r : Register) :
    written (regs ++ [r]) = if packs r then written regs else written regs ++ [r] := by
  rw [written, List.filter_append]
  cases packing : packs r
  · rw [if_neg Bool.false_ne_true, List.filter_singleton, packing]
    rfl
  · rw [if_pos rfl, List.filter_singleton, packing]
    exact List.append_nil _

section
variable (crc32hash : Nat → Nat) (me : CString)

def replay (t : Tables) (table : Char) (regs : List Register) : Tables :=
  regs.foldl (fun t r => ddbNewRegister crc32hash me t table r) (ddbDropMemory t table)

/-- The table in memory is the replay of its file, and its hash and id stand where they are looked for. -/
structure Kept (s : Server) (table : Char) (regs : List Register) : Prop where
  file : s.files table = (written regs).foldl ddbDbWrite []
  memory : ∀ t, SameTable table s.tables (replay crc32hash me t table (written regs))
  named : Named table s.tables
  hashes : s.hashes table = hashDigits (s.tables.hashTable table)
  id : s.tables.idTable table = lastId regs
  bounded : ∀ r ∈ regs, 0 < r.id ∧ r.id ≤ lastId regs
  increasing : regs.Pairwise (·.id < ·.id)
  fits : ∀ r ∈ written regs, r.Fits

end

section
variable {crc32hash : Nat → Nat} {me : CString} {s : Server} {table : Char} {regs : List Register}

theorem Kept.start (table : Char) : Kept crc32hash me {} table [] where
  file := rfl
  memory t := by
    change SameTable table {} (ddbDropMemory t table)
    exact ⟨(Function.update_self table _ t.hashTable).symm, (Function.update_self table _ t.countTable).symm,
      (Function.update_self table _ t.dataTable).symm⟩
  named _ _ mem := absurd mem List.not_mem_nil
  hashes := by
    change List.replicate 12 'A' = hashDigits (0, 0)
    decide +kernel
  id := rfl
  bounded _ mem := absurd mem List.not_mem_nil
  increasing := .nil
  fits _ mem := absurd mem List.not_mem_nil

theorem Kept.of_same (kept : Kept crc32hash me s table regs) {s' : Server} (file : s'.files table = s.files table)
    (memory : SameTable table s.tables s'.tables) (hashes : s'.hashes table = s.hashes table)
    (id : s'.tables.idTable table = s.tables.idTable table) : Kept crc32hash me s' table regs where
  file := file.trans kept.file
  memory t := by
    have same := kept.memory t
    exact ⟨memory.hash.symm.trans same.hash, memory.count.symm.trans same.count, memory.data.symm.trans same.data⟩
  named := kept.named.of_same memory
  hashes := by rw [hashes, kept.hashes, memory.hash]
  id := id.trans kept.id
  bounded := kept.bounded
  increasing := kept.increasing
  fits := kept.fits

theorem Kept.grows (kept : Kept crc32hash me s table regs) {r : Register} (later : s.tables.idTable table < r.id) :
    (∀ x ∈ regs ++ [r], 0 < x.id ∧ x.id ≤ lastId (regs ++ [r])) ∧ (regs ++ [r]).Pairwise (·.id < ·.id) := by
  rw [lastId_append]
  have below (x : Register) (mem : x ∈ regs) : 0 < x.id ∧ x.id < r.id := by
    have bounded := kept.bounded x mem
    rw [← kept.id] at bounded
    omega
  constructor
  · intro x mem
    rcases List.mem_append.mp mem with old | new
    · exact ⟨(below x old).1, (below x old).2.le⟩
    · rw [List.mem_singleton.mp new]
      exact ⟨by omega, Nat.le_refl _⟩
  · refine List.pairwise_append.mpr ⟨kept.increasing, List.pairwise_singleton _ _, fun x old y new => ?_⟩
    rw [List.mem_singleton.mp new]
    exact (below x old).2

theorem Kept.compact (kept : Kept crc32hash me s table regs) {r : Register} (later : s.tables.idTable table < r.id)
    (packing : packs r = true) : Kept crc32hash me (s.compact table r.id) table (regs ++ [r]) := by
  obtain ⟨bounded, increasing⟩ := kept.grows later
  have same : written (regs ++ [r]) = written regs := by rw [written_append, if_pos packing]
  refine ⟨?_, fun t => ?_, kept.named, ?_, ?_, bounded, increasing, ?_⟩
  · rw [same]
    exact kept.file
  · rw [same]
    exact ⟨(kept.memory t).hash, (kept.memory t).count, (kept.memory t).data⟩
  · exact Function.update_self ..
  · rw [lastId_append]
    exact Function.update_self ..
  · rw [same]
    exact kept.fits

theorem Kept.newRegister (kept : Kept crc32hash me s table regs) {r : Register}
    (later : s.tables.idTable table < r.id) (plain : packs r = false) (fits : r.Fits)
    (some_key : r.content.isSome → r.key.chars ≠ []) :
    Kept crc32hash me (s.newRegister crc32hash me table r) table (regs ++ [r]) := by
  obtain ⟨bounded, increasing⟩ := kept.grows later
  have other : r.key.chars ≠ ['*'] := by simpa [packs] using plain
  have more : written (regs ++ [r]) = written regs ++ [r] := by rw [written_append, plain]; rfl
  have memory (t : Tables) := @newRegister_same crc32hash me _ _ _ (kept.memory t) kept.named r some_key other
  refine ⟨?_, fun t => ?_, (memory s.tables).2, ?_, ?_, bounded, increasing, ?_⟩
  · rw [more, List.foldl_append, ← kept.file]
    exact Function.update_self ..
  · rw [more, replay, List.foldl_append]
    exact (memory t).1
  · exact Function.update_self ..
  · rw [lastId_append]
    exact newRegister_id _ r
  · rw [more]
    intro x mem
    rcases List.mem_append.mp mem with old | new
    · exact kept.fits x old
    · exact List.mem_singleton.mp new ▸ fits

end

end Ircd.Ddb

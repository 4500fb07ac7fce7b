import Ircd.Ddb.Tables
import Mathlib.Data.List.Find

/-! The resident tables hold the last register of every key, as long as no register with an
empty key is put in.
-/

set_option autoImplicit false

namespace Ircd.Ddb
open Ircd.Library Ircd.Match Ircd.Text

section
variable (crc32hash : Nat → Nat)

def hashOf (table : Char) (key : CString) : Nat := ddbHashRegister crc32hash key.chars (residentTable table)

/-- The chains and the counter of a table hold the contents `c`. -/
structure Holds (table : Char) (data : Nat → List Entry) (count : UInt32) (c : CString → Option CString) : Prop where
  chained : Chained (hashOf crc32hash table) Entry.key data
  lowered : ∀ i, ∀ e ∈ data i, lower e.key = e.key
  named : ∀ i, ∀ e ∈ data i, e.key.chars ≠ []
  alone : residentTable table = 0 → ∀ i, data i = []
  counted : count.toNat = (entriesBelow (residentTable table) data).length
  found : ∀ k, (lookup (hashOf crc32hash table) Entry.key data k).map Entry.content = c k

def Sound (t : Tables) (c : Contents) : Prop :=
  ∀ table, Holds crc32hash table (t.dataTable table) (t.countTable table) (c table)

variable {crc32hash}

theorem lower_lower (s : CString) : lower (lower s) = lower s := by
  unfold lower
  simp only [List.map_map, CString.mk.injEq]
  apply List.map_congr_left
  intro c _
  exact toLower_idem c

theorem lower_chars_ne_nil {s : CString} (some_s : s.chars ≠ []) : (lower s).chars ≠ [] := by
  simpa [lower] using some_s

theorem copyTo_eq (buffer : List Char) (s : CString) : ∃ behind, copyTo buffer s = s.chars ++ nul :: behind := by
  unfold copyTo
  split
  · exact ⟨[], rfl⟩
  · exact ⟨_, rfl⟩

theorem ddbHashRegister_append {key : CString} (some_key : key.chars ≠ []) (behind : List Char) (table : Char) :
    ddbHashRegister crc32hash (key.chars ++ nul :: behind) (residentTable table) = hashOf crc32hash table key := by
  rw [hashOf, ddbHashRegister, ddbHashRegister, strhash_append crc32hash some_key key.nul_free]

theorem ddbHashRegister_copyTo {key : CString} (some_key : key.chars ≠ []) (buffer : List Char) (table : Char) :
    ddbHashRegister crc32hash (copyTo buffer key) (residentTable table) = hashOf crc32hash table key := by
  obtain ⟨behind, copied⟩ := copyTo_eq buffer key
  rw [copied, ddbHashRegister_append some_key]

variable (crc32hash) in
theorem hashOf_lt {table : Char} (some_chains : residentTable table ≠ 0) (key : CString) :
    hashOf crc32hash table key < residentTable table := by
  have below : hashOf crc32hash table key ≤ residentTable table - 1 := Nat.and_le_right
  omega

theorem foldEq_lower {a b : CString} (lower_a : lower a = a) (lower_b : lower b = b) :
    a.foldEq b = true ↔ a = b := by
  rw [CString.foldEq_iff]
  constructor
  · intro folded
    rw [← lower_a, ← lower_b]
    unfold lower
    simp only [folded]
  · rintro rfl
    rfl

section
variable {table : Char} {data : Nat → List Entry} {count : UInt32} {c : CString → Option CString}

theorem any_eq_isSome (key : CString) :
    ((data (hashOf crc32hash table key)).any fun e => e.key = key) =
      (lookup (hashOf crc32hash table) Entry.key data key).isSome := by
  rw [Bool.eq_iff_iff, lookup, List.find?_isSome, List.any_eq_true]

theorem Holds.empty : Holds crc32hash table (fun _ => []) 0 fun _ => none :=
  ⟨chained_empty, by simp, by simp, by simp, by simp [entriesBelow], by simp [lookup]⟩

theorem Holds.absent_of_empty (holds : Holds crc32hash table data count c) {key : CString}
    (empty : key.chars = []) (i : Nat) : ((data i).any fun e => e.key = key) = false := by
  rw [Bool.eq_false_iff]
  intro there
  obtain ⟨e, mem_e, key_e⟩ := List.any_eq_true.mp there
  have same : e.key = key := by simpa using key_e
  exact holds.named i e mem_e (same ▸ empty)

theorem Holds.content_of_empty (holds : Holds crc32hash table data count c) {key : CString}
    (empty : key.chars = []) : c key = none := by
  have absent := holds.absent_of_empty empty (hashOf crc32hash table key)
  rw [any_eq_isSome, Option.isSome_eq_false_iff, Option.isNone_iff_eq_none] at absent
  rw [← holds.found key, absent, Option.map_none]

theorem Holds.erase (holds : Holds crc32hash table data count c) (some_chains : residentTable table ≠ 0)
    {key : CString} (there : ((data (hashOf crc32hash table key)).any fun e => e.key = key) = true) :
    Holds crc32hash table (eraseFirst data (hashOf crc32hash table key) fun e => e.key = key) (count - 1)
        (Function.update c key none) ∧
      (entriesBelow (residentTable table)
        (eraseFirst data (hashOf crc32hash table key) fun e => e.key = key)).length + 1 =
        (entriesBelow (residentTable table) data).length := by
  obtain ⟨e, mem_e, key_e⟩ := List.any_eq_true.mp there
  have change := length_entriesBelow_update data (hashOf_lt crc32hash some_chains key)
    ((data (hashOf crc32hash table key)).eraseP fun e => e.key = key)
  have shorter := List.length_eraseP_of_mem (p := fun e : Entry => e.key = key) mem_e key_e
  have some_entry := List.length_pos_of_mem mem_e
  have fewer : (entriesBelow (residentTable table)
      (eraseFirst data (hashOf crc32hash table key) fun e => e.key = key)).length + 1 =
      (entriesBelow (residentTable table) data).length := by
    unfold eraseFirst
    omega
  refine ⟨⟨holds.chained.eraseFirst _ _, fun i e mem => holds.lowered i e (mem_of_mem_eraseFirst mem),
    fun i e mem => holds.named i e (mem_of_mem_eraseFirst mem), fun none_chains => absurd none_chains some_chains,
    ?_, fun k => ?_⟩, fewer⟩
  · have one_le : 1 ≤ count := by
      rw [UInt32.le_iff_toNat_le, UInt32.toNat_one, holds.counted]
      omega
    rw [UInt32.toNat_sub_of_le _ _ one_le, UInt32.toNat_one, holds.counted]
    omega
  · rw [lookup_eraseFirst holds.chained]
    by_cases same : k = key
    · rw [if_pos same, same, Function.update_self, Option.map_none]
    · rw [if_neg same, Function.update_of_ne same, holds.found]

theorem Holds.push (holds : Holds crc32hash table data count c) (some_chains : residentTable table ≠ 0)
    {key : CString} (absent : c key = none) (lower_key : lower key = key) (some_key : key.chars ≠ [])
    (content : CString) (room : (entriesBelow (residentTable table) data).length + 1 < 2 ^ 32) :
    Holds crc32hash table (pushFront data (hashOf crc32hash table key) ⟨key, content⟩) (count + 1)
      (Function.update c key (some content)) := by
  have no_entry : lookup (hashOf crc32hash table) Entry.key data key = none := by
    rw [← Option.map_eq_none_iff (f := Entry.content), holds.found, absent]
  have members : ∀ i, ∀ e ∈ pushFront data (hashOf crc32hash table key) ⟨key, content⟩ i,
      e = ⟨key, content⟩ ∨ e ∈ data i := by
    intro i e mem
    unfold pushFront at mem
    by_cases here : i = hashOf crc32hash table key
    · rw [here, Function.update_self] at mem
      exact here ▸ List.mem_cons.mp mem
    · rw [Function.update_of_ne here] at mem
      exact .inr mem
  refine ⟨holds.chained.pushFront (e := ⟨key, content⟩) no_entry, fun i e mem => ?_, fun i e mem => ?_,
    fun none_chains => absurd none_chains some_chains, ?_, fun k => ?_⟩
  · rcases members i e mem with rfl | old
    · exact lower_key
    · exact holds.lowered i e old
  · rcases members i e mem with rfl | old
    · exact some_key
    · exact holds.named i e old
  · have change := length_entriesBelow_update data
      (hashOf_lt crc32hash some_chains key) (⟨key, content⟩ :: data (hashOf crc32hash table key))
    have counted := holds.counted
    rw [List.length_cons] at change
    rw [UInt32.toNat_add, UInt32.toNat_one, Nat.mod_eq_of_lt (by omega)]
    unfold pushFront
    omega
  · have looked := lookup_pushFront (hashOf crc32hash table) Entry.key data ⟨key, content⟩ k
    simp only at looked
    rw [looked]
    by_cases same : k = key
    · rw [if_pos same, same, Function.update_self, Option.map_some]
    · rw [if_neg same, Function.update_of_ne same, holds.found]

end

theorem Sound.update {t : Tables} {c : Contents} (sound : Sound crc32hash t c) {table : Char}
    {data : Nat → List Entry} {count : UInt32} {c' : CString → Option CString}
    (holds : Holds crc32hash table data count c') (t' : Tables)
    (data_eq : t'.dataTable = Function.update t.dataTable table data)
    (count_eq : t'.countTable = Function.update t.countTable table count) :
    Sound crc32hash t' (Function.update c table c') := by
  intro table'
  rw [data_eq, count_eq]
  by_cases same : table' = table
  · subst same
    rw [Function.update_self, Function.update_self, Function.update_self]
    exact holds
  · rw [Function.update_of_ne same, Function.update_of_ne same, Function.update_of_ne same]
    exact sound table'

theorem delKey_sound {t : Tables} {c : Contents} (sound : Sound crc32hash t c) {table : Char}
    (some_chains : residentTable table ≠ 0) {key : CString} {memory : List Char}
    (hashed : key.chars ≠ [] →
      ddbHashRegister crc32hash memory (residentTable table) = hashOf crc32hash table key) :
    Sound crc32hash (ddbDelKey crc32hash t table key memory).2
        (Function.update c table (Function.update (c table) key none)) ∧
      (resident (ddbDelKey crc32hash t table key memory).2 table).length ≤ (resident t table).length := by
  have holds := sound table
  cases there : (t.dataTable table (ddbHashRegister crc32hash memory (residentTable table))).any
      fun e => e.key = key with
  | false =>
    have absent : c table key = none := by
      by_cases empty : key.chars = []
      · exact holds.content_of_empty empty
      · rw [hashed empty, any_eq_isSome, Option.isSome_eq_false_iff, Option.isNone_iff_eq_none] at there
        rw [← holds.found key, there, Option.map_none]
    simp only [ddbDelKey, there, Bool.false_eq_true, if_false]
    rw [← absent, Function.update_eq_self, Function.update_eq_self]
    exact ⟨sound, Nat.le_refl _⟩
  | true =>
    have some_key : key.chars ≠ [] := by
      intro empty
      rw [holds.absent_of_empty empty] at there
      cases there
    rw [hashed some_key] at there
    obtain ⟨erased, fewer⟩ := holds.erase some_chains there
    simp only [ddbDelKey, hashed some_key, there, if_true]
    refine ⟨sound.update erased _ rfl rfl, ?_⟩
    simp only [resident, Function.update_self]
    omega

theorem addKey_sound {t : Tables} {c : Contents} (sound : Sound crc32hash t c) {table : Char}
    (some_chains : residentTable table ≠ 0) {key : CString} (lower_key : lower key = key)
    (some_key : key.chars ≠ []) (content : CString) {memory : List Char}
    (hashed : ddbHashRegister crc32hash memory (residentTable table) = hashOf crc32hash table key)
    (room : (resident t table).length + 1 < 2 ^ 32) :
    Sound crc32hash (ddbAddKey crc32hash t table key content memory).2
      (Function.update c table (Function.update (c table) key (some content))) := by
  obtain ⟨erased, fewer⟩ := delKey_sound sound some_chains fun _ => hashed
  simp only [ddbAddKey, ddbHashRegister_append some_key]
  generalize (ddbDelKey crc32hash t table key memory).2 = t₁ at erased fewer ⊢
  have holds := erased table
  rw [Function.update_self] at holds
  have pushed := holds.push some_chains (Function.update_self ..) lower_key some_key content
    (by unfold resident at fewer room; omega)
  rw [Function.update_idem] at pushed
  have sound' := erased.update pushed { t₁ with
    dataTable := Function.update t₁.dataTable table
      (pushFront (t₁.dataTable table) (hashOf crc32hash table key) ⟨key, content⟩)
    countTable := Function.update t₁.countTable table (t₁.countTable table + 1) } rfl rfl
  rwa [Function.update_idem] at sound'

section
variable {me : CString}

theorem step_sound {t : Tables} {c : Contents} (sound : Sound crc32hash t c) {call : Call}
    (storable : call.storable me t) : Sound crc32hash (step crc32hash me t call) (c.step me call) := by
  cases call with
  | dropMemory table => exact sound.update Holds.empty _ rfl rfl
  | newRegister table r =>
    simp only [step, ddbNewRegister, Contents.step]
    by_cases kept : keeps me table r = true
    · rw [if_pos kept, if_pos kept]
      have some_chains : residentTable table ≠ 0 := by
        simp only [keeps, decide_eq_true_eq] at kept
        exact kept.1
      simp only [keepRegister]
      cases content : r.content with
      | none =>
        refine (delKey_sound ?_ some_chains fun some_key => ddbHashRegister_copyTo some_key _ table).1
        exact sound
      | some text =>
        obtain ⟨some_key, room⟩ := storable kept (by rw [content]; rfl)
        have some_key := lower_chars_ne_nil some_key
        exact addKey_sound (t := { t with
            hashTable := _, idTable := _, keytemp := copyTo t.keytemp (lower r.key) })
          sound some_chains (lower_lower r.key) some_key text (ddbHashRegister_copyTo some_key _ table) room
    · rw [if_neg kept, if_neg kept]
      exact sound

theorem run_sound {t : Tables} {c : Contents} (run : Run crc32hash me (Call.storable me) t c) :
    Sound crc32hash t c := by
  induction run with
  | init => exact fun _ => Holds.empty
  | call run storable sound => exact step_sound sound storable

theorem findKey_content {t : Tables} {c : Contents} (sound : Sound crc32hash t c) (buffer : List Char)
    (table : Char) (key : CString) :
    (ddbFindKey crc32hash t buffer table key).map Entry.content = c table (lower key) := by
  have holds := sound table
  unfold ddbFindKey
  by_cases none_chains : residentTable table = 0
  · rw [if_pos none_chains, Option.map_none, ← holds.found, lookup, holds.alone none_chains]
    rfl
  · rw [if_neg none_chains]
    have same_test : ∀ i, (t.dataTable table i).find? (fun e => e.key.foldEq (lower key)) =
        (t.dataTable table i).find? fun e => e.key = lower key := by
      intro i
      apply List.find?_congr
      intro e mem
      rw [Bool.eq_iff_iff, foldEq_lower (holds.lowered i e mem) (lower_lower key), decide_eq_true_iff]
    rw [same_test]
    by_cases empty : (lower key).chars = []
    · have absent := holds.absent_of_empty empty
        (ddbHashRegister crc32hash (copyTo buffer (lower key)) (residentTable table))
      rw [holds.content_of_empty empty, Option.map_eq_none_iff, List.find?_eq_none]
      simpa using absent
    · rw [ddbHashRegister_copyTo empty, ← holds.found]
      rfl

/-- In every state reached without an empty key being put in: the keys in memory are in
lower case and distinct, each in the chain of its hash, the counter is their number, and a
key is found with the content of the last register for it that was meant for this server. -/
theorem run_resident {t : Tables} {c : Contents} (run : Run crc32hash me (Call.storable me) t c) (table : Char) :
    (∀ e ∈ resident t table, lower e.key = e.key) ∧
    ((resident t table).map Entry.key).Nodup ∧
    (∀ i, ∀ e ∈ t.dataTable table i, i = ddbHashRegister crc32hash e.key.chars (residentTable table)) ∧
    (t.countTable table).toNat = (resident t table).length ∧
    ∀ buffer key, (ddbFindKey crc32hash t buffer table key).map Entry.content = c table (lower key) := by
  have sound := run_sound run
  have holds := sound table
  refine ⟨fun e mem => ?_, holds.chained.nodup_entriesBelow _, fun i e mem => (holds.chained.placed i e mem).symm,
    holds.counted, fun buffer key => findKey_content sound buffer table key⟩
  obtain ⟨i, -, mem⟩ := List.mem_flatMap.mp mem
  exact holds.lowered i e mem

end

end

section
variable {crc32hash : Nat → Nat} {me : CString}

theorem keeps_starMask {table : Char} {r : Register} (some_chains : residentTable table ≠ 0)
    (all : r.mask = starMask) : keeps me table r = true := by
  simp [keeps, some_chains, all, isForUs_star]

theorem step_starMask {t : Tables} {table : Char} {r : Register} (some_chains : residentTable table ≠ 0)
    (all : r.mask = starMask) : step crc32hash me t (.newRegister table r) = keepRegister crc32hash { t with
      hashTable := Function.update t.hashTable table (ddbHashCalculate (registerText table r) (t.hashTable table))
      idTable := Function.update t.idTable table r.id } table r := by
  rw [step, ddbNewRegister, if_pos (keeps_starMask some_chains all)]

end

theorem resident_empty (table : Char) : resident {} table = [] := by simp [resident, entriesBelow]

def keyZz : CString := ⟨['z', 'z'], by decide, by decide⟩
theorem no_bytes : ∀ c ∈ ([] : List Char), c.toNat < 256 := fun _ mem => (List.not_mem_nil mem).elim

def noKey : CString := ⟨[], List.not_mem_nil, no_bytes⟩
def textA : CString := ⟨['a'], by decide, by decide⟩
def textB : CString := ⟨['b'], by decide, by decide⟩

/-- A bot is registered as `zz` and found as `ZZ`. -/
theorem run_resident_bot : ∃ t c, Run crc32Table textA (Call.storable textA) t c ∧
    (ddbFindKey crc32Table t [] 'b' ⟨['Z', 'Z'], by decide, by decide⟩).map Entry.content = some textB := by
  have run := @Run.call crc32Table textA (Call.storable textA) _ _
    (.newRegister 'b' ⟨1, starMask, keyZz, some textB⟩) .init
    fun _ _ => ⟨by decide, by simp [resident_empty]⟩
  refine ⟨_, _, run, ((run_resident run 'b').2.2.2.2 [] _).trans ?_⟩
  have kept : keeps textA 'b' ⟨1, starMask, keyZz, some textB⟩ = true := keeps_starMask (by decide) rfl
  simp only [Contents.step, if_pos kept]
  decide +kernel

/-- Two registers with an empty key both stay: what is read behind the key, the rest of an
older key and the contents, sends them to different chains. -/
theorem run_not_resident : ∃ t c, Run crc32Table textA (fun _ _ => True) t c ∧
    ¬ ((resident t 'b').map Entry.key).Nodup := by
  have first := @Run.call crc32Table textA (fun _ _ => True) _ _
    (.newRegister 'b' ⟨1, starMask, keyZz, some textA⟩) .init trivial
  have second := @Run.call _ _ _ _ _ (.newRegister 'b' ⟨2, starMask, noKey, some textA⟩) first trivial
  have third := @Run.call _ _ _ _ _ (.newRegister 'b' ⟨3, starMask, noKey, some textB⟩) second trivial
  refine ⟨_, _, third, ?_⟩
  rw [step_starMask (by decide) rfl, step_starMask (by decide) rfl, step_starMask (by decide) rfl]
  decide +kernel

end Ircd.Ddb

import Ircd.Ddb.Resident

/-! The counter of all registers in memory, `ddbCount`.

`ddb_add_key` and `ddb_del_key` keep it along with the counter of the table;
`ddb_drop_memory` clears the latter only.
-/

set_option autoImplicit false

namespace Ircd.Ddb
open Ircd.Library Ircd.Match Ircd.Text

def tableNames : List Char :=
  ['a', 'b', 'c', 'd', 'e', 'f', 'g', 'h', 'i', 'j', 'k', 'l', 'm', 'n', 'o', 'p', 'q', 'r', 's', 't', 'u', 'v',
    'w', 'x', 'y', 'z']

def registersInMemory (t : Tables) : Nat := (tableNames.map fun table => (resident t table).length).sum

section
variable (crc32hash : Nat → Nat) (me : CString)

def stepAll (t : Tables) (calls : List Call) : Tables := calls.foldl (step crc32hash me) t

def Call.uncounted (t : Tables) : Call → Nat
  | .newRegister _ _ => 0
  | .dropMemory table => (resident t table).length

/-- Every drop of the sequence finds a table that has nothing in memory. -/
def DropsNothing : Tables → List Call → Prop
  | _, [] => True
  | t, call :: calls => call.uncounted t = 0 ∧ DropsNothing (step crc32hash me t call) calls

end

theorem sum_map_update {names : List Char} (distinct : names.Nodup) (f : Char → Nat) {table : Char}
    (there : table ∈ names) (n : Nat) :
    (names.map (Function.update f table n)).sum + f table = (names.map f).sum + n := by
  induction names with
  | nil => cases there
  | cons name names ih =>
    have fresh := (List.nodup_cons.mp distinct).1
    rw [List.map_cons, List.map_cons, List.sum_cons, List.sum_cons]
    by_cases here : name = table
    · subst here
      -- The rest of the names does not see the update.
      have same : names.map (Function.update f name n) = names.map f := by
        apply List.map_congr_left
        intro other mem
        apply Function.update_of_ne
        rintro rfl
        exact fresh mem
      rw [same, Function.update_self]
      omega
    · have rest := ih (List.nodup_cons.mp distinct).2 ((List.mem_cons.mp there).resolve_left (Ne.symm here))
      rw [Function.update_of_ne here]
      omega

theorem mem_tableNames {table : Char} (some_chains : residentTable table ≠ 0) : table ∈ tableNames := by
  revert some_chains
  unfold residentTable
  split <;> intro some_chains <;> first | decide | exact absurd rfl some_chains

theorem registersInMemory_update (t t' : Tables) {table : Char} (there : table ∈ tableNames)
    (others : ∀ other, other ≠ table → t'.dataTable other = t.dataTable other) :
    registersInMemory t' + (resident t table).length = registersInMemory t + (resident t' table).length := by
  have lengths : (fun name => (resident t' name).length) =
      Function.update (fun name => (resident t name).length) table (resident t' table).length := by
    funext name
    by_cases here : name = table
    · rw [here, Function.update_self]
    · rw [Function.update_of_ne here, resident, resident, others name here]
  unfold registersInMemory
  rw [lengths]
  exact sum_map_update (by decide) _ there _

section
variable (crc32hash : Nat → Nat) (me : CString)

theorem ddbHashRegister_lt {table : Char} (some_chains : residentTable table ≠ 0) (memory : List Char) :
    ddbHashRegister crc32hash memory (residentTable table) < residentTable table := by
  have below : ddbHashRegister crc32hash memory (residentTable table) ≤ residentTable table - 1 := Nat.and_le_right
  omega

theorem ddbDelKey_count (t : Tables) {table : Char} (some_chains : residentTable table ≠ 0) (key : CString)
    (memory : List Char) :
    (ddbDelKey crc32hash t table key memory).2.ddbCount + registersInMemory t =
      t.ddbCount + registersInMemory (ddbDelKey crc32hash t table key memory).2 := by
  have inside := ddbHashRegister_lt crc32hash some_chains memory
  cases found : (t.dataTable table (ddbHashRegister crc32hash memory (residentTable table))).any
      fun e => e.key = key with
  | false => simp only [ddbDelKey, found, Bool.false_eq_true, if_false]
  | true =>
    obtain ⟨e, mem_e, key_e⟩ := List.any_eq_true.mp found
    have shorter := List.length_eraseP_of_mem (p := fun e : Entry => e.key = key) mem_e key_e
    have some_entry := List.length_pos_of_mem mem_e
    have fewer := length_entriesBelow_update (t.dataTable table) inside
      ((t.dataTable table (ddbHashRegister crc32hash memory (residentTable table))).eraseP fun e => e.key = key)
    simp only [ddbDelKey, found, if_true]
    have sums := registersInMemory_update t ({ t with
        dataTable := Function.update t.dataTable table (eraseFirst (t.dataTable table)
          (ddbHashRegister crc32hash memory (residentTable table)) fun e => e.key = key)
        countTable := Function.update t.countTable table (t.countTable table - 1)
        ddbCount := t.ddbCount - 1 })
      (mem_tableNames some_chains) fun other ne => Function.update_of_ne ne _ _
    simp only [resident, Function.update_self, eraseFirst] at sums ⊢
    omega

theorem ddbAddKey_count (t : Tables) {table : Char} (some_chains : residentTable table ≠ 0) (key content : CString)
    (memory : List Char) :
    (ddbAddKey crc32hash t table key content memory).2.ddbCount + registersInMemory t =
      t.ddbCount + registersInMemory (ddbAddKey crc32hash t table key content memory).2 := by
  have deleted := ddbDelKey_count crc32hash t some_chains key memory
  simp only [ddbAddKey]
  generalize (ddbDelKey crc32hash t table key memory).2 = t₁ at deleted ⊢
  have inside := ddbHashRegister_lt crc32hash some_chains (key.chars ++ nul :: content.chars)
  generalize ddbHashRegister crc32hash (key.chars ++ nul :: content.chars) (residentTable table) = hashi
    at inside ⊢
  have more := length_entriesBelow_update (t₁.dataTable table) inside (⟨key, content⟩ :: t₁.dataTable table hashi)
  have sums := registersInMemory_update t₁ ({ t₁ with
      dataTable := Function.update t₁.dataTable table (pushFront (t₁.dataTable table) hashi ⟨key, content⟩)
      countTable := Function.update t₁.countTable table (t₁.countTable table + 1)
      ddbCount := t₁.ddbCount + 1 })
    (mem_tableNames some_chains) fun other ne => Function.update_of_ne ne _ _
  rw [List.length_cons] at more
  simp only [resident, Function.update_self, pushFront] at sums ⊢
  omega

theorem keepRegister_count (t : Tables) {table : Char} (some_chains : residentTable table ≠ 0) (r : Register) :
    (keepRegister crc32hash t table r).ddbCount + registersInMemory t =
      t.ddbCount + registersInMemory (keepRegister crc32hash t table r) := by
  simp only [keepRegister]
  cases r.content with
  | none =>
    exact ddbDelKey_count crc32hash { t with keytemp := copyTo t.keytemp (lower r.key) } some_chains
      (lower r.key) _
  | some text =>
    exact ddbAddKey_count crc32hash { t with keytemp := copyTo t.keytemp (lower r.key) } some_chains
      (lower r.key) text _

theorem registersInMemory_drop (t : Tables) (table : Char) :
    registersInMemory (ddbDropMemory t table) + (resident t table).length = registersInMemory t := by
  have dropped : resident (ddbDropMemory t table) table = [] := by
    simp [resident, ddbDropMemory, entriesBelow]
  by_cases some_chains : residentTable table = 0
  · -- A table without chains has nothing in memory, and no other table changes.
    have nothing : resident t table = [] := by simp [resident, some_chains, entriesBelow]
    have same : ∀ name, resident (ddbDropMemory t table) name = resident t name := by
      intro name
      by_cases here : name = table
      · rw [here, dropped, nothing]
      · simp only [resident, ddbDropMemory, Function.update_of_ne here]
    simp only [registersInMemory, same, nothing, List.length_nil, Nat.add_zero]
  · have sums := registersInMemory_update t (ddbDropMemory t table) (mem_tableNames some_chains)
      fun other ne => Function.update_of_ne ne _ _
    rw [dropped, List.length_nil, Nat.add_zero] at sums
    exact sums

/-- A call moves the counter away from the registers in memory by what it leaves uncounted. -/
theorem step_count (t : Tables) (call : Call) :
    (step crc32hash me t call).ddbCount - registersInMemory (step crc32hash me t call) =
      t.ddbCount - registersInMemory t + call.uncounted t := by
  cases call with
  | dropMemory table =>
    have sums := registersInMemory_drop t table
    have kept : (ddbDropMemory t table).ddbCount = t.ddbCount := rfl
    simp only [step, Call.uncounted]
    omega
  | newRegister table r =>
    simp only [step, ddbNewRegister, Call.uncounted]
    by_cases kept : keeps me table r = true
    · have some_chains : residentTable table ≠ 0 := by
        simp only [keeps, decide_eq_true_eq] at kept
        exact kept.1
      rw [if_pos kept]
      -- The hash and the id, which are set first, are not counted.
      have counted := keepRegister_count crc32hash { t with
        hashTable := Function.update t.hashTable table
          (ddbHashCalculate (registerText table r) (t.hashTable table))
        idTable := Function.update t.idTable table r.id } some_chains r
      simp only [registersInMemory, resident] at counted ⊢
      omega
    · rw [if_neg kept]
      simp only [registersInMemory, resident, Nat.cast_zero, add_zero]

theorem stepAll_count (t : Tables) (calls : List Call) :
    t.ddbCount - registersInMemory t ≤
        (stepAll crc32hash me t calls).ddbCount - registersInMemory (stepAll crc32hash me t calls) ∧
      ((stepAll crc32hash me t calls).ddbCount - registersInMemory (stepAll crc32hash me t calls) =
        t.ddbCount - registersInMemory t ↔ DropsNothing crc32hash me t calls) := by
  induction calls generalizing t with
  | nil => exact ⟨le_refl _, ⟨fun _ => trivial, fun _ => rfl⟩⟩
  | cons call calls ih =>
    have one := step_count crc32hash me t call
    obtain ⟨grows, kept⟩ := ih (step crc32hash me t call)
    have run : stepAll crc32hash me t (call :: calls) =
        stepAll crc32hash me (step crc32hash me t call) calls := rfl
    rw [run]
    refine ⟨by omega, ?_⟩
    rw [DropsNothing, ← kept]
    constructor
    · intro same
      exact ⟨by omega, by omega⟩
    · rintro ⟨nothing, same⟩
      omega

/-- After any sequence of calls `ddbCount` is the number of registers in memory exactly if
no drop of the sequence found a register. -/
theorem ddbCount_iff (calls : List Call) :
    (stepAll crc32hash me {} calls).ddbCount = registersInMemory (stepAll crc32hash me {} calls) ↔
      DropsNothing crc32hash me {} calls := by
  have start : registersInMemory {} = 0 := by
    simp [registersInMemory, resident_empty]
  have zero : ({} : Tables).ddbCount = 0 := rfl
  rw [← (stepAll_count crc32hash me {} calls).2, start, zero]
  omega

end

/-- A table with one register is dropped, and the register stays in `ddbCount`. -/
theorem ddbCount_drifts : ∃ calls, (stepAll crc32Table textA {} calls).ddbCount ≠
    registersInMemory (stepAll crc32Table textA {} calls) := by
  refine ⟨[.newRegister 'b' ⟨1, starMask, keyZz, some textA⟩, .dropMemory 'b'], fun same => ?_⟩
  have start : registersInMemory {} = 0 := by
    simp [registersInMemory, resident_empty]
  have drift := (stepAll_count crc32Table textA {}
    [.newRegister 'b' ⟨1, starMask, keyZz, some textA⟩, .dropMemory 'b']).2.mp (by
      rw [same, start]
      exact Int.sub_self _)
  have nothing := drift.2.1
  rw [step_starMask (by decide) rfl] at nothing
  revert nothing
  decide +kernel

end Ircd.Ddb

import Ircd.Ddb.Hash
import Ircd.Library.HashChains
import Ircd.Match.Collapse
import Ircd.Text.Strhash

/-! The resident tables of `ddb.c`: `ddb_new_register`, `ddb_drop_memory` and `ddb_find_key`.

The hash of a key is taken where the key stands in memory: in the static buffer `keytemp`
when a register is looked for, and in the new entry, with the content right behind the
key, when it is put in. `strhash` reads behind the end of an empty string, so the two
agree for every other key.
-/

set_option autoImplicit false

namespace Ircd.Ddb
open Ircd.Library Ircd.Match Ircd.Text

structure Entry where
  key : CString
  content : CString

/-- `ddb_resident_table`, as `ddb_init` fills it. -/
def residentTable : Char → Nat
  | 'b' => 256
  | 'c' => 4096
  | 'd' => 4096
  | 'e' => 512
  | 'f' => 256
  | 'i' => 512
  | 'j' => 512
  | 'l' => 256
  | 'm' => 256
  | 'n' => 32768
  | 'o' => 256
  | 'p' => 256
  | 'q' => 256
  | 'r' => 256
  | 'u' => 256
  | 'v' => 4096
  | 'w' => 256
  | _ => 0

/-- The arrays by table, the number of registers in memory and the buffer `keytemp` of `ddb_new_register`. -/
structure Tables where
  idTable : Char → Nat := fun _ => 0
  countTable : Char → UInt32 := fun _ => 0
  hashTable : Char → HashPair := fun _ => (0, 0)
  dataTable : Char → Nat → List Entry := fun _ _ => []
  ddbCount : Int := 0
  keytemp : List Char := []

def lower (s : CString) : CString where
  chars := s.chars.map toLower
  nul_free := by
    intro mem
    obtain ⟨c, mem_c, folded⟩ := List.mem_map.mp mem
    exact s.nul_free (toLower_eq_nul.mp folded ▸ mem_c)
  byte := by
    intro c mem
    obtain ⟨d, mem_d, rfl⟩ := List.mem_map.mp mem
    exact toLower_byte (s.byte d mem_d)

def copyTo (buffer : List Char) (s : CString) : List Char :=
  if s.chars.length + 1 > buffer.length then s.chars ++ [nul]
  else s.chars ++ nul :: buffer.drop (s.chars.length + 1)

section
variable (crc32hash : Nat → Nat) (me : CString)

/-- `ddb_hash_register`, given the memory from the key on. -/
def ddbHashRegister (memory : List Char) (size : Nat) : Nat := strhash crc32hash memory &&& (size - 1)

/-- `ddb_del_key` for the key that stands in `memory`; whether it was there. -/
def ddbDelKey (t : Tables) (table : Char) (key : CString) (memory : List Char) : Bool × Tables :=
  let hashi := ddbHashRegister crc32hash memory (residentTable table)
  if (t.dataTable table hashi).any fun e => e.key = key then
    (true, { t with
      dataTable := Function.update t.dataTable table
        (eraseFirst (t.dataTable table) hashi fun e => e.key = key)
      countTable := Function.update t.countTable table (t.countTable table - 1)
      ddbCount := t.ddbCount - 1 })
  else (false, t)

def ddbAddKey (t : Tables) (table : Char) (key content : CString) (memory : List Char) : Bool × Tables :=
  let (delete, t) := ddbDelKey crc32hash t table key memory
  let hashi := ddbHashRegister crc32hash (key.chars ++ nul :: content.chars) (residentTable table)
  (delete, { t with
    dataTable := Function.update t.dataTable table (pushFront (t.dataTable table) hashi ⟨key, content⟩)
    countTable := Function.update t.countTable table (t.countTable table + 1)
    ddbCount := t.ddbCount + 1 })

/-- The part of `ddb_new_register` that keeps the register in memory. -/
def keepRegister (t : Tables) (table : Char) (r : Register) : Tables :=
  let key := lower r.key
  let keytemp := copyTo t.keytemp key
  let t := { t with keytemp := keytemp }
  match r.content with
  | some content => (ddbAddKey crc32hash t table key content keytemp).2
  | none => (ddbDelKey crc32hash t table key keytemp).2

def keeps (table : Char) (r : Register) : Bool := residentTable table ≠ 0 ∧ isForUs me r.mask

/-- `ddb_new_register`, apart from the file and the events. -/
def ddbNewRegister (t : Tables) (table : Char) (r : Register) : Tables :=
  let t := { t with
    hashTable := Function.update t.hashTable table (ddbHashCalculate (registerText table r) (t.hashTable table))
    idTable := Function.update t.idTable table r.id }
  if keeps me table r then keepRegister crc32hash t table r else t

def ddbDropMemory (t : Tables) (table : Char) : Tables :=
  { t with
    idTable := Function.update t.idTable table 0
    countTable := Function.update t.countTable table 0
    hashTable := Function.update t.hashTable table (0, 0)
    dataTable := Function.update t.dataTable table fun _ => [] }

/-- `ddb_find_key`, with the buffer that `ddb_find_registry_table` copies the key to. -/
def ddbFindKey (t : Tables) (buffer : List Char) (table : Char) (key : CString) : Option Entry :=
  if residentTable table = 0 then none
  else
    let k := lower key
    let hashi := ddbHashRegister crc32hash (copyTo buffer k) (residentTable table)
    (t.dataTable table hashi).find? fun e => e.key.foldEq k

def resident (t : Tables) (table : Char) : List Entry := entriesBelow (residentTable table) (t.dataTable table)

inductive Call where
  | newRegister (table : Char) (r : Register)
  | dropMemory (table : Char)

def step (t : Tables) : Call → Tables
  | .newRegister table r => ddbNewRegister crc32hash me t table r
  | .dropMemory table => ddbDropMemory t table

/-- What the tables are for: the content last registered for a key in lower case. -/
abbrev Contents := Char → CString → Option CString

def Contents.step (c : Contents) : Call → Contents
  | .newRegister table r =>
    if keeps me table r then Function.update c table (Function.update (c table) (lower r.key) r.content) else c
  | .dropMemory table => Function.update c table fun _ => none

/-- The register has a key, or is not put in, and there is room for one more in the counter. -/
def Call.storable (t : Tables) : Call → Prop
  | .newRegister table r =>
    keeps me table r → r.content.isSome → r.key.chars ≠ [] ∧ (resident t table).length + 1 < 2 ^ 32
  | .dropMemory _ => True

/-- The tables reached by calls that all meet a condition, with the contents they should have. -/
inductive Run (meets : Tables → Call → Prop) : Tables → Contents → Prop
  | init : Run meets {} fun _ _ => none
  | call {t : Tables} {c : Contents} {call : Call} (run : Run meets t c) (met : meets t call) :
      Run meets (step crc32hash me t call) (c.step me call)

end

end Ircd.Ddb

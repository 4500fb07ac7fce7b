import Ircd.Ddb.Burst
import Ircd.Ddb.HashCheck

/-! A server with its table files: `ms_db` takes registers from a hub, and `ddb_table_init` reads a table
back when the server starts.
-/

set_option autoImplicit false

namespace Ircd.Ddb
open Ircd.Match Ircd.Text Ircd.Numnicks

/-- The parameters of a DB message behind its source, as the parser splits a line: only the last one may
be empty or have blanks. -/
structure Message where
  fromHub : Bool
  parv : List CString
  middle : ∀ p ∈ parv.dropLast, p.chars ≠ [] ∧ ' ' ∉ p.chars
  line : ∀ p ∈ parv, OneLine p.chars
  short : (parv.map fun p => p.chars.length).sum ≤ 510

def tableOf (c : Char) : Option Char :=
  if 'a' ≤ c ∧ c ≤ 'z' then some c else if c = 'N' then some 'n' else none

def Message.register (m : Message) : Option (Char × Register) :=
  match m.parv with
  | mask :: number :: name :: key :: rest =>
    let id := (atol number.chars % 2 ^ 64).toNat
    match name.chars with
    | [c] => if id = 0 then none else (tableOf c).map fun table => (table, ⟨id, mask, key, rest.head?⟩)
    | _ => none
  | _ => none

/-- The tables in memory, the table files and the digits of each table in the file of the hashes. -/
structure Server where
  tables : Tables := {}
  files : Char → List Char := fun _ => []
  hashes : Char → List Char := fun _ => List.replicate 12 'A'

def hashDigits (hash : HashPair) : List Char := inttobase64 hash.1.toNat 6 ++ inttobase64 hash.2.toNat 6

def Server.hashWrite (s : Server) (table : Char) : Server :=
  { s with hashes := Function.update s.hashes table (hashDigits (s.tables.hashTable table)) }

def Server.hashRead (s : Server) (table : Char) : HashPair :=
  (UInt32.ofNat (base64toint ((s.hashes table).take 6)), UInt32.ofNat (base64toint ((s.hashes table).drop 6)))

def Server.drop (s : Server) (table : Char) : Server :=
  Server.hashWrite { s with
    tables := ddbDropMemory s.tables table
    files := Function.update s.files table [] } table

/-- `ddb_compact`: nothing is written for a register that packs the table. -/
def Server.compact (s : Server) (table : Char) (id : Nat) : Server :=
  Server.hashWrite { s with tables := { s.tables with idTable := Function.update s.tables.idTable table id } } table

def stringOf (text : List Char) : CString where
  chars := (text.takeWhile (· ≠ nul)).filter (·.toNat < 256)
  nul_free := fun mem => by
    have kept := List.mem_takeWhile_imp (List.mem_of_mem_filter mem)
    simp at kept
  byte := fun _ mem => by simpa using (List.mem_filter.mp mem).2

/-- The register that `ddb_db_read` makes of a line; the `int` is passed on as an `unsigned long`. -/
def Row.register (row : Row) : Register :=
  ⟨(row.cid % 2 ^ 64).toNat, stringOf row.mask, stringOf row.key, row.content.map stringOf⟩

section
variable (crc32hash : Nat → Nat) (me : CString)

/-- `ddb_new_register` for a register from the network. -/
def Server.newRegister (s : Server) (table : Char) (r : Register) : Server :=
  Server.hashWrite { s with
    tables := ddbNewRegister crc32hash me s.tables table r
    files := Function.update s.files table (ddbDbWrite (s.files table) r) } table

/-- The register that `ms_db` takes of a message: it comes from a hub, with an id above those before. -/
def Server.taken (s : Server) (m : Message) : Option (Char × Register) :=
  m.register.filter fun (table, r) => m.fromHub && s.tables.idTable table < r.id

def packs (r : Register) : Bool := r.key.chars = ['*']

def Server.msDb (s : Server) (m : Message) : Server :=
  match s.taken m with
  | none => s
  | some (table, r) => if packs r then s.compact table r.id else s.newRegister crc32hash me table r

def accepted : Server → List Message → Char → List Register
  | _, [], _ => []
  | s, m :: messages, table =>
    let later := accepted (s.msDb crc32hash me m) messages table
    match s.taken m with
    | some (table', r) => if table' = table then r :: later else later
    | none => later

/-- `ddb_table_init`, if the read ends. A table that does not have its hash is dropped. -/
def ddbTableInit (s : Server) (table : Char) : Option Server := do
  let (rows, _) ← ddbDbRead (s.files table) false 0 0
  let read := rows.foldl (fun t row => ddbNewRegister crc32hash me t table row.register) (ddbDropMemory s.tables table)
  let s : Server := { s with tables := read }
  let s := if s.hashRead table ≠ read.hashTable table then s.drop table else s
  let s := s.hashWrite table
  if residentTable table ≠ 0 then
    some { s with tables := (ddbDelKey crc32hash s.tables table starMask ['*', nul]).2 }
  else some s

/-- A table is read back as it is in memory: its id, its hash, its counter and its contents. -/
def Reproduced (s : Server) (table : Char) : Prop :=
  ∃ read, ddbTableInit crc32hash me s table = some read ∧
    read.tables.idTable table = s.tables.idTable table ∧
    read.tables.hashTable table = s.tables.hashTable table ∧
    read.tables.countTable table = s.tables.countTable table ∧
    ∀ buffer key, ddbFindKey crc32hash read.tables buffer table key = ddbFindKey crc32hash s.tables buffer table key

end

end Ircd.Ddb

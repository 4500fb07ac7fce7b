import Ircd.Ddb.Counters
import Ircd.Ddb.Relay
import Ircd.Library.LogShipping

/-! A hub and a leaf.

`server_estab` is not the first to call `ddb_burst` for a link, so a leaf asks twice for each table. The second
request can find the faucet open although it asks for old registers: then the hub closes it again and tells the
leaf to drop the table. The requests of the hub are left out: the leaf has nothing that the hub does not have, and
a hub takes nothing from a leaf.
-/

set_option autoImplicit false

namespace Ircd.Ddb
open Ircd.Library Ircd.Match Ircd.Text

structure Replica where
  server : Server := {}
  log : Char → List Register := fun _ => []

section
variable (crc32hash : Nat → Nat) (me : CString)

def Replica.take (s : Replica) (m : Message) : Replica :=
  match s.server.taken m with
  | none => s
  | some (table, r) =>
    { server := s.server.msDb crc32hash me m, log := Function.update s.log table (s.log table ++ [r]) }

end

/-- `ddb_drop`, as the `D` of a hub asks for it. -/
def Replica.drop (s : Replica) (table : Char) : Replica :=
  { server := s.server.drop table, log := Function.update s.log table [] }

structure Numeric where
  chars : List Char
  unbroken : ' ' ∉ chars
  clean : Clean chars

structure Names where
  hub : CString
  leaf : CString
  yxx : Numeric

/-- The hub with the faucets of the leaf, the leaf, and what is on its way between them: each message and each
request with its table. -/
structure Network where
  hub : Replica := {}
  ddbOpen : UInt32 := 0
  leaf : Replica := {}
  toLeaf : List (Char × Reply) := []
  toHub : List (Char × List Char) := []

def Network.Open (n : Network) (table : Char) : Prop := n.ddbOpen &&& ddbMask table ≠ 0

instance decidableOpen (n : Network) (table : Char) : Decidable (n.Open table) :=
  inferInstanceAs (Decidable (_ ≠ _))

def dbText (source : Numeric) (text : List Char) : List Char := source.chars ++ ' ' :: ['D', 'B'] ++ ' ' :: text

def dbLine (source : Numeric) (text : List Char) : List Char := sentLine (dbText source text)

/-- `ddb_burst`; the table of the nicks, which comes first, is asked for as `2`. -/
def ddbBurst (s : Server) : List (Char × List Char) :=
  ('n' :: tableNames.filter (· ≠ 'n')).map fun table => (table, decimal (s.tables.idTable table))

def Message.tableName (m : Message) : Char := m.parv[2]?.elim nul fun name => peek name.chars

section
variable (crc32hash : Nat → Nat) (names : Names)

/-- The `B` and the `D` of `ms_db` on the leaf, which ask for more, its registers and its `H`. -/
def Replica.deliver (leaf : Replica) : Char × Reply → Replica × List (Char × List Char)
  | (_, .register line) =>
    match readMessage true line with
    | none => (leaf, [])
    | some m => (leaf.take crc32hash names.leaf m, [])
  | (table, .burst _) => (leaf, [(table, decimal (leaf.server.tables.idTable table))])
  | (table, .drop) =>
    let leaf := leaf.drop table
    (leaf, [(table, decimal (leaf.server.tables.idTable table))])
  | (_, .hash _) => (leaf, [])

def Names.addressed (table : Char) : Reply → Char × Reply
  | .register text => (table, .register (dbLine names.yxx text))
  | reply => (table, reply)

/-- `ms_db` on the hub for a register of another hub, which goes on to the leaf if its faucet is open. -/
def Network.register (n : Network) (source : Numeric) (m : Message) : Network :=
  match n.hub.server.taken m with
  | none => n
  | some (table, r) =>
    { n with
      hub := n.hub.take crc32hash names.hub m
      toLeaf := if n.Open table then
          n.toLeaf ++ [(table, .register (dbLine source (registerMessage m.tableName r)))]
        else n.toLeaf }

inductive LinkEvent where
  | link
  | register (fromHub : Bool) (source : Numeric) (line : List Char)
  | request (ddbBuf : List Char)
  | deliver

def Network.step (n : Network) : LinkEvent → Option Network
  | .link => some { n with
      ddbOpen := 0
      toLeaf := []
      toHub := ddbBurst n.leaf.server ++ ddbBurst n.leaf.server }
  | .register fromHub source line =>
    match readMessage fromHub line with
    | none => some n
    | some m => some (n.register crc32hash names source m)
  | .request ddbBuf =>
    match n.toHub with
    | [] => none
    | (table, parv4) :: rest =>
      let tables := n.hub.server.tables
      (joinRequest false n.ddbOpen (UInt64.ofNat (tables.idTable table)) (tables.hashTable table) ddbBuf
        (n.hub.server.files table) table parv4).map fun (ddbOpen, replies) =>
          { n with
            ddbOpen
            toLeaf := n.toLeaf ++ replies.map (names.addressed table)
            toHub := rest }
  | .deliver =>
    match n.toLeaf with
    | [] => none
    | item :: rest =>
      let (leaf, requests) := n.leaf.deliver crc32hash names item
      some { n with
        leaf
        toLeaf := rest
        toHub := n.toHub ++ requests }

/-- The networks that runs of allowed steps come to, from two servers without registers and without a link. -/
inductive Network.Reachable (allowed : Network → LinkEvent → Prop) : Network → Prop
  | start : Reachable allowed {}
  | step {n n' : Network} {event : LinkEvent} (before : Reachable allowed n) (fair : allowed n event)
      (goes : n.step crc32hash names event = some n') : Reachable allowed n'

def Network.delivered (n : Network) : Replica :=
  n.toLeaf.foldl (fun leaf item => (leaf.deliver crc32hash names item).1) n.leaf

def IsTable (table : Char) : Prop := 'a' ≤ table ∧ table ≤ 'z'

/-- Apart from the registers that pack a table, the leaf has a first part of the log of the hub; where the faucet
is open, all that is missing is on its way, and the next register of the hub goes after it. -/
structure Network.Replicated (n : Network) : Prop where
  applied : ∀ table, IsTable table → written (n.leaf.log table) <+: written (n.hub.log table)
  sent : ∀ table, IsTable table → n.Open table →
    written ((n.delivered crc32hash names).log table) = written (n.hub.log table)
  forwarded : ∀ (table : Char) (fromHub : Bool) (source : Numeric) (line : List Char) (m : Message) (r : Register),
    n.Open table → readMessage fromHub line = some m → n.hub.server.taken m = some (table, r) →
      ∃ n', n.step crc32hash names (.register fromHub source line) = some n' ∧ n'.Open table ∧
        n'.toLeaf = n.toLeaf ++ [(table, .register (dbLine source (registerMessage m.tableName r)))]

end

/-- A register that goes through all places as it is: its id is an `int`, its key is a word, and its lines in the
file and on the links are not too long. -/
structure Carried (names : Names) (source : Numeric) (r : Register) : Prop where
  id_int : r.id < 2 ^ 31
  key_word : MiddleWord r.key.chars
  relayed : (dbText source (registerMessage 'a' r)).length ≤ lineLen
  stored : packs r = false →
    (lineText r).length ≤ 501 ∧ (dbText names.yxx (registerMessage 'a' r)).length ≤ lineLen

def Network.Carries (names : Names) (n : Network) : LinkEvent → Prop
  | .register fromHub source line => ∀ m table r, readMessage fromHub line = some m →
      n.hub.server.taken m = some (table, r) → Carried names source r
  | _ => True

end Ircd.Ddb

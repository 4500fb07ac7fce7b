import Ircd.Users.Umodes
import Mathlib.Logic.Function.Basic

/-! Registered nicks and operators: what the records of the nick table and of the operators table
give to a user of this server, and what the events of the tables do.

The notices, the attached configuration and the size of the send queue are left out, and the server is
built without `DEBUGMODE`. What `client_set_privs` gives in `nickreg_set_modeprivs` is cleared again at once.
-/

set_option autoImplicit false

namespace Ircd.Users
open Ircd.Text

inductive Priv where
  | chanLimit | modeLchan | walkLchan | deopLchan | showInvis | showAllInvis | unlimitQuery | kill | localKill | rehash
  | restart | die | gline | localGline | jupe | localJupe | opmode | localOpmode | set | whox | badchan | localBadchan
  | seeChan | propagate | display | seeOpers | wideGline | listChan | forceOpmode | forceLocalOpmode | apassOpmode
  | walkChan | network | chanserv | hiddenViewer | whoisNotice | hideIdle | dbq
  deriving DecidableEq, Repr

/-- The global modes, the two local ones, and the mark of the OPER command. -/
inductive Flag where
  | mode (f : UFlag)
  | locop
  | servNotice
  | operByCmd
  deriving DecidableEq, Repr

/-- A user; `operHandler` is the handler of its messages, and `snomask` the mask of its server notices. -/
structure RegUser where
  flags : Flag → Bool
  privs : Priv → Bool
  operHandler : Bool
  snomask : UInt32

def RegUser.put (u : RegUser) (f : Flag) (value : Bool) : RegUser := { u with flags := Function.update u.flags f value }

def RegUser.clear (u : RegUser) (fs : List Flag) : RegUser := fs.foldl (fun u f => u.put f false) u

def RegUser.isAnOper (u : RegUser) : Bool := u.flags (.mode .oper) || u.flags .locop

def snoAll : UInt32 := 0x2ffff
def snoOper : UInt32 := 0x26000
def snoUser : UInt32 := snoAll &&& ~~~snoOper
def snoDefault : UInt32 := 0x604
def snoOperDefault : UInt32 := snoDefault ||| 0x1109

def RegUser.setSnomask (u : RegUser) (newmask : UInt32) : RegUser :=
  { u with snomask := newmask &&& if u.isAnOper then snoAll else snoUser }

/-- `userModeList`, with the two local modes. -/
def userModes : List (Flag × Char) :=
  [(.mode .oper, 'o'), (.locop, 'O'), (.mode .invisible, 'i'), (.mode .wallop, 'w'), (.servNotice, 's'),
    (.mode .deaf, 'd'), (.mode .chserv, 'k'), (.mode .debug, 'g'), (.mode .account, 'r'), (.mode .nickSuspend, 'S'),
    (.mode .admin, 'a'), (.mode .coder, 'C'), (.mode .helper, 'h'), (.mode .servicesBot, 'B'), (.mode .userBot, 'b'),
    (.mode .hiddenHost, 'x'), (.mode .msgOnlyReg, 'R'), (.mode .stripColour, 'c'), (.mode .noChan, 'n'),
    (.mode .commonChansOnly, 'q'), (.mode .viewHiddenHost, 'X'), (.mode .ssl, 'z'), (.mode .noIdle, 'I'),
    (.mode .whoisNotice, 'N')]

/-- A record of the nick table, as `ddb_nick_get` reads it. -/
structure DdbNick where
  flags : UInt32
  automodes : Option (List Char)

def ddbNickForbid : UInt32 := 1
def ddbNickSuspend : UInt32 := 2

def lnot (x : UInt32) : UInt32 := if x = 0 then 1 else 0

/-- The fields of a record of the operators table, as they are written. -/
structure OperFields where
  modes : Option (List Char)
  privs : Option UInt64

structure DdbOperator where
  nick : List Char
  modes : Option (List Char)
  privsFlags : UInt64
  privs : Priv → Bool

def privsFlagList : List (Priv × UInt64) :=
  [(.chanLimit, 0x1), (.modeLchan, 0x2), (.walkLchan, 0x4), (.deopLchan, 0x8), (.showInvis, 0x10), (.showAllInvis, 0x20),
    (.unlimitQuery, 0x40), (.kill, 0x80), (.localKill, 0x100), (.rehash, 0x200), (.restart, 0x400), (.die, 0x800),
    (.gline, 0x1000), (.localGline, 0x2000), (.jupe, 0x4000), (.localJupe, 0x8000), (.opmode, 0x10000),
    (.localOpmode, 0x20000), (.set, 0x40000), (.whox, 0x80000), (.badchan, 0x100000), (.localBadchan, 0x200000),
    (.seeChan, 0x400000), (.propagate, 0x800000), (.display, 0x1000000), (.seeOpers, 0x2000000), (.wideGline, 0x4000000),
    (.listChan, 0x8000000), (.forceOpmode, 0x10000000), (.forceLocalOpmode, 0x20000000), (.apassOpmode, 0x40000000),
    (.walkChan, 0x80000000), (.network, 0x100000000), (.chanserv, 0x200000000), (.hiddenViewer, 0x400000000),
    (.whoisNotice, 0x800000000), (.hideIdle, 0x1000000000), (.dbq, 0x2000000000)]

def maskPrivs (mask : UInt64) (priv : Priv) : Bool := privsFlagList.any fun entry => entry.1 = priv && mask &&& entry.2 ≠ 0

/-- `ddb_opers_get`, with the record that it returned last. The statement for the mask evaluates the
field and stores nothing, so that the mask is what it was cleared to. -/
def ddbOpersGet (ddboptr : Option DdbOperator) (key : List Char) (content : OperFields) (cache : Bool) : DdbOperator :=
  let read : DdbOperator := ⟨key, content.modes, 0, maskPrivs 0⟩
  match ddboptr with
  | some last => if cache ∧ ircdStrcmp last.nick key = 0 then last else read
  | none => read

structure Tallied where
  user : RegUser
  opers : UInt32

def isBlank (c : Char) : Bool := c = ' ' || c = '\t'

/-- The letters of automodes that `nickreg_set_modes` ignores. -/
def ignoredModes : List Char := ['r', 'S', 'a', 'C', 'h', 'o', 'O', 'B']

def autoLetter (u : RegUser × Bool) (c : Char) : RegUser × Bool :=
  if c = '+' then (u.1, true)
  else if c = '-' then (u.1, false)
  else if c ∈ ignoredModes then u
  else (userModes.foldl (fun u entry => if entry.2 = c then u.put entry.1 true else u) u.1, u.2)

def nickregSetModes (u : RegUser) (ddbnptr : DdbNick) : RegUser :=
  if lnot ddbnptr.flags &&& ddbNickSuspend ≠ 0 then
    let u := u.put (.mode .account) true
    match ddbnptr.automodes with
    | some automodes => ((automodes.takeWhile fun c => !isBlank c).foldl autoLetter (u, true)).1
    | none => u
  else u.put (.mode .nickSuspend) true

def nickregClearMode (u : RegUser) : RegUser :=
  u.clear [.mode .account, .mode .nickSuspend, .mode .msgOnlyReg, .mode .noChan, .mode .commonChansOnly, .mode .userBot]

def operLetter (st : Tallied × Bool) (c : Char) : Tallied × Bool :=
  if c = '+' then (st.1, true)
  else if c = '-' then (st.1, false)
  else if !st.2 then st
  else if c = 'a' then ({ st.1 with user := st.1.user.put (.mode .admin) true }, st.2)
  else if c = 'C' then ({ st.1 with user := st.1.user.put (.mode .coder) true }, st.2)
  else if c = 'h' then ({ st.1 with user := st.1.user.put (.mode .helper) true }, st.2)
  else if c = 'o' then (⟨st.1.user.put (.mode .oper) true, st.1.opers + 1⟩, st.2)
  else if c = 'O' then ({ st.1 with user := st.1.user.put .locop true }, st.2)
  else if c = 'B' then ({ st.1 with user := st.1.user.put (.mode .servicesBot) true }, st.2)
  else st

def settlePrivs (privs : Priv → Bool) : Priv → Bool :=
  if privs .propagate then Function.update privs .display true
  else fun priv => privs priv && !([.kill, .gline, .jupe, .opmode, .badchan] : List Priv).contains priv

def RegUser.grant (u : RegUser) (privs : Priv → Bool) : RegUser :=
  if u.isAnOper then
    let u := ((u.put (.mode .wallop) true).put (.mode .debug) true).put .servNotice true
    { u.setSnomask (snoOperDefault ||| u.snomask) with operHandler := true, privs := settlePrivs privs }
  else u

def DdbOperator.letters (ddboptr : DdbOperator) : List Char := (ddboptr.modes.getD []).takeWhile fun c => !isBlank c

def nickregSetModeprivs (st : Tallied) (ddboptr : DdbOperator) : Tallied :=
  let st := (ddboptr.letters.foldl operLetter (st, true)).1
  { st with user := st.user.grant ddboptr.privs }

structure OperOnly where
  wallops : Bool
  debug : Bool
  snotices : Bool

def nickregClearModeprivs (features : OperOnly) (st : Tallied) : Tallied :=
  let u := st.user.clear [.mode .admin, .mode .coder, .mode .helper, .mode .servicesBot]
  if !u.flags .operByCmd then
    let u := u.put .locop false
    let opers := if u.flags (.mode .oper) then st.opers - 1 else st.opers
    let u := if features.wallops then u.put (.mode .wallop) false else u
    let u := if features.debug then u.put (.mode .debug) false else u
    let u := if features.snotices then (u.put .servNotice false).setSnomask 0 else u
    ⟨{ u with operHandler := false, privs := fun _ => false }, opers⟩
  else
    -- no privilege is left that would keep one of these modes
    let u := u.clear [.mode .viewHiddenHost, .mode .chserv, .mode .noIdle, .mode .whoisNotice]
    ⟨{ u with privs := fun _ => false }, st.opers⟩

/-- `ddb_events_table_nicks` for a user of this server that has the nick; whether it is renamed. -/
def eventNicks (features : OperOnly) (st : Tallied) (content : Option DdbNick) (update : Bool) : Tallied × Bool :=
  let has (f : UFlag) : Bool := st.user.flags (.mode f)
  match content with
  | none =>
    if has .account || has .nickSuspend then
      let st := nickregClearModeprivs features st
      ({ st with user := nickregClearMode st.user }, false)
    else (st, false)
  | some ddbnick =>
    if ddbnick.flags &&& ddbNickForbid ≠ 0 then (st, true)
    else if ddbnick.flags &&& ddbNickSuspend ≠ 0 ∧ update ∧ has .account then
      let st := nickregClearModeprivs features st
      ({ st with user := (nickregClearMode st.user).put (.mode .nickSuspend) true }, false)
    else if lnot ddbnick.flags &&& ddbNickSuspend ≠ 0 ∧ update ∧ has .nickSuspend then
      ({ st with user := nickregSetModes (st.user.put (.mode .nickSuspend) false) ddbnick }, false)
    else if !update then (st, true)
    else ({ st with user := nickregSetModes st.user ddbnick }, false)

def Tallied.withdraw (st : Tallied) : Tallied :=
  let u := st.user.clear [.mode .admin, .mode .coder, .mode .helper, .mode .servicesBot]
  if !u.flags .operByCmd then
    ⟨u.clear [.locop, .mode .oper], if u.flags (.mode .oper) then st.opers - 1 else st.opers⟩
  else ⟨u, st.opers⟩

/-- `ddb_events_table_operators` for a user of this server that has the nick. -/
def eventOperators (features : OperOnly) (st : Tallied) (ddboptr : Option DdbOperator) (key : List Char)
    (content : Option OperFields) : Tallied :=
  let has (f : UFlag) : Bool := st.user.flags (.mode f)
  match content with
  | none =>
    if has .admin || has .coder || has .helper || has .servicesBot then nickregClearModeprivs features st else st
  | some fields =>
    if has .account then nickregSetModeprivs st.withdraw (ddbOpersGet ddboptr key fields false) else st

end Ircd.Users

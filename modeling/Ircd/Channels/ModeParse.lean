import Ircd.Channels.State
import Ircd.Text.Numbers

/-! `mode_parse` for modes that come from a server.

The source is never a local user, the connection is a server, and the callers parse strictly
or in a burst, so one mode string is read and at most a timestamp behind its parameters.
-/

set_option autoImplicit false

namespace Ircd.Channels
open Ircd.Text

/-- The `MODE_PARSE_` flags, and whether the caller gave a mode buffer. -/
structure ParseFlags where
  set : Bool
  force : Bool
  burst : Bool
  wipeout : Bool
  bounce : Bool
  mbuf : Bool
  deriving DecidableEq, Repr

inductive Dir where
  | add | del
  deriving DecidableEq, Repr

/-- The `DONE_` bits of a mode that may be removed and then added. -/
structure DonePass where
  add : Bool
  del : Bool
  deriving DecidableEq, Repr

structure Done where
  limit : Bool
  key : DonePass
  upass : DonePass
  apass : DonePass
  banClean : Bool
  deriving DecidableEq, Repr

inductive MemberMode where
  | chanop | voice
  deriving DecidableEq, Repr

structure CliChange (Client : Type) where
  dir : Dir
  mode : MemberMode
  opLevel : Nat
  client : Client
  deriving DecidableEq, Repr

structure ParseState (Client : Type) where
  chan : Channel Client
  args : List (List Char)
  dir : Dir
  done : Done
  add : Flags
  del : Flags
  cliChange : List (CliChange Client)

/-- What the parser asks the rest of the server: the user of a numeric, the mask that
`collapse(pretty_mask(..))` makes of a ban and whether it is an address mask, whether a ban
covers another (`bmatch`), and the time. -/
structure World (Client : Type) where
  findNUser : List Char → Option Client
  banMask : List Char → List Char
  isIpMask : List Char → Bool
  covers : Ban → Ban → Bool
  now : Nat

variable {Client : Type}

def ParseState.mode (st : ParseState Client) : Mode := st.chan.mode

def ParseState.setMode (st : ParseState Client) (m : Mode) : ParseState Client :=
  { st with chan := { st.chan with mode := m } }

/-- The part of `mode_parse_limit` behind the argument. -/
def parseLimitValue (flags : ParseFlags) (st : ParseState Client) (tLimit : Nat) : ParseState Client :=
  if st.dir = .del ∧ st.mode.limit = 0 then st
  else if flags.burst ∧ st.mode.mode .limit ∧ st.mode.limit < tLimit then st
  else if st.done.limit then st
  else
    let st := { st with done := { st.done with limit := true } }
    if !flags.mbuf || !flags.set then st
    else
      match st.dir with
      | .add => st.setMode { st.mode with mode := st.mode.mode.or (.only .limit), limit := tLimit }
      | .del => st.setMode { st.mode with mode := st.mode.mode.without (.only .limit), limit := 0 }

def modeParseLimit (flags : ParseFlags) (st : ParseState Client) : ParseState Client :=
  match st.dir with
  | .del => parseLimitValue flags st st.mode.limit
  | .add =>
    match st.args with
    | [] => st
    | arg :: rest =>
      let st := { st with args := rest }
      let tLimit := strtoul arg % 2 ^ 32
      if asInt tLimit < 0 then st
      else if !flags.wipeout && (tLimit = 0 || tLimit = st.mode.limit) then st
      else parseLimitValue flags st tLimit

def DonePass.allow (done : DonePass) : Dir → Option DonePass
  | .add => if done.add then none else some { done with add := true }
  | .del => if done.add || done.del then none else some { done with del := true }

/-- What `mode_parse_key`, `mode_parse_upass` and `mode_parse_apass` share: the argument is
taken, then the `DONE_` bits and the form of the key are checked. -/
def parsePass (flags : ParseFlags) (allow : Done → Dir → Option Done)
    (refused : ParseState Client → List Char → Bool) (apply : ParseState Client → List Char → ParseState Client)
    (st : ParseState Client) : ParseState Client :=
  match st.args with
  | [] => st
  | arg :: rest =>
    let st := { st with args := rest }
    match allow st.done st.dir with
    | none => st
    | some done =>
      let st := { st with done := done }
      if !isCleanKey arg || !flags.mbuf || refused st arg || !flags.set then st else apply st arg

def allowKey (done : Done) (dir : Dir) : Option Done := (done.key.allow dir).map fun key => { done with key := key }

def allowUpass (done : Done) (dir : Dir) : Option Done :=
  (done.upass.allow dir).map fun upass => { done with upass := upass }

def allowApass (done : Done) (dir : Dir) : Option Done :=
  (done.apass.allow dir).map fun apass => { done with apass := apass }

def burstKeeps (flags : ParseFlags) (old arg : List Char) : Bool := flags.burst && old ≠ [] && ircdStrcmp old arg ≤ 0

def noChange (flags : ParseFlags) (dir : Dir) (old arg : List Char) : Bool :=
  !flags.wipeout && dir = .add && ircdStrcmp old arg = 0

def keySet (flags : ParseFlags) (dir : Dir) (old arg : List Char) : Bool :=
  !flags.force && (dir = .add && old ≠ [] || dir = .del && ircdStrcmp old arg ≠ 0)

def keyRefused (flags : ParseFlags) (st : ParseState Client) (arg : List Char) : Bool :=
  burstKeeps flags st.mode.key arg || keySet flags st.dir st.mode.key arg || noChange flags st.dir st.mode.key arg

def applyKey (st : ParseState Client) (arg : List Char) : ParseState Client :=
  match st.dir with
  | .add => st.setMode { st.mode with key := arg.take keyLen }
  | .del => st.setMode { st.mode with key := [] }

def modeParseKey (flags : ParseFlags) : ParseState Client → ParseState Client :=
  parsePass flags allowKey (keyRefused flags) applyKey

def upassRefused (flags : ParseFlags) (st : ParseState Client) (arg : List Char) : Bool :=
  !flags.force && st.dir = .add && (st.mode.apass = [] || ircdStrcmp st.mode.apass arg = 0) ||
    keySet flags st.dir st.mode.upass arg || noChange flags st.dir st.mode.upass arg ||
    burstKeeps flags st.mode.upass arg

def applyUpass (st : ParseState Client) (arg : List Char) : ParseState Client :=
  match st.dir with
  | .add => st.setMode { st.mode with upass := arg.take keyLen }
  | .del => st.setMode { st.mode with upass := [] }

def modeParseUpass (flags : ParseFlags) : ParseState Client → ParseState Client :=
  parsePass flags allowUpass (upassRefused flags) applyUpass

def apassRefused (flags : ParseFlags) (st : ParseState Client) (arg : List Char) : Bool :=
  noChange flags st.dir st.mode.apass arg || burstKeeps flags st.mode.apass arg

/-- Everyone who is opped goes back to `MAXOPLEVEL`. -/
def resetLevels (members : List (Membership Client)) : List (Membership Client) :=
  members.map fun m => if m.status.chanop then { m with opLevel := maxOpLevel } else m

def applyApass (flags : ParseFlags) (st : ParseState Client) (arg : List Char) : ParseState Client :=
  match st.dir with
  | .add =>
    if st.mode.apass = [] || flags.burst then st.setMode { st.mode with apass := arg.take keyLen } else st
  | .del =>
    let st := st.setMode { st.mode with apass := [], upass := [] }
    { st with chan := { st.chan with members := resetLevels st.chan.members } }

def modeParseApass (flags : ParseFlags) : ParseState Client → ParseState Client :=
  parsePass flags allowApass (apassRefused flags) (applyApass flags)

def applyBan (world : World Client) (banlist : List Ban) (newban : Ban) : List Ban :=
  let mark (ban : Ban) : Ban :=
    if world.covers newban ban then { ban with flags := { ban.flags with overlapped := true, del := true } } else ban
  if newban.flags.add then
    if banlist.any fun ban => world.covers ban newban && !ban.flags.del then banlist
    else banlist.map mark ++ [newban]
  else banlist.map mark

/-- `ban->flags &= ~(BAN_ADD | BAN_DEL | BAN_OVERLAPPED)`. -/
def Ban.clean (ban : Ban) : Ban :=
  { ban with flags := { ban.flags with add := false, del := false, overlapped := false } }

def modeParseBan (world : World Client) (st : ParseState Client) : ParseState Client :=
  match st.args with
  | [] => st
  | arg :: rest =>
    let st := { st with args := rest }
    let text := arg.takeWhile (· ≠ ' ')
    if text = [] || peek text = ':' then st
    else
      let banlist := if st.done.banClean then st.chan.banlist else st.chan.banlist.map Ban.clean
      let banstr := world.banMask text
      let newban : Ban := ⟨banstr, ['*'], world.now,
        ⟨world.isIpMask banstr, false, false, st.dir = .del, st.dir = .add, false, false⟩⟩
      { st with
        done := { st.done with banClean := true }
        chan := { st.chan with banlist := applyBan world banlist newban } }

def Ban.onlyIpMask (ban : Ban) : Ban := { ban with flags := ⟨ban.flags.ipmask, false, false, false, false, false, false⟩ }

/-- `mode_process_bans`. The bans that were added stand behind all others and leave the list;
those that take effect are entered again at its head. -/
def modeProcessBans (flags : ParseFlags) (banlist : List Ban) : List Ban :=
  let created := banlist.filter fun ban => ban.flags.add && !ban.flags.del && (!ban.flags.overlapped || flags.bounce)
  let kept := banlist.filterMap fun ban =>
    if ban.flags.add then none
    else if ban.flags.del then (if flags.set then none else some ban.onlyIpMask)
    else some ban
  if flags.set then (created.map Ban.onlyIpMask).reverse ++ kept else kept

def enterChange [DecidableEq Client] (change : CliChange Client) : List (CliChange Client) → List (CliChange Client)
  | [] => [change]
  | old :: rest =>
    if old.client = change.client ∧ old.mode = change.mode then change :: rest else old :: enterChange change rest

/-- `mode_parse_client`. The level is kept in an `unsigned short`. -/
def modeParseClient [DecidableEq Client] (world : World Client) (flags : ParseFlags) (mode : MemberMode)
    (st : ParseState Client) : ParseState Client :=
  match st.args with
  | [] => st
  | arg :: rest =>
    let st := { st with args := rest }
    let levelled : Bool := arg[5]? = some ':'
    let opLevel := if levelled then (atoi (arg.drop 6) % 2 ^ 16).toNat else maxOpLevel + 1
    match world.findNUser (if levelled then arg.take 5 else arg) with
    | none => st
    | some client =>
      let opLevel :=
        if flags.bounce ∧ st.dir = .del ∧ mode = .chanop then
          match st.chan.members.find? (·.user = client) with
          | some member => member.opLevel
          | none => opLevel
        else opLevel
      { st with cliChange := enterChange ⟨st.dir, mode, opLevel, client⟩ st.cliChange }

def Status.has (s : Status) : MemberMode → Bool
  | .chanop => s.chanop
  | .voice => s.voice

def Status.change (s : Status) : Dir → MemberMode → Status
  | .add, .chanop => { s with chanop := true, deopped := false, delayed := s.delayed && s.zombie }
  | .add, .voice => { s with voice := true, delayed := s.delayed && s.zombie }
  | .del, .chanop => { s with chanop := false }
  | .del, .voice => { s with voice := false }

/-- One change of `mode_process_clients`, at the member it is about. -/
def changeMember (flags : ParseFlags) (change : CliChange Client) (m : Membership Client) : Membership Client :=
  if m.status.has change.mode = decide (change.dir = .add) then m
  else
    let m :=
      if change.dir = .add ∧ change.mode = .chanop then
        { m with opLevel := if change.opLevel ≤ maxOpLevel then change.opLevel else maxOpLevel }
      else m
    if flags.set then { m with status := m.status.change change.dir change.mode } else m

def modeProcessClients [DecidableEq Client] (flags : ParseFlags) (changes : List (CliChange Client))
    (members : List (Membership Client)) : List (Membership Client) :=
  changes.foldl
    (fun members change => members.map fun m => if m.user = change.client then changeMember flags change m else m)
    members

/-- The letters of `chan_flags` that `mode_parse_mode` handles. -/
def simpleFlag : Char → Option Flag
  | 'p' => some .priv
  | 's' => some .secret
  | 'm' => some .moderated
  | 't' => some .topicLimit
  | 'i' => some .inviteOnly
  | 'n' => some .noPrivMsgs
  | 'R' => some .regOnly
  | 'O' => some .operOnly
  | 'D' => some .delJoins
  | 'c' => some .noColor
  | 'C' => some .noCtcp
  | 'M' => some .moderateNoReg
  | 'N' => some .noNotice
  | 'W' => some .msgNonWeb
  | 'u' => some .noQuitParts
  | 'z' => some .sslOnly
  | _ => none

def Flag.excludes : Flag → Flags
  | .secret => .only .priv
  | .priv => .only .secret
  | _ => .none

def modeParseMode (flags : ParseFlags) (f : Flag) (st : ParseState Client) : ParseState Client :=
  if !flags.mbuf then st
  else
    match st.dir with
    | .add =>
      { st with
        add := (st.add.or (.only f)).without f.excludes
        del := (st.del.without (.only f)).or f.excludes }
    | .del => { st with add := st.add.without (.only f), del := st.del.or (.only f) }

/-- One letter of the mode string; `r` is read and ignored. -/
def parseLetter [DecidableEq Client] (world : World Client) (flags : ParseFlags) (st : ParseState Client) (c : Char) :
    ParseState Client :=
  if c = '+' then { st with dir := .add }
  else if c = '-' then { st with dir := .del }
  else if c = 'l' then modeParseLimit flags st
  else if c = 'k' then modeParseKey flags st
  else if c = 'A' then modeParseApass flags st
  else if c = 'U' then modeParseUpass flags st
  else if c = 'b' then modeParseBan world st
  else if c = 'o' then modeParseClient world flags .chanop st
  else if c = 'v' then modeParseClient world flags .voice st
  else
    match simpleFlag c with
    | some f => modeParseMode flags f st
    | none => st

def startState (chan : Channel Client) (args : List (List Char)) : ParseState Client :=
  { chan := chan
    args := args
    dir := .add
    done := ⟨false, ⟨false, false⟩, ⟨false, false⟩, ⟨false, false⟩, false⟩
    add := .none
    del := .none
    cliChange := [] }

/-- The part of `mode_parse` behind its loop. -/
def finish [DecidableEq Client] (flags : ParseFlags) (st : ParseState Client) : ParseState Client :=
  if !flags.mbuf then st
  else
    let mode := if flags.set then { st.mode with mode := (st.mode.mode.without st.del).or st.add } else st.mode
    let banlist := if st.done.banClean then modeProcessBans flags st.chan.banlist else st.chan.banlist
    let members := modeProcessClients flags st.cliChange st.chan.members
    { st with chan := { st.chan with mode := mode, banlist := banlist, members := members } }

inductive Verdict where
  | applied | ignored | bounced
  deriving DecidableEq, Repr

/-- `mode_parse`: the channel and the arguments it leaves, and what becomes of the line.
`bursting` is `IsBurstOrBurstAck` of the connection. -/
def modeParse [DecidableEq Client] (world : World Client) (bursting : Bool) (flags : ParseFlags)
    (chan : Channel Client) (modestr : List Char) (args : List (List Char)) : ParseState Client × Verdict :=
  let st := modestr.foldl (parseLetter world flags) (startState chan args)
  if flags.burst ∨ modestr = [] then (finish flags st, .applied)
  else
    match st.args with
    | [ts] =>
      if isDigit (peek ts) then
        let st := { st with args := [] }
        if !flags.set then (finish flags st, .applied)
        else if atoi ts ≠ 0 ∧ atoi ts < st.chan.creationTime then
          (finish flags { st with chan := { st.chan with creationTime := atoi ts } }, .applied)
        else if atoi ts > st.chan.creationTime then
          if bursting then (st, .ignored)
          else (finish { flags with set := false, bounce := true } st, .bounced)
        else (finish flags st, .applied)
      else (finish flags st, .applied)
    | _ => (finish flags st, .applied)

end Ircd.Channels

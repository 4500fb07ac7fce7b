import Ircd.Channels.HiddenJoins
import Ircd.Channels.Burst
import Ircd.Channels.FindBan

/-! `mode_parse` for a source of any kind, with the mode buffer that it fills.

A push into the buffer may flush it, and a flush may change the flags of the channel; the parser
goes on with what it finds. The replies to the source and the invites are left out.
-/

set_option autoImplicit false

namespace Ircd.Channels
open Ircd.Text

/-- What the handlers ask the rest of the server: next to what a BURST needs, the server itself, the user
that a nick was last used by, what `IsChannelService` and `PRIV_DEOP_LCHAN` say of a user, the features
`AVBANLEN` and `MAXBANS`, and whether the channel is local. -/
structure ModeSite (Client : Type) extends Link Client where
  me : Client
  names : Names Client
  findChasing : List Char → Option Client
  channelService : Client → Bool
  deopLchan : Client → Bool
  avBanLen : Nat
  maxBans : Nat
  localChannel : Bool

/-- Where a mode string comes from: `sptr`, and whether `cptr` is a server, and one whose burst has not
ended. The parser may have been given the membership of the source. -/
structure ModeSource (Client : Type) where
  sptr : Client
  user : Bool
  anOper : Bool
  ssl : Bool
  apassOpmode : Bool
  server : Bool
  bursting : Bool
  member : Bool
  manager : Bool

/-- `MyUser(sptr)`: what comes from a connection that is no server comes from its own user. -/
def ModeSource.myUser {Client : Type} (source : ModeSource Client) : Bool := !source.server

structure SourceFlags extends ParseFlags where
  strict : Bool
  notOper : Bool
  notMember : Bool

def SourceFlags.outsider (flags : SourceFlags) : Bool := flags.notOper || flags.notMember

/-- The state of the parser, with the buffer, the passes so far and `max_args`. -/
structure ModeState (Client : Type) extends ParseState Client where
  mbuf : ModeBuf Client
  passes : List (Flushed Client)
  maxArgs : Nat

variable {Client : Type}

def ModeWork.put (w : ModeWork Client) (result : ModeBuf Client × List (Flushed Client)) : ModeWork Client :=
  ⟨w.chan.setFlags (lastView w.chan.view result.2).mode, result.1, w.passes ++ result.2⟩

def ModeWork.flags (w : ModeWork Client) (add : Bool) (mode : Flags) : ModeWork Client :=
  { w with mbuf := modebufMode w.mbuf add mode }

def ModeWork.uint (names : Names Client) (w : ModeWork Client) (add : Bool) (limit : Nat) : ModeWork Client :=
  w.put (modebufModeUint names w.chan.view w.mbuf add limit)

def ModeWork.string (names : Names Client) (w : ModeWork Client) (add : Bool) (which : StringMode) (text : List Char)
    (free : Bool) : ModeWork Client :=
  w.put (modebufModeString names w.chan.view w.mbuf add which text free)

def ModeWork.client (names : Names Client) (w : ModeWork Client) (add : Bool) (which : MemberMode) (who : Client)
    (opLevel : Nat) : ModeWork Client :=
  w.put (modebufModeClient names w.chan.view w.mbuf add which who opLevel)

def ModeState.work (st : ModeState Client) : ModeWork Client := ⟨st.chan, st.mbuf, st.passes⟩

def ModeState.setWork (st : ModeState Client) (w : ModeWork Client) : ModeState Client :=
  { st with chan := w.chan, mbuf := w.mbuf, passes := w.passes }

section
variable (site : ModeSite Client) (source : ModeSource Client) (flags : SourceFlags)

def ModeSource.tooMany (source : ModeSource Client) (st : ModeState Client) : Bool := source.myUser && st.maxArgs = 0

/-- The part of `mode_parse_limit` behind the argument. -/
def ModeState.limitValue (st : ModeState Client) (tLimit : Nat) : ModeState Client :=
  if flags.outsider then st
  else if st.dir = .del ∧ st.chan.mode.limit = 0 then st
  else if flags.burst ∧ st.chan.mode.mode .limit ∧ st.chan.mode.limit < tLimit then st
  else if st.done.limit then st
  else
    let st := { st with done := { st.done with limit := true } }
    if !flags.mbuf then st
    else
      let st := st.setWork (st.work.uint site.names (st.dir = .add) tLimit)
      if !flags.set then st
      else
        match st.dir with
        | .add =>
          let mode := { st.chan.mode with mode := st.chan.mode.mode.or (.only .limit), limit := tLimit }
          { st with chan := { st.chan with mode := mode } }
        | .del =>
          let mode := { st.chan.mode with mode := st.chan.mode.mode.without (.only .limit), limit := 0 }
          { st with chan := { st.chan with mode := mode } }

def ModeState.parseLimit (st : ModeState Client) : ModeState Client :=
  match st.dir with
  | .del => st.limitValue site flags st.chan.mode.limit
  | .add =>
    if source.tooMany st then st
    else
      match st.args with
      | [] => st
      | arg :: rest =>
        let st := { st with args := rest, maxArgs := st.maxArgs - 1 }
        let tLimit := strtoul arg % 2 ^ 32
        if asInt tLimit < 0 then st
        else if !flags.wipeout && (tLimit = 0 || tLimit = st.chan.mode.limit) then st
        else st.limitValue site flags tLimit

/-- What `mode_parse_key`, `mode_parse_upass` and `mode_parse_apass` share. A bounce resets the old value,
or removes the new one. -/
def ModeState.parseString (which : StringMode) (old : Mode → List Char)
    (permitted : ModeState Client → List Char → Bool) (allow : Done → Dir → Option Done)
    (refused : ParseState Client → List Char → Bool) (apply : ParseState Client → List Char → ParseState Client)
    (st : ModeState Client) : ModeState Client :=
  if source.tooMany st then st
  else
    match st.args with
    | [] => st
    | arg :: rest =>
      let st := { st with args := rest, maxArgs := st.maxArgs - 1 }
      if flags.outsider || !permitted st arg then st
      else
        match allow st.done st.dir with
        | none => st
        | some done =>
          let st := { st with done := done }
          if !isCleanKey arg || !flags.mbuf || refused st.toParseState arg then st
          else
            let value := old st.chan.mode
            let st := st.setWork <|
              if flags.bounce then
                if value ≠ [] then st.work.string site.names false which value false
                else st.work.string site.names true which arg false
              else st.work.string site.names (st.dir = .add) which arg false
            if flags.set then { st with toParseState := apply st.toParseState arg } else st

def ModeState.parseKey : ModeState Client → ModeState Client :=
  ModeState.parseString site source flags .key (·.key) (fun _ _ => true) allowKey (keyRefused flags.toParseFlags) applyKey

def upassPermitted : Bool :=
  !source.myUser || if flags.force then source.apassOpmode else source.manager

def ModeState.parseUpass : ModeState Client → ModeState Client :=
  ModeState.parseString site source flags .upass (·.upass) (fun _ _ => upassPermitted source flags) allowUpass
    (upassRefused flags.toParseFlags) applyUpass

def securedAfter : Int := 172800

def apassPermitted (st : ModeState Client) (arg : List Char) : Bool :=
  !source.myUser ||
    (if flags.force then source.apassOpmode
      else source.manager && !(st.dir = .del && st.chan.mode.upass ≠ []) &&
        !(st.dir = .add && st.chan.mode.apass ≠ [] || st.dir = .del && ircdStrcmp st.chan.mode.apass arg ≠ 0)) &&
    !(site.world.now - st.chan.creationTime ≥ securedAfter && st.dir = .del && !source.anOper)

def setManager [DecidableEq Client] (st : ParseState Client) : ParseState Client :=
  if st.dir = .add ∧ source.member then
    let members := st.chan.members.map fun m => if m.user = source.sptr then { m with opLevel := 0 } else m
    { st with chan := { st.chan with members := members } }
  else st

def ModeState.parseApass [DecidableEq Client] : ModeState Client → ModeState Client :=
  ModeState.parseString site source flags .apass (·.apass) (apassPermitted site source flags) allowApass
    (apassRefused flags.toParseFlags) fun st arg => setManager source (applyApass flags.toParseFlags st arg)

def ModeState.parseBan (st : ModeState Client) : ModeState Client :=
  match st.args with
  | [] => st
  | arg :: rest =>
    if source.tooMany st then st
    else
      let st := { st with args := rest, maxArgs := st.maxArgs - 1 }
      let text := arg.takeWhile (· ≠ ' ')
      if flags.outsider || text = [] || peek text = ':' then st
      else
        let banlist := if st.done.banClean then st.chan.banlist else st.chan.banlist.map Ban.clean
        let banstr := site.world.banMask text
        let who := if source.user then (site.names.name source.sptr).take nickLen else ['*']
        let newban : Ban := ⟨banstr, who, site.world.now,
          ⟨site.world.isIpMask banstr, false, false, st.dir = .del, st.dir = .add, false, false⟩⟩
        { st with
          done := { st.done with banClean := true }
          chan := { st.chan with banlist := applyBan site.world banlist newban } }

/-- The walk of `mode_process_bans`: the bans that stay, those that are linked in at the head, and the
count and the length of the texts. -/
structure BanWalk (Client : Type) where
  work : ModeWork Client
  kept : List Ban
  created : List Ban
  count : Nat
  len : Nat

def BanWalk.turn (s : BanWalk Client) (ban : Ban) : BanWalk Client :=
  let count := s.count + 1
  let len := s.len + ban.banstr.length
  if ban.flags.del && ban.flags.add then s
  else if ban.flags.del then
    let work := s.work.string site.names false .ban ban.banstr true
    if flags.set then { s with work := work }
    else { s with work := work, kept := s.kept ++ [ban.onlyIpMask], count := count, len := len }
  else if ban.flags.add then
    if ban.flags.overlapped && !flags.bounce then s
    else if flags.set && source.myUser && !s.work.mbuf.dest.opmode &&
        (len > site.avBanLen * site.maxBans || count > site.maxBans) then s
    else
      let work := s.work.string site.names true .ban ban.banstr true
      let created := if flags.set then ban.onlyIpMask :: s.created else s.created
      { s with work := work, created := created, count := count, len := len }
  else { s with kept := s.kept ++ [ban], count := count, len := len }

def ModeState.processBans (st : ModeState Client) : ModeState Client :=
  let s := st.chan.banlist.foldl (BanWalk.turn site source flags) ⟨st.work, [], [], 0, 0⟩
  let st := st.setWork s.work
  { st with chan := { st.chan with banlist := s.created ++ s.kept } }

section
variable [DecidableEq Client]

def Channel.member (chan : Channel Client) (client : Client) : Option (Membership Client) :=
  chan.members.find? (·.user = client)

def mapMembership (client : Client) (f : Membership Client → Membership Client) :
    List (Membership Client) → List (Membership Client)
  | [] => []
  | m :: members => if m.user = client then f m :: members else m :: mapMembership client f members

def Channel.mapMember (chan : Channel Client) (client : Client) (f : Membership Client → Membership Client) :
    Channel Client :=
  { chan with members := mapMembership client f chan.members }

def ModeSource.level (source : ModeSource Client) (chan : Channel Client) : Option Nat :=
  if source.member then (chan.member source.sptr).map (·.opLevel) else none

def levelRefused (st : ModeState Client) (reqOpLevel : Int) : Bool :=
  !flags.force &&
    match source.level st.chan with
    | none => false
    | some level => reqOpLevel < level || reqOpLevel = level && level < maxOpLevel || reqOpLevel > maxOpLevel

def readClient (mode : MemberMode) (st : ModeState Client) (arg : List Char) : Option (Client × Int) :=
  if source.myUser then
    let found (opLevel : Int) := (site.findChasing (arg.takeWhile (· ≠ ':'))).map fun client => (client, opLevel)
    match arg.dropWhile (· ≠ ':') with
    | [] => found (maxOpLevel + 1)
    | _ :: text =>
      if mode = .voice ∨ st.dir = .del then found (maxOpLevel + 1)
      else if levelRefused source flags st (atoi text) then none
      else if atoi text ≤ maxOpLevel then found (atoi text)
      else found (maxOpLevel + 1)
  else if arg[5]? = some ':' then (site.world.findNUser (arg.take 5)).map fun client => (client, atoi (arg.drop 6))
  else (site.world.findNUser arg).map fun client => (client, maxOpLevel + 1)

/-- `mode_parse_client`. The level is kept in an `unsigned short`. -/
def ModeState.parseClient (mode : MemberMode) (st : ModeState Client) : ModeState Client :=
  if source.tooMany st then st
  else
    match st.args with
    | [] => st
    | arg :: rest =>
      let st := { st with args := rest, maxArgs := st.maxArgs - 1 }
      if flags.outsider then st
      else
        match readClient site source flags mode st arg with
        | none => st
        | some (client, opLevel) =>
          let stored : Nat :=
            if flags.bounce ∧ st.dir = .del ∧ mode = .chanop then
              match st.chan.member client with
              | some member => member.opLevel
              | none => (opLevel % 2 ^ 16).toNat
            else (opLevel % 2 ^ 16).toNat
          { st with cliChange := enterChange ⟨st.dir, mode, stored, client⟩ st.cliChange }

def Membership.revealed (m : Membership Client) : Membership Client :=
  { m with status := { m.status with delayed := false } }

def revealDelayedJoin (chan : Channel Client) (client : Client) : Channel Client :=
  checkDelayedJoins (chan.mapMember client Membership.revealed)

def deopRefused (st : ModeState Client) (member : Membership Client) : Bool :=
  let client := member.user
  site.channelService client && !flags.force && source.myUser && flags.set ||
    source.myUser && client ≠ source.sptr &&
      (site.localChannel && site.deopLchan client ||
        match source.level st.chan with
        | none => false
        | some level => member.opLevel < level || member.opLevel = level && member.opLevel < maxOpLevel)

def opLevelFor (st : ModeState Client) (change : CliChange Client) : Nat :=
  if change.opLevel ≤ maxOpLevel then change.opLevel
  else
    match source.level st.chan with
    | none => maxOpLevel
    | some level => if level ≥ maxOpLevel then level else level + 1

def effect (chan : Channel Client) (change : CliChange Client) (member : Membership Client) : Channel Client :=
  match change.dir with
  | .add =>
    let chan := if member.status.delayed && !member.status.zombie then revealDelayedJoin chan change.client else chan
    chan.mapMember change.client fun m => { m with status := m.status.change .add change.mode }
  | .del => chan.mapMember change.client fun m => { m with status := m.status.change .del change.mode }

def ModeState.processClient (st : ModeState Client) (change : CliChange Client) : ModeState Client :=
  match st.chan.member change.client with
  | none => st
  | some member =>
    if source.myUser && member.status.zombie then st
    else if member.status.has change.mode = decide (change.dir = .add) then st
    else if change.dir = .del ∧ change.mode = .chanop ∧ deopRefused site source flags st member then st
    else
      let level := opLevelFor source st change
      let chan :=
        if change.dir = .add ∧ change.mode = .chanop then
          st.chan.mapMember change.client fun m => { m with opLevel := level }
        else st.chan
      let chan := if flags.set then effect chan change member else chan
      let st := { st with chan := chan }
      st.setWork (st.work.client site.names (change.dir = .add) change.mode change.client change.opLevel)

def ModeState.letter (st : ModeState Client) (c : Char) : ModeState Client :=
  let flag (f : Flag) : ModeState Client :=
    if flags.outsider then st else { st with toParseState := modeParseMode flags.toParseFlags f st.toParseState }
  if c = '+' then { st with dir := .add }
  else if c = '-' then { st with dir := .del }
  else if c = 'l' then st.parseLimit site source flags
  else if c = 'k' then st.parseKey site source flags
  else if c = 'A' then if source.server || site.oplevels then st.parseApass site source flags else st
  else if c = 'U' then if source.server || site.oplevels then st.parseUpass site source flags else st
  else if c = 'O' then if source.server || source.anOper then flag .operOnly else st
  else if c = 'z' then if source.server || source.anOper || source.ssl then flag .sslOnly else st
  else if c = 'b' then st.parseBan site source flags
  else if c = 'o' then st.parseClient site source flags .chanop
  else if c = 'v' then st.parseClient site source flags .voice
  else
    match simpleFlag c with
    | some f => flag f
    | none => st

/-- The loop over the mode strings, with fuel for each of them: the state, the flags that are left and
what becomes of the line. -/
def ModeState.strings : Nat → SourceFlags → ModeState Client → List Char → ModeState Client × SourceFlags × Verdict
  | 0, flags, st, _ => (st, flags, .applied)
  | fuel + 1, flags, st, modestr =>
    if modestr = [] then (st, flags, .applied)
    else
      let st := modestr.foldl (ModeState.letter site source flags) st
      if flags.burst then (st, flags, .applied)
      else
        match st.args with
        | [] => (st, flags, .applied)
        | arg :: rest =>
          if source.server ∧ rest = [] ∧ isDigit (peek arg) then
            let st := { st with args := rest }
            if !flags.set then (st, flags, .applied)
            else if atoi arg ≠ 0 ∧ atoi arg < st.chan.creationTime then
              ({ st with chan := { st.chan with creationTime := atoi arg } }, flags, .applied)
            else if atoi arg > st.chan.creationTime then
              if source.bursting then
                ({ st with mbuf := { st.mbuf with add := .none, rem := .none, count := 0 } }, flags, .ignored)
              else
                ({ st with mbuf := st.mbuf.bounced (!source.server) },
                  { flags with set := false, bounce := true }, .bounced)
            else (st, flags, .applied)
          else if flags.strict || source.tooMany st then (st, flags, .applied)
          else ModeState.strings fuel flags { st with args := rest } arg

def ModeState.wipeout (st : ModeState Client) : ModeState Client :=
  let mode := st.chan.mode
  let w := st.work
  let w := if mode.limit ≠ 0 && !st.done.limit then w.uint site.names false mode.limit else w
  let w := if mode.key ≠ [] && !st.done.key.del then w.string site.names false .key mode.key false else w
  let w := if mode.upass ≠ [] && !st.done.upass.del then w.string site.names false .upass mode.upass false else w
  let w := if mode.apass ≠ [] && !st.done.apass.del then w.string site.names false .apass mode.apass false else w
  st.setWork w

def ModeState.simple (st : ModeState Client) : ModeState Client :=
  let tMode := st.chan.mode.mode
  let w := st.work.flags false fun f => st.del f && tMode f
  let tMode := tMode.without st.del
  let w := w.flags true (st.add.without tMode)
  let st := st.setWork w
  if flags.set then { st with chan := st.chan.setFlags (tMode.or st.add) } else st

/-- The part of `mode_parse` behind its loop. -/
def ModeState.finish (st : ModeState Client) : ModeState Client :=
  if !flags.mbuf || flags.outsider then st
  else
    let st := st.simple flags
    let st := if flags.wipeout then st.wipeout site else st
    let st := if st.done.banClean then st.processBans site source flags else st
    st.cliChange.foldl (ModeState.processClient site source flags) st

def ModeState.start (work : ModeWork Client) (args : List (List Char)) : ModeState Client :=
  { startState work.chan args with mbuf := work.mbuf, passes := work.passes, maxArgs := maxModeParams }

def parseModes (work : ModeWork Client) (modestr : List Char) (args : List (List Char)) :
    ModeState Client × Verdict :=
  let (st, flags, verdict) :=
    (ModeState.start work args).strings site source (args.length + 1) flags modestr
  match verdict with
  | .ignored => (st, verdict)
  | _ => (st.finish site source flags, verdict)

end

end

/-- Who calls the parser for a message: `m_mode` for an operator of the channel, for an oper on a local
channel and for anybody else, `mo_opmode`, `ms_mode`, `ms_bmode` and `ms_opmode` for a change that is taken,
and `ms_mode` for one of a user that is no operator. -/
inductive ModeHandler where
  | chanop | localOper
  | outsider (member : Bool)
  | oper | server | bounce
  deriving DecidableEq, Repr

def ModeHandler.fromServer : ModeHandler → Bool
  | .server | .bounce => true
  | _ => false

def ModeHandler.flags : ModeHandler → SourceFlags
  | .chanop => ⟨⟨true, false, false, false, false, true⟩, false, false, false⟩
  | .localOper => ⟨⟨true, true, false, false, false, true⟩, false, false, false⟩
  | .outsider member => ⟨⟨false, false, false, false, false, false⟩, false, member, !member⟩
  | .oper => ⟨⟨true, true, false, false, false, true⟩, false, false, false⟩
  | .server => ⟨⟨true, true, false, false, false, true⟩, true, false, false⟩
  | .bounce => ⟨⟨false, false, false, false, true, true⟩, true, false, false⟩

def modeMessage [DecidableEq Client] (site : ModeSite Client) (handler : ModeHandler) (source : ModeSource Client)
    (dest : Dest) (chan : Channel Client) (modestr : List Char) (args : List (List Char)) :
    Option (ModeWork Client) :=
  let source := { source with server := handler.fromServer }
  let work : ModeWork Client := ⟨chan, modebufInit source.sptr site.localChannel dest, []⟩
  let st := (parseModes site source handler.flags work modestr args).1
  if handler.flags.mbuf then st.work.call site.names .flush else some st.work

end Ircd.Channels

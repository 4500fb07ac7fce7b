import Ircd.Channels.BurstModes

/-! `ms_burst`: the BURST lines of a server that joins, read into a channel.

A line has the timestamp of the channel, its modes, its members and its bans. An older timestamp
wipes out what the channel had; on an equal one the two sides are merged; a newer one is not
believed. What is sent on to other servers and to the members is left out.
-/

set_option autoImplicit false

namespace Ircd.Channels
open Ircd.Text

variable {Client : Type}

/-- What `ms_burst` asks the rest of the server, next to the parser: whether a user is behind the
connection, is one of its own, is an oper or has an account, whether a mask covers another
(`mmatch`), and `FEAT_OPLEVELS`. -/
structure Link (Client : Type) where
  world : World Client
  behind : Client → Bool
  myUser : Client → Bool
  isAnOper : Client → Bool
  isAccount : Client → Bool
  mmatch : List Char → List Char → Bool
  oplevels : Bool

/-- `current_mode` and `oplevel`, which is negative until a level is read. -/
structure NickState where
  mode : Status
  opLevel : Int
  deriving DecidableEq, Repr

def Status.opped (s : Status) : Status := { s with deopped := false, delayed := false, chanop := true }

def Status.voiced (s : Status) : Status := { s with delayed := false, voice := true }

def baseMode (delJoins : Bool) : Status :=
  { chanop := false
    voice := false
    deopped := true
    zombie := false
    delayed := delJoins
    burstJoined := true
    alreadyOpped := false
    alreadyVoiced := false }

/-- The flags behind a nick, with fuel for each of them. `reset` is `current_mode_needs_reset`. -/
def readFlags (base : Status) : Nat → Bool → NickState → List Char → NickState
  | 0, _, st, _ => st
  | _, _, st, [] => st
  | fuel + 1, reset, st, c :: rest =>
    if c = 'o' then
      let mode := (if reset then base else st.mode).opped
      match rest with
      | 'v' :: rest => readFlags base fuel false ⟨{ mode with voice := true }, maxOpLevel⟩ rest
      | _ => readFlags base fuel false ⟨mode, maxOpLevel⟩ rest
    else if c = 'v' then readFlags base fuel false ⟨(if reset then base else st.mode).voiced, -1⟩ rest
    else if isDigit c then
      let absolute : Bool := st.opLevel = -1
      let mode := (if absolute && reset then base else st.mode).opped
      let level := (if absolute then 0 else st.opLevel) + readNumber 0 (c :: rest)
      if level > maxOpLevel then ⟨mode, maxOpLevel⟩
      else readFlags base fuel (reset && !absolute) ⟨mode, level⟩ (rest.dropWhile isDigit)
    else st

structure Entry (Client : Type) where
  user : Client
  mode : Status
  opLevel : Int
  deriving DecidableEq, Repr

def readNick (link : Link Client) (base : Status) (set : Bool) (acc : NickState × List (Entry Client))
    (token : List Char) : NickState × List (Entry Client) :=
  let st := match token.dropWhile (· ≠ ':') with
    | [] => acc.1
    | _ :: flags => if set then readFlags base flags.length true acc.1 flags else acc.1
  match link.world.findNUser (token.takeWhile (· ≠ ':')) with
  | none => (st, acc.2)
  | some user => if link.behind user then (st, acc.2 ++ [⟨user, st.mode, st.opLevel⟩]) else (st, acc.2)

def readNicks (link : Link Client) (base : Status) (set : Bool) (nicklist : List Char) : List (Entry Client) :=
  ((strtok ',' nicklist).foldl (readNick link base set) (⟨base, -1⟩, [])).2

/-- `SetOpLevel`: the level is an `unsigned short`. -/
def storedLevel (opLevel : Int) : Nat := (opLevel % 2 ^ 16).toNat

def Status.synchronize (s mode : Status) : Status :=
  { s with
    alreadyOpped := s.alreadyOpped || s.chanop
    alreadyVoiced := s.alreadyVoiced || s.voice
    burstJoined := true
    chanop := s.chanop || mode.chanop
    voice := s.voice || mode.voice }

def joinMember [DecidableEq Client] (members : List (Membership Client)) (e : Entry Client) : List (Membership Client) :=
  if members.any (·.user = e.user) then
    members.map fun m =>
      if m.user = e.user then ⟨m.user, m.status.synchronize e.mode, storedLevel e.opLevel⟩ else m
  else ⟨e.user, e.mode, storedLevel e.opLevel⟩ :: members

/-- The walk over the ban list: a ban that is there is kept, one that is covered is dropped, and
one that is new goes to the end. -/
def addBurstBan (link : Link Client) (text : List Char) : List Ban → List Ban
  | [] => [⟨text, ['*'], link.world.now, ⟨link.world.isIpMask text, false, false, false, false, true, false⟩⟩]
  | ban :: rest =>
    if ircdStrcmp ban.banstr text = 0 then { ban with flags := { ban.flags with burstWipeout := false } } :: rest
    else if !ban.flags.burstWipeout && link.mmatch ban.banstr text then ban :: rest
    else if link.mmatch text ban.banstr then
      { ban with flags := { ban.flags with overlapped := true } } :: addBurstBan link text rest
    else ban :: addBurstBan link text rest

def readBans (link : Link Client) (banlist : List Ban) (param : List Char) : List Ban :=
  (strtok ' ' (param.drop 1)).foldl (fun bans ban => addBurstBan link (link.world.banMask ban) bans) banlist

/-- What `netride_modes` finds in the modes of a burst. -/
structure RideCheck where
  key : Bool
  inviteOnly : Bool
  regOnly : Bool
  deriving DecidableEq, Repr

/-- `netride_modes`; there is none for a text that takes modes away. -/
def netrideModes (currKey : List Char) : RideCheck → List Char → List (List Char) → Option RideCheck
  | result, [], _ => some result
  | result, c :: modes, args =>
    if c = '-' then none
    else if c = 'i' then netrideModes currKey { result with inviteOnly := true } modes args
    else if c = 'k' then
      netrideModes currKey { result with key := result.key || currKey ≠ args.headD [] } modes args.tail
    else if c = 'l' then netrideModes currKey result modes args.tail
    else if c = 'r' then netrideModes currKey { result with regOnly := true } modes args
    else netrideModes currKey result modes args

def isNetRider (link : Link Client) (check : RideCheck) (m : Membership Client) : Bool :=
  link.myUser m.user && !m.status.zombie &&
    (check.key || check.inviteOnly && !link.isAnOper m.user || check.regOnly && !link.isAccount m.user)

/-- `sub1_from_channel` for the last member; there is no channel if it is destroyed. -/
def lastGone (oplevels : Bool) (chan : Channel Client) : Option (Channel Client) :=
  let mode := { chan.mode with mode := chan.mode.mode.without (.only .inviteOnly), limit := 0 }
  if chan.mode.apass = [] then
    if oplevels then some { chan with mode := { mode with mode := .none, key := [] }, members := [], banlist := [] }
    else none
  else some { chan with mode := mode, members := [] }

def checkDelayedJoins (chan : Channel Client) : Channel Client :=
  if chan.members.any (·.status.delayed) then chan
  else { chan with mode := { chan.mode with mode := chan.mode.mode.without (.only .wasDelJoins) } }

/-- `remove_member_from_channel` for some of the members. -/
def dropMembers (gone : Membership Client → Bool) (chan : Channel Client) : Channel Client :=
  let left := { chan with members := chan.members.filter fun m => !gone m }
  if chan.members.any fun m => gone m && m.status.delayed then checkDelayedJoins left else left

def kickNetRiders (link : Link Client) (check : RideCheck) (chan : Channel Client) : Option (Channel Client) :=
  if !chan.members.any (isNetRider link check) then some chan
  else if chan.members.all fun m => isNetRider link check m || m.status.zombie then
    lastGone link.oplevels (dropMembers (fun _ => true) chan)
  else some (dropMembers (isNetRider link check) chan)

/-- The part of `ms_burst` against net riders; an error is a line that is not read any further. -/
def netRide (link : Link Client) (chan : Channel Client) (params : List (List Char)) :
    Except (Option (Channel Client)) (Option (Channel Client)) :=
  match params.dropWhile (peek · ≠ '+') with
  | [] => .ok (some chan)
  | modes :: args =>
    match netrideModes chan.mode.key ⟨false, false, false⟩ modes args with
    | none => .error (if chan.members = [] then lastGone link.oplevels chan else some chan)
    | some check => .ok (kickNetRiders link check chan)

/-- The channel that `get_channel` creates for a server. -/
def newChannel : Channel Client := ⟨0, ⟨.none, 0, [], [], []⟩, [], []⟩

/-- The timestamps that count, after the rule for channels without users and modes: the one of the
line and that of the channel. -/
def burstTimes (chan : Channel Client) (timestamp : Int) (params : List (List Char)) : Int × Int :=
  if chan.creationTime = 0 then (timestamp, chan.creationTime)
  else if params = [] then
    if timestamp < chan.creationTime ∧ chan.creationTime ≤ timestamp + 4 ∧ chan.members ≠ [] then
      (chan.creationTime, chan.creationTime)
    else (timestamp, chan.creationTime)
  else if chan.creationTime < timestamp ∧ timestamp ≤ chan.creationTime + 4 ∧ chan.members = [] then
    (timestamp, timestamp)
  else (timestamp, chan.creationTime)

/-- The flags of `mode_parse`; there is a mode buffer if modes are set. -/
def burstParseFlags (set wipeout : Bool) : ParseFlags := ⟨set, true, true, wipeout, false, set⟩

structure BurstState (Client : Type) where
  chan : Channel Client
  entries : List (Entry Client)

def burstParams [DecidableEq Client] (link : Link Client) (set wipeout : Bool) :
    Nat → BurstState Client → List (List Char) → BurstState Client
  | 0, st, _ => st
  | _, st, [] => st
  | fuel + 1, st, param :: rest =>
    if peek param = '+' then
      let parsed := (modeParse link.world false (burstParseFlags set wipeout) st.chan param rest).1
      burstParams link set wipeout fuel { st with chan := parsed.chan } parsed.args
    else if peek param = '%' then
      let banlist := if set then readBans link st.chan.banlist param else st.chan.banlist
      burstParams link set wipeout fuel { st with chan := { st.chan with banlist := banlist } } rest
    else
      let entries := readNicks link (baseMode (st.chan.mode.mode .delJoins)) set param
      burstParams link set wipeout fuel
        ⟨{ st.chan with members := entries.foldl joinMember st.chan.members }, st.entries ++ entries⟩ rest

/-- `~(CHFL_BURST_JOINED|CHFL_BURST_ALREADY_OPPED|CHFL_BURST_ALREADY_VOICED)`. -/
def Status.unjoined (s : Status) : Status := { s with burstJoined := false, alreadyOpped := false, alreadyVoiced := false }

def Status.wiped (s : Status) : Status := { s with chanop := false, voice := false, deopped := true }

def prepare (wipeout : Bool) (timestamp : Int) (chan : Channel Client) : Channel Client :=
  let members := chan.members.map fun m => { m with status := m.status.unjoined }
  let flags := if chan.creationTime = 0 then chan.mode.mode.or (.only .burstAdded) else chan.mode.mode
  if wipeout then
    { creationTime := timestamp
      mode := { chan.mode with mode := fun f => flags f && (f = .burstAdded || f = .wasDelJoins) }
      members := members
      banlist := chan.banlist.map fun ban => { ban with flags := { ban.flags with burstWipeout := true } } }
  else { chan with mode := { chan.mode with mode := flags }, members := members }

def cleanUp (set wipeout : Bool) (chan : Channel Client) : Channel Client :=
  if set then
    { chan with
      members := chan.members.map fun m =>
        if !m.status.burstJoined && wipeout then { m with status := m.status.wiped } else m
      banlist := (chan.banlist.filter fun ban => !(ban.flags.overlapped || ban.flags.burstWipeout)).map Ban.onlyIpMask }
  else chan

/-- `ms_burst` behind its checks: the parameters of the line after the timestamp. -/
def readBurst [DecidableEq Client] (link : Link Client) (chan : Channel Client) (timestamp : Int)
    (params : List (List Char)) : BurstState Client :=
  let wipeout : Bool := chan.creationTime = 0 || chan.creationTime > timestamp
  let set : Bool := wipeout || chan.creationTime = timestamp
  let st := burstParams link set wipeout params.length ⟨prepare wipeout timestamp chan, []⟩ params
  ⟨cleanUp set wipeout st.chan, st.entries⟩

def isChannelName (name : List Char) : Bool := peek name = '#' || peek name = '&'

/-- `ms_burst`, for the channel that the line names: what becomes of it and the users that the
line lists. -/
def msBurst [DecidableEq Client] (link : Link Client) (chan : Option (Channel Client)) (parv : List (List Char)) :
    Option (Channel Client) × List (Entry Client) :=
  match parv with
  | name :: ts :: params =>
    if isChannelName name then
      let found := chan.getD newChannel
      let times := burstTimes found (atoi ts) params
      let found := { found with creationTime := times.2 }
      if found.creationTime = 0 ∨ found.creationTime > times.1 then
        match netRide link found params with
        | .error gone => (gone, [])
        | .ok left =>
          let result := readBurst link (left.getD newChannel) times.1 params
          (some result.chan, result.entries)
      else
        let result := readBurst link found times.1 params
        (some result.chan, result.entries)
    else (chan, [])
  | _ => (chan, [])

end Ircd.Channels

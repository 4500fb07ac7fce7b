import Ircd.Channels.Timestamps
import Ircd.Channels.FindBan

/-! Whether a member is banned, as its flags remember it.

`is_banned` leaves what it finds in two bits of the membership. What changes the bans of a channel or
the names and hosts of a user takes the first of them away, so that the next one looks again.
-/

set_option autoImplicit false

namespace Ircd.Channels
open Ircd.Text

structure CacheBits where
  banValid : Bool
  banned : Bool
  deriving DecidableEq, Repr

/-- A channel with the bits of its members; those of other users mean nothing. -/
structure Room (Client : Type) where
  chan : Channel Client
  bits : Client → CacheBits

/-- The build, `FEAT_HOST_HIDING`, `FEAT_OPLEVELS`, `FEAT_HIDDEN_HOST`, and what the parsers ask. -/
structure Settings (Client : Type) where
  ddb : Bool
  hostHiding : Bool
  oplevels : Bool
  hidden : CString
  link : Link Client

structure Crowd (Chan Client : Type) where
  myUser : Client → Bool
  user : Client → UserView
  room : Chan → Room Client

section
variable {Client : Type} [DecidableEq Client]

def Room.setBits (room : Room Client) (client : Client) (bits : CacheBits) : Room Client :=
  { room with bits := Function.update room.bits client bits }

theorem Room.bits_setBits (room : Room Client) (client u : Client) (bits : CacheBits) :
    (room.setBits client bits).bits u = if u = client then bits else room.bits u := by
  simp only [Room.setBits, Function.update_apply]

def Room.clearBanValid (room : Room Client) (client : Client) : Room Client :=
  room.setBits client { room.bits client with banValid := false }

def Room.invalidate (room : Room Client) : Room Client :=
  { room with
    bits := fun client =>
      if room.chan.members.any (·.user = client) then { room.bits client with banValid := false } else room.bits client }

/-- `add_user_to_channel`, whose flags have neither of the bits. -/
def Room.join (room : Room Client) (client : Client) (status : Status) : Room Client :=
  { room.setBits client ⟨false, false⟩ with chan := addUser client status room.chan }

def Room.leave (conf : Settings Client) (room : Room Client) (client : Client) : Room Client :=
  { room with chan := (removeUser conf.oplevels client room.chan).getD newChannel }

def Room.makeZombie (room : Room Client) (client : Client) : Room Client :=
  { room with
    chan := { room.chan with
      members := room.chan.members.map fun m =>
        if m.user = client then { m with status := { m.status with zombie := true } } else m } }

/-- The bans of a MODE: `mode_parse_ban` for each of them, then `mode_process_bans`. -/
def Room.modeBans (conf : Settings Client) (room : Room Client) (limits : Limits) (items : List BanItem)
    (ending : Ending) : Room Client :=
  let covers := bmatch conf.link.mmatch
  let banlist := (parseBans covers limits room.chan.banlist items ending).1.map Cell.ban
  let room' : Room Client := { room with chan := { room.chan with banlist } }
  match ending with
  | .processed set bounce =>
    let cells := items.foldl (linkBan covers) (baseCells room.chan.banlist items)
    if items ≠ [] ∧ 0 < (processBans limits set bounce cells).changed then room'.invalidate else room'
  | _ => room'

/-- `CLEARMODE` for bans, operators and voices. -/
def Room.clearMode (room : Room Client) (bans chanops voices : Bool) : Room Client :=
  let clear (m : Membership Client) : Membership Client :=
    if m.status.zombie then m
    else
      { m with status := { m.status with
          chanop := m.status.chanop && !chanops
          voice := m.status.voice && !voices } }
  { chan := { room.chan with
      members := room.chan.members.map clear
      banlist := if bans then [] else room.chan.banlist }
    bits := fun client =>
      if bans && room.chan.members.any (fun m => m.user = client && !m.status.zombie) then
        { room.bits client with banValid := false }
      else room.bits client }

/-- A parameter of a BURST, once it is read: the bans among its modes, its masks or its nicks. -/
inductive BurstParam (Client : Type) where
  | modes (items : List BanItem)
  | bans (masks : List (List Char))
  | clients (entries : List (Entry Client))

/-- The channel as the parameters are read, and whether `banstr` has a ban. -/
structure BurstWalk (Client : Type) where
  room : Room Client
  banpos : Bool

def BurstWalk.readMask (link : Link Client) (w : BurstWalk Client) (mask : List Char) : BurstWalk Client :=
  let banlist := addBurstBan link mask w.room.chan.banlist
  { room := { w.room with chan := { w.room.chan with banlist } }
    banpos := w.banpos || banlist.length ≠ w.room.chan.banlist.length }

def Room.readEntry (room : Room Client) (e : Entry Client) : Room Client :=
  { (if room.chan.members.any (·.user = e.user) then room else room.setBits e.user ⟨false, false⟩) with
    chan := { room.chan with members := joinMember room.chan.members e } }

def BurstWalk.readParam (conf : Settings Client) (set : Bool) (w : BurstWalk Client) : BurstParam Client → BurstWalk Client
  | .modes items =>
    let ending : Ending := if set then .processed true false else .unbuffered
    { w with room := w.room.modeBans conf ⟨false, 0, 0⟩ items ending }
  | .bans masks => if set then masks.foldl (BurstWalk.readMask conf.link) w else w
  | .clients entries => { w with room := entries.foldl Room.readEntry w.room }

/-- The two timestamps that `ms_burst` compares: whether the line wipes out, and whether it sets. -/
def burstRule (chan : Channel Client) (timestamp : Int) : Bool × Bool :=
  let wipeout : Bool := chan.creationTime = 0 || chan.creationTime > timestamp
  (wipeout, wipeout || chan.creationTime = timestamp)

/-- The loop of `ms_burst` over its parameters; the net riders are gone already. -/
def Room.readBurst (conf : Settings Client) (room : Room Client) (timestamp : Int) (params : List (BurstParam Client)) :
    BurstWalk Client :=
  let rule := burstRule room.chan timestamp
  params.foldl (BurstWalk.readParam conf rule.2) ⟨{ room with chan := prepare rule.1 timestamp room.chan }, false⟩

/-- `ms_burst` behind the rule for channels without users. -/
def Room.timedBurst (conf : Settings Client) (room : Room Client) (timestamp : Int)
    (params : List (BurstParam Client)) : Room Client :=
  let rule := burstRule room.chan timestamp
  let w := room.readBurst conf timestamp params
  let left := if rule.1 || w.banpos then w.room.invalidate else w.room
  { left with chan := cleanUp rule.2 rule.1 left.chan }

/-- The channel with the creation time that counts, and the timestamp that does. Of the parameters the
rule asks only whether there are any. -/
def Room.timed (room : Room Client) (timestamp : Int) (params : List (BurstParam Client)) : Room Client × Int :=
  let times := burstTimes room.chan timestamp (params.map fun _ => [])
  ({ room with chan := { room.chan with creationTime := times.2 } }, times.1)

def Room.burst (conf : Settings Client) (room : Room Client) (timestamp : Int) (params : List (BurstParam Client)) :
    Room Client :=
  (room.timed timestamp params).1.timedBurst conf (room.timed timestamp params).2 params

end

structure NickName where
  text : CString
  fits : text.chars.length ≤ nickLen
  plain : '@' ∉ text.chars

structure AccountName where
  text : CString
  fits : text.chars.length ≤ accountLen

def UserView.rename (cptr : UserView) (nick : NickName) : UserView :=
  { cptr with nick := nick.text, nick_fits := nick.fits, nick_plain := nick.plain }

def UserView.setAccount (cptr : UserView) (account : AccountName) : UserView :=
  { cptr with account := account.text, account_fits := account.fits }

theorem nul_accountHost (hidden account : CString) : nul ∉ accountHost hidden account := by
  intro mem
  rcases List.mem_append.mp (List.mem_of_mem_take mem) with there | there
  · exact account.nul_free there
  · rcases List.mem_cons.mp there with dot | there
    · exact absurd dot (by decide)
    · exact hidden.nul_free there

theorem byte_accountHost (hidden account : CString) : ∀ c ∈ accountHost hidden account, c.toNat < 256 := by
  intro c mem
  rcases List.mem_append.mp (List.mem_of_mem_take mem) with there | there
  · exact account.byte c there
  · rcases List.mem_cons.mp there with rfl | there
    · decide
    · exact hidden.byte c there

theorem accountHost_fits (hidden account : CString) : (accountHost hidden account).length ≤ Ircd.Auth.hostLen :=
  (List.length_take_le _ _).trans (Nat.sub_le _ _)

def UserView.hide (hidden : CString) (cptr : UserView) : UserView :=
  if cptr.hiddenHost && cptr.isAccount then
    { cptr with
      host := ⟨accountHost hidden cptr.account, nul_accountHost hidden cptr.account, byte_accountHost hidden cptr.account⟩
      host_fits := accountHost_fits hidden cptr.account }
  else cptr

theorem UserView.hide_hiddenHost (hidden : CString) (cptr : UserView) :
    (cptr.hide hidden).hiddenHost = cptr.hiddenHost := by
  unfold UserView.hide
  split <;> rfl

theorem UserView.hide_of_shown (hidden : CString) {cptr : UserView} (shown : cptr.hiddenHost = false) :
    cptr.hide hidden = cptr := by
  unfold UserView.hide
  rw [shown, Bool.false_and]
  exact if_neg Bool.false_ne_true

/-- A letter of a user mode. `account` is the argument of `r`, as it is copied. -/
inductive UserLetter where
  | r (add : Bool) (account : Option AccountName)
  | x (add : Bool)
  | other

structure UserModes where
  isAccount : Bool
  doHostHiding : Bool
  account : Option AccountName

section
variable {Chan Client : Type} [DecidableEq Chan] [DecidableEq Client] (conf : Settings Client)

def readLetter (ddb : Bool) (modes : UserModes) : UserLetter → UserModes
  | .r add account =>
    if ddb then { modes with isAccount := add }
    else
      match add, account with
      | true, some account => { modes with isAccount := true, account := some account }
      | _, _ => modes
  | .x add => if add then { modes with doHostHiding := true } else modes
  | .other => modes

def readLetters (ddb trusted : Bool) (old : UserView) (letters : List UserLetter) : UserModes :=
  let modes := letters.foldl (readLetter ddb) ⟨old.isAccount, false, none⟩
  if !trusted && !old.isAccount then { modes with isAccount := false } else modes

namespace Crowd
variable (s : Crowd Chan Client)

def setRoom (c : Chan) (room : Room Client) : Crowd Chan Client := { s with room := Function.update s.room c room }

def setUser (u : Client) (view : UserView) : Crowd Chan Client := { s with user := Function.update s.user u view }

omit [DecidableEq Client] in
theorem room_setRoom (c d : Chan) (room : Room Client) :
    (s.setRoom c room).room d = if d = c then room else s.room d := by
  simp only [setRoom, Function.update_apply]

omit [DecidableEq Chan] in
theorem user_setUser (u v : Client) (view : UserView) :
    (s.setUser u view).user v = if v = u then view else s.user v := by
  simp only [setUser, Function.update_apply]

/-- `ClearBanValid` for all channels of a user. -/
def clearBanValid (u : Client) : Crowd Chan Client := { s with room := fun c => (s.room c).clearBanValid u }

def findBan (c : Chan) (u : Client) : Option Ban := Channels.findBan conf.hidden (s.user u) (s.room c).chan.banlist

def isBanned (c : Chan) (u : Client) : Crowd Chan Client × Bool :=
  let bits := (s.room c).bits u
  if bits.banValid then (s, bits.banned)
  else
    let banned := (s.findBan conf c u).isSome
    (s.setRoom c ((s.room c).setBits u ⟨true, banned⟩), banned)

/-- The part of `set_nick_name` for a change of nick that is allowed. -/
def setNickName (u : Client) (nick : NickName) : Crowd Chan Client :=
  (if s.myUser u then s.clearBanValid u else s).setUser u ((s.user u).rename nick)

def hideHost (u : Client) : Crowd Chan Client :=
  if s.myUser u && !conf.hostHiding then s
  else s.setUser u (UserView.hide conf.hidden { s.user u with hiddenHost := true })

def hideAccount (u : Client) : Crowd Chan Client :=
  (s.clearBanValid u).setUser u (UserView.hide conf.hidden { s.user u with isAccount := true })

def msAccount (u : Client) (account : AccountName) : Crowd Chan Client :=
  if (s.user u).isAccount then s else (s.setUser u ((s.user u).setAccount account)).hideAccount conf u

/-- `set_user_mode`; `trusted` is a change by a server or by SVSMODE. -/
def setUserMode (u : Client) (trusted : Bool) (letters : List UserLetter) : Crowd Chan Client :=
  let old := s.user u
  let modes := readLetters conf.ddb trusted old letters
  let view := { old with isAccount := modes.isAccount }
  let view :=
    if !conf.ddb && !old.isAccount && modes.isAccount then
      match modes.account with
      | some account => view.setAccount account
      | none => view
    else view
  let s := s.setUser u view
  if !old.hiddenHost && modes.doHostHiding then s.hideHost conf u else s

/-- `nickreg_clear_mode`, when a nick is dropped from the table of nicks. -/
def nickregClearMode (u : Client) : Crowd Chan Client := s.setUser u { s.user u with isAccount := false }

end Crowd

inductive CacheEvent (Chan Client : Type) where
  | isBanned (c : Chan) (u : Client)
  | join (c : Chan) (u : Client) (status : Status)
  | leave (c : Chan) (u : Client)
  | makeZombie (c : Chan) (u : Client)
  | mode (c : Chan) (limits : Limits) (items : List BanItem) (ending : Ending)
  | burst (c : Chan) (timestamp : Int) (params : List (BurstParam Client))
  | clearMode (c : Chan) (bans chanops voices : Bool)
  | nick (u : Client) (nick : NickName)
  | account (u : Client) (account : AccountName)
  | userMode (u : Client) (trusted : Bool) (letters : List UserLetter)
  | nickDropped (u : Client)

def Crowd.step (s : Crowd Chan Client) : CacheEvent Chan Client → Crowd Chan Client
  | .isBanned c u => (s.isBanned conf c u).1
  | .join c u status => s.setRoom c ((s.room c).join u status)
  | .leave c u => s.setRoom c ((s.room c).leave conf u)
  | .makeZombie c u => s.setRoom c ((s.room c).makeZombie u)
  | .mode c limits items ending => s.setRoom c ((s.room c).modeBans conf limits items ending)
  | .burst c timestamp params => s.setRoom c ((s.room c).burst conf timestamp params)
  | .clearMode c bans chanops voices => s.setRoom c ((s.room c).clearMode bans chanops voices)
  | .nick u nick => s.setNickName u nick
  | .account u account => s.msAccount conf u account
  | .userMode u trusted letters => s.setUserMode conf u trusted letters
  | .nickDropped u => s.nickregClearMode u

def Crowd.run (s : Crowd Chan Client) (events : List (CacheEvent Chan Client)) : Crowd Chan Client :=
  events.foldl (Crowd.step conf) s

end

end Ircd.Channels

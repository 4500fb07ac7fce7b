import Ircd.Channels.Burst
import Ircd.Numnicks.Base64

/-! `send_channel_modes`: the BURST lines of a channel.

The members go out in four passes, with and without voice and op; the ops stand in the order of
their levels, so that only increments are sent. A line that is full is continued by the next.
-/

set_option autoImplicit false

namespace Ircd.Channels
open Ircd.Text Ircd.Numnicks

variable {Client : Type}

/-- The numeric of a user, as `%C` writes it. -/
structure NumNick (text : List Char) : Prop where
  nonempty : text ≠ []
  short : text.length ≤ 5
  digits : ∀ c ∈ text, c ∈ convert2y

structure Sender (Client : Type) where
  server : List Char
  chname : List Char
  numnick : Client → List Char
  chan : Channel Client
  server_short : server.length ≤ 2
  server_word : ' ' ∉ server
  chname_short : chname.length ≤ 200
  chname_global : peek chname = '#'
  chname_word : ' ' ∉ chname
  time_pos : 0 < chan.creationTime
  time_lt : chan.creationTime < 2 ^ 31
  valid : chan.mode.Valid
  nodup : (chan.members.map (·.user)).Nodup
  numnicks : ∀ m ∈ chan.members, NumNick (numnick m.user)
  levels : ∀ m ∈ chan.members, m.status.chanop = true → m.opLevel ≤ maxOpLevel
  bans : ∀ ban ∈ chan.banlist, ban.banstr.length ≤ 90

/-- What `qsort` does with the ops: a sorted list of the same, in any order where levels are equal. -/
structure Qsort (Client : Type) where
  sort : List (Membership Client) → List (Membership Client)
  perm : ∀ ops, (sort ops).Perm ops
  sorted : ∀ ops, (sort ops).Pairwise fun a b => a.opLevel ≤ b.opLevel

def mergeQsort : Qsort Client where
  sort ops := ops.mergeSort fun a b => a.opLevel ≤ b.opLevel
  perm ops := List.mergeSort_perm ops _
  sorted ops := by
    have sorted : (ops.mergeSort fun a b => a.opLevel ≤ b.opLevel).Pairwise fun a b => decide (a.opLevel ≤ b.opLevel) = true := by
      apply List.pairwise_mergeSort
      · intro a b c
        simpa using Nat.le_trans
      · intro a b
        simpa using Nat.le_total a.opLevel b.opLevel
    simpa using sorted

def currentFlags : Nat → Bool × Bool
  | 0 => (false, false)
  | 1 => (false, true)
  | 2 => (true, false)
  | _ => (true, true)

/-- Where the passes stand: `member` is the member to look at with those behind it. -/
structure Cursor (Client : Type) where
  flagCnt : Nat
  member : List (Membership Client)
  opped : List (Membership Client)
  newMode : Bool
  lastOplevel : Nat
  sendOplevels : Bool

def bufleft (mb : List Char) : Nat := lineLen - mb.length

def Cursor.meet (cur : Cursor Client) (m : Membership Client) : Cursor Client :=
  if cur.flagCnt < 2 && m.status.chanop then
    { cur with
      opped := if cur.flagCnt = 0 then cur.opped else cur.opped ++ [m]
      sendOplevels := cur.sendOplevels || m.opLevel < maxOpLevel }
  else cur

def absoluteFlags (sendOplevels : Bool) (m : Membership Client) : List Char :=
  ':' :: ((if m.status.voice then ['v'] else []) ++
    if m.status.chanop then if sendOplevels then Nat.toDigits 10 m.opLevel else ['o'] else [])

def Cursor.put (cur : Cursor Client) (m : Membership Client) : List Char × Cursor Client :=
  if cur.newMode then
    (absoluteFlags cur.sendOplevels m,
      { cur with
        newMode := false
        lastOplevel := if m.status.chanop && cur.sendOplevels then m.opLevel else cur.lastOplevel })
  else if cur.sendOplevels && 1 < cur.flagCnt && cur.lastOplevel ≠ m.opLevel then
    (':' :: Nat.toDigits 10 ((m.opLevel + 2 ^ 32 - cur.lastOplevel) % 2 ^ 32), { cur with lastOplevel := m.opLevel })
  else ([], cur)

structure OutLine where
  mb : List Char
  first : Bool

def putMembers (numnick : Client → List Char) :
    List (Membership Client) → Cursor Client → OutLine → Bool × Cursor Client × OutLine
  | [], cur, line => (false, { cur with member := [] }, line)
  | m :: rest, cur, line =>
    let cur := cur.meet m
    if (m.status.chanop, m.status.voice) = currentFlags cur.flagCnt then
      if bufleft line.mb < 11 then (true, { cur with member := m :: rest, newMode := 0 < cur.flagCnt }, line)
      else
        let (flags, cur) := cur.put m
        putMembers numnick rest cur
          ⟨line.mb ++ (if line.first then ' ' else ',') :: (numnick m.user ++ flags), false⟩
    else putMembers numnick rest cur line

def Cursor.nextPass (qsort : Qsort Client) (members : List (Membership Client)) (cur : Cursor Client) : Cursor Client :=
  let opped := if cur.flagCnt = 1 then qsort.sort cur.opped else cur.opped
  { cur with
    flagCnt := cur.flagCnt + 1
    member := if cur.flagCnt = 0 then members else opped
    opped := opped
    newMode := true }

def putPasses (qsort : Qsort Client) (numnick : Client → List Char) (members : List (Membership Client)) :
    Nat → Cursor Client → OutLine → Bool × Cursor Client × OutLine
  | 0, cur, line => (false, cur, line)
  | passes + 1, cur, line =>
    match putMembers numnick cur.member cur line with
    | (true, cur, line) => (true, cur, line)
    | (false, cur, line) => putPasses qsort numnick members passes (cur.nextPass qsort members) line

def putBans : Bool → List Ban → List Char → List Ban × List Char
  | _, [], mb => ([], mb)
  | first, ban :: rest, mb =>
    if bufleft mb < ban.banstr.length + 1 + (if first then 2 else 0) then (ban :: rest, mb)
    else putBans false rest (mb ++ ' ' :: ((if first then [':', '%'] else []) ++ ban.banstr))

def Sender.header (s : Sender Client) : List Char :=
  s.server ++ [' ', 'B', ' '] ++ s.chname ++ ' ' :: Nat.toDigits 10 s.chan.creationTime.toNat

def Sender.modes (s : Sender Client) : List Char :=
  let (modebuf, parabuf) := channelModes forServer s.chan.mode
  if modebuf.length ≤ 1 then []
  else ' ' :: modebuf ++ if parabuf = [] then [] else ' ' :: parabuf

def sendLines (qsort : Qsort Client) (s : Sender Client) :
    Nat → Bool → Cursor Client → List Ban → Option (List (List Char))
  | 0, _, _, _ => none
  | fuel + 1, first, cur, bans =>
    let mb := s.header ++ if first then s.modes else []
    let (full, cur, line) := putPasses qsort s.numnick s.chan.members (4 - cur.flagCnt) cur ⟨mb, true⟩
    if full then (sendLines qsort s fuel false cur bans).map (line.mb :: ·)
    else
      let (bans, mb) := putBans true bans line.mb
      if bans = [] then some [mb] else (sendLines qsort s fuel false cur bans).map (mb :: ·)

def Sender.start (s : Sender Client) : Cursor Client := ⟨0, s.chan.members, [], false, 0, false⟩

/-- `send_channel_modes`: the lines, as they are sent. -/
def sendChannelModes (qsort : Qsort Client) (s : Sender Client) (fuel : Nat) : Option (List (List Char)) :=
  sendLines qsort s fuel true s.start s.chan.banlist

end Ircd.Channels

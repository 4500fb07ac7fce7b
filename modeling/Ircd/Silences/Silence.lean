import Ircd.Channels.BanCover
import Ircd.Library.Chain

/-! `m_silence.c`: a list of silences and the updates to it.

The list is chained through `next`, and the updates of a line are linked into it before the
limits are looked at. A ban is named by when it was made: memory that `free_bans` gives out
again has a new name.
-/

set_option autoImplicit false

namespace Ircd.Silences

open Ircd.Channels Ircd.Library Ircd.Net
open Ircd.Auth (userLen hostLen)

def cutStart (max : Nat) (part : List Char) : List Char :=
  if part.length > max then '*' :: part.drop (part.length - max + 1) else part

/-- `pretty_mask`: the cases are those of the first `!` or `@`. -/
def prettyMask (mask : List Char) : List Char :=
  let (nick, user, host) :=
    match mask.span (fun c => c ≠ '!' && c ≠ '@') with
    | (nick, '!' :: rest) =>
      if '@' ∈ rest then (nick.take nickLen, cutStart userLen (nuPart rest), cutStart hostLen (hostPart rest))
      else (nick.take nickLen, cutStart userLen rest, ['*'])
    | (_, _ :: _) => (['*'], cutStart userLen (nuPart mask), cutStart hostLen (hostPart mask))
    | (_, []) =>
      if '.' ∈ mask ∨ ':' ∈ mask then (['*'], ['*'], cutStart hostLen mask)
      else (mask.take nickLen, ['*'], ['*'])
  nick ++ '!' :: user ++ '@' :: host

def splitUpdate (token : List Char) : Bool × Bool × List Char :=
  let (del, mask) : Bool × List Char :=
    match token with
    | '-' :: mask => (true, mask)
    | '+' :: mask => (false, mask)
    | mask => (false, mask)
  match mask with
  | '~' :: mask => (del, true, mask)
  | mask => (del, false, mask)

/-- The ban of an update, before `apply_ban`. -/
def readUpdate (token : List Char) : Ban :=
  let (del, exception, mask) := splitUpdate token
  let banstr := prettyMask mask
  ⟨banstr, [], 0, ⟨(banAddress banstr).isSome, false, exception, del, !del, false, false⟩⟩

def origMask (token : List Char) : List Char := (splitUpdate token).2.2.take (nickLen + userLen + hostLen + 2)

/-- The test of `apply_silence` on the updates of local users. -/
def tooWide (ban : Ban) : Bool :=
  match banAddress ban.banstr with
  | some mask => 0 < mask.pbits.getD 0 && mask.pbits.getD 0 < if mask.ip.isIpv4 then 112 else 32
  | none => false

def tokens (silences : List Char) : List (List Char) := (silences.splitOn ',').filter (· ≠ [])

abbrev Ptr := Nat

structure Memory where
  ban : Ptr → Ban
  next : Ptr → Option Ptr
  silence : Option Ptr
  freeBans : Option Ptr
  made : Nat
  freed : List Ptr

namespace Memory

/-- The bans that a loop over the list goes through: no chain is longer than the number of bans
that were made. -/
def list (s : Memory) : List Ptr := walk s.next s.made s.silence

def makeBan (s : Memory) (ban : Ban) : Memory :=
  { s with
    ban := Function.update s.ban s.made ban
    next := Function.update s.next s.made none
    made := s.made + 1 }

def freeBan (s : Memory) (p : Ptr) : Memory :=
  { s with
    next := Function.update s.next p s.freeBans
    freeBans := some p
    freed := s.freed ++ [p] }

def setFlags (s : Memory) (p : Ptr) (flags : BanFlags) : Memory :=
  { s with ban := Function.update s.ban p { s.ban p with flags } }

def mark (s : Memory) (p : Ptr) : Memory := s.setFlags p { (s.ban p).flags with overlapped := true, del := true }

/-- `*plast`, where no `plast` stands for the head of the list. -/
def load (s : Memory) : Option Ptr → Option Ptr
  | none => s.silence
  | some p => s.next p

def store (s : Memory) (plast : Option Ptr) (p : Option Ptr) : Memory :=
  match plast with
  | none => { s with silence := p }
  | some q => { s with next := Function.update s.next q p }

section
variable (s : Memory) (plast p : Option Ptr)

@[simp] theorem ban_store : (s.store plast p).ban = s.ban := by cases plast <;> rfl

@[simp] theorem made_store : (s.store plast p).made = s.made := by cases plast <;> rfl

@[simp] theorem freed_store : (s.store plast p).freed = s.freed := by cases plast <;> rfl

@[simp] theorem freeBans_store : (s.store plast p).freeBans = s.freeBans := by cases plast <;> rfl

end

end Memory

section
variable (covers : Ban → Ban → Bool)

/-- The loops of `apply_ban` that mark what a ban covers. -/
def markCovered (s : Memory) (newban : Ptr) : Memory :=
  s.list.foldl (fun s p => if covers (s.ban newban) (s.ban p) then s.mark p else s) s

/-- `apply_ban`, which frees the ban on failure; whether it was applied. -/
def applyBan (s : Memory) (newban : Ptr) : Memory × Bool :=
  if (s.ban newban).flags.add then
    if s.list.any fun p => covers (s.ban p) (s.ban newban) && !(s.ban p).flags.del then (s.freeBan newban, false)
    else ((markCovered covers s newban).store s.list.getLast? (some newban), true)
  else if s.list.any fun p => covers (s.ban newban) (s.ban p) then (markCovered covers s newban, true)
  else (s.freeBan newban, false)

inductive Reply where
  | maskTooWide (mask : List Char)
  | sileListFull (banstr : List Char)
  deriving DecidableEq

def maxPara : Nat := 15

/-- The first loop of `forward_silences`, over `apply_silence`. -/
def applySilences (myUser : Bool) :
    List (List Char) → Memory → List Ptr → List Reply → Memory × List Ptr × List Reply
  | [], s, accepted, replies => (s, accepted, replies)
  | cp :: rest, s, accepted, replies =>
    if accepted.length < maxPara then
      let sile := s.made
      let s := s.makeBan (readUpdate cp)
      if myUser && tooWide (s.ban sile) then
        applySilences myUser rest (s.freeBan sile) accepted (replies ++ [.maskTooWide (origMask cp)])
      else
        match applyBan covers s sile with
        | (s, true) => applySilences myUser rest s (accepted ++ [sile]) replies
        | (s, false) => applySilences myUser rest s accepted replies
    else (s, accepted, replies)

end

structure Features where
  maxSiles : Nat
  avBanLen : Nat

/-- The loops over the limits: the number and length of the silences, where the next one is to
be linked and the updates that stay. -/
structure Count where
  s : Memory
  siles : Nat := 0
  totlength : Nat := 0
  plast : Option Ptr := none
  accepted : List Ptr := []
  replies : List Reply := []

def countSile (c : Count) (p : Ptr) : Count :=
  let ban := c.s.ban p
  if ban.flags.overlapped || ban.flags.add || ban.flags.del then c
  else { c with siles := c.siles + 1, totlength := c.totlength + ban.banstr.length, plast := some p }

def limitSile (features : Features) (c : Count) (p : Ptr) : Count :=
  let ban := c.s.ban p
  let slen := ban.banstr.length
  if !(ban.flags.overlapped || ban.flags.del) then
    if c.siles ≥ features.maxSiles || c.totlength + slen ≥ features.maxSiles * features.avBanLen then
      { c with
        s := (c.s.store c.plast none).freeBan p
        replies := c.replies ++ [.sileListFull ban.banstr] }
    else
      { c with
        siles := c.siles + 1
        totlength := c.totlength + slen
        plast := some p
        accepted := c.accepted ++ [p] }
  else { c with accepted := c.accepted ++ [p] }

def limitSiles (features : Features) (s : Memory) (accepted : List Ptr) : Count :=
  accepted.foldl (limitSile features) (s.list.foldl countSile { s })

def sweep : Nat → Memory → Option Ptr → Memory
  | 0, s, _ => s
  | fuel + 1, s, plast =>
    match s.load plast with
    | none => s
    | some sile =>
      let flags := (s.ban sile).flags
      if flags.overlapped || flags.del then sweep fuel ((s.store plast (s.next sile)).freeBan sile) plast
      else sweep fuel ((s.setFlags sile { flags with add := false }).store plast (some sile)) (some sile)

def freeRemovals (s : Memory) (accepted : List Ptr) : Memory :=
  accepted.foldl (fun s p => if (s.ban p).flags.del && !(s.ban p).flags.add then s.freeBan p else s) s

/-- `forward_silences`, without what it sends to the user and to other servers. -/
def forwardSilences (covers : Ban → Ban → Bool) (features : Features) (myUser : Bool) (s : Memory)
    (silences : List Char) : Memory × List Reply :=
  let (s, accepted, replies) := applySilences covers myUser (tokens silences) s [] []
  let c : Count := if myUser then limitSiles features s accepted else { s, accepted }
  (freeRemovals (sweep (c.s.made + 1) c.s none) c.accepted, replies ++ c.replies)

end Ircd.Silences

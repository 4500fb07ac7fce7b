import Ircd.Library.TwoWay

/-! Who is on which channel: `struct Membership` on the list of its channel and on the list of
its user, and the functions of `channel.c` that add and remove memberships.

A membership comes from the free list or from `malloc`, which may give any pointer that is not
in use: the pointer is an argument of the call and is taken when the free list is empty. The
modes, bans and invites that `sub1_from_channel` resets and the messages that are sent are
left out here.
-/

set_option autoImplicit false

namespace Ircd.Channels
open Ircd.Library

/-- Memberships `μ`, channels `χ` and users `υ`. `byChannel` holds `next_member`, `prev_member` and
the `members` of each channel; `byUser` holds `next_channel`, `prev_channel` and the `channel` of
each user. The free list is threaded on `next_member`. -/
structure Rolls (μ χ υ : Type) where
  byChannel : TwoWay χ μ
  byUser : TwoWay υ μ
  user : μ → Option υ
  channel : μ → Option χ
  zombie : μ → Bool
  users : χ → Nat
  joined : υ → Nat
  allocated : μ → Bool
  freeList : Option μ
  /-- The channels that have been created and not been destructed. -/
  live : χ → Bool
  /-- Whether a channel has an apass. -/
  apass : χ → Bool
  /-- The feature `OPLEVELS`. -/
  opLevels : Bool
  /-- `IsChannelService`. -/
  service : υ → Bool

variable {μ χ υ : Type} [DecidableEq μ] [DecidableEq χ] [DecidableEq υ]

/-- `find_member_link` for a user; the walk has `fuel` turns. -/
def findMemberLink (fuel : Nat) (s : Rolls μ χ υ) (chptr : χ) (cptr : υ) : Option (Option μ) :=
  if s.service cptr then findCell s.byChannel.next (fun m => s.user m = some cptr) fuel (s.byChannel.head chptr)
  else findCell s.byUser.next (fun m => s.channel m = some chptr) fuel (s.byUser.head cptr)

/-- The part of `sub1_from_channel` about the members: the channel is destructed at once when it
becomes empty, has no apass and op levels are not in use. -/
def sub1FromChannel (s : Rolls μ χ υ) (chptr : χ) : Rolls μ χ υ × Bool :=
  if s.users chptr > 1 then ({ s with users := Function.update s.users chptr (s.users chptr - 1) }, true)
  else
    let s := { s with users := Function.update s.users chptr 0 }
    if !s.apass chptr && !s.opLevels then ({ s with live := Function.update s.live chptr false }, false) else (s, false)

def takeMember (s : Rolls μ χ υ) (malloc : μ) : μ × Rolls μ χ υ :=
  match s.freeList with
  | some m => (m, { s with freeList := s.byChannel.next m })
  | none => (malloc, { s with allocated := Function.update s.allocated malloc true })

def addUserToChannel (s : Rolls μ χ υ) (malloc : μ) (chptr : χ) (who : υ) (zombie : Bool) : Rolls μ χ υ :=
  let (m, s) := takeMember s malloc
  let s := { s with
    user := Function.update s.user m (some who)
    channel := Function.update s.channel m (some chptr)
    zombie := Function.update s.zombie m zombie }
  { s with
    byChannel := s.byChannel.push chptr m
    byUser := s.byUser.push who m
    users := Function.update s.users chptr (s.users chptr + 1)
    joined := Function.update s.joined who (s.joined who + 1) }

/-- `remove_member_from_channel`; a membership without channel or user cannot be followed. -/
def removeMemberFromChannel (s : Rolls μ χ υ) (m : μ) : Option (Rolls μ χ υ × Bool) :=
  match s.channel m, s.user m with
  | some chptr, some cptr =>
    let s := { s with
      byChannel := s.byChannel.unlink chptr m
      byUser := s.byUser.unlink cptr m
      joined := Function.update s.joined cptr (s.joined cptr - 1) }
    let s := { s with
      byChannel := { s.byChannel with next := Function.update s.byChannel.next m s.freeList }
      freeList := some m }
    some (sub1FromChannel s chptr)
  | _, _ => none

def channelAllZombies (fuel : Nat) (s : Rolls μ χ υ) (chptr : χ) : Option Bool :=
  (findCell s.byChannel.next (fun m => !s.zombie m) fuel (s.byChannel.head chptr)).map (·.isNone)

/-- `while (remove_member_from_channel(chptr->members))`. -/
def removeMembers : Nat → Rolls μ χ υ → χ → Option (Rolls μ χ υ)
  | 0, _, _ => none
  | fuel + 1, s, chptr => do
    let m ← s.byChannel.head chptr
    let (s, more) ← removeMemberFromChannel s m
    if more then removeMembers fuel s chptr else some s

def removeUserFromChannel (fuel : Nat) (s : Rolls μ χ υ) (cptr : υ) (chptr : χ) : Option (Rolls μ χ υ) := do
  match ← findMemberLink fuel s chptr cptr with
  | none => some s
  | some m =>
    let (s, more) ← removeMemberFromChannel s m
    if more then
      let zombies ← channelAllZombies fuel s chptr
      if zombies then removeMembers fuel s chptr else some s
    else some s

/-- `remove_user_from_all_channels`: `turns` bounds the loop. -/
def removeUserFromAllChannels (fuel : Nat) : Nat → Rolls μ χ υ → υ → Option (Rolls μ χ υ)
  | 0, _, _ => none
  | turns + 1, s, cptr =>
    match s.byUser.head cptr with
    | none => some s
    | some chan => do
      let chptr ← s.channel chan
      let s ← removeUserFromChannel fuel s cptr chptr
      removeUserFromAllChannels fuel turns s cptr

/-- Who a zombie is made of, and by whom: a local user (cases b and c), a user that is behind the
server that kicks (case d), any other (case a). -/
inductive ZombieCase where
  | myUser | behindKicker | other
  deriving DecidableEq, Repr

def makeZombie (fuel : Nat) (s : Rolls μ χ υ) (member : μ) (who : υ) (chptr : χ) (which : ZombieCase) :
    Option (Rolls μ χ υ) :=
  let s := { s with zombie := Function.update s.zombie member true }
  match which with
  | .myUser => removeUserFromChannel fuel s who chptr
  | .behindKicker => removeUserFromChannel fuel s who chptr
  | .other => do
    let zombies ← channelAllZombies fuel s chptr
    if zombies then removeUserFromChannel fuel s who chptr else some s

/-- `get_channel` with `CGT_CREATE`, where `malloc` gives the pointer of a channel not in use. -/
def createChannel (s : Rolls μ χ υ) (chptr : χ) : Rolls μ χ υ :=
  { s with
    byChannel := { s.byChannel with head := Function.update s.byChannel.head chptr none }
    users := Function.update s.users chptr 0
    apass := Function.update s.apass chptr false
    live := Function.update s.live chptr true }

/-- The calls, with the pointers that `malloc` may give; empty channels are destructed by a timer,
and other code sets what the functions read. -/
inductive Call (μ χ υ : Type) where
  | create (chptr : χ)
  | destruct (chptr : χ)
  | add (malloc : μ) (chptr : χ) (who : υ) (zombie : Bool)
  | remove (cptr : υ) (chptr : χ)
  | removeAll (cptr : υ)
  | makeZombie (member : μ) (who : υ) (chptr : χ) (which : ZombieCase)
  | setApass (chptr : χ) (apass : Bool)
  | setService (cptr : υ) (service : Bool)

/-- What the callers see to: the channels exist, one that is destructed is empty, a user that is added is not on the channel, the
membership that becomes a zombie is the one of that user on that channel. -/
def Rolls.Permitted (s : Rolls μ χ υ) : Call μ χ υ → Prop
  | .create chptr => s.live chptr = false
  | .destruct chptr => s.live chptr = true ∧ s.users chptr = 0
  | .add malloc chptr who _ =>
    (s.freeList = none → s.allocated malloc = false) ∧ s.live chptr = true ∧ ∃ fuel, findMemberLink fuel s chptr who = some none
  | .remove _ chptr => s.live chptr = true
  | .removeAll _ => True
  | .makeZombie member who chptr _ =>
    s.live chptr = true ∧ ∃ fuel, findMemberLink fuel s chptr who = some (some member)
  | .setApass chptr _ => s.live chptr = true
  | .setService _ _ => True

def Rolls.call (fuel : Nat) (s : Rolls μ χ υ) : Call μ χ υ → Option (Rolls μ χ υ)
  | .create chptr => some (createChannel s chptr)
  | .destruct chptr => some { s with live := Function.update s.live chptr false }
  | .add malloc chptr who zombie => some (addUserToChannel s malloc chptr who zombie)
  | .remove cptr chptr => removeUserFromChannel fuel s cptr chptr
  | .removeAll cptr => removeUserFromAllChannels fuel fuel s cptr
  | .makeZombie member who chptr which => Channels.makeZombie fuel s member who chptr which
  | .setApass chptr apass => some { s with apass := Function.update s.apass chptr apass }
  | .setService cptr service => some { s with service := Function.update s.service cptr service }

def Rolls.init (opLevels : Bool) : Rolls μ χ υ where
  byChannel := ⟨fun _ => none, fun _ => none, fun _ => none⟩
  byUser := ⟨fun _ => none, fun _ => none, fun _ => none⟩
  user := fun _ => none
  channel := fun _ => none
  zombie := fun _ => false
  users := fun _ => 0
  joined := fun _ => 0
  allocated := fun _ => false
  freeList := none
  live := fun _ => false
  apass := fun _ => false
  opLevels := opLevels
  service := fun _ => false

inductive Rolls.Reachable : Rolls μ χ υ → Prop where
  | init (opLevels : Bool) : Rolls.Reachable (Rolls.init opLevels)
  | call {s s' : Rolls μ χ υ} {c : Call μ χ υ} {fuel : Nat} : Rolls.Reachable s → s.Permitted c →
      s.call fuel c = some s' → Rolls.Reachable s'

end Ircd.Channels

import Ircd.Channels.Timestamps
import Ircd.Library.TwoEnded

/-! `destruct_event.c`: channels that became empty and when they are destroyed, with the functions that
make a channel empty, fill it and destroy it.

Memory is named: an event or a channel that is made gets a name that is not in use. What is sent is left out.
-/

set_option autoImplicit false

namespace Ircd.Destruct
open Ircd.Channels Ircd.Library

inductive Queue where
  | minute | days
  deriving DecidableEq, Repr

/-- `struct Channel`; `users` is the number of its members. -/
structure ChannelCell (ε Client : Type) where
  chan : Channel Client
  destructEvent : Option ε

/-- The fields of the events, the ends of the lists, the channels, `TStime` and `FEAT_OPLEVELS`. -/
structure Server (ε χ Client : Type) where
  nextEvent : ε → Option ε
  prevEvent : ε → Option ε
  expires : ε → Int
  chptr : ε → χ
  allocated : ε → Bool
  top : Queue → Option ε
  bottom : Queue → Option ε
  channel : χ → Option (ChannelCell ε Client)
  now : Int
  opLevels : Bool

section
variable {ε χ Client : Type} [DecidableEq ε] [DecidableEq χ]

def Server.setChannel (s : Server ε χ Client) (c : χ) (cell : Option (ChannelCell ε Client)) : Server ε χ Client :=
  { s with channel := Function.update s.channel c cell }

def storeIf (field : ε → Option ε) (event value : Option ε) : ε → Option ε :=
  match event with
  | some event => Function.update field event value
  | none => field

/-- What the two `schedule_destruct_event` functions share; `new` is what `MyMalloc` gives. -/
def Server.schedule (q : Queue) (delay : Int) (new : ε) (chptr : χ) (s : Server ε χ Client) : Server ε χ Client :=
  match s.channel chptr with
  | none => s
  | some cell =>
    if cell.destructEvent.isSome then s
    else
      let s := { s with
        allocated := Function.update s.allocated new true
        expires := Function.update s.expires new (s.now + delay)
        nextEvent := Function.update s.nextEvent new none
        prevEvent := Function.update s.prevEvent new (s.top q)
        chptr := Function.update s.chptr new chptr }
      let s := { s with nextEvent := storeIf s.nextEvent (s.top q) (some new) }
      let s := { s with top := Function.update s.top q (some new) }
      let s := { s with bottom := if s.bottom q = none then Function.update s.bottom q (some new) else s.bottom }
      s.setChannel chptr (some { cell with destructEvent := some new })

def minuteDelay : Int := 60

def daysDelay : Int := 172800

def Queue.delay : Queue → Int
  | .minute => minuteDelay
  | .days => daysDelay

def Server.scheduleDestructEvent1m (new : ε) (chptr : χ) (s : Server ε χ Client) : Server ε χ Client :=
  s.schedule .minute minuteDelay new chptr

def Server.scheduleDestructEvent48h (new : ε) (chptr : χ) (s : Server ε χ Client) : Server ε χ Client :=
  s.schedule .days daysDelay new chptr

def Server.removeDestructEvent (chptr : χ) (s : Server ε χ Client) : Server ε χ Client :=
  match s.channel chptr with
  | none => s
  | some cell =>
    match cell.destructEvent with
    | none => s
    | some event =>
      -- unlink event
      let s := { s with nextEvent := storeIf s.nextEvent (s.prevEvent event) (s.nextEvent event) }
      let s := { s with prevEvent := storeIf s.prevEvent (s.nextEvent event) (s.prevEvent event) }
      -- correct top and bottom pointers
      let s := { s with top := fun q => if s.top q = some event then s.prevEvent event else s.top q }
      let s := { s with bottom := fun q => if s.bottom q = some event then s.nextEvent event else s.bottom q }
      let s := { s with allocated := Function.update s.allocated event false }
      s.setChannel chptr (some { cell with destructEvent := none })

def Server.destructChannel (chptr : χ) (s : Server ε χ Client) : Server ε χ Client := s.setChannel chptr none

/-- The inner loop of `exec_expired_destruct_events`, with fuel for each turn. -/
def Server.execExpired (q : Queue) : Nat → Server ε χ Client → Server ε χ Client
  | 0, s => s
  | fuel + 1, s =>
    match s.bottom q with
    | none => s
    | some event =>
      if s.now ≥ s.expires event then
        ((s.removeDestructEvent (s.chptr event)).destructChannel (s.chptr event)).execExpired q fuel
      else s

def Server.execExpiredDestructEvents (fuel : Nat) (s : Server ε χ Client) : Server ε χ Client :=
  (s.execExpired .minute fuel).execExpired .days fuel

/-- `get_channel`, for a channel that is not there: `creationtime` is `TStime` or 0. -/
def Server.createChannel (chptr : χ) (creationTime : Int) (s : Server ε χ Client) : Server ε χ Client :=
  s.setChannel chptr (some ⟨{ newChannel with creationTime := creationTime }, none⟩)

/-- `sub1_from_channel`, for a channel without members. -/
def Server.sub1FromChannel (new : ε) (chptr : χ) (s : Server ε χ Client) : Server ε χ Client :=
  match s.channel chptr with
  | none => s
  | some cell =>
    match lastGone s.opLevels cell.chan with
    | none => s.destructChannel chptr
    | some chan =>
      let s := s.setChannel chptr (some { cell with chan := chan })
      if s.now - chan.creationTime < 172800 then s.scheduleDestructEvent1m new chptr
      else s.scheduleDestructEvent48h new chptr

def Server.addUserToChannel (chptr : χ) (member : Membership Client) (s : Server ε χ Client) : Server ε χ Client :=
  match s.channel chptr with
  | none => s
  | some cell =>
    let chan := { cell.chan with members := member :: cell.chan.members }
    let s := s.setChannel chptr (some { cell with chan := chan })
    if cell.destructEvent.isSome then s.removeDestructEvent chptr else s

/-- `remove_user_from_channel`: zombies that are left alone go too. -/
def Server.removeUserFromChannel [DecidableEq Client] (new : ε) (chptr : χ) (user : Client)
    (s : Server ε χ Client) : Server ε χ Client :=
  match s.channel chptr with
  | none => s
  | some cell =>
    if !cell.chan.members.any (·.user = user) then s
    else
      let left := dropMembers (fun m => m.user = user) cell.chan
      if left.members.all (·.status.zombie) then
        let gone := dropMembers (fun _ => true) left
        (s.setChannel chptr (some { cell with chan := gone })).sub1FromChannel new chptr
      else s.setChannel chptr (some { cell with chan := left })

/-- `ms_destruct`, for a channel that is found. -/
def Server.msDestruct (chptr : χ) (chanTS : Int) (s : Server ε χ Client) : Server ε χ Client :=
  match s.channel chptr with
  | none => s
  | some cell =>
    if chanTS > cell.chan.creationTime ∨ cell.chan.members ≠ [] then s
    else if cell.destructEvent.isSome then (s.removeDestructEvent chptr).destructChannel chptr
    else s.destructChannel chptr

/-- `ms_burst`, where the modes of a line that wipes out are no modes. -/
def Server.burstRefused (new : ε) (chptr : χ) (s : Server ε χ Client) : Server ε χ Client :=
  match s.channel chptr with
  | none => s
  | some cell => if cell.chan.members = [] then s.sub1FromChannel new chptr else s

def Server.burstOver (new : ε) (chptr : χ) (s : Server ε χ Client) : Server ε χ Client :=
  match s.channel chptr with
  | none => s
  | some cell =>
    let mode := { cell.chan.mode with mode := cell.chan.mode.mode.without (.only .burstAdded) }
    let s := s.setChannel chptr (some { cell with chan := { cell.chan with mode := mode } })
    if cell.chan.members = [] ∧ cell.chan.mode.mode .burstAdded then s.sub1FromChannel new chptr else s

/-- `m_join`, where the channel that it has just created is no target for the user. -/
def Server.targetRefused (chptr : χ) (s : Server ε χ Client) : Server ε χ Client :=
  (s.createChannel chptr s.now).destructChannel chptr

/-- Whatever else is done to a channel: its modes, bans and times change, and the status of its members. -/
def Server.change (chptr : χ) (chan : Channel Client) (s : Server ε χ Client) : Server ε χ Client :=
  match s.channel chptr with
  | none => s
  | some cell => s.setChannel chptr (some { cell with chan := chan })

end

end Ircd.Destruct

import Ircd.Text.Chattr

/-! `gline.c` and `m_gline.c`: changing a global G-line and telling the other servers.

The mask is fixed, so a server's part in it is its record. Notices to operators, the log
and the clients that `do_gline` drops are left out.
-/

set_option autoImplicit false

namespace Ircd.Glines
open Ircd.Text

def GLINE_MAX_EXPIRE : Int := 604800
def PASTWATCH : Int := 157680000
def ONE_MONTH : Int := 30 * 24 * 3600

inductive GlineLocalState where
  | global
  | activated
  | deactivated
  deriving DecidableEq

inductive GlineAction where
  | activate
  | deactivate
  | localActivate
  | localDeactivate
  | modify
  deriving DecidableEq

/-- `struct Gline` of a global G-line; `active` is its flag `GLINE_ACTIVE`. -/
structure Gline where
  active : Bool
  state : GlineLocalState
  expire : Int
  lastmod : Int
  lifetime : Int
  reason : CString
  deriving DecidableEq

/-- The bits of `flags` that `gline_modify` reads. -/
structure Flags where
  expire : Bool := false
  lifetime : Bool := false
  reason : Bool := false
  force : Bool := false
  operforce : Bool := false

/-- What `gline_modify` is asked to do; zero is an absent time. -/
structure Change where
  action : GlineAction
  reason : CString
  expire : Int
  lastmod : Int
  lifetime : Int
  flags : Flags

inductive Op where
  | plus
  | minus
  | none
  deriving DecidableEq

/-- `GL * [!][+|-]mask expire lastmod lifetime :reason`; `server` says whether a server
stands in the prefix, and `expire` is relative to the sender's `TStime`. -/
structure Msg where
  server : Bool
  operforce : Bool
  op : Op
  expire : Int
  lastmod : Int
  lifetime : Int
  reason : CString

inductive Out where
  | toPeer (msg : Msg)
  | toOthers (msg : Msg)

def GlineAction.isLocal : GlineAction → Bool
  | .localActivate => true
  | .localDeactivate => true
  | _ => false

/-- What the iteration macro `gliter` does to a record it passes; `none` when it frees it. -/
def gliter (now : Int) (gline : Gline) : Option Gline :=
  if gline.lifetime ≤ now ∨ gline.expire < now - ONE_MONTH ∧ gline.lastmod < now - ONE_MONTH then none
  else if gline.expire > now then some gline
  else some { gline with active := false, state := .global }

def glineResend (now : Int) (gline : Gline) : List Out :=
  if gline.lastmod = 0 then []
  else
    [.toPeer { server := true, operforce := false, op := if gline.active then .plus else .minus,
               expire := gline.expire - now, lastmod := gline.lastmod, lifetime := gline.lifetime,
               reason := gline.reason }]

/-- The action that is left of `action`: none if the record is in that state already or
has expired. -/
def effectiveAction (now : Int) (gline : Gline) (action : GlineAction) (expire : Int) : GlineAction :=
  if action = .activate ∧ gline.active ∨ action = .deactivate ∧ !gline.active ∨
      action = .localActivate ∧ gline.state = .activated ∨
      action = .localDeactivate ∧ gline.state = .deactivated ∨ max gline.expire expire ≤ now then .modify
  else action

def actOn (gline : Gline) : GlineAction → Gline × Op
  | .activate => ({ gline with active := true, state := .global }, .plus)
  | .deactivate => ({ gline with active := false, state := .global }, .minus)
  | .localActivate => ({ gline with state := .activated }, .none)
  | .localDeactivate => ({ gline with state := .deactivated }, .none)
  | .modify => (gline, .none)

/-- The end of `gline_modify`: make the changes that are left and send the record on. -/
def perform (now : Int) (server : Bool) (gline : Gline) (c : Change) (action : GlineAction)
    (expire lifetime : Option Int) (reason : Option CString) : Gline × List Out :=
  let gline := if action.isLocal then gline else { gline with lastmod := c.lastmod }
  let (gline, op) := actOn gline action
  let gline := { gline with
    expire := expire.getD gline.expire
    lifetime := lifetime.getD gline.lifetime
    reason := reason.getD gline.reason }
  (gline,
    if action.isLocal then []
    else
      [.toOthers { server, operforce := c.flags.operforce, op, expire := gline.expire - now,
                   lastmod := gline.lastmod, lifetime := gline.lifetime, reason := gline.reason }])

/-- `gline_modify`; `burst` says whether the peer is bursting, `server` whether the source
is a server. -/
def glineModify (now : Int) (burst server : Bool) (gline : Gline) (c : Change) : Gline × List Out :=
  if !c.action.isLocal ∧ gline.lastmod > c.lastmod then
    if burst then (gline, []) else (gline, glineResend now gline)
  else if !c.action.isLocal ∧ gline.lastmod = c.lastmod then (gline, [])
  else if c.flags.expire ∧ c.expire ≠ 0 ∧ !c.flags.force ∧
      (c.expire ≤ now ∨ c.expire > now + GLINE_MAX_EXPIRE) then (gline, [])
  else
    let hasExpire : Bool := c.flags.expire ∧ c.expire ≠ 0
    let newExpire : Bool := hasExpire ∧ c.expire ≠ gline.expire
    let expire := if hasExpire ∧ c.expire = gline.expire then 0 else c.expire
    let lifetime := if !c.flags.lifetime ∨ c.lifetime = 0 then gline.lifetime else c.lifetime
    let lifetime := max lifetime expire
    let newLifetime : Bool := lifetime > gline.lifetime
    let newReason : Bool := c.flags.reason ∧ !gline.reason.foldEq c.reason
    let action := effectiveAction now gline c.action expire
    if !newExpire ∧ !newLifetime ∧ !newReason ∧ action = .modify then (gline, [])
    else
      perform now server gline c action (if newExpire then some expire else none)
        (if newLifetime then some lifetime else none) (if newReason then some c.reason else none)

/-- `atoi` of a time written with `%Tu`: an `int` of a `long` that stays at its largest
value when the digits are too many, as those of a negative time are. -/
def atoiTime (t : Int) : Int := if 0 ≤ t then (min t (2 ^ 63 - 1)).bmod (2 ^ 32) else -1

def absExpire (now exp : Int) : Int := if exp ≥ now - PASTWATCH then exp else exp + now

def Msg.change (now : Int) (msg : Msg) : Change where
  action := match msg.op with
    | .plus => .activate
    | .minus => .deactivate
    | .none => .modify
  reason := msg.reason
  expire := absExpire now (atoiTime msg.expire)
  lastmod := atoiTime msg.lastmod
  lifetime := atoiTime msg.lifetime
  flags := { expire := true, lifetime := true, reason := true, force := msg.server, operforce := msg.operforce }

/-- `ms_gline` for a message about a mask that has a global record; `none` when the lookup
frees the record, so that the message would make it anew. -/
def msGline (now : Int) (burst : Bool) (gline : Gline) (msg : Msg) : Option (Gline × List Out) :=
  match gliter now gline with
  | none => none
  | some gline =>
    if (msg.change now).lastmod = 0 then some (gline, [])
    else some (glineModify now burst msg.server gline (msg.change now))

def Out.peer? : Out → Option Msg
  | toPeer msg => some msg
  | toOthers _ => none

def Out.other? : Out → Option Msg
  | toPeer _ => none
  | toOthers msg => some msg

def receive (now : Int) (gline : Gline) : List Msg → Option (Gline × List Msg)
  | [] => some (gline, [])
  | msg :: msgs =>
    match msGline now false gline msg with
    | none => none
    | some (gline, out) =>
      (receive now gline msgs).map fun (gline, back) => (gline, out.filterMap Out.peer? ++ back)

/-- A change is issued at a server whose lookup gave `gline`: the record and the messages
to the other servers. -/
def issue (now : Int) (server : Bool) (gline : Gline) (c : Change) : Gline × List Msg :=
  let (gline, out) := glineModify now false server gline c
  (gline, out.filterMap Out.other?)

/-- What a server ends with that issues `mine` while its peer issues `theirs`: their message
comes, ours goes, and what it makes them send back comes last. The list has what is
still to be answered. -/
def crossing (now : Int) (gline : Gline) (mine theirs : Bool × Change) : Option (Gline × List Msg) :=
  let here := issue now mine.1 gline mine.2
  let there := issue now theirs.1 gline theirs.2
  match receive now here.1 there.2, receive now there.1 here.2 with
  | some (gline, _), some (_, back) => receive now gline back
  | _, _ => none

end Ircd.Glines

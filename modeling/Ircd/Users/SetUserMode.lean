import Ircd.Users.NickRegister

/-! `set_user_mode` for a user of this server or of another one, with what it does to the count of operators.

The server is built with `DDB`; the count of invisible users and the messages are left out.
-/

set_option autoImplicit false

namespace Ircd.Users
open Ircd.Text

structure ModeClient where
  user : RegUser
  mine : Bool
  registered : Bool

/-- The features that `set_user_mode` asks for. -/
structure ModeFeatures where
  operOnly : OperOnly
  hostHiding : Bool

def umodeMakeSnomask (oldmask : UInt32) (arg : List Char) (add : Bool) : UInt32 :=
  let mask (digits : List Char) : UInt32 := UInt32.ofInt (atoi digits)
  match arg with
  | '+' :: digits => if add then mask digits ||| oldmask else oldmask &&& ~~~mask digits
  | '-' :: digits => if add then oldmask &&& ~~~mask digits else mask digits ||| oldmask
  | digits => if add then mask digits else oldmask &&& ~~~mask digits

/-- Where the loop is in the parameters: the sign, the parameters behind the current one, and how many of
them are the caller's. -/
structure ModeText where
  add : Bool
  next : List (List Char)
  inside : Nat

def ModeText.skip (text : ModeText) : ModeText := { text with next := text.next.drop 1, inside := text.inside - 1 }

structure ModeLoop where
  text : ModeText
  user : RegUser
  tmpmask : UInt32
  hide : Bool

def ModeLoop.put (st : ModeLoop) (f : Flag) : ModeLoop := { st with user := st.user.put f st.text.add }

def ModeLoop.deop (st : ModeLoop) (mine : Bool) : ModeLoop :=
  { st with
    user := st.user.clear [.mode .oper, .locop]
    tmpmask := if mine then st.user.snomask &&& ~~~snoOper else st.tmpmask }

def ModeLoop.notices (st : ModeLoop) : ModeLoop :=
  let st :=
    if isSnomask (st.text.next.headD []) then
      { st with
        tmpmask := umodeMakeSnomask st.tmpmask (st.text.next.headD []) st.text.add &&&
          if st.user.isAnOper then snoAll else snoUser
        text := st.text.skip }
    else
      { st with
        tmpmask := if st.text.add then (if st.user.isAnOper then snoOperDefault else snoDefault) else 0 }
  { st with user := st.user.put .servNotice (st.tmpmask ≠ 0) }

def ModeLoop.letter (mine : Bool) (st : ModeLoop) (c : Char) : ModeLoop :=
  if c = '+' then { st with text := { st.text with add := true } }
  else if c = '-' then { st with text := { st.text with add := false } }
  else if c = 's' then st.notices
  else if c = 'o' then if st.text.add then st.put (.mode .oper) else st.deop mine
  else if c = 'O' then if st.text.add then st.put .locop else st.deop mine
  else if c = 'x' then if st.text.add then { st with hide := true } else st
  else if c = 'r' then st.put (.mode .account)
  else
    match simpleUmode c with
    | some f => st.put (.mode f)
    | none => st

def ModeLoop.params (mine : Bool) : Nat → ModeLoop → ModeLoop
  | 0, st => st
  | left + 1, st =>
    match st.text.inside, st.text.next with
    | inside + 1, param :: next =>
      let st := { st with text := { st.text with next := next, inside := inside } }
      ModeLoop.params mine left (param.foldl (ModeLoop.letter mine) st)
    | _, _ => st

def RegUser.allow (old : RegUser) (u : RegUser) (f : Flag) (allowed : Bool) : RegUser :=
  if !old.flags f && !allowed then u.put f false else u

def RegUser.rules (features : OperOnly) (mine : Bool) (old u : RegUser) : RegUser :=
  let u := [.mode .oper, .locop, .mode .account, .mode .nickSuspend, .mode .admin, .mode .coder, .mode .helper,
    .mode .servicesBot, .mode .userBot].foldl (fun u f => old.allow u f false) u
  let account := u.flags (.mode .account)
  let u := [.mode .msgOnlyReg, .mode .noChan, .mode .commonChansOnly].foldl (fun u f => old.allow u f account) u
  let u := old.allow u (.mode .viewHiddenHost) (u.privs .hiddenViewer)
  let u := u.put (.mode .ssl) (old.flags (.mode .ssl))
  let u := old.allow u (.mode .noIdle) (u.privs .hideIdle)
  let u := old.allow u (.mode .whoisNotice) (u.privs .whoisNotice)
  let u := old.allow u (.mode .chserv) (u.privs .chanserv)
  let u := old.allow u (.mode .wallop) (!features.wallops || u.isAnOper)
  let u := if features.snotices && mine && !u.isAnOper && !old.flags .servNotice then
    (u.put .servNotice false).setSnomask 0 else u
  old.allow u (.mode .debug) (!features.debug || u.isAnOper)

def RegUser.connected (old u : RegUser) (tmpmask : UInt32) : RegUser :=
  let u := if old.isAnOper && !u.isAnOper then { u with operHandler := false } else u
  if u.flags .servNotice then if tmpmask ≠ u.snomask then u.setSnomask tmpmask else u
  else u.setSnomask 0

/-- `client_set_privs` without a configuration and without force. -/
def ModeClient.clearPrivs (client : ModeClient) : ModeClient :=
  if client.mine then { client with user := { client.user with privs := fun _ => false } } else client

/-- The modes behind a change of `set_user_mode`, before the registered users are counted. The change is
trusted when it comes from a server, or from a service for a user of this server; `behind` are the
parameters of the message behind those of the modes. -/
def ModeClient.changed (features : ModeFeatures) (trusted : Bool) (client : ModeClient)
    (params behind : List (List Char)) : RegUser :=
  let old := client.user
  let tmpmask := if client.mine then old.snomask else 0
  let st := ModeLoop.params client.mine params.length
    ⟨⟨true, params ++ behind, params.length⟩, old, tmpmask, false⟩
  let u := if trusted then st.user else old.rules features.operOnly client.mine st.user
  let u := if client.mine then old.connected u st.tmpmask else u
  if !old.flags (.mode .hiddenHost) && st.hide && (!client.mine || features.hostHiding) then
    u.put (.mode .hiddenHost) true
  else u

/-- The end of `set_user_mode`, where the changed modes are compared with the old ones. -/
def ModeClient.counted (old : RegUser) (client : ModeClient) (opers : UInt32) : ModeClient × UInt32 :=
  if !client.registered then (client, opers)
  else
    let isOper := client.user.flags (.mode .oper)
    let isAnOper := client.user.isAnOper
    let first := if !old.flags (.mode .oper) && isOper then (client.clearPrivs, opers + 1) else (client, opers)
    if old.isAnOper && !isAnOper then
      (first.1.clearPrivs, if old.flags (.mode .oper) then first.2 - 1 else first.2)
    else first

def setUserModes (features : ModeFeatures) (trusted : Bool) (client : ModeClient) (opers : UInt32)
    (params behind : List (List Char)) : ModeClient × UInt32 :=
  if params = [] then (client, opers)
  else ModeClient.counted client.user { client with user := client.changed features trusted params behind } opers

end Ircd.Users

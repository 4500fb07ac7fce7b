import Ircd.Auth.Gate

/-! The `H` message. `hurry_up` is set just before a return, so the end of `check_auth_finished`, where it is
read, never sees it set. -/

set_option autoImplicit false

namespace Ircd.Auth
open Ircd.Library Ircd.Net

variable {σ κ : Type} [DecidableEq σ] [DecidableEq κ]

section
variable (w : World) (s : State σ κ) (c : κ) (a : σ)

omit [DecidableEq κ] in
@[simp] theorem setRequest_hurried (r : Request σ κ) : (s.setRequest a r).hurried = s.hurried := rfl

omit [DecidableEq σ] in
@[simp] theorem setClient_hurried (x : Client) : (s.setClient c x).hurried = s.hurried := rfl

omit [DecidableEq σ] in
@[simp] theorem setPast_hurried (p : Past) : (s.setPast c p).hurried = s.hurried := rfl

omit [DecidableEq κ] in
@[simp] theorem setFlags_hurried (f : Flags) : (s.setFlags a f).hurried = s.hurried := rfl

omit [DecidableEq κ] in
@[simp] theorem deleteResolverQueries_hurried : (deleteResolverQueries s a).hurried = s.hurried := rfl

@[simp] theorem destroyAuthRequest_hurried : (destroyAuthRequest s a).hurried = s.hurried := by
  unfold destroyAuthRequest
  dsimp only
  split
  · rfl
  · rfl

@[simp] theorem exitClient_hurried : (exitClient s c).hurried = s.hurried := by
  unfold exitClient
  dsimp only
  cases s.auth c with
  | none => rfl
  | some a => exact destroyAuthRequest_hurried s a

@[simp] theorem registerUser_hurried : (registerUser s a c).hurried = s.hurried := rfl

theorem killCheck_hurried :
    Ends (fun t => t.hurried = s.hurried) (fun t => t.hurried = s.hurried) (killCheck w s a) := by
  unfold killCheck
  dsimp only
  split
  · exact rfl
  · split
    · exact rfl
    · split
      · exact exitClient_hurried _ _
      · split
        · exact exitClient_hurried _ _
        · exact rfl

omit [DecidableEq σ] [DecidableEq κ] in
theorem scanFlags_hurried :
    Ends (fun t => t.hurried = s.hurried) (fun t => t.hurried = s.hurried) (scanFlags s a) := by
  unfold scanFlags
  split
  · exact rfl
  · exact rfl

theorem passwordCheck_hurried :
    Ends (fun t => t.hurried = s.hurried) (fun t => t.hurried = s.hurried) (passwordCheck w s a) := by
  unfold passwordCheck
  dsimp only
  split
  · exact rfl
  · split
    · exact exitClient_hurried _ _
    · exact rfl

omit [DecidableEq κ] in
theorem iauthCheck_hurried :
    Ends (fun t => t.hurried = s.hurried) (fun passed => passed.1.hurried = s.hurried ∧ passed.2 = false)
      (iauthCheck s a) := by
  unfold iauthCheck
  dsimp only
  split
  · exact rfl
  · rename_i answered
    refine ⟨rfl, ?_⟩
    show ((s.request a).flags.iauthPending && _) = false
    rw [(Bool.not_eq_true _).mp answered, Bool.false_and]

theorem finish_hurried : (finish w s a false).hurried = s.hurried := by
  unfold finish
  dsimp only
  split
  · exact destroyAuthRequest_hurried _ _
  · split
    · exact exitClient_hurried _ _
    · exact destroyAuthRequest_hurried _ _

@[simp] theorem checkAuthFinished_hurried (bit : Bit) : (checkAuthFinished w s a bit).hurried = s.hurried := by
  refine @checkRest_ends σ κ _ a _ _ w (fun t => t.hurried = s.hurried) ?_
  refine (killCheck_hurried w (s.setFlags a _) a).bind fun first kept => ?_
  refine Ends.bind (kept ▸ scanFlags_hurried first a) fun second kept => ?_
  refine Ends.bind (kept ▸ passwordCheck_hurried w second a) fun third kept => ?_
  refine Ends.bind (kept ▸ iauthCheck_hurried third a) fun passed kept => ?_
  rw [kept.2]
  exact (finish_hurried w passed.1 a).trans kept.1

theorem authDnsCallback_hurried (answer : Option (InAddr × List Char)) :
    (authDnsCallback w s a answer).hurried = s.hurried := by
  unfold authDnsCallback
  cases answer with
  | none => exact checkAuthFinished_hurried _ _ _ _
  | some found =>
    dsimp only
    split
    · split
      · exact exitClient_hurried _ _
      · exact checkAuthFinished_hurried _ _ _ _
    · split
      · exact checkAuthFinished_hurried _ _ _ _
      · exact checkAuthFinished_hurried _ _ _ _

theorem readAuthReply_hurried (username : List Char) : (readAuthReply w s a username).hurried = s.hurried := by
  unfold readAuthReply
  dsimp only
  split
  · exact checkAuthFinished_hurried _ _ _ _
  · exact checkAuthFinished_hurried _ _ _ _

theorem authTimeoutCallback_hurried : (authTimeoutCallback w s a).hurried = s.hurried := by
  unfold authTimeoutCallback
  dsimp only
  split
  · exact checkAuthFinished_hurried _ _ _ _
  · exact checkAuthFinished_hurried _ _ _ _

theorem authPingTimeout_hurried : (authPingTimeout w s c).hurried = s.hurried := by
  unfold authPingTimeout
  cases s.auth c with
  | none => exact exitClient_hurried _ _
  | some a =>
    dsimp only
    split
    · exact exitClient_hurried _ _
    · split
      · rfl
      · split
        · exact exitClient_hurried _ _
        · exact checkAuthFinished_hurried _ _ _ _

theorem authSetNick_hurried (cookie : Nat) : (authSetNick w s c a cookie).hurried = s.hurried := by
  unfold authSetNick
  dsimp only
  rw [checkAuthFinished_hurried]
  split
  · rfl
  · rfl

theorem authSetUser_hurried (username info : List Char) : (authSetUser w s c a username info).hurried = s.hurried := by
  unfold authSetUser
  dsimp only
  split
  · rfl
  · exact checkAuthFinished_hurried _ _ _ _

theorem authSetPong_hurried (cookie : Nat) : (authSetPong w s c a cookie).hurried = s.hurried := by
  unfold authSetPong
  dsimp only
  split
  · rfl
  · exact checkAuthFinished_hurried _ _ _ _

theorem webirc_hurried (authorized admitted : Bool) (hostname : List Char) (ip : Option InAddr) :
    (webirc w s c a authorized admitted hostname ip).hurried = s.hurried := by
  unfold webirc
  cases ip with
  | none => exact exitClient_hurried _ _
  | some ip =>
    dsimp only
    split
    · exact exitClient_hurried _ _
    · exact checkAuthFinished_hurried _ _ _ _

theorem doneClient_hurried (attach : Attach) : (doneClient w s c a attach).hurried = s.hurried := by
  unfold doneClient
  cases attach with
  | unchanged => exact checkAuthFinished_hurried _ _ _ _
  | attached => exact checkAuthFinished_hurried _ _ _ _
  | full => exact exitClient_hurried _ _

theorem iauthCommand_hurried (message : Message) : (iauthCommand w s c a message).hurried = s.hurried := by
  unfold iauthCommand
  cases message with
  | usernameForced name | usernameGood name | usernameBad name =>
    dsimp only
    split
    · exact checkAuthFinished_hurried _ _ _ _
    · exact checkAuthFinished_hurried _ _ _ _
  | hostname name =>
    dsimp only
    split
    · rfl
    · rw [checkAuthFinished_hurried, setClient_hurried]
      split
      · rfl
      · rfl
  | ipAddress ip =>
    cases ip with
    | none => rfl
    | some ip => exact checkAuthFinished_hurried _ _ _ _
  | softDone => exact checkAuthFinished_hurried _ _ _ _
  | doneClient attach => exact doneClient_hurried w s c a attach
  | doneAccount account attach =>
    dsimp only
    split
    · exact doneClient_hurried w s c a attach
    · rfl

theorem startDnsQuery_hurried : (startDnsQuery w s c a).hurried = s.hurried := by
  unfold startDnsQuery
  split
  · rfl
  · split
    · rfl
    · rfl

theorem startAuthQuery_hurried (ident : Ident) : (startAuthQuery w s a ident).hurried = s.hurried := by
  cases ident with
  | failed => rfl
  | waiting => rfl
  | unsent => exact checkAuthFinished_hurried _ _ _ _

theorem startAuth_hurried (fresh : σ) (port : Port) (ip : InAddr) (text : List Char) (readable : Bool) (ident : Ident) :
    (startAuth w s c fresh port ip text readable ident).hurried = s.hurried := by
  cases readable with
  | false =>
    rw [startAuth_unreadable]
    exact exitClient_hurried _ _
  | true =>
    rw [startAuth_started, checkAuthFinished_hurried]
    cases port with
    | user => exact (startAuthQuery_hurried _ _ _ _).trans (startDnsQuery_hurried _ _ _ _)
    | server => exact (startAuthQuery_hurried _ _ _ _).trans (startDnsQuery_hurried _ _ _ _)
    | webirc => rfl

end

theorem step_hurried (w : World) (s : State σ κ) (event : Event σ κ) : (step w s event).hurried = s.hurried := by
  have command (c : κ) {act : σ → State σ κ} (acts : ∀ a, (act a).hurried = s.hurried) :
      (s.command c act).hurried = s.hurried := by
    unfold State.command
    split
    · split
      · exact acts _
      · rfl
    · exact exitClient_hurried _ _
    · exact exitClient_hurried _ _
    · rfl
  have anyPort (c : κ) {act : σ → State σ κ} (acts : ∀ a, (act a).hurried = s.hurried) :
      (s.anyPort c act).hurried = s.hurried := by
    unfold State.anyPort
    split
    · exact acts _
    · rfl
  unfold step
  cases event with
  | start c fresh port ip text readable ident => exact startAuth_hurried w s c fresh port ip text readable ident
  | dnsReply a c answer => exact authDnsCallback_hurried w _ a answer
  | identReply a username => exact readAuthReply_hurried w s a username
  | authTimeout a => exact authTimeoutCallback_hurried w s a
  | pingTimeout c =>
    dsimp only
    split
    · exact authPingTimeout_hurried w s c
    · rfl
  | nick c cookie =>
    refine command c fun a => ?_
    split
    · rfl
    · exact authSetNick_hurried w _ c a cookie
  | user c username info => exact command c fun a => authSetUser_hurried w s c a username info
  | pong c cookie => exact anyPort c fun a => authSetPong_hurried w s c a cookie
  | pass c password => exact anyPort c fun _ => rfl
  | capStart c => exact anyPort c fun _ => rfl
  | capEnd c => exact anyPort c fun a => checkAuthFinished_hurried w _ a .cap
  | webirc c authorized admitted hostname ip =>
    dsimp only
    split
    · split
      · exact webirc_hurried w s c _ authorized admitted hostname ip
      · rfl
    · split
      · exact exitClient_hurried s c
      · rfl
  | iauth c message =>
    dsimp only
    split
    · unfold iauthParse
      split
      · rfl
      · split
        · exact iauthCommand_hurried w s c _ message
        · rfl
    · rfl
  | iauthKill c =>
    dsimp only
    split
    · unfold iauthKill
      split
      · exact exitClient_hurried s c
      · exact exitClient_hurried _ c
    · rfl
  | iauthSession connected required => rfl
  | exit c =>
    dsimp only
    split
    · exact exitClient_hurried s c
    · rfl

theorem Reachable.hurried [Inhabited κ] {w : World} {Careful : State σ κ → Event σ κ → Prop} {s : State σ κ}
    (reachable : Reachable w Careful s) : s.hurried = [] := by
  induction reachable with
  | init => rfl
  | step event _ _ _ none => exact (step_hurried w _ event).trans none

def State.onlyIauth (s : State σ κ) (c : κ) : Bool :=
  match s.auth c with
  | some a => (s.request a).flags.iauthHurry && (s.request a).flags.iauthPending
  | none => false

/-- Wherever only the answer of iauth is missing, iauth was not told so. -/
theorem hurry_never_sent [Inhabited κ] {w : World} {s : State σ κ} (reachable : Reachable w (fun _ _ => True) s) :
    ∀ c, s.onlyIauth c = true → s.hurried.count c ≠ 1 := by
  intro c _
  rw [reachable.hurried]
  exact Nat.zero_ne_one

def undernetWorld : World := { openWorld with noDns := true, undernet := true }

def waitingLogin : List (Event Nat Nat) :=
  [.iauthSession true false, .start 0 0 .user noAddress ['h'] true .failed, .nick 0 6, .user 0 ['a', 'b'] ['r'],
    .pong 0 7]

theorem hurry_never_sent_login :
    let s := run undernetWorld (State.init Nat Nat) waitingLogin
    s.onlyIauth 0 = true ∧ s.hurried.count 0 ≠ 1 :=
  have waits : (run undernetWorld (State.init Nat Nat) waitingLogin).onlyIauth 0 = true := by decide +kernel
  ⟨waits, hurry_never_sent (Reachable.init.run (by decide +kernel)) 0 waits⟩

theorem hurry_unsent : ¬ ∀ (w : World) (s : State Nat Nat), w.undernet = true → Reachable w (fun _ _ => True) s →
    ∀ c, s.onlyIauth c = true → s.hurried.count c = 1 := by
  intro sent
  have reachable : Reachable undernetWorld (fun _ _ => True) (run undernetWorld (State.init Nat Nat) waitingLogin) :=
    Reachable.init.run (by decide +kernel)
  have waits : (run undernetWorld (State.init Nat Nat) waitingLogin).onlyIauth 0 = true ∧
      (run undernetWorld (State.init Nat Nat) waitingLogin).hurried.count 0 = 0 := by
    decide +kernel
  generalize run undernetWorld (State.init Nat Nat) waitingLogin = s at reachable waits
  have once := sent _ s rfl reachable 0 waits.1
  rw [waits.2] at once
  cases once

end Ircd.Auth

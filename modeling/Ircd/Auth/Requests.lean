import Ircd.Library.Chain
import Ircd.Net.InAddr
import Ircd.Text.Chattr

/-! The authorization requests of `s_auth.c`.

A request is a cell of memory that is taken from a free list when a client connects and put back
when the client is registered or leaves. Replies of the resolver come back to a cell, everything
else to a client. What happened to a client is recorded beside the state, and so is each call of
`register_user`. Messages to clients and operators are left out, and so are those to iauth except
`H`, the counters and the connection classes.
-/

set_option autoImplicit false

namespace Ircd.Auth
open Ircd.Text Ircd.Net

def userLen : Nat := 10

def hostLen : Nat := 63

def realLen : Nat := 50

def passwdLen : Nat := 20

def isCntrl (c : Char) : Bool := c.toNat < 32

def isUserChar (c : Char) : Bool :=
  isAlnum c || 0xe0 ≤ c.toNat && c.toNat ≤ 0xf6 || 0xf8 ≤ c.toNat && c.toNat ≤ 0xfe ||
    0xc0 ≤ c.toNat && c.toNat ≤ 0xd6 || 0xd8 ≤ c.toNat && c.toNat ≤ 0xde || ".-_^'`~".toList.contains c

def isHostChar (c : Char) : Bool := isAlnum c || "-_.".toList.contains c

def isLower (c : Char) : Bool := 'a' ≤ c && c ≤ 'z' || "\x7b|\x7d~".toList.contains c

def isUpper (c : Char) : Bool := 'A' ≤ c && c ≤ 'Z' || "[\\]^".toList.contains c

def cleanRest : Nat → List Char → List Char
  | 0, _ => []
  | _, [] => []
  | room + 1, c :: src =>
    if isCntrl c then [] else (if isUserChar c && c ≠ '~' then c else '_') :: cleanRest room src

def cleanUsername : List Char → List Char
  | [] => []
  | c :: src => if isCntrl c then [] else (if isUserChar c then c else '_') :: cleanRest (userLen - 1) src

/-- What `auth_set_username` counts in a name. -/
structure Tally where
  upper : Nat
  lower : Nat
  leadcaps : Nat
  other : Nat
  digits : Nat
  digitgroups : Nat
  last : Char

def isMark (c : Char) : Bool := c = '-' || c = '_' || c = '.'

def Tally.next (t : Tally) (ch : Char) : Option Tally :=
  if isLower ch then some { t with lower := t.lower + 1, last := ch }
  else if isUpper ch then
    let leads : Bool := (t.leadcaps ≠ 0 || t.last = nul) && t.lower = 0 && t.digits = 0
    some { t with upper := t.upper + 1, leadcaps := t.leadcaps + (if leads then 1 else 0), last := ch }
  else if isDigit ch then
    let groups := t.digitgroups + (if isDigit t.last then 0 else 1)
    if groups > 2 then none else some { t with digits := t.digits + 1, digitgroups := groups, last := ch }
  else if isMark ch then
    if t.last = nul || isMark t.last || t.other + 1 > 2 then none else some { t with other := t.other + 1, last := ch }
  else none

/-- The rules of `auth_set_username` on a name. -/
def badUsername (username : List Char) : Bool :=
  let s := if peek username = '~' then username.tail else username
  match s.foldl (fun t ch => t.bind (Tally.next · ch)) (some ⟨0, 0, 0, 0, 0, 0, nul⟩) with
  | none => true
  | some t =>
    t.lower ≠ 0 && t.upper ≠ 0 && (t.leadcaps = 0 || t.leadcaps > 3 || t.upper > 2 && t.upper > t.leadcaps) ||
      t.digitgroups = 2 && !isDigit (peek s) || t.lower = 0 && t.upper = 0 || !isAlnum t.last

/-- The states of a connection; a client that has connected on a port for WEBIRC or a proxy is
like one of a user port from the moment it is let in. -/
inductive Status where
  | unborn | userPort | serverPort | webircPort | user | gone
  deriving DecidableEq, Repr

/-- What the functions read of a `struct Client` and its `struct User`; `conf` is the password of
its first `ConfItem`. -/
structure Client where
  status : Status
  named : Bool
  username : List Char
  sockhost : List Char
  info : List Char
  passwd : List Char
  ip : InAddr
  gotId : Bool
  doId : Bool
  wline : Bool
  userUsername : List Char
  host : List Char
  realhost : List Char
  conf : Option (List Char)

/-- What `find_kill` looks at and the network is told. -/
structure Identity where
  username : List Char
  host : List Char
  realhost : List Char
  ip : InAddr
  info : List Char
  deriving DecidableEq

def Client.identity (x : Client) : Identity := ⟨x.userUsername, x.host, x.realhost, x.ip, x.info⟩

structure Flags where
  authPending : Bool
  dnsPending : Bool
  capPending : Bool
  needsPong : Bool
  needsUser : Bool
  needsNick : Bool
  iauthPending : Bool
  iauthHurry : Bool
  iauthUsername : Bool
  iauthFUsername : Bool
  iauthSoftDone : Bool
  passwordChecked : Bool
  glineChecked : Bool
  deriving DecidableEq, Repr

def Flags.none : Flags :=
  ⟨false, false, false, false, false, false, false, false, false, false, false, false, false⟩

def Flags.scan (f : Flags) : Bool :=
  f.authPending || f.dnsPending || f.capPending || f.needsPong || f.needsUser || f.needsNick

inductive Bit where
  | unused | auth | dns | cap | pong | user | nick | iauth | softDone
  deriving DecidableEq, Repr

def Flags.clear (f : Flags) : Bit → Flags
  | .unused => f
  | .auth => { f with authPending := false }
  | .dns => { f with dnsPending := false }
  | .cap => { f with capPending := false }
  | .pong => { f with needsPong := false }
  | .user => { f with needsUser := false }
  | .nick => { f with needsNick := false }
  | .iauth => { f with iauthPending := false }
  | .softDone => f

/-- A `struct AuthRequest`; `socket` says that the ident socket is open and `timeout` that the timer
is active. -/
structure Request (σ κ : Type) where
  next : Option σ
  client : κ
  flags : Flags
  cookie : Nat
  original : InAddr
  socket : Bool
  timeout : Bool

/-- What a client did and what became of it: the commands it has sent, whether it is in the middle
of `CAP`, the identity that `find_kill` let pass, the password, and iauth; then the last name that `USER`
gave it, cleaned, and whether iauth has put an untrusted one in its place. -/
structure Past where
  nick : Bool
  user : Bool
  pong : Bool
  cap : Bool
  checked : Option Identity
  password : Bool
  handed : Bool
  answered : Bool
  excused : Bool
  claimed : List Char
  renamed : Bool

def Past.none : Past := ⟨false, false, false, false, Option.none, false, false, false, false, [], false⟩

/-- A call of `register_user`; `waits` says that an answer is outstanding. -/
structure Call (κ : Type) where
  client : κ
  past : Past
  waits : Bool
  identity : Identity

/-- The requests, the clients and the queries of the resolver; `hurried` has the clients that an `H` was sent for. -/
structure State (σ κ : Type) where
  request : σ → Request σ κ
  allocated : σ → Bool
  freelist : Option σ
  auth : κ → Option σ
  client : κ → Client
  queries : List (σ × κ)
  iauthConnected : Bool
  iauthRequired : Bool
  past : κ → Past
  calls : List (Call κ)
  hurried : List κ

/-- The features, the configuration and the deny lists, as `find_kill`, `conf_check_client` and
`verify_sslclifp` answer. `wantsIdent` says that the Client block of `conf_check_client` has a user name,
and `undernet` is the policy `U` of iauth. -/
structure World where
  noDns : Bool
  loopback : InAddr → Bool
  serverName : List Char
  killIpMismatch : Bool
  hisWebirc : Bool
  findKill : Identity → Int
  confCheck : Client → Option (List Char)
  wantsIdent : Client → Bool
  sslOk : Client → Bool
  undernet : Bool

def noAddress : InAddr := ⟨[0, 0, 0, 0, 0, 0, 0, 0], rfl⟩

def Client.unborn : Client :=
  ⟨.unborn, false, [], [], [], [], noAddress, false, false, false, [], [], [], none⟩

def State.init (σ κ : Type) [Inhabited κ] : State σ κ where
  request := fun _ => ⟨none, default, .none, 0, noAddress, false, false⟩
  allocated := fun _ => false
  freelist := none
  auth := fun _ => none
  client := fun _ => .unborn
  queries := []
  iauthConnected := false
  iauthRequired := false
  past := fun _ => .none
  calls := []
  hurried := []

variable {σ κ : Type} [DecidableEq σ] [DecidableEq κ]

def State.setRequest (s : State σ κ) (a : σ) (r : Request σ κ) : State σ κ :=
  { s with request := Function.update s.request a r }

def State.setClient (s : State σ κ) (c : κ) (x : Client) : State σ κ :=
  { s with client := Function.update s.client c x }

def State.setPast (s : State σ κ) (c : κ) (p : Past) : State σ κ := { s with past := Function.update s.past c p }

def State.setFlags (s : State σ κ) (a : σ) (f : Flags) : State σ κ :=
  s.setRequest a { s.request a with flags := f }

def deleteResolverQueries (s : State σ κ) (a : σ) : State σ κ :=
  { s with queries := s.queries.filter (·.1 ≠ a) }

def destroyAuthRequest (s : State σ κ) (a : σ) : State σ κ :=
  let r := s.request a
  let s := if r.flags.dnsPending then deleteResolverQueries s a else s
  { s with
    auth := Function.update s.auth r.client none
    request := Function.update s.request a { r with socket := false, timeout := false, next := s.freelist }
    freelist := some a }

/-- `exit_client`, which ends in `free_client`. -/
def exitClient (s : State σ κ) (c : κ) : State σ κ :=
  let s :=
    match s.auth c with
    | some a => destroyAuthRequest s a
    | none => s
  s.setClient c { s.client c with status := .gone }

/-- The call of `register_user` for a request; it waits if a flag says so or the resolver is still
at work for it. -/
def State.call (s : State σ κ) (a : σ) (c : κ) : Call κ :=
  let f := (s.request a).flags
  ⟨c, s.past c, f.authPending || f.dnsPending || s.queries.any (·.1 = a), (s.client c).identity⟩

def registerUser (s : State σ κ) (a : σ) (c : κ) : State σ κ :=
  { s.setClient c { s.client c with status := .user } with calls := s.call a c :: s.calls }

def checkedUsername (w : World) (x : Client) : List Char :=
  if x.gotId then cleanUsername x.username
  else if x.doId then ((if x.wline && !w.hisWebirc then '^' else '~') :: x.userUsername).take userLen
  else x.userUsername

/-- `preregister_user` behind the host: a client that has no Client block gets one, if there is one for it. -/
def preregisterUser (w : World) (x : Client) : Option Client :=
  match x.conf with
  | some _ => some x
  | none => (w.confCheck x).map fun conf => { x with conf := some conf, doId := x.doId || w.wantsIdent x }

/-- The kill check of `check_auth_finished`. Here and below `error` is the state at a `return`. -/
def killCheck (w : World) (s : State σ κ) (a : σ) : Except (State σ κ) (State σ κ) :=
  let r := s.request a
  let c := r.client
  let x := s.client c
  if x.status ≠ .userPort || r.flags.glineChecked then .ok s
  else if r.flags.authPending || r.flags.dnsPending || r.flags.needsUser then .error s
  else
    let x := { x with host := x.sockhost.take hostLen, realhost := x.sockhost.take hostLen }
    match preregisterUser w x with
    | none => .error (exitClient (s.setClient c x) c)
    | some x =>
      let x := { x with userUsername := checkedUsername w x }
      let s := (s.setClient c x).setFlags a { r.flags with glineChecked := true }
      if w.findKill x.identity ≠ 0 then .error (exitClient s c)
      else .ok (s.setPast c { s.past c with checked := some x.identity })

def scanFlags (s : State σ κ) (a : σ) : Except (State σ κ) (State σ κ) :=
  if (s.request a).flags.scan then .error s else .ok s

def passwordRight (w : World) (x : Client) : Bool :=
  let passwd := x.conf.getD []
  w.sslOk x && (passwd = [] || x.passwd = passwd)

def passwordCheck (w : World) (s : State σ κ) (a : σ) : Except (State σ κ) (State σ κ) :=
  let r := s.request a
  let c := r.client
  if (s.client c).status ≠ .userPort || r.flags.passwordChecked then .ok s
  else if !passwordRight w (s.client c) then .error (exitClient s c)
  else .ok ((s.setFlags a { r.flags with passwordChecked := true }).setPast c { s.past c with password := true })

/-- The test for iauth, with the value of `hurry_up` behind it. -/
def iauthCheck (s : State σ κ) (a : σ) : Except (State σ κ) (State σ κ × Bool) :=
  let r := s.request a
  let hurryUp := r.flags.iauthPending && !r.flags.iauthHurry
  let s := s.setFlags a { r.flags with iauthHurry := true }
  if r.flags.iauthPending then .error s else .ok (s, hurryUp)

def sendHurry (s : State σ κ) (c : κ) : State σ κ :=
  match s.auth c with
  | some a => if s.iauthConnected && (s.request a).flags.iauthPending then { s with hurried := c :: s.hurried } else s
  | none => s

/-- The name that `auth_set_username` settles on. -/
def finalUsername (f : Flags) (x : Client) : List Char :=
  if f.iauthFUsername then x.username.take userLen
  else if x.gotId then cleanUsername x.username
  else x.userUsername

/-- The name is refused by `auth_set_username`. -/
def refusedUsername (f : Flags) (x : Client) (username : List Char) : Bool :=
  username = [] || username = ['~'] ||
    !f.iauthFUsername && badUsername username && !(x.gotId && x.username = username)

def finish (w : World) (s : State σ κ) (a : σ) (hurryUp : Bool) : State σ κ :=
  let r := s.request a
  let c := r.client
  if (s.client c).status ≠ .userPort then destroyAuthRequest s a
  else
    let username := finalUsername r.flags (s.client c)
    let x := { s.client c with passwd := [], userUsername := username }
    let s := s.setClient c x
    if refusedUsername r.flags x username then exitClient s c
    else
      let s := registerUser s a c
      let s := if hurryUp && w.undernet then sendHurry s c else s
      destroyAuthRequest s a

def checkRest (w : World) (s : State σ κ) (a : σ) : State σ κ :=
  let result : Except (State σ κ) (State σ κ) := do
    let s ← killCheck w s a
    let s ← scanFlags s a
    let s ← passwordCheck w s a
    let passed ← iauthCheck s a
    return finish w passed.1 a passed.2
  match result with
  | .ok s => s
  | .error s => s

def checkAuthFinished (w : World) (s : State σ κ) (a : σ) (bit : Bit) : State σ κ :=
  checkRest w (s.setFlags a ((s.request a).flags.clear bit)) a

def authVerifyHostname (host : List Char) : Bool := host.all isHostChar && host.length ≤ hostLen

def authDnsCallback (w : World) (s : State σ κ) (a : σ) (answer : Option (InAddr × List Char)) : State σ κ :=
  let s := s.setFlags a { (s.request a).flags with dnsPending := false }
  let c := (s.request a).client
  let x := s.client c
  match answer with
  | none => checkAuthFinished w s a .dns
  | some (addr, name) =>
    if !addr.valid || x.ip ≠ addr && (s.request a).original ≠ addr then
      if w.killIpMismatch then exitClient s c else checkAuthFinished w s a .dns
    else if !authVerifyHostname name then checkAuthFinished w s a .dns
    else checkAuthFinished w (s.setClient c { x with sockhost := name.take hostLen }) a .dns

/-- `read_auth_reply`, with no name if the reply is not good, and `send_auth_query` if it fails. -/
def readAuthReply (w : World) (s : State σ κ) (a : σ) (username : List Char) : State σ κ :=
  let r := { s.request a with socket := false }
  let s := s.setRequest a r
  let x := s.client r.client
  if username ≠ [] && !r.flags.iauthUsername then
    checkAuthFinished w (s.setClient r.client { x with username := username.take userLen, gotId := true }) a .auth
  else checkAuthFinished w s a .auth

def authTimeoutCallback (w : World) (s : State σ κ) (a : σ) : State σ κ :=
  let r := { s.request a with timeout := false }
  let s := s.setRequest a r
  if r.flags.dnsPending then
    let s := s.setFlags a { r.flags with authPending := false }
    checkAuthFinished w (deleteResolverQueries s a) a .dns
  else checkAuthFinished w s a (if r.flags.authPending then .auth else .unused)

def authPingTimeout (w : World) (s : State σ κ) (c : κ) : State σ κ :=
  match s.auth c with
  | none => exitClient s c
  | some a =>
    let f := (s.request a).flags
    if f.scan then exitClient s c
    else if !f.iauthPending then s
    else if s.iauthRequired && !f.iauthSoftDone then exitClient s c
    else checkAuthFinished w (s.setPast c { s.past c with excused := true }) a .iauth

/-- `auth_set_nick`; `cookie` is the number that `ircrandom` gives, and it is not zero. -/
def authSetNick (w : World) (s : State σ κ) (c : κ) (a : σ) (cookie : Nat) : State σ κ :=
  let s := s.setPast c { s.past c with nick := true }
  let r := s.request a
  let s :=
    if r.cookie = 0 then s.setRequest a { r with cookie := cookie + 1, flags := { r.flags with needsPong := true } } else s
  checkAuthFinished w s a .nick

def authSetUser (w : World) (s : State σ κ) (c : κ) (a : σ) (username info : List Char) : State σ κ :=
  let s := s.setPast c { s.past c with user := true }
  let r := s.request a
  if r.flags.iauthHurry then s
  else
    let s := s.setPast c { s.past c with claimed := cleanUsername username, renamed := false }
    let x := s.client r.client
    let s := s.setClient r.client
      { x with info := info.take realLen, userUsername := cleanUsername username, host := x.sockhost.take hostLen }
    checkAuthFinished w s a .user

def authSetPong (w : World) (s : State σ κ) (c : κ) (a : σ) (cookie : Nat) : State σ κ :=
  let r := s.request a
  if !r.flags.needsPong || cookie ≠ r.cookie then s
  else checkAuthFinished w (s.setPast c { s.past c with pong := true }) a .pong

def authCapStart (s : State σ κ) (c : κ) (a : σ) : State σ κ :=
  (s.setPast c { s.past c with cap := true }).setFlags a { (s.request a).flags with capPending := true }

def authCapDone (w : World) (s : State σ κ) (c : κ) (a : σ) : State σ κ :=
  checkAuthFinished w (s.setPast c { s.past c with cap := false }) a .cap

/-- `start_iauth_query`; iauth is told of the client `c`. -/
def startIauthQuery (s : State σ κ) (c : κ) (a : σ) : State σ κ :=
  (s.setPast c { s.past c with handed := (s.past c).handed || s.iauthConnected }).setFlags a
    { (s.request a).flags with iauthPending := s.iauthConnected }

/-- `m_webirc` and `auth_spoof_user`; `authorized` is what `find_webirc` says and `admitted` what
`IPcheck_local_connect` says. -/
def webirc (w : World) (s : State σ κ) (c : κ) (a : σ) (authorized admitted : Bool) (hostname : List Char)
    (ip : Option InAddr) : State σ κ :=
  match ip with
  | none => exitClient s c
  | some ip =>
    if !authorized || !authVerifyHostname hostname || !admitted then exitClient s c
    else
      let x := { s.client c with
        status := .userPort
        wline := true
        ip := ip
        sockhost := hostname.take hostLen
        doId := true }
      checkAuthFinished w (startIauthQuery (s.setClient c x) c a) a .unused

/-- What becomes of the class in a `D` or `R` message. -/
inductive Attach where
  | unchanged | attached | full
  deriving DecidableEq, Repr

/-- The messages about a client; `ip` has no address if it is not readable, and `account` says
that the account is. -/
inductive Message where
  | usernameForced (name : List Char)
  | usernameGood (name : List Char)
  | usernameBad (name : List Char)
  | hostname (name : List Char)
  | ipAddress (ip : Option InAddr)
  | softDone
  | doneClient (attach : Attach)
  | doneAccount (account : Bool) (attach : Attach)

def doneClient (w : World) (s : State σ κ) (c : κ) (a : σ) (attach : Attach) : State σ κ :=
  let s := s.setPast c { s.past c with answered := true }
  match attach with
  | .unchanged => checkAuthFinished w s a .iauth
  | .attached => checkAuthFinished w (s.setClient c { s.client c with conf := some [] }) a .iauth
  | .full => exitClient s c

/-- The handlers of `iauth_parse` for a client that iauth has not answered for. -/
def iauthCommand (w : World) (s : State σ κ) (c : κ) (a : σ) : Message → State σ κ
  | .usernameForced name =>
    if name = [] then checkAuthFinished w s a .auth
    else
      let s := s.setClient c { s.client c with username := name.take userLen, gotId := true }
      let s := s.setFlags a { (s.request a).flags with iauthUsername := true, iauthFUsername := true }
      checkAuthFinished w s a .auth
  | .usernameGood name =>
    if name = [] then checkAuthFinished w s a .auth
    else
      let s := s.setClient c { s.client c with username := name.take userLen, gotId := true }
      let s := s.setFlags a { (s.request a).flags with iauthUsername := true }
      checkAuthFinished w s a .auth
  | .usernameBad name =>
    if name = [] then checkAuthFinished w s a .auth
    else
      let s := s.setPast c { s.past c with renamed := true }
      checkAuthFinished w (s.setClient c { s.client c with userUsername := name.take userLen }) a .auth
  | .hostname name =>
    if name = [] then s
    else
      let f := (s.request a).flags
      let s := if f.dnsPending then deleteResolverQueries s a else s
      let x := { s.client c with sockhost := name.take hostLen }
      let x := if f.iauthHurry then { x with host := x.sockhost, realhost := x.sockhost } else x
      checkAuthFinished w (s.setClient c x) a .dns
  | .ipAddress none => s
  | .ipAddress (some ip) =>
    let r := s.request a
    let s := s.setRequest a { r with original := if r.original.valid then r.original else (s.client c).ip }
    checkAuthFinished w (s.setClient c { s.client c with ip := ip }) a .dns
  | .softDone =>
    checkAuthFinished w (s.setFlags a { (s.request a).flags with iauthSoftDone := true }) a .softDone
  | .doneClient attach => doneClient w s c a attach
  | .doneAccount account attach => if account then doneClient w s c a attach else s

/-- `iauth_parse`, for a message that names the address and port of the client. -/
def iauthParse (w : World) (s : State σ κ) (c : κ) (message : Message) : State σ κ :=
  match s.auth c with
  | none => s
  | some a => if (s.request a).flags.iauthPending then iauthCommand w s c a message else s

def iauthKill (s : State σ κ) (c : κ) : State σ κ :=
  match s.auth c with
  | none => exitClient s c
  | some a => exitClient (s.setFlags a { (s.request a).flags with iauthPending := false }) c

inductive Port where
  | user | server | webirc
  deriving DecidableEq, Repr

def Port.status : Port → Status
  | .user => .userPort
  | .server => .serverPort
  | .webirc => .webircPort

/-- How `start_auth_query` ends: no connection is made, the reply is awaited, or the query cannot
be sent. -/
inductive Ident where
  | failed | waiting | unsent
  deriving DecidableEq, Repr

def startDnsQuery (w : World) (s : State σ κ) (c : κ) (a : σ) : State σ κ :=
  if w.noDns then s
  else if w.loopback (s.client c).ip then s.setClient c { s.client c with sockhost := w.serverName }
  else
    let s := s.setFlags a { (s.request a).flags with dnsPending := true }
    { s with queries := (a, c) :: s.queries }

def startAuthQuery (w : World) (s : State σ κ) (a : σ) : Ident → State σ κ
  | .failed => s
  | .waiting =>
    s.setRequest a { s.request a with socket := true, flags := { (s.request a).flags with authPending := true } }
  | .unsent => checkAuthFinished w s a .auth

/-- The cell for a new request, from the free list or from `MyMalloc`. -/
def allocate (s : State σ κ) (fresh : σ) (c : κ) : σ × State σ κ :=
  let a := s.freelist.getD fresh
  let freelist := s.freelist.bind fun a => (s.request a).next
  (a, { s with
    request := Function.update s.request a ⟨none, c, .none, 0, noAddress, false, true⟩
    allocated := Function.update s.allocated a true
    freelist := freelist
    auth := Function.update s.auth c (some a) })

/-- `start_auth`, for a client that has just been accepted; `readable` says that the addresses of the
socket can be read. -/
def startAuth (w : World) (s : State σ κ) (c : κ) (fresh : σ) (port : Port) (ip : InAddr) (text : List Char)
    (readable : Bool) (ident : Ident) : State σ κ :=
  let s := s.setClient c { Client.unborn with status := port.status, ip := ip, sockhost := text }
  let (a, s) := allocate s fresh c
  if !readable then exitClient s c
  else
    let s :=
      if port ≠ .server then s.setFlags a { (s.request a).flags with needsUser := true, needsNick := true } else s
    let s := if port = .user then startIauthQuery s c a else s
    let s := if port ≠ .webirc then startAuthQuery w (startDnsQuery w s c a) a ident else s
    checkAuthFinished w s a .unused

inductive Event (σ κ : Type) where
  | start (c : κ) (fresh : σ) (port : Port) (ip : InAddr) (text : List Char) (readable : Bool) (ident : Ident)
  | dnsReply (a : σ) (c : κ) (answer : Option (InAddr × List Char))
  | identReply (a : σ) (username : List Char)
  | authTimeout (a : σ)
  | pingTimeout (c : κ)
  | nick (c : κ) (cookie : Nat)
  | user (c : κ) (username info : List Char)
  | pong (c : κ) (cookie : Nat)
  | pass (c : κ) (password : List Char)
  | capStart (c : κ)
  | capEnd (c : κ)
  | webirc (c : κ) (authorized admitted : Bool) (hostname : List Char) (ip : Option InAddr)
  | iauth (c : κ) (message : Message)
  | iauthKill (c : κ)
  | iauthSession (connected required : Bool)
  | exit (c : κ)

def Status.unregistered : Status → Bool
  | .userPort | .serverPort | .webircPort => true
  | _ => false

def Status.connected (status : Status) : Bool := status.unregistered || status = .user

def State.command (s : State σ κ) (c : κ) (act : σ → State σ κ) : State σ κ :=
  match (s.client c).status with
  | .userPort =>
    match s.auth c with
    | some a => act a
    | none => s
  | .serverPort | .webircPort => exitClient s c
  | _ => s

def State.anyPort (s : State σ κ) (c : κ) (act : σ → State σ κ) : State σ κ :=
  match (s.client c).status.unregistered, s.auth c with
  | true, some a => act a
  | _, _ => s

theorem State.command_keeps {holds : State σ κ → Prop} {s : State σ κ} {c : κ} {act : σ → State σ κ} (start : holds s)
    (exits : holds (exitClient s c)) (acts : ∀ a, s.auth c = some a → holds (act a)) : holds (s.command c act) := by
  unfold State.command
  split
  · cases live : s.auth c with
    | none => exact start
    | some a => exact acts a live
  · exact exits
  · exact exits
  · exact start

omit [DecidableEq σ] [DecidableEq κ] in
theorem State.anyPort_keeps {holds : State σ κ → Prop} {s : State σ κ} {c : κ} {act : σ → State σ κ} (start : holds s)
    (acts : ∀ a, s.auth c = some a → holds (act a)) : holds (s.anyPort c act) := by
  unfold State.anyPort
  split
  · rename_i a _ live
    exact acts a live
  · exact start

def step (w : World) (s : State σ κ) : Event σ κ → State σ κ
  | .start c fresh port ip text readable ident => startAuth w s c fresh port ip text readable ident
  | .dnsReply a c answer => authDnsCallback w { s with queries := s.queries.erase (a, c) } a answer
  | .identReply a username => readAuthReply w s a username
  | .authTimeout a => authTimeoutCallback w s a
  | .pingTimeout c => if (s.client c).status.unregistered then authPingTimeout w s c else s
  | .nick c cookie =>
    s.command c fun a =>
      if (s.client c).named then s
      else authSetNick w (s.setClient c { s.client c with named := true }) c a cookie
  | .user c username info => s.command c fun a => authSetUser w s c a username info
  | .pong c cookie => s.anyPort c fun a => authSetPong w s c a cookie
  | .pass c password => s.anyPort c fun _ => s.setClient c { s.client c with passwd := password.take passwdLen }
  | .capStart c => s.anyPort c fun a => authCapStart s c a
  | .capEnd c => s.anyPort c fun a => authCapDone w s c a
  | .webirc c authorized admitted hostname ip =>
    if (s.client c).status = .webircPort then
      match s.auth c with
      | some a => webirc w s c a authorized admitted hostname ip
      | none => s
    else if (s.client c).status.unregistered then exitClient s c
    else s
  | .iauth c message => if (s.client c).status.connected then iauthParse w s c message else s
  | .iauthKill c => if (s.client c).status.connected then iauthKill s c else s
  | .iauthSession connected required => { s with iauthConnected := connected, iauthRequired := required }
  | .exit c => if (s.client c).status.connected then exitClient s c else s

/-- The events that can happen: a client connects once and `MyMalloc` gives memory that is not in
use; a reply of the resolver answers a query; sockets and timers speak up while they are there. -/
def Permitted (s : State σ κ) : Event σ κ → Prop
  | .start c fresh _ _ _ _ _ => (s.client c).status = .unborn ∧ s.allocated fresh = false
  | .dnsReply a c _ => (a, c) ∈ s.queries
  | .identReply a _ => (s.request a).socket = true
  | .authTimeout a => (s.request a).timeout = true
  | _ => True

instance (s : State σ κ) (event : Event σ κ) : Decidable (Permitted s event) :=
  match event with
  | .start c fresh _ _ _ _ _ => inferInstanceAs (Decidable ((s.client c).status = .unborn ∧ s.allocated fresh = false))
  | .dnsReply a c _ => inferInstanceAs (Decidable ((a, c) ∈ s.queries))
  | .identReply a _ => inferInstanceAs (Decidable ((s.request a).socket = true))
  | .authTimeout a => inferInstanceAs (Decidable ((s.request a).timeout = true))
  | .pingTimeout _ | .nick _ _ | .user _ _ _ | .pong _ _ | .pass _ _ | .capStart _ | .capEnd _ | .webirc _ _ _ _ _
  | .iauth _ _ | .iauthKill _ | .iauthSession _ _ | .exit _ => isTrue trivial

inductive Reachable [Inhabited κ] (w : World) (Careful : State σ κ → Event σ κ → Prop) : State σ κ → Prop where
  | init : Reachable w Careful (State.init σ κ)
  | step {s : State σ κ} (event : Event σ κ) :
      Reachable w Careful s → Permitted s event → Careful s event → Reachable w Careful (Auth.step w s event)

def run (w : World) (s : State σ κ) (events : List (Event σ κ)) : State σ κ := events.foldl (step w) s

def Runs (w : World) (Careful : State σ κ → Event σ κ → Prop) (s : State σ κ) : List (Event σ κ) → Prop
  | [] => True
  | event :: events => (Permitted s event ∧ Careful s event) ∧ Runs w Careful (step w s event) events

instance decidableRuns (w : World) (Careful : State σ κ → Event σ κ → Prop)
    [∀ s event, Decidable (Careful s event)] (s : State σ κ) (events : List (Event σ κ)) :
    Decidable (Runs w Careful s events) :=
  match events with
  | [] => isTrue trivial
  | event :: events =>
    have := decidableRuns w Careful (step w s event) events
    inferInstanceAs (Decidable ((Permitted s event ∧ Careful s event) ∧ Runs w Careful (step w s event) events))

theorem Reachable.run [Inhabited κ] {w : World} {Careful : State σ κ → Event σ κ → Prop} {s : State σ κ}
    (reachable : Reachable w Careful s) {events : List (Event σ κ)} (runs : Runs w Careful s events) :
    Reachable w Careful (Auth.run w s events) := by
  induction events generalizing s with
  | nil => exact reachable
  | cons event events ih =>
    obtain ⟨⟨permitted, careful⟩, rest⟩ := runs
    exact ih (reachable.step event permitted careful) rest

end Ircd.Auth

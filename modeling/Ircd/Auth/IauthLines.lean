import Ircd.Auth.Elsewhere
import Ircd.Net.IpText
import Ircd.Users.SetUserMode

/-! The lines of the iauth program: `iauth_parse` and the handlers behind it.

A parameter is read through a pointer, and a read where there is no text ends the run. The messages to the
clients, the registry of addresses and the host of a hidden user are left out.
-/

set_option autoImplicit false

namespace Ircd.Auth
open Ircd.Text Ircd.Net

def maxPara : Nat := 15

def accountLen : Nat := 12

def isSpace (c : Char) : Bool := c = ' ' || '\t' ≤ c && c ≤ '\r'

/-- The loop of `iauth_parse` over the parameters, with room for so many more. -/
def iauthParams : Nat → List Char → List (List Char)
  | 0, _ => []
  | room + 1, message =>
    match message.dropWhile isSpace with
    | [] => []
    | ':' :: last => [last]
    | c :: rest =>
      (c :: rest).takeWhile (!isSpace ·) :: iauthParams room (((c :: rest).dropWhile (!isSpace ·)).drop 1)

example : iauthParams maxPara " 5 0::1 80  :no more".toList =
    ["5".toList, "0::1".toList, "80".toList, "no more".toList] := by decide

/-- What a pointer of `params` is: a text, the null behind the last one, or not set. -/
inductive Slot where
  | text (chars : List Char)
  | null
  | unset

def slot (params : List (List Char)) (i : Nat) : Slot :=
  match params[i]? with
  | some chars => .text chars
  | none => if i = params.length then .null else .unset

def Slot.read : Slot → Option (List Char)
  | .text chars => some chars
  | .null | .unset => none

/-- A read behind `EmptyString`, which looks at the pointer first. -/
def Slot.orEmpty : Slot → Option (List Char)
  | .text chars => some chars
  | .null => some []
  | .unset => none

def Slot.printed : Slot → Option (List Char)
  | .text chars => some chars
  | .null => some "(null)".toList
  | .unset => none

def lineNumber (text : List Char) : Int := (atol text).bmod (2 ^ 32)

def linePort (text : List Char) : UInt16 := UInt16.ofInt (atol text)

structure ClientTable (σ κ : Type) where
  state : State σ κ
  owned : Owned state

structure Options where
  addlInfo : Bool
  required : Bool
  timeout : Bool
  extraWait : Bool
  undernet : Bool

def Options.none : Options := ⟨false, false, false, false, false⟩

def Options.add (o : Options) (c : Char) : Options :=
  if c = 'A' then { o with addlInfo := true }
  else if c = 'R' then { o with required := true }
  else if c = 'T' then { o with timeout := true }
  else if c = 'W' then { o with extraWait := true }
  else if c = 'U' then { o with undernet := true }
  else o

structure Account where
  name : List Char
  created : Nat

/-- The connection with iauth and what its lines change. `notices` go to the operators, `sent` to iauth, and
`forwarded` has the server, the routing and the text of each query. -/
structure Session (σ κ : Type) where
  clients : ClientTable σ κ
  port : σ → UInt16
  highestFd : Int
  localClientArray : Nat → Option κ
  fd : κ → Int
  modes : κ → Users.RegUser
  opers : UInt32
  account : κ → Option Account
  options : Options
  debug : Int
  version : List Char
  config : List (List Char)
  stats : List (List Char)
  notices : List (List Char)
  sent : List (List Char)
  forwarded : List (List Char × List Char × List Char)

inductive MatchedServer where
  | offline
  | me
  | other (name : List Char)

/-- What the handlers ask the rest of the server; `attach` is what becomes of the class of a `D` or `R` line. -/
structure IauthSite where
  world : World
  modeFeatures : Users.ModeFeatures
  attach : Client → List Char → Attach
  findMatchServer : List Char → MatchedServer

variable {σ κ : Type} [DecidableEq σ] [DecidableEq κ]

namespace Session

def state (s : Session σ κ) : State σ κ := s.clients.state

def waiting (s : Session σ κ) (c : κ) : Bool :=
  match s.state.auth c with
  | some a => (s.state.request a).flags.iauthPending
  | none => false

def localClient (s : Session σ κ) (id : Int) : Option κ :=
  if id < 0 ∨ id > s.highestFd then none else s.localClientArray id.toNat

def sendtoIauth (s : Session σ κ) (client : Option κ) (text : List Char) : Session σ κ :=
  if !s.state.iauthConnected then s
  else
    match client with
    | none => { s with sent := ("-1 ".toList ++ text) :: s.sent }
    | some c =>
      if peek text ≠ 'D' && !s.waiting c then s
      else { s with sent := ((toString (s.fd c)).toList ++ ' ' :: text) :: s.sent }

def missing (s : Session σ κ) (client : Option κ) (what : String) : Session σ κ :=
  s.sendtoIauth client ("E Missing :Missing ".toList ++ what.toList ++ " parameter".toList)

def notice (s : Session σ κ) (text : List Char) : Session σ κ := { s with notices := text :: s.notices }

def iauth (site : IauthSite) (s : Session σ κ) (c : κ) (message : Message) : Session σ κ :=
  let world := { site.world with undernet := s.options.undernet }
  { s with clients := ⟨iauthParse world s.state c message, (iauthParse_others s.clients.owned message).1⟩ }

end Session

def iauthCmdSnotice (s : Session σ κ) (params : List (List Char)) : Option (Session σ κ) :=
  (slot params 0).printed.map s.notice

def iauthCmdDebuglevel (s : Session σ κ) (params : List (List Char)) : Option (Session σ κ) :=
  (if params.length > 0 then (slot params 0).read.map lineNumber else some 0).map fun newLevel =>
    let s := if s.debug > 0 ∨ newLevel > 0 then s.notice ("ia_dbg = ".toList ++ (toString newLevel).toList) else s
    { s with debug := newLevel }

def iauthCmdPolicy (s : Session σ κ) (params : List (List Char)) : Option (Session σ κ) :=
  (if params.length > 0 then (slot params 0).read else some []).bind fun policy =>
    let options := policy.foldl Options.add .none
    let clients : ClientTable σ κ := ⟨{ s.state with iauthRequired := options.required }, s.clients.owned⟩
    let s := { s with options := options, clients := clients }
    if s.debug > 0 then (slot params 0).printed.map fun text => s.notice ("iauth options: ".toList ++ text) else some s

def iauthCmdVersion (s : Session σ κ) (params : List (List Char)) : Option (Session σ κ) :=
  (if params.length > 0 then (slot params 0).read else some "<NONE>".toList).map fun version =>
    { s with version := version }.notice ("iauth version ".toList ++ version ++ " running.".toList)

def pasteTexts : List (List Char) → List Char
  | [] => []
  | [last] => ':' :: last
  | text :: rest => text ++ ' ' :: pasteTexts rest

def pasteParams (params : List (List Char)) : Option (List Char) :=
  ((List.range params.length).mapM fun i => (slot params i).read).map pasteTexts

def iauthCmdNewconfig (s : Session σ κ) : Session σ κ :=
  { s with config := [] }.notice "New iauth configuration.".toList

def iauthCmdConfig (s : Session σ κ) (params : List (List Char)) : Option (Session σ κ) :=
  (pasteParams params).map fun text => { s with config := s.config ++ [text] }

def iauthCmdNewstats (s : Session σ κ) : Session σ κ :=
  { s with stats := [] }.notice "New iauth statistics.".toList

def iauthCmdStats (s : Session σ κ) (params : List (List Char)) : Option (Session σ κ) :=
  (pasteParams params).map fun text => { s with stats := s.stats ++ [text] }

def iauthCmdXquery (site : IauthSite) (s : Session σ κ) (params : List (List Char)) : Option (Session σ κ) :=
  (slot params 0).orEmpty.bind fun serv =>
    if serv = [] then some (s.missing none "server")
    else
      (slot params 1).orEmpty.bind fun routing =>
        if routing = [] then some (s.missing none "routing")
        else
          (slot params 2).orEmpty.map fun query =>
            if query = [] then s.missing none "query"
            else
              match site.findMatchServer serv with
              | .offline => s.sendtoIauth none ("x ".toList ++ serv ++ ' ' :: routing ++ " :Server not online".toList)
              | .me => s
              | .other name => { s with forwarded := (name, "iauth:".toList ++ routing, query) :: s.forwarded }

def iauthCmdUsername (site : IauthSite) (s : Session σ κ) (c : κ) (message : List Char → Message)
    (params : List (List Char)) : Option (Session σ κ) :=
  (slot params 0).orEmpty.map fun name => s.iauth site c (message name)

def iauthCmdUsernameForced (site : IauthSite) (s : Session σ κ) (c : κ) : List (List Char) → Option (Session σ κ) :=
  iauthCmdUsername site s c .usernameForced

def iauthCmdUsernameGood (site : IauthSite) (s : Session σ κ) (c : κ) : List (List Char) → Option (Session σ κ) :=
  iauthCmdUsername site s c .usernameGood

def iauthCmdUsernameBad (site : IauthSite) (s : Session σ κ) (c : κ) : List (List Char) → Option (Session σ κ) :=
  iauthCmdUsername site s c .usernameBad

def iauthCmdHostname (site : IauthSite) (s : Session σ κ) (c : κ) (params : List (List Char)) : Option (Session σ κ) :=
  (slot params 0).orEmpty.map fun name =>
    if name = [] then s.missing (some c) "hostname" else s.iauth site c (.hostname name)

def iauthCmdIpAddress (site : IauthSite) (s : Session σ κ) (c : κ) (params : List (List Char)) :
    Option (Session σ κ) :=
  (slot params 0).orEmpty.map fun text =>
    if text = [] then s.missing (some c) "IP address"
    else
      match ipmaskParse false text with
      | none => s.sendtoIauth (some c) ("E Invalid :Unable to parse IP address [".toList ++ text ++ "]".toList)
      | some mask => s.iauth site c (.ipAddress (some mask.ip))

def iauthCmdUsermode (site : IauthSite) (s : Session σ κ) (c : κ) (params : List (List Char)) : Option (Session σ κ) :=
  (slot params 0).read.map fun text =>
    if peek text = '+' then
      let client : Users.ModeClient := ⟨s.modes c, true, (s.state.client c).status = .user⟩
      let result := Users.setUserModes site.modeFeatures false client s.opers params []
      { s with modes := Function.update s.modes c result.1.user, opers := result.2 }
    else s

def iauthCmdChallenge (s : Session σ κ) (params : List (List Char)) : Option (Session σ κ) :=
  (slot params 0).orEmpty.map fun _ => s

def iauthCmdSoftDone (site : IauthSite) (s : Session σ κ) (c : κ) : Session σ κ := s.iauth site c .softDone

def iauthCmdDoneClient (site : IauthSite) (s : Session σ κ) (c : κ) (params : List (List Char)) :
    Option (Session σ κ) :=
  (slot params 0).orEmpty.map fun name =>
    s.iauth site c (.doneClient (if name = [] then .unchanged else site.attach (s.state.client c) name))

def iauthCmdDoneAccount (site : IauthSite) (s : Session σ κ) (c : κ) (params : List (List Char)) :
    Option (Session σ κ) :=
  (slot params 0).orEmpty.bind fun text =>
    if text = [] then some (s.missing (some c) "account")
    else
      let name := text.takeWhile fun d => d ≠ ':' && d ≠ ' '
      let rest := text.drop name.length
      if name.length > accountLen then
        some (s.sendtoIauth (some c) "E Invalid :Account parameter too long".toList)
      else
        let created := if peek rest = ':' then strtoul rest.tail else ((s.account c).map Account.created).getD 0
        -- Without a colon the name that is copied is the whole text, of which only so much fits.
        let kept := if peek rest = ':' then name else text
        let s := { s with
          account := Function.update s.account c (some ⟨kept.take accountLen, created⟩)
          modes := Function.update s.modes c ((s.modes c).put (.mode .account) true) }
        iauthCmdDoneClient site s c (params.drop 1)

def iauthCmdKill (s : Session σ κ) (c : κ) (params : List (List Char)) : Option (Session σ κ) :=
  (slot params 0).orEmpty.map fun _ =>
    { s with clients := ⟨iauthKill s.state c, (iauthKill_others s.clients.owned).1⟩ }

inductive SessionCommand where
  | snotice | debuglevel | policy | version | newconfig | config | newstats | stats | xquery
  deriving DecidableEq

inductive ClientCommand where
  | usernameForced | usernameGood | usernameBad | hostname | ipAddress | usermode | challenge | softDone
  | doneClient | doneAccount | kill
  deriving DecidableEq

inductive Selected where
  | session (command : SessionCommand)
  | client (command : ClientCommand)
  | termination
  | garbage
  deriving DecidableEq

def iauthSelect : Char → Selected
  | '>' => .session .snotice
  | 'G' => .session .debuglevel
  | 'O' => .session .policy
  | 'V' => .session .version
  | 'a' => .session .newconfig
  | 'A' => .session .config
  | 's' => .session .newstats
  | 'S' => .session .stats
  | 'X' => .session .xquery
  | 'o' => .client .usernameForced
  | 'U' => .client .usernameGood
  | 'u' => .client .usernameBad
  | 'N' => .client .hostname
  | 'I' => .client .ipAddress
  | 'M' => .client .usermode
  | 'C' => .client .challenge
  | 'd' => .client .softDone
  | 'D' => .client .doneClient
  | 'R' => .client .doneAccount
  | 'k' => .client .kill
  | 'K' => .client .kill
  | 'r' => .termination
  | _ => .garbage

def sessionCommand (site : IauthSite) (s : Session σ κ) (params : List (List Char)) :
    SessionCommand → Option (Session σ κ)
  | .snotice => iauthCmdSnotice s params
  | .debuglevel => iauthCmdDebuglevel s params
  | .policy => iauthCmdPolicy s params
  | .version => iauthCmdVersion s params
  | .newconfig => some (iauthCmdNewconfig s)
  | .config => iauthCmdConfig s params
  | .newstats => some (iauthCmdNewstats s)
  | .stats => iauthCmdStats s params
  | .xquery => iauthCmdXquery site s params

def clientCommand (site : IauthSite) (s : Session σ κ) (c : κ) (params : List (List Char)) :
    ClientCommand → Option (Session σ κ)
  | .usernameForced => iauthCmdUsernameForced site s c params
  | .usernameGood => iauthCmdUsernameGood site s c params
  | .usernameBad => iauthCmdUsernameBad site s c params
  | .hostname => iauthCmdHostname site s c params
  | .ipAddress => iauthCmdIpAddress site s c params
  | .usermode => iauthCmdUsermode site s c params
  | .challenge => iauthCmdChallenge s params
  | .softDone => some (iauthCmdSoftDone site s c)
  | .doneClient => iauthCmdDoneClient site s c params
  | .doneAccount => iauthCmdDoneAccount site s c params
  | .kill => iauthCmdKill s c params

def ClientCommand.hasCli : ClientCommand → Nat
  | .kill => 2
  | _ => 1

def ircInAddrCmp (a b : InAddr) : Bool :=
  if a.isIpv4 then a.word 6 ≠ b.word 6 || a.word 7 ≠ b.word 7 || !b.isIpv4 else a ≠ b

def Session.mismatch (s : Session σ κ) (c : κ) (ip port : List Char) : Bool :=
  match ipmaskParse false ip with
  | none => true
  | some mask =>
    ircInAddrCmp mask.ip (s.state.client c).ip ||
      match s.state.auth c with
      | none => false
      | some a => linePort port ≠ s.port a

def quoted (id ip port : List Char) : List Char := '[' :: id ++ ' ' :: ip ++ ' ' :: port ++ [']']

/-- The end of `iauth_parse` for the commands that specify a client, where the line has an id, an address and a port. -/
def forIdentified (site : IauthSite) (s : Session σ κ) (command : ClientCommand) (id ip port : List Char)
    (params : List (List Char)) : Option (Session σ κ) :=
  match s.localClient (lineNumber id) with
  | none => some (s.sendtoIauth none ("E Gone :".toList ++ quoted id ip port))
  | some c =>
    if !s.waiting c && command.hasCli = 1 then
      some (s.sendtoIauth (some c) ("E Done :".toList ++ quoted id ip port))
    else if s.mismatch c ip port then
      some (s.sendtoIauth (some c)
        ("E Mismatch :[".toList ++ ip ++ "] != [".toList ++ ircdNtoaR (s.state.client c).ip ++ "]".toList))
    else clientCommand site s c params command

/-- The part of `iauth_parse` for the commands that specify a client. -/
def forClient (site : IauthSite) (s : Session σ κ) (command : ClientCommand) (params : List (List Char)) :
    Option (Session σ κ) :=
  -- The id is converted before the parameters are counted.
  (slot params 0).read.bind fun id =>
    if params.length < 3 then some (s.sendtoIauth none "E Missing :Need <id> <ip> <port>".toList)
    else
      (slot params 1).read.bind fun ip =>
        (slot params 2).read.bind fun port => forIdentified site s command id ip port (params.drop 3)

def lineParams (line : List Char) : List (List Char) := iauthParams maxPara line.tail

/-- `iauth_parse`; none where it reads a parameter that is missing. -/
def iauthLine (site : IauthSite) (s : Session σ κ) (line : List Char) : Option (Session σ κ) :=
  match iauthSelect (peek line) with
  | .termination => some s
  | .garbage => some (s.sendtoIauth none ("E Garbage :[".toList ++ line.tail ++ "]".toList))
  | .session command => sessionCommand site s (lineParams line) command
  | .client command => forClient site s command (lineParams line)

theorem iauthParams_length (room : Nat) (message : List Char) : (iauthParams room message).length ≤ room := by
  induction room generalizing message with
  | zero => exact Nat.le_refl 0
  | succ room ih =>
    unfold iauthParams
    split
    · exact Nat.zero_le _
    · exact Nat.succ_le_succ (Nat.zero_le room)
    · exact Nat.succ_le_succ (ih _)

theorem slot_succ (first : List Char) (rest : List (List Char)) (i : Nat) :
    slot (first :: rest) (i + 1) = slot rest i := by
  simp only [slot, List.getElem?_cons_succ, List.length_cons, Nat.add_right_cancel_iff]

theorem slot_first (params : List (List Char)) :
    ∃ text, (slot params 0).orEmpty = some text ∧ (text ≠ [] → params ≠ []) := by
  cases params with
  | nil => exact ⟨[], rfl, fun filled => absurd rfl filled⟩
  | cons first rest => exact ⟨first, rfl, fun _ => List.cons_ne_nil first rest⟩

theorem pasteParams_eq (params : List (List Char)) : pasteParams params = some (pasteTexts params) := by
  suffices ((List.range params.length).mapM fun i => (slot params i).read) = some params by rw [pasteParams, this]; rfl
  induction params with
  | nil => rfl
  | cons first rest ih =>
    have later : (fun i => (slot (first :: rest) i).read) ∘ Nat.succ = fun i => (slot rest i).read := by
      funext i
      exact congrArg Slot.read (slot_succ first rest i)
    rw [List.length_cons, List.range_succ_eq_map, List.mapM_cons, List.mapM_map, later, ih]
    rfl

/-- The registration of the client `d`, its modes and its account are in `t` as they are in `s`. -/
structure Untouched (s t : Session σ κ) (d : κ) : Prop where
  registration : SameRegistration s.state t.state d
  modes : t.modes d = s.modes d
  account : t.account d = s.account d

theorem Untouched.refl (s : Session σ κ) (d : κ) : Untouched s s d := ⟨.refl s.state d, rfl, rfl⟩

theorem Untouched.trans {s t u : Session σ κ} {d : κ} (first : Untouched s t d) (second : Untouched t u d) :
    Untouched s u d :=
  ⟨first.registration.trans second.registration, second.modes.trans first.modes, second.account.trans first.account⟩

variable (site : IauthSite) (s : Session σ κ)

theorem untouched_sendtoIauth (client : Option κ) (text : List Char) (d : κ) :
    Untouched s (s.sendtoIauth client text) d := by
  unfold Session.sendtoIauth
  split
  · exact .refl s d
  · cases client with
    | none => exact ⟨.refl s.state d, rfl, rfl⟩
    | some c =>
      dsimp only
      split
      · exact .refl s d
      · exact ⟨.refl s.state d, rfl, rfl⟩

theorem untouched_iauth {c d : κ} (other : d ≠ c) (message : Message) : Untouched s (s.iauth site c message) d :=
  ⟨(iauthParse_others s.clients.owned message).2 d other, rfl, rfl⟩

theorem sessionCommand_safe (params : List (List Char)) (command : SessionCommand) :
    ∃ after, sessionCommand site s params command = some after ∧ ∀ d, Untouched s after d := by
  have same : ∀ t : Session σ κ, t.clients = s.clients → t.modes = s.modes → t.account = s.account →
      ∀ d, Untouched s t d := by
    intro t clients modes account d
    refine ⟨?_, congrFun modes d, congrFun account d⟩
    show SameRegistration s.state t.clients.state d
    rw [clients]
    exact .refl s.state d
  cases command with
  | snotice =>
    cases params with
    | nil => exact ⟨_, rfl, same _ rfl rfl rfl⟩
    | cons text rest => exact ⟨_, rfl, same _ rfl rfl rfl⟩
  | debuglevel =>
    have kept : ∀ level : Int, ∀ d, Untouched s
        { (if s.debug > 0 ∨ level > 0 then s.notice ("ia_dbg = ".toList ++ (toString level).toList) else s) with
          debug := level } d := by
      intro level
      split
      · exact same _ rfl rfl rfl
      · exact same _ rfl rfl rfl
    cases params with
    | nil => exact ⟨_, rfl, kept 0⟩
    | cons text rest => exact ⟨_, rfl, kept (lineNumber text)⟩
  | policy =>
    have required : ∀ (options : Options) (notices : List (List Char)) (d : κ), Untouched s { s with
        options := options
        clients := ⟨{ s.state with iauthRequired := options.required }, s.clients.owned⟩
        notices := notices } d :=
      fun _ _ _ => ⟨⟨rfl, rfl, rfl, fun _ _ => rfl, fun _ _ => rfl, rfl⟩, rfl, rfl⟩
    cases params with
    | nil =>
      simp only [sessionCommand, iauthCmdPolicy]
      by_cases debug : s.debug > 0
      · exact ⟨_, if_pos debug, required _ _⟩
      · exact ⟨_, if_neg debug, required _ _⟩
    | cons text rest =>
      simp only [sessionCommand, iauthCmdPolicy]
      by_cases debug : s.debug > 0
      · exact ⟨_, if_pos debug, required _ _⟩
      · exact ⟨_, if_neg debug, required _ _⟩
  | version =>
    cases params with
    | nil => exact ⟨_, rfl, same _ rfl rfl rfl⟩
    | cons text rest => exact ⟨_, rfl, same _ rfl rfl rfl⟩
  | newconfig => exact ⟨_, rfl, same _ rfl rfl rfl⟩
  | config => exact ⟨_, congrArg (Option.map _) (pasteParams_eq params), same _ rfl rfl rfl⟩
  | newstats => exact ⟨_, rfl, same _ rfl rfl rfl⟩
  | stats => exact ⟨_, congrArg (Option.map _) (pasteParams_eq params), same _ rfl rfl rfl⟩
  | xquery =>
    have told : ∀ text, ∃ after, some (s.sendtoIauth none text) = some after ∧ ∀ d, Untouched s after d :=
      fun text => ⟨_, rfl, untouched_sendtoIauth s none text⟩
    simp only [sessionCommand, iauthCmdXquery]
    obtain ⟨serv, readServ, there⟩ := slot_first params
    rw [readServ, Option.bind_some]
    split
    · exact told _
    · rename_i named
      obtain ⟨first, rest, rfl⟩ := List.exists_cons_of_ne_nil (there named)
      obtain ⟨routing, readRouting, there⟩ := slot_first rest
      rw [slot_succ, readRouting, Option.bind_some]
      split
      · exact told _
      · rename_i routed
        obtain ⟨second, rest, rfl⟩ := List.exists_cons_of_ne_nil (there routed)
        obtain ⟨query, readQuery, -⟩ := slot_first rest
        rw [slot_succ, slot_succ, readQuery, Option.map_some]
        split
        · exact told _
        · split
          · exact told _
          · exact ⟨_, rfl, Untouched.refl s⟩
          · exact ⟨_, rfl, same _ rfl rfl rfl⟩

variable {command : ClientCommand}

/-- A handler for a client finds what it reads, unless it is the one of the user modes and has nothing, and
changes that client only. -/
theorem clientCommand_safe (c : κ) {params : List (List Char)} (readable : command = .usermode → params ≠ []) :
    ∃ after, clientCommand site s c params command = some after ∧ ∀ d, d ≠ c → Untouched s after d := by
  obtain ⟨text, read, -⟩ := slot_first params
  have answered : ∀ message, ∀ d, d ≠ c → Untouched s (s.iauth site c message) d :=
    fun message d other => untouched_iauth site s other message
  have told : ∀ text, ∀ d, d ≠ c → Untouched s (s.sendtoIauth (some c) text) d :=
    fun text d _ => untouched_sendtoIauth s (some c) text d
  cases command with
  | usernameForced => exact ⟨_, congrArg (Option.map _) read, answered _⟩
  | usernameGood => exact ⟨_, congrArg (Option.map _) read, answered _⟩
  | usernameBad => exact ⟨_, congrArg (Option.map _) read, answered _⟩
  | hostname =>
    refine ⟨_, congrArg (Option.map _) read, ?_⟩
    dsimp only
    split
    · exact told _
    · exact answered _
  | ipAddress =>
    refine ⟨_, congrArg (Option.map _) read, ?_⟩
    dsimp only
    split
    · exact told _
    · split
      · exact told _
      · exact answered _
  | usermode =>
    obtain ⟨first, rest, rfl⟩ := List.exists_cons_of_ne_nil (readable rfl)
    refine ⟨_, rfl, fun d other => ?_⟩
    dsimp only
    split
    · exact ⟨.refl s.state d, Function.update_of_ne other _ _, rfl⟩
    · exact .refl s d
  | challenge => exact ⟨_, congrArg (Option.map _) read, fun d _ => .refl s d⟩
  | softDone => exact ⟨_, rfl, answered _⟩
  | doneClient => exact ⟨_, congrArg (Option.map _) read, answered _⟩
  | doneAccount =>
    simp only [clientCommand, iauthCmdDoneAccount]
    rw [read, Option.bind_some]
    split
    · exact ⟨_, rfl, told _⟩
    · split
      · exact ⟨_, rfl, told _⟩
      · obtain ⟨name, readName, -⟩ := slot_first (params.drop 1)
        refine ⟨_, congrArg (Option.map _) readName, fun d other => Untouched.trans ?_ (untouched_iauth site _ other _)⟩
        exact ⟨.refl s.state d, Function.update_of_ne other _ _, Function.update_of_ne other _ _⟩
  | kill =>
    refine ⟨_, congrArg (Option.map _) read, fun d other => ?_⟩
    exact ⟨(iauthKill_others s.clients.owned).2 d other, rfl, rfl⟩

/-- The client that a line names: its id, its address and, while it has a request, its port are those in it. -/
def Session.Names (s : Session σ κ) (params : List (List Char)) (c : κ) : Prop :=
  ∃ id ip port rest mask, params = id :: ip :: port :: rest ∧ s.localClient (lineNumber id) = some c ∧
    ipmaskParse false ip = some mask ∧ ircInAddrCmp mask.ip (s.state.client c).ip = false ∧
      ∀ a, s.state.auth c = some a → s.port a = linePort port

omit [DecidableEq σ] [DecidableEq κ] in
theorem mismatch_eq_false {s : Session σ κ} {c : κ} {ip port : List Char} :
    s.mismatch c ip port = false ↔ ∃ mask, ipmaskParse false ip = some mask ∧
      ircInAddrCmp mask.ip (s.state.client c).ip = false ∧ ∀ a, s.state.auth c = some a → s.port a = linePort port := by
  unfold Session.mismatch
  cases ipmaskParse false ip with
  | none => exact iff_of_false (by simp) (by rintro ⟨mask, ⟨⟩, -⟩)
  | some mask =>
    simp only [Bool.or_eq_false_iff, Option.some.injEq, exists_eq_left']
    cases s.state.auth c with
    | none => simp
    | some a =>
      simp only [Option.some.injEq, forall_eq', ne_eq, decide_not, Bool.not_eq_false', decide_eq_true_eq]
      exact and_congr_right fun _ => eq_comm

theorem forClient_short {id : List Char} {rest : List (List Char)} (short : (id :: rest).length < 3) :
    forClient site s command (id :: rest) =
      some (s.sendtoIauth none "E Missing :Need <id> <ip> <port>".toList) := if_pos short

theorem forClient_identified {id ip port : List Char} {rest : List (List Char)} :
    forClient site s command (id :: ip :: port :: rest) = forIdentified site s command id ip port rest := by
  have enough : ¬ (id :: ip :: port :: rest).length < 3 := Nat.not_lt.mpr (Nat.le_add_left 3 rest.length)
  exact if_neg enough (t := some (s.sendtoIauth none "E Missing :Need <id> <ip> <port>".toList))

theorem forIdentified_safe {id ip port : List Char} {rest : List (List Char)} (readable : command = .usermode → rest = [] →
      ∀ c, s.Names (id :: ip :: port :: rest) c → s.waiting c = false) :
    ∃ after, forIdentified site s command id ip port rest = some after ∧
      ∀ d, ¬ s.Names (id :: ip :: port :: rest) d → Untouched s after d := by
  have told : ∀ client text, ∃ after, some (s.sendtoIauth client text) = some after ∧
      ∀ d, ¬ s.Names (id :: ip :: port :: rest) d → Untouched s after d :=
    fun client text => ⟨_, rfl, fun d _ => untouched_sendtoIauth s client text d⟩
  unfold forIdentified
  cases found : s.localClient (lineNumber id) with
  | none => exact told _ _
  | some c =>
    dsimp only
    split
    · exact told _ _
    · rename_i undone
      split
      · exact told _ _
      · rename_i fits
        obtain ⟨mask, parsed, address, port_eq⟩ := mismatch_eq_false.mp (Bool.not_eq_true _ ▸ fits)
        have names : s.Names (id :: ip :: port :: rest) c :=
          ⟨id, ip, port, rest, mask, rfl, found, parsed, address, port_eq⟩
        have given : command = .usermode → rest ≠ [] := by
          rintro rfl empty
          have idle := readable rfl empty c names
          exact undone (by rw [idle]; rfl)
        obtain ⟨after, result, others⟩ := clientCommand_safe site s c given
        refine ⟨after, result, fun d unnamed => others d ?_⟩
        rintro rfl
        exact unnamed names

theorem forClient_safe {params : List (List Char)} (named : params ≠ [])
    (readable : ¬ (command = .usermode ∧ params.length = 3 ∧ ∃ c, s.Names params c ∧ s.waiting c = true)) :
    ∃ after, forClient site s command params = some after ∧ ∀ d, ¬ s.Names params d → Untouched s after d := by
  obtain ⟨id, rest, rfl⟩ := List.exists_cons_of_ne_nil named
  by_cases short : (id :: rest).length < 3
  · rw [forClient_short site s short]
    exact ⟨_, rfl, fun d _ => untouched_sendtoIauth s none _ d⟩
  · obtain ⟨ip, rest, rfl⟩ := List.exists_cons_of_ne_nil (by rintro rfl; exact short (by simp) : rest ≠ [])
    obtain ⟨port, rest, rfl⟩ := List.exists_cons_of_ne_nil (by rintro rfl; exact short (by simp) : rest ≠ [])
    rw [forClient_identified]
    refine forIdentified_safe site s fun usermode empty c names => ?_
    by_contra waits
    exact readable ⟨usermode, by rw [empty]; rfl, c, names, (Bool.not_eq_false _).mp waits⟩

theorem forClient_missing {params : List (List Char)} {c : κ} (three : params.length = 3) (names : s.Names params c)
    (waits : s.waiting c = true) : forClient site s .usermode params = none := by
  obtain ⟨id, ip, port, rest, mask, rfl, found, parsed, address, port_eq⟩ := names
  obtain rfl : rest = [] := List.length_eq_zero_iff.mp (by simpa using three)
  have fits : s.mismatch c ip port = false := mismatch_eq_false.mpr ⟨mask, parsed, address, port_eq⟩
  rw [forClient_identified]
  unfold forIdentified
  rw [found]
  dsimp only
  rw [waits, fits]
  rfl

/-- A line reads no parameter that is missing, stores no more than there is room for, and changes only the client
that it names. -/
def LineSafe (line : List Char) : Prop :=
  (lineParams line).length ≤ maxPara ∧
    ∃ after, iauthLine site s line = some after ∧ ∀ d, ¬ s.Names (lineParams line) d → Untouched s after d

/-- The lines that are not safe are those of a command for a client without a parameter, and those that set the
modes of a client which iauth has not answered for without saying which. -/
theorem line_safe_iff (line : List Char) : LineSafe site s line ↔
    ¬ ((∃ command, iauthSelect (peek line) = .client command) ∧ lineParams line = []) ∧
      ¬ (iauthSelect (peek line) = .client .usermode ∧ (lineParams line).length = 3 ∧
        ∃ c, s.Names (lineParams line) c ∧ s.waiting c = true) := by
  have room : (lineParams line).length ≤ maxPara := iauthParams_length maxPara line.tail
  unfold LineSafe iauthLine
  cases selected : iauthSelect (peek line) with
  | termination =>
    refine iff_of_true ⟨room, s, rfl, fun d _ => .refl s d⟩ ⟨?_, ?_⟩
    · rintro ⟨⟨command, ⟨⟩⟩, -⟩
    · rintro ⟨⟨⟩, -⟩
  | garbage =>
    refine iff_of_true ⟨room, _, rfl, fun d _ => untouched_sendtoIauth s none _ d⟩ ⟨?_, ?_⟩
    · rintro ⟨⟨command, ⟨⟩⟩, -⟩
    · rintro ⟨⟨⟩, -⟩
  | session command =>
    obtain ⟨after, result, all⟩ := sessionCommand_safe site s (lineParams line) command
    refine iff_of_true ⟨room, after, result, fun d _ => all d⟩ ⟨?_, ?_⟩
    · rintro ⟨⟨command, ⟨⟩⟩, -⟩
    · rintro ⟨⟨⟩, -⟩
  | client command =>
    dsimp only
    constructor
    · rintro ⟨-, after, result, -⟩
      constructor
      · rintro ⟨-, none_there⟩
        rw [none_there] at result
        cases result
      · rintro ⟨usermode, three, c, names, waits⟩
        cases usermode
        rw [forClient_missing site s three names waits] at result
        cases result
    · rintro ⟨named, readable⟩
      refine ⟨room, forClient_safe site s (fun none_there => named ⟨⟨command, rfl⟩, none_there⟩) ?_⟩
      rintro ⟨rfl, three, waits⟩
      exact readable ⟨rfl, three, waits⟩

/-- A `D` line without parameters. -/
theorem line_unsafe : ¬ ∀ (site : IauthSite) (s : Session Nat Nat) (line : List Char), LineSafe site s line := by
  intro safe
  let site : IauthSite := ⟨openWorld, ⟨⟨false, false, false⟩, false⟩, fun _ _ => .unchanged, fun _ => .offline⟩
  let s : Session Nat Nat :=
    { clients := ⟨State.init Nat Nat, fun _ _ => nofun⟩
      port := fun _ => 0
      highestFd := -1
      localClientArray := fun _ => none
      fd := fun _ => -1
      modes := fun _ => ⟨fun _ => false, fun _ => false, false, 0⟩
      opers := 0
      account := fun _ => none
      options := .none
      debug := 0
      version := []
      config := []
      stats := []
      notices := []
      sent := []
      forwarded := [] }
  obtain ⟨-, after, result, -⟩ := safe site s ['D']
  cases result

end Ircd.Auth

import Ircd.Channels.ModeParse
import Ircd.Library.Pack
import Ircd.Text.Numbers

/-! `ModeBuf`: mode changes are collected and go out in MODE messages.

A flush writes down the letters of what fits in a line, the parameters of the same for each kind of
message, and packs what does not fit down to the front of the buffer. The senders and receivers of
the messages and the names they are sent under are left out.
-/

set_option autoImplicit false

namespace Ircd.Channels
open Ircd.Text Ircd.Library

def maxModeParams : Nat := 6

def bufSize : Nat := 512

inductive StringMode where
  | key | ban | apass | upass
  deriving DecidableEq, Repr

/-- A mode with its argument; the oplevel of a member is `MAXOPLEVEL + 1` where it is not known. -/
inductive ModeArg (Client : Type) where
  | client (mode : MemberMode) (client : Client) (opLevel : Nat)
  | string (mode : StringMode) (string : List Char)
  | uint (limit : Nat)
  deriving DecidableEq, Repr

/-- An entry of `mb_modeargs`; `add`, `free` and `save` are the bits of its type. -/
structure Slot (Client : Type) where
  add : Bool
  arg : ModeArg Client
  free : Bool
  save : Bool
  deriving DecidableEq, Repr

structure Dest where
  channel : Bool
  server : Bool
  opmode : Bool
  deop : Bool
  bounce : Bool
  log : Bool
  hack2 : Bool
  hack3 : Bool
  hack4 : Bool
  noKey : Bool
  deriving DecidableEq, Repr

def Dest.none : Dest := ⟨false, false, false, false, false, false, false, false, false, false⟩

structure ModeBuf (Client : Type) where
  add : Flags
  rem : Flags
  source : Client
  dest : Dest
  count : Nat
  args : List (Option (Slot Client))

/-- What is read of the channel: its modes, and whether some joins are still hidden. -/
structure ChannelView where
  mode : Flags
  delayed : Bool

/-- The names of the clients: `cli_name` and `NumNick`. -/
structure Names (Client : Type) where
  name : Client → List Char
  numNick : Client → List Char

variable {Client : Type}

def modebufInit (source : Client) (localChannel : Bool) (dest : Dest) : ModeBuf Client :=
  ⟨.none, .none, source, { dest with server := dest.server && !localChannel }, 0, List.replicate maxModeParams none⟩

def flagLetters : List (Flag × Char) :=
  [(.priv, 'p'), (.secret, 's'), (.moderated, 'm'), (.topicLimit, 't'), (.inviteOnly, 'i'), (.noPrivMsgs, 'n'),
    (.registered, 'r'), (.delJoins, 'D'), (.regOnly, 'R'), (.operOnly, 'O'), (.noColor, 'c'), (.noCtcp, 'C'),
    (.moderateNoReg, 'M'), (.noNotice, 'N'), (.msgNonWeb, 'W'), (.noQuitParts, 'u'), (.sslOnly, 'z'), (.limit, 'l')]

def localLetters : List (Flag × Char) := [(.wasDelJoins, 'd')]

def addLetters (letters : List (Flag × Char)) (mb : ModeBuf Client) : List Char :=
  (letters.filter fun e => mb.add e.1).map Prod.snd

def remLetters (letters : List (Flag × Char)) (mb : ModeBuf Client) : List Char :=
  (letters.filter fun e => !mb.add e.1 && mb.rem e.1).map Prod.snd

def ModeArg.letter : ModeArg Client → Char
  | .client .chanop _ _ => 'o'
  | .client .voice _ _ => 'v'
  | .string .key _ => 'k'
  | .string .ban _ => 'b'
  | .string .apass _ => 'A'
  | .string .upass _ => 'U'
  | .uint _ => 'l'

def ModeArg.size (names : Names Client) (noKey : Bool) : ModeArg Client → Nat
  | .client _ who _ => max 9 (names.name who).length
  | .string .key s => if noKey then 1 else s.length
  | .string _ s => s.length
  | .uint limit => (Nat.toDigits 10 limit).length

structure Pen where
  addbuf : List Char
  rembuf : List Char
  totalbuflen : Nat
  limitbuf : List Char

def Pen.put (p : Pen) (add : Bool) (letter : Char) : Pen :=
  if add then { p with addbuf := p.addbuf ++ [letter] } else { p with rembuf := p.rembuf ++ [letter] }

def writeSlot (names : Names Client) (noKey : Bool) (p : Pen) (slot : Slot Client) : Pen × Slot Client :=
  let p :=
    match slot.arg with
    | .uint limit => { p with limitbuf := Nat.toDigits 10 limit }
    | _ => p
  let tmp := slot.arg.size names noKey
  if p.totalbuflen ≤ tmp then (p, { slot with save := true })
  else ({ p.put slot.add slot.arg.letter with totalbuflen := p.totalbuflen - (tmp + 1) }, slot)

def writeSlots (names : Names Client) (noKey : Bool) : Pen → List (Option (Slot Client)) → Pen × List (Option (Slot Client))
  | p, [] => (p, [])
  | p, none :: slots =>
    let (p, slots) := writeSlots names noKey p slots
    (p, none :: slots)
  | p, some slot :: slots =>
    let (p, slot) := writeSlot names noKey p slot
    let (p, slots) := writeSlots names noKey p slots
    (p, some slot :: slots)

inductive MessageKind where
  | hack2 | hack3 | hack4 | log | channel | opmode | bounce | mode
  deriving DecidableEq, Repr

/-- A message: the letters behind `-`, those behind `+`, and the parameters. -/
structure ModeMessage where
  kind : MessageKind
  minus : List Char
  plus : List Char
  params : List (List Char)
  deriving DecidableEq, Repr

def shownParam (names : Names Client) (noKey : Bool) (limitbuf : List Char) (slot : Slot Client) : Option (List Char) :=
  match slot.arg with
  | .client _ client _ => some (names.name client)
  | .string .ban s => some s
  | .string .key s => some (if noKey then ['*'] else s)
  | .string _ _ => some ['*']
  | .uint _ => if slot.add then some limitbuf else none

def serverParam (names : Names Client) (bounce : Bool) (limitbuf : List Char) (slot : Slot Client) :
    Option (List Char) :=
  match slot.arg with
  | .client .chanop client opLevel =>
    some (if opLevel < maxOpLevel then names.numNick client ++ ':' :: Nat.toDigits 10 opLevel else names.numNick client)
  | .client .voice client _ => some (names.numNick client)
  | .string _ s => some s
  | .uint _ => if slot.add ≠ bounce then some limitbuf else none

/-- `addstr` or `remstr`, without what is saved. -/
def params (param : Slot Client → Option (List Char)) (add : Bool) (slots : List (Option (Slot Client))) :
    List (List Char) :=
  slots.filterMap fun slot => slot.bind fun slot => if slot.save || slot.add ≠ add then none else param slot

def shownMessages (names : Names Client) (mb : ModeBuf Client) (p : Pen) (slots : List (Option (Slot Client))) :
    List ModeMessage :=
  let param := shownParam names mb.dest.noKey p.limitbuf
  let words := params param false slots ++ params param true slots
  (if mb.dest.hack2 then [⟨.hack2, p.rembuf, p.addbuf, words⟩] else []) ++
    (if mb.dest.hack3 then [⟨.hack3, p.rembuf, p.addbuf, words⟩] else []) ++
    (if mb.dest.hack4 then [⟨.hack4, p.rembuf, p.addbuf, words⟩] else []) ++
    (if mb.dest.log then [⟨.log, p.rembuf, p.addbuf, words⟩] else []) ++
    (if mb.dest.channel then
      [⟨.channel, p.rembuf ++ remLetters localLetters mb, p.addbuf ++ addLetters localLetters mb, words⟩] else [])

/-- The message to the other servers; `addbuf` holds the `o` of the source that is deopped. -/
def serverMessages (names : Names Client) (mb : ModeBuf Client) (p : Pen) (slots : List (Option (Slot Client))) :
    List ModeMessage :=
  if !mb.dest.server then []
  else
    let param := serverParam names mb.dest.bounce p.limitbuf
    let addstr := params param true slots ++ if mb.dest.deop then [names.numNick mb.source] else []
    let remstr := params param false slots
    if mb.dest.opmode then [⟨.opmode, p.rembuf, p.addbuf, remstr ++ addstr⟩]
    else if mb.dest.bounce then [⟨.bounce, p.addbuf, p.rembuf, addstr ++ remstr⟩]
    else [⟨.mode, p.rembuf, p.addbuf, remstr ++ addstr⟩]

def Flag.all : List Flag :=
  [.priv, .secret, .moderated, .topicLimit, .inviteOnly, .noPrivMsgs, .limit, .regOnly, .delJoins, .registered,
    .noColor, .noCtcp, .burstAdded, .wasDelJoins, .sslOnly, .operOnly, .moderateNoReg, .noNotice, .noQuitParts,
    .msgNonWeb]

def Flags.isNone (f : Flags) : Bool := Flag.all.all fun g => !f g

/-- The care for joins that are still hidden when `D` comes or goes. -/
def hiddenJoins (view : ChannelView) (mb : ModeBuf Client) : ChannelView × ModeBuf Client :=
  let was := Flags.only .wasDelJoins
  let (view, mb) :=
    if mb.rem .delJoins && !(view.mode .delJoins || view.mode .wasDelJoins) && view.delayed then
      ({ view with mode := view.mode.or was }, { mb with add := mb.add.or was, rem := mb.rem.without was })
    else (view, mb)
  if mb.add .delJoins && view.mode .wasDelJoins then
    ({ view with mode := view.mode.without was }, { mb with add := mb.add.without was, rem := mb.rem.or was })
  else (view, mb)

structure LetterBuffers where
  addbuf : List Char
  rembuf : List Char
  addbufLocal : List Char
  rembufLocal : List Char
  deriving DecidableEq, Repr

def LetterBuffers.fit (b : LetterBuffers) : Bool :=
  b.addbuf.length ≤ 19 && b.rembuf.length ≤ 19 && b.addbufLocal.length ≤ 19 && b.rembufLocal.length ≤ 19

structure Flushed (Client : Type) where
  view : ChannelView
  mbuf : ModeBuf Client
  buffers : LetterBuffers
  sent : List ModeMessage
  freed : List (List Char)

def Slot.freed (slot : Slot Client) : Option (List Char) :=
  match slot.arg with
  | .string _ s => if slot.free && !slot.save then some s else none
  | _ => none

def ModeBuf.room (mb : ModeBuf Client) : Nat := bufSize - 200 - if mb.dest.deop then 6 else 0

def written (names : Names Client) (mb : ModeBuf Client) : Pen × List (Option (Slot Client)) :=
  writeSlots names mb.dest.noKey ⟨addLetters flagLetters mb, remLetters flagLetters mb, mb.room, []⟩
    (mb.args.take mb.count)

def flushPass (names : Names Client) (view : ChannelView) (mb : ModeBuf Client) : Flushed Client :=
  if mb.add.isNone && mb.rem.isNone && mb.count = 0 then ⟨view, mb, ⟨[], [], [], []⟩, [], []⟩
  else
    let (view, mb) := hiddenJoins view mb
    let (p, slots) := written names mb
    let shown := shownMessages names mb p slots
    let p := if mb.dest.server && mb.dest.deop then p.put true 'o' else p
    let server := serverMessages names mb p slots
    let slots := slots ++ mb.args.drop mb.count
    let (args, count) := pack Slot.save (fun slot => { slot with save := false }) slots maxModeParams
    { view := view
      mbuf := { mb with
        add := .none
        rem := .none
        dest := { mb.dest with deop := mb.dest.deop && !mb.dest.server }
        count := count
        args := args }
      buffers := ⟨p.addbuf, p.rembuf, addLetters localLetters mb, remLetters localLetters mb⟩
      sent := shown ++ server
      freed := slots.filterMap fun slot => slot.bind Slot.freed }

/-- `modebuf_flush_int(mbuf, 1)`, which calls itself as long as something is left: its passes, if there are no
more than the fuel allows. -/
def modebufFlushInt (names : Names Client) : Nat → ChannelView → ModeBuf Client → Option (List (Flushed Client))
  | 0, _, _ => none
  | fuel + 1, view, mb =>
    let pass := flushPass names view mb
    if pass.mbuf.count = 0 then some [pass] else (modebufFlushInt names fuel pass.view pass.mbuf).map (pass :: ·)

def modebufMode (mb : ModeBuf Client) (add : Bool) (mode : Flags) : ModeBuf Client :=
  let mode : Flags := fun f => mode f && (f.simple || f = .wasDelJoins)
  if mode.isNone then mb
  else if add then { mb with rem := mb.rem.without mode, add := mb.add.or mode }
  else { mb with add := mb.add.without mode, rem := mb.rem.or mode }

def ModeBuf.push (names : Names Client) (view : ChannelView) (mb : ModeBuf Client) (slot : Slot Client) :
    ModeBuf Client × List (Flushed Client) :=
  let mb := { mb with args := mb.args.set mb.count (some slot), count := mb.count + 1 }
  if maxModeParams - (if mb.dest.deop then 1 else 0) ≤ mb.count then
    let pass := flushPass names view mb
    (pass.mbuf, [pass])
  else (mb, [])

def modebufModeUint (names : Names Client) (view : ChannelView) (mb : ModeBuf Client) (add : Bool) (limit : Nat) :
    ModeBuf Client × List (Flushed Client) :=
  if add then mb.push names view ⟨add, .uint limit, false, false⟩
  else ({ mb with rem := mb.rem.or (.only .limit) }, [])

def modebufModeString (names : Names Client) (view : ChannelView) (mb : ModeBuf Client) (add : Bool) (mode : StringMode)
    (string : List Char) (free : Bool) : ModeBuf Client × List (Flushed Client) :=
  mb.push names view ⟨add, .string mode string, free, false⟩

def modebufModeClient (names : Names Client) (view : ChannelView) (mb : ModeBuf Client) (add : Bool) (mode : MemberMode)
    (client : Client) (opLevel : Nat) : ModeBuf Client × List (Flushed Client) :=
  mb.push names view ⟨add, .client mode client opLevel, false, false⟩

def modebufFlush (names : Names Client) (view : ChannelView) (mb : ModeBuf Client) :
    Option (ModeBuf Client × List (Flushed Client)) :=
  (modebufFlushInt names (mb.count + 1) view mb).map fun passes => ((passes.getLast?.map (·.mbuf)).getD mb, passes)

/-- What `mode_parse` does to the buffer of a server that is behind: the modes are bounced, and the source
is deopped. -/
def ModeBuf.bounced (mb : ModeBuf Client) (deop : Bool) : ModeBuf Client :=
  { mb with dest := { mb.dest with
      channel := false
      hack4 := false
      bounce := true
      hack2 := true
      deop := mb.dest.deop || deop } }

inductive ModeCall (Client : Type) where
  | mode (add : Bool) (mode : Flags)
  | uint (add : Bool) (limit : Nat)
  | string (add : Bool) (mode : StringMode) (string : List Char) (free : Bool)
  | client (add : Bool) (mode : MemberMode) (client : Client) (opLevel : Nat)
  | flush
  | bounced (deop : Bool)

def ModeCall.run (names : Names Client) (view : ChannelView) (mb : ModeBuf Client) :
    ModeCall Client → Option (ModeBuf Client × List (Flushed Client))
  | .mode add flags => some (modebufMode mb add flags, [])
  | .uint add limit => some (modebufModeUint names view mb add limit)
  | .string add which text free => some (modebufModeString names view mb add which text free)
  | .client add which who opLevel => some (modebufModeClient names view mb add which who opLevel)
  | .flush => modebufFlush names view mb
  | .bounced deop => some (mb.bounced deop, [])

def runCalls (names : Names Client) : ModeBuf Client → List (ChannelView × ModeCall Client) →
    Option (ModeBuf Client × List (Flushed Client))
  | mb, [] => some (mb, [])
  | mb, (view, call) :: calls => do
    let (mb, passes) ← call.run names view mb
    let (mb, later) ← runCalls names mb calls
    return (mb, passes ++ later)

def ModeCall.pushed : ModeCall Client → Option (Slot Client)
  | .uint true limit => some ⟨true, .uint limit, false, false⟩
  | .string add which text free => some ⟨add, .string which text, free, false⟩
  | .client add which who opLevel => some ⟨add, .client which who opLevel, false, false⟩
  | _ => none

end Ircd.Channels

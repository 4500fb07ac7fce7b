import Ircd.Text.Chattr
import Mathlib.Logic.Function.Basic

/-! `packet.c`: bytes from servers and from connections that are not registered yet.

A line is collected in `con_buffer`, where `cli_count` bytes of it are kept from one call to the next.
What a handler does with a line is a parameter, as is everything it may change. The counts of received bytes
and messages only feed the statistics and are left out.
-/

set_option autoImplicit false

namespace Ircd.Buffers
open Ircd.Text

def BUFSIZE : Nat := 512

/-- What is asked of the connection after a handler: `CPTR_KILLED`, `IsDead`, `IsServer`. -/
inductive Parsed where
  | killed
  | dead
  | server
  | unregistered
  deriving DecidableEq

/-- A handler gets the memory from `con_buffer` on and the end of the line. -/
abbrev Handler (σ : Type) := σ → (Nat → Char) → Nat → Parsed × σ × (Nat → Char)

/-- A connection in a call: the memory from `con_buffer` on, `endp`, and the rest of the server.
`writes` are the indexes written through `endp` and `lines` the lines given to handlers so far. -/
structure Receiver (σ : Type) where
  world : σ
  buffer : Nat → Char
  endp : Nat
  writes : List Nat
  lines : List (List Char)

namespace Receiver
variable {σ : Type}

def store (s : Receiver σ) (c : Char) : Receiver σ :=
  { s with buffer := Function.update s.buffer s.endp c, writes := s.writes ++ [s.endp] }

def line (s : Receiver σ) : List Char := (List.range s.endp).map s.buffer

def take (s : Receiver σ) (c : Char) : Receiver σ × Bool :=
  let s := s.store c
  if isEol (s.buffer s.endp) then
    if s.endp = 0 then (s, false) else (s.store nul, true)
  else if s.endp < BUFSIZE then ({ s with endp := s.endp + 1 }, false)
  else (s, false)

def hand (s : Receiver σ) (parse : Handler σ) : Parsed × Receiver σ :=
  let (parsed, world, buffer) := parse s.world s.buffer s.endp
  (parsed, { s with world, buffer, lines := s.lines ++ [s.line] })

end Receiver

variable {σ : Type}

/-- The loop of `server_dopacket`; `none` where the connection is gone. -/
def serverLoop (parseServer : Handler σ) : List Char → Receiver σ → Option Nat × Receiver σ
  | [], s => (some s.endp, s)
  | c :: src, s =>
    match s.take c with
    | (s, false) => serverLoop parseServer src s
    | (s, true) =>
      match s.hand parseServer with
      | (.killed, s) => (none, s)
      | (.dead, s) => (none, s)
      | (_, s) => serverLoop parseServer src { s with endp := 0 }

def connectLoop (parseClient parseServer : Handler σ) : List Char → Receiver σ → Option Nat × Receiver σ
  | [], s => (some s.endp, s)
  | c :: src, s =>
    match s.take c with
    | (s, false) => connectLoop parseClient parseServer src s
    | (s, true) =>
      match s.hand parseClient with
      | (.killed, s) => (none, s)
      | (.dead, s) => (none, s)
      | (.server, s) => serverLoop parseServer src { s with endp := 0 }
      | (.unregistered, s) => connectLoop parseClient parseServer src { s with endp := 0 }

/-- A connection between calls; `count` is `cli_count`, `none` where the connection is gone. -/
structure Peer (σ : Type) where
  count : Option Nat
  receiver : Receiver σ

def Peer.fresh (world : σ) (buffer : Nat → Char) : Peer σ := ⟨some 0, world, buffer, 0, [], []⟩

def serverDopacket (parseServer : Handler σ) (peer : Peer σ) (buffer : List Char) : Peer σ :=
  match peer.count with
  | none => peer
  | some count =>
    let (count, s) := serverLoop parseServer buffer { peer.receiver with endp := count }
    ⟨count, s⟩

def connectDopacket (parseClient parseServer : Handler σ) (peer : Peer σ) (buffer : List Char) : Peer σ :=
  match peer.count with
  | none => peer
  | some count =>
    let (count, s) := connectLoop parseClient parseServer buffer { peer.receiver with endp := count }
    ⟨count, s⟩

end Ircd.Buffers

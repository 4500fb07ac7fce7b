import Ircd.Text.Chattr

/-! The state of a channel: `struct Channel` with its modes, members and bans. -/

set_option autoImplicit false

namespace Ircd.Channels
open Ircd.Text

/-- The bits of `mode.mode` that the server keeps. -/
inductive Flag where
  | priv | secret | moderated | topicLimit | inviteOnly | noPrivMsgs | limit | regOnly | delJoins | registered
  | noColor | noCtcp | burstAdded | wasDelJoins | sslOnly | operOnly | moderateNoReg | noNotice | noQuitParts
  | msgNonWeb
  deriving DecidableEq, Repr

abbrev Flags := Flag → Bool

def Flags.none : Flags := fun _ => false

def Flags.only (f : Flag) : Flags := fun g => g = f

def Flags.or (a b : Flags) : Flags := fun f => a f || b f

def Flags.without (a b : Flags) : Flags := fun f => a f && !b f

@[simp] theorem Flags.none_apply (f : Flag) : Flags.none f = false := rfl

@[simp] theorem Flags.only_apply (f g : Flag) : Flags.only f g = decide (g = f) := rfl

@[simp] theorem Flags.or_apply (a b : Flags) (f : Flag) : a.or b f = (a f || b f) := rfl

@[simp] theorem Flags.without_apply (a b : Flags) (f : Flag) : a.without b f = (a f && !b f) := rfl

def Flag.simple : Flag → Bool
  | .limit | .burstAdded | .wasDelJoins => false
  | _ => true

structure Mode where
  mode : Flags
  limit : Nat
  key : List Char
  upass : List Char
  apass : List Char

def keyLen : Nat := 23

def isCleanKey (s : List Char) : Bool :=
  s ≠ [] && peek s ≠ ':' && (s.take (keyLen + 1)).all (fun c => 32 < c.toNat && c ≠ ',') && s.length ≤ keyLen

/-- The modes a channel can have: the parsers let in no unclean key and no limit that is
negative as an `int`, and `+s` and `+p` exclude each other. -/
structure Mode.Valid (m : Mode) : Prop where
  exclusive : ¬ (m.mode .secret = true ∧ m.mode .priv = true)
  limit_lt : m.limit < 2 ^ 31
  key : m.key = [] ∨ isCleanKey m.key = true
  upass : m.upass = [] ∨ isCleanKey m.upass = true
  apass : m.apass = [] ∨ isCleanKey m.apass = true
  byte : ∀ c ∈ m.key ++ m.upass ++ m.apass, c.toNat < 256

def maxOpLevel : Nat := 999

/-- The bits of `status` that the modelled functions read. -/
structure Status where
  chanop : Bool
  voice : Bool
  deopped : Bool
  zombie : Bool
  delayed : Bool
  burstJoined : Bool
  alreadyOpped : Bool
  alreadyVoiced : Bool
  deriving DecidableEq, Repr

structure Membership (Client : Type) where
  user : Client
  status : Status
  opLevel : Nat
  deriving DecidableEq, Repr

structure BanFlags where
  ipmask : Bool
  overlapped : Bool
  exception : Bool
  del : Bool
  add : Bool
  bursted : Bool
  burstWipeout : Bool
  deriving DecidableEq, Repr

structure Ban where
  banstr : List Char
  who : List Char
  when : Nat
  flags : BanFlags
  deriving DecidableEq, Repr

structure Channel (Client : Type) where
  creationTime : Int
  mode : Mode
  members : List (Membership Client)
  banlist : List Ban

end Ircd.Channels

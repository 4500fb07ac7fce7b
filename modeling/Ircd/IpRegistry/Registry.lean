import Ircd.Library.HashChains
import Ircd.Net.InAddr

/-! `IPcheck.c`: how many clients each address has connected.

The two hash tables are functions from a hash to a chain. Words are in host order, so a
hash here is the source's with its bytes swapped. An `assert` that fails, or a read
through `NULL`, is a result of `none`.
-/

set_option autoImplicit false

namespace Ircd.IpRegistry
open Ircd.Library Ircd.Net

def STARTTARGETS : UInt32 := 10
def TARGET_DELAY : Nat := 128

structure IPTargetEntry where
  count : UInt32
  targets : List UInt8

structure IPRegistryEntry where
  target : Option IPTargetEntry := none
  addr : InAddr
  last_connect : Int
  connected : UInt16 := 1
  attempts : UInt8 := 1

structure IPRegistry48 where
  last_connect : Int
  addr : UInt16 × UInt16 × UInt16
  attempts : UInt16 := 0

structure Registry where
  hashTable : UInt16 → List IPRegistryEntry := fun _ => []
  hashTable48 : UInt16 → List IPRegistry48 := fun _ => []

/-- What a call reads beside its arguments: the time, the time the server came up, the
features `IPCHECK_*`, and whether it was built without `NOTHROTTLE`. -/
structure Env where
  CurrentTime : Int
  since : Int
  CLONE_LIMIT : Int
  CLONE_PERIOD : Int
  CLONE_LIMIT_48 : Int
  CLONE_PERIOD_48 : Int
  CLONE_DELAY : Int
  throttle : Bool

/-- The fields of a `struct Client` that a disconnect reads. -/
structure Client where
  ip : InAddr
  myConnect : Bool
  nexttarget : Int
  firsttime : Int
  targets : List UInt8

def Env.now (env : Env) : Int := env.CurrentTime % 65536

def Env.connectedSince (env : Env) (t : Int) : Int := env.now - t

def Env.justBooted (env : Env) : Bool := env.CurrentTime - env.since ≤ env.CLONE_DELAY

def canonicalize (a : InAddr) : InAddr :=
  if a.isIpv4 then ⟨[0x2002, a.word 6, a.word 7, 0, 0, 0, 0, 0], rfl⟩
  else ⟨[a.word 0, a.word 1, a.word 2, a.word 3, 0, 0, 0, 0], rfl⟩

def registryHash (ip : InAddr) : UInt16 := ip.word 0 ^^^ ip.word 1 ^^^ ip.word 2 ^^^ ip.word 3

/-- The test of `ip_registry_find`: 48 bits for an IPv4 or 6to4 address, 64 for others. -/
def sameBlock (canon : InAddr) (entry : IPRegistryEntry) : Bool :=
  canon.ipmaskCheck entry.addr (if canon.word 0 = 0x2002 then 48 else 64)

def Registry.find (reg : Registry) (ip : InAddr) : Option IPRegistryEntry :=
  (reg.hashTable (registryHash (canonicalize ip))).find? (sameBlock (canonicalize ip))

def Registry.set (reg : Registry) (ip : InAddr) (entry : IPRegistryEntry) : Registry :=
  { reg with
    hashTable := overwrite reg.hashTable (registryHash (canonicalize ip)) (sameBlock (canonicalize ip)) entry }

def Registry.add (reg : Registry) (entry : IPRegistryEntry) : Registry :=
  { reg with hashTable := pushFront reg.hashTable (registryHash entry.addr) entry }

def newEntry (env : Env) (ip : InAddr) : IPRegistryEntry := { addr := canonicalize ip, last_connect := env.now }

def updateFreeTargets (env : Env) (entry : IPRegistryEntry) : IPRegistryEntry × UInt32 :=
  match entry.target with
  | none => (entry, STARTTARGETS)
  | some target =>
    let free := target.count + UInt32.ofInt ((env.connectedSince entry.last_connect).tdiv TARGET_DELAY)
    let free := if free > STARTTARGETS then STARTTARGETS else free
    ({ entry with target := some { target with count := free } }, free)

/-- `ip_registry_expire_entry`; `none` when the entry goes. -/
def expireEntry (env : Env) (entry : IPRegistryEntry) : Option IPRegistryEntry :=
  if env.connectedSince entry.last_connect > 600 then none
  else if env.connectedSince entry.last_connect > 120 then some { entry with target := none }
  else some entry

def block48 (ip : InAddr) : UInt16 × UInt16 × UInt16 := (ip.word 0, ip.word 1, ip.word 2)

def hash48 (ip : InAddr) : UInt16 := ip.word 0 ^^^ ip.word 1 ^^^ ip.word 2

/-- Apply `f` to the entry that `ip_48_find` finds or makes. -/
def Registry.modify48 (env : Env) (reg : Registry) (ip : InAddr) (f : IPRegistry48 → IPRegistry48) :
    Registry × IPRegistry48 :=
  match (reg.hashTable48 (hash48 ip)).find? fun e => e.addr = block48 ip with
  | some entry =>
    let hashTable48 := overwrite reg.hashTable48 (hash48 ip) (fun e => e.addr = block48 ip) (f entry)
    ({ reg with hashTable48 }, f entry)
  | none =>
    let entry := f { last_connect := env.now, addr := block48 ip }
    ({ reg with hashTable48 := pushFront reg.hashTable48 (hash48 ip) entry }, entry)

def bump8 (n : UInt8) : UInt8 := if n + 1 = 0 then n + 1 - 1 else n + 1

def bump16 (n : UInt16) : UInt16 := if n + 1 = 0 then n + 1 - 1 else n + 1

def lower8 (n : UInt8) : UInt8 := if n - 1 = 0 then n - 1 + 1 else n - 1

def lower16 (n : UInt16) : UInt16 := if n - 1 = 0 then n - 1 + 1 else n - 1

def attempt48 (env : Env) (entry : IPRegistry48) : IPRegistry48 :=
  let stale := env.connectedSince entry.last_connect > env.CLONE_PERIOD_48
  { entry with last_connect := env.now, attempts := bump16 (if stale then 0 else entry.attempts) }

/-- The end of `ip_registry_check_local`, for an address with an entry. -/
def checkEntry (env : Env) (reg : Registry) (addr : InAddr) (entry : IPRegistryEntry) :
    Registry × Bool × Option Int :=
  let entry : IPRegistryEntry := { entry with connected := entry.connected + 1 }
  if entry.connected = 0 then (reg.set addr { entry with connected := entry.connected - 1 }, false, none)
  else
    let stale := env.connectedSince entry.last_connect > env.CLONE_PERIOD
    let (entry, free) := updateFreeTargets env { entry with attempts := if stale then 0 else entry.attempts }
    let entry : IPRegistryEntry := { entry with last_connect := env.now, attempts := bump8 entry.attempts }
    if (entry.attempts.toNat : Int) < env.CLONE_LIMIT then
      (reg.set addr entry, true, some (env.CurrentTime - (UInt32.ofNat TARGET_DELAY * free - 1).toNat))
    else if env.throttle && !env.justBooted then
      (reg.set addr { entry with connected := entry.connected - 1 }, false, none)
    else (reg.set addr entry, true, none)

/-- `ip_registry_check_local`, with its result and `*next_target_out` where it is set. -/
def checkLocal (env : Env) (reg : Registry) (addr : InAddr) : Registry × Bool × Option Int :=
  let entry := reg.find addr
  let (reg, tooMany) :=
    if addr.isIpv4 then (reg, false)
    else
      let (reg, entry48) := reg.modify48 env addr (attempt48 env)
      (reg, env.throttle && (entry48.attempts.toNat : Int) ≥ env.CLONE_LIMIT_48 && !env.justBooted)
  if tooMany then
    match entry with
    | none => (reg, false, none)
    | some entry =>
      let entry : IPRegistryEntry := { entry with last_connect := env.now, connected := entry.connected + 1 }
      -- With the counter at its end the source undoes the increment here, else at `reject`.
      if entry.connected = 0 then (reg.set addr { entry with connected := entry.connected - 1 }, false, none)
      else (reg.set addr { entry with connected := entry.connected - 1 }, false, none)
  else
    match entry with
    | none => (reg.add (newEntry env addr), true, none)
    | some entry => checkEntry env reg addr entry

/-- `ip_registry_check_remote` for a client of address `ip`. -/
def checkRemote (env : Env) (reg : Registry) (ip : InAddr) (is_burst : Bool) : Registry × Bool :=
  if !ip.valid then (reg, true)
  else
    let reg := if ip.isIpv4 then reg else (reg.modify48 env ip (attempt48 env)).1
    match reg.find ip with
    | none =>
      let entry := newEntry env ip
      (reg.add (if is_burst then { entry with attempts := 0 } else entry), true)
    | some entry =>
      let entry : IPRegistryEntry := { entry with connected := entry.connected + 1 }
      if entry.connected = 0 then (reg.set ip entry, false)
      else
        let stale := env.connectedSince entry.last_connect > env.CLONE_PERIOD
        let entry : IPRegistryEntry := { entry with attempts := if stale then 0 else entry.attempts }
        if is_burst then (reg.set ip entry, true)
        else
          let entry := (updateFreeTargets env { entry with attempts := bump8 entry.attempts }).1
          (reg.set ip { entry with last_connect := env.now }, true)

def connectFail (env : Env) (reg : Registry) (addr : InAddr) (disconnect : Bool) : Option Registry :=
  let entry := reg.find addr
  let reg :=
    if addr.isIpv4 then reg
    else (reg.modify48 env addr fun entry48 => { entry48 with attempts := lower16 entry48.attempts }).1
  match entry with
  | none => some reg
  | some entry =>
    let entry : IPRegistryEntry := { entry with attempts := lower8 entry.attempts }
    if disconnect then
      if entry.connected = 0 then none
      else some (reg.set addr { entry with connected := entry.connected - 1 })
    else some (reg.set addr entry)

def leaveTargets (env : Env) (client : Client) (entry : IPRegistryEntry) : IPRegistryEntry :=
  let count := (entry.target.map IPTargetEntry.count).getD STARTTARGETS
  let free :=
    if client.nexttarget < env.CurrentTime then
      UInt32.ofInt ((env.CurrentTime - client.nexttarget).tdiv TARGET_DELAY + 1)
    else 0
  let free :=
    if env.CurrentTime - client.firsttime > 600 then
      free + UInt32.ofInt ((env.CurrentTime - client.firsttime - 600).tdiv TARGET_DELAY)
    else free
  { entry with target := some ⟨if free < count then free else count, client.targets⟩ }

def disconnect (env : Env) (reg : Registry) (client : Client) : Option Registry :=
  if !client.ip.valid then some reg
  else
    match reg.find client.ip with
    | none => none
    | some entry =>
      if entry.connected = 0 then none
      else
        let entry : IPRegistryEntry := { entry with connected := entry.connected - 1 }
        let entry :=
          if entry.connected = 0 then
            let stale := env.connectedSince entry.last_connect > env.CLONE_LIMIT * env.CLONE_PERIOD
            let entry : IPRegistryEntry := { entry with attempts := if stale then 0 else entry.attempts }
            { (updateFreeTargets env entry).1 with last_connect := env.now }
          else entry
        some (reg.set client.ip (if client.myConnect then leaveTargets env client entry else entry))

def expire (env : Env) (reg : Registry) : Registry where
  hashTable := sweep (fun entry => if entry.connected = 0 then expireEntry env entry else some entry) reg.hashTable
  hashTable48 := sweep (fun entry => if env.connectedSince entry.last_connect > 600 then none else some entry)
    reg.hashTable48

end Ircd.IpRegistry

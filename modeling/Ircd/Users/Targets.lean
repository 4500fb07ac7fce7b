import Ircd.Channels.Burst
import Ircd.Library.LeakyBucket

/-! The target limit: a user may send to, or join, only so many new targets in a time.

A user has a table of hashes of its last targets and one time, that of the next new target.
-/

set_option autoImplicit false

namespace Ircd.Users
open Ircd.Library
open Ircd.Channels (isChannelName)

def targetDelay : Int := 128
def maxTargets : Nat := 20
def reservedTargets : Nat := 12

structure Targets where
  hashes : List UInt8
  full : hashes.length = maxTargets

structure TargetUser where
  channelService : Bool
  userBot : Bool
  targets : Targets
  nexttarget : Int

/-- A pointer is cut to an `unsigned int` before it is hashed. -/
def hashTarget (target : UInt32) : UInt8 :=
  ((target >>> 16).toUInt8.toUInt32 ^^^ (target >>> 8)).toUInt8

def Targets.move (targets : Targets) (hash : UInt8) (start place : Nat) (within : start ≤ place)
    (below : place < maxTargets) : Targets where
  hashes := targets.hashes.take start ++ hash :: (targets.hashes.drop start).take (place - start) ++
    targets.hashes.drop (place + 1)
  full := by
    have full := targets.full
    simp only [List.length_append, List.length_cons, List.length_take, List.length_drop]
    omega

def Targets.again (targets : Targets) (hash : UInt8) : Option Targets :=
  match found : targets.hashes.findIdx? (· == hash) with
  | none => none
  | some i =>
    -- the target of last time is in front already and stays there
    some (targets.move hash 0 i (Nat.zero_le i) (by
      have full := targets.full
      have below := (List.findIdx?_eq_some_iff_getElem.mp found).1
      omega))

def Targets.new (targets : Targets) (hash : UInt8) (place : Nat) (within : place < maxTargets) : Targets :=
  targets.move hash place (maxTargets - 1) (Nat.le_sub_one_of_lt within) (by decide)

def addTarget (sptr : TargetUser) (target : UInt64) : TargetUser :=
  let hash := hashTarget target.toUInt32
  if hash ∈ sptr.targets.hashes then sptr
  else { sptr with targets := sptr.targets.new hash reservedTargets (by decide) }

inductive TargetAnswer where
  | allowed
  /-- `ERR_TARGETTOOFAST` with the time to wait, unless there were too many refusals already. -/
  | tooFast (reply : Option Int)
  deriving DecidableEq

/-- A call: the target, its name, whether it is a channel that would be created, the channels that
the user is invited to, and the time of the server. -/
structure TargetCall where
  target : UInt64
  name : List Char
  created : Bool
  invited : List UInt64
  currentTime : Int

def TargetCall.free (call : TargetCall) : Bool := isChannelName call.name && call.invited.contains call.target

def TargetUser.exempt (sptr : TargetUser) : Bool := sptr.channelService || sptr.userBot

def nextAfter (nexttarget currentTime : Int) : Int :=
  let next := nexttarget + targetDelay
  if next < currentTime - targetDelay * (maxTargets - 1) then currentTime - targetDelay * (maxTargets - 1) else next

def checkTargetLimit (sptr : TargetUser) (call : TargetCall) : TargetAnswer × TargetUser :=
  let hash := hashTarget call.target.toUInt32
  if sptr.exempt then (.allowed, sptr)
  else
    match sptr.targets.again hash with
    | some targets => (.allowed, { sptr with targets := targets })
    | none =>
      let newest := sptr.targets.new hash 0 (by decide)
      if call.created then (.allowed, { sptr with targets := newest })
      else if call.currentTime < sptr.nexttarget then
        if call.free then (.allowed, sptr)
        else if sptr.nexttarget - call.currentTime < targetDelay + 8 then
          (.tooFast (some (sptr.nexttarget + 2 - call.currentTime)), { sptr with nexttarget := sptr.nexttarget + 2 })
        else (.tooFast none, sptr)
      else
        (.allowed, { sptr with targets := newest, nexttarget := nextAfter sptr.nexttarget call.currentTime })

/-- What happens to the table of a user: it sends or joins, or somebody sends to it. -/
inductive TargetEvent where
  | check (call : TargetCall)
  | answerable (target : UInt64)

def TargetUser.step (sptr : TargetUser) : TargetEvent → TargetUser
  | .check call => (checkTargetLimit sptr call).2
  | .answerable target => addTarget sptr target

def TargetUser.letsNew (sptr : TargetUser) (call : TargetCall) : Bool :=
  !call.created && !call.free && !sptr.targets.hashes.contains (hashTarget call.target.toUInt32) &&
    (checkTargetLimit sptr call).1 = .allowed

/-- Such a call at one of the times from `start` to `stop`. -/
def TargetUser.countsIn (sptr : TargetUser) (start stop : Int) : TargetEvent → Bool
  | .check call => sptr.letsNew call && decide (start ≤ call.currentTime) && decide (call.currentTime ≤ stop)
  | .answerable _ => false

def TargetUser.newTargets (start stop : Int) : TargetUser → List TargetEvent → Nat
  | _, [] => 0
  | sptr, event :: rest =>
    (sptr.step event).newTargets start stop rest + if sptr.countsIn start stop event then 1 else 0

theorem nextAfter_delayed (nexttarget currentTime : Int) : nexttarget + targetDelay ≤ nextAfter nexttarget currentTime := by
  simp only [nextAfter]
  split <;> omega

theorem nextAfter_shallow (nexttarget currentTime : Int) :
    currentTime - targetDelay * (maxTargets - 1) ≤ nextAfter nexttarget currentTime := by
  simp only [nextAfter]
  split <;> omega

variable {sptr : TargetUser} {call : TargetCall}

theorem again_eq_none {targets : Targets} {hash : UInt8} : targets.again hash = none ↔ hash ∉ targets.hashes := by
  unfold Targets.again
  split
  next unknown =>
    rw [List.findIdx?_eq_none_iff] at unknown
    refine iff_of_true rfl fun mem => ?_
    simpa using unknown hash mem
  next i found =>
    obtain ⟨below, same, -⟩ := List.findIdx?_eq_some_iff_getElem.mp found
    refine iff_of_false (Option.some_ne_none _) fun unknown => unknown ?_
    rw [← beq_iff_eq.mp same]
    exact List.getElem_mem below

inductive TargetCall.Does (sptr : TargetUser) (call : TargetCall) : TargetAnswer × TargetUser → Prop
  | known (targets : Targets) (known : hashTarget call.target.toUInt32 ∈ sptr.targets.hashes) :
    call.Does sptr (.allowed, { sptr with targets := targets })
  | created (targets : Targets) (created : call.created = true) :
    call.Does sptr (.allowed, { sptr with targets := targets })
  | free (free : call.free = true) : call.Does sptr (.allowed, sptr)
  | refused (reply : Option Int) (nexttarget : Int) (forward : sptr.nexttarget ≤ nexttarget) :
    call.Does sptr (.tooFast reply, { sptr with nexttarget := nexttarget })
  | lets (targets : Targets) (due : sptr.nexttarget ≤ call.currentTime) :
    call.Does sptr
      (.allowed, { sptr with targets := targets, nexttarget := nextAfter sptr.nexttarget call.currentTime })

theorem checkTargetLimit_does (plain : sptr.exempt = false) (call : TargetCall) :
    call.Does sptr (checkTargetLimit sptr call) := by
  simp only [checkTargetLimit, plain, Bool.false_eq_true, if_false]
  cases again : sptr.targets.again (hashTarget call.target.toUInt32) with
  | some targets =>
    refine .known targets ?_
    by_contra unknown
    rw [again_eq_none.mpr unknown] at again
    contradiction
  | none =>
    by_cases created : call.created = true
    · rw [if_pos created]
      exact .created _ created
    · rw [if_neg created]
      by_cases early : call.currentTime < sptr.nexttarget
      · rw [if_pos early]
        by_cases free : call.free = true
        · rw [if_pos free]
          exact .free free
        · rw [if_neg free]
          by_cases soon : sptr.nexttarget - call.currentTime < targetDelay + 8
          · rw [if_pos soon]
            exact .refused _ _ (by omega)
          · rw [if_neg soon]
            exact .refused none sptr.nexttarget le_rfl
      · rw [if_neg early]
        exact .lets _ (not_lt.mp early)

section
variable {result : TargetAnswer × TargetUser}

theorem TargetCall.Does.exempt_eq (does : call.Does sptr result) : result.2.exempt = sptr.exempt := by
  cases does <;> rfl

theorem TargetCall.Does.forward (does : call.Does sptr result) : sptr.nexttarget ≤ result.2.nexttarget := by
  cases does with
  | known | created | free => exact le_rfl
  | refused reply nexttarget forward => exact forward
  | lets targets due =>
    have positive : (0 : Int) ≤ targetDelay := by decide
    exact (le_add_of_nonneg_right positive).trans (nextAfter_delayed sptr.nexttarget call.currentTime)

theorem TargetCall.Does.new (does : call.Does sptr result) (existing : call.created = false)
    (not_free : call.free = false) (unknown : hashTarget call.target.toUInt32 ∉ sptr.targets.hashes)
    (allowed : result.1 = .allowed) :
    sptr.nexttarget ≤ call.currentTime ∧
      result.2.nexttarget = nextAfter sptr.nexttarget call.currentTime := by
  cases does with
  | known targets known => exact absurd known unknown
  | created targets created => rw [existing] at created; contradiction
  | free free => rw [not_free] at free; contradiction
  | refused reply nexttarget forward => contradiction
  | lets targets due => exact ⟨due, rfl⟩

end

theorem letsNew_iff : sptr.letsNew call = true ↔ call.created = false ∧ call.free = false ∧
    hashTarget call.target.toUInt32 ∉ sptr.targets.hashes ∧ (checkTargetLimit sptr call).1 = .allowed := by
  simp [TargetUser.letsNew, and_assoc]

@[simp] theorem addTarget_exempt (target : UInt64) : (addTarget sptr target).exempt = sptr.exempt := by
  unfold addTarget
  dsimp only
  split <;> rfl

@[simp] theorem addTarget_nexttarget (target : UInt64) : (addTarget sptr target).nexttarget = sptr.nexttarget := by
  unfold addTarget
  dsimp only
  split <;> rfl

theorem step_exempt (plain : sptr.exempt = false) (event : TargetEvent) : (sptr.step event).exempt = false := by
  cases event with
  | answerable target => exact (addTarget_exempt target).trans plain
  | check call => exact (checkTargetLimit_does plain call).exempt_eq.trans plain

def TargetUser.attempt (sptr : TargetUser) : TargetEvent → Attempt
  | .check call => ⟨call.currentTime, sptr.nexttarget, (sptr.step (.check call)).nexttarget, sptr.letsNew call⟩
  | .answerable target => ⟨sptr.nexttarget, sptr.nexttarget, (sptr.step (.answerable target)).nexttarget, false⟩

def TargetUser.attempts : TargetUser → List TargetEvent → List Attempt
  | _, [] => []
  | sptr, event :: rest => sptr.attempt event :: (sptr.step event).attempts rest

theorem attempt_obeys (plain : sptr.exempt = false) (event : TargetEvent) :
    (sptr.attempt event).Obeys targetDelay (targetDelay * (maxTargets - 1)) := by
  cases event with
  | answerable target => exact ⟨(addTarget_nexttarget target).ge, nofun, nofun, nofun⟩
  | check call =>
    have does := checkTargetLimit_does plain call
    have new (lets : sptr.letsNew call = true) := by
      obtain ⟨existing, not_free, unknown, allowed⟩ := letsNew_iff.mp lets
      exact does.new existing not_free unknown allowed
    exact {
      forward := does.forward
      open_now := fun lets => (new lets).1
      delayed := fun lets => (nextAfter_delayed sptr.nexttarget call.currentTime).trans_eq (new lets).2.symm
      shallow := fun lets => (nextAfter_shallow sptr.nexttarget call.currentTime).trans_eq (new lets).2.symm }

theorem attempts_obey (plain : sptr.exempt = false) (events : List TargetEvent) :
    ∀ a ∈ sptr.attempts events, a.Obeys targetDelay (targetDelay * (maxTargets - 1)) := by
  induction events generalizing sptr with
  | nil => intro a mem; contradiction
  | cons event rest ih =>
    rintro a (_ | ⟨_, mem⟩)
    · exact attempt_obeys plain event
    · exact ih (step_exempt plain event) a mem

theorem attempts_follow (sptr : TargetUser) (events : List TargetEvent) :
    Follows sptr.nexttarget (sptr.attempts events) := by
  induction events generalizing sptr with
  | nil => trivial
  | cons event rest ih =>
    cases event with
    | check call => exact ⟨rfl, ih _⟩
    | answerable target => exact ⟨rfl, ih _⟩

theorem newTargets_eq (sptr : TargetUser) (events : List TargetEvent) (start stop : Int) :
    sptr.newTargets start stop events = (sptr.attempts events).countP (inWindow start stop) := by
  induction events generalizing sptr with
  | nil => rfl
  | cons event rest ih =>
    rw [TargetUser.newTargets, TargetUser.attempts, List.countP_cons, ih]
    cases event with
    | answerable target => rfl
    | check call => rfl

/-- In any window of a length a user comes to only so many new targets, whatever its table is, and
whatever calls for known, free or created targets and refused ones there are in between. The times
need not even be in order. -/
theorem target_rate (sptr : TargetUser) (plain : sptr.exempt = false) (events : List TargetEvent) (start : Int)
    (length : Nat) :
    (sptr.newTargets start (start + length) events : Int) ≤ length / targetDelay + maxTargets + 1 := by
  have bound := @window_bound _ _ start _ length _ (attempts_follow sptr events) (attempts_obey plain events)
  rw [← newTargets_eq] at bound
  simp only [targetDelay, maxTargets] at bound ⊢
  omega

/-- A user with an empty table, and two messages to channels in one second. -/
theorem target_rate_two_channels :
    ((⟨false, false, ⟨List.replicate maxTargets 0, rfl⟩, 0⟩ : TargetUser).newTargets 0 (0 + (1 : Nat))
      [.check ⟨0x10000, ['#', 'a'], false, [], 1⟩, .check ⟨0x20000, ['#', 'b'], false, [0x20000], 1⟩] : Int) ≤
      (1 : Nat) / targetDelay + maxTargets + 1 :=
  target_rate ⟨false, false, ⟨List.replicate maxTargets 0, rfl⟩, 0⟩ rfl
    [.check ⟨0x10000, ['#', 'a'], false, [], 1⟩, .check ⟨0x20000, ['#', 'b'], false, [0x20000], 1⟩] 0 1

end Ircd.Users

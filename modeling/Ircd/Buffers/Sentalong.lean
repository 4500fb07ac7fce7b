import Ircd.Library.Runs
import Ircd.Library.Stamps
import Mathlib.Algebra.Order.Ring.Int

/-! The sentalong stamps of `send.c`: who gets a copy from `sendcmdto_common_channels_butone` and from
`sendcmdto_channel_servers_butone`, over any history of sends and connections.

A connection is named by the local client at its end. A copy is a call of `send_buffer`, and it goes to the client that
the connection of the target belongs to. The marker wraps around as a machine word does.
-/

set_option autoImplicit false

namespace Ircd.Buffers.Sentalong
open Ircd.Library

structure Membership (κ χ : Type) where
  user : χ
  channel : κ
  zombie : Bool
  delayedJoin : Bool
  chanOp : Bool
  voice : Bool

/-- The channels as `cli_user(x)->channel` and `members` have them. -/
structure Rooms (κ χ : Type) where
  channel : χ → List (Membership κ χ)
  members : κ → List (Membership κ χ)

structure Skip where
  nonOps : Bool
  nonVoices : Bool

def Skip.leaves {κ χ : Type} (skip : Skip) (member : Membership κ χ) : Bool :=
  !(skip.nonOps && !member.chanOp) && !(skip.nonVoices && !member.chanOp && !member.voice)

structure State (χ : Type) where
  sentalongMarker : BitVec 32
  sentalong : χ → BitVec 32
  cliFrom : χ → χ
  fd : χ → Option Nat
  localClientArray : Nat → Option χ
  highestFd : Int

variable {κ χ : Type} [DecidableEq χ]

namespace State

def MyConnect (s : State χ) (c : χ) : Prop := s.cliFrom c = c

def Opened (s : State χ) (c : χ) : Prop := (s.fd (s.cliFrom c)).isSome = true

instance (s : State χ) (c : χ) : Decidable (s.MyConnect c) := inferInstanceAs (Decidable (_ = _))

instance (s : State χ) (c : χ) : Decidable (s.Opened c) := inferInstanceAs (Decidable (_ = _))

def stamp (s : State χ) (c : χ) : State χ :=
  { s with sentalong := Function.update s.sentalong (s.cliFrom c) s.sentalongMarker }

def clearStamps (s : State χ) : State χ :=
  (List.range s.highestFd.toNat).foldl
    (fun s ii => (s.localClientArray ii).elim s fun c =>
      { s with sentalong := Function.update s.sentalong (s.cliFrom c) 0 }) s

def bumpMarker (s : State χ) : State χ :=
  let s := { s with sentalongMarker := s.sentalongMarker + 1 }
  if s.sentalongMarker = 0 then { s.clearStamps with sentalongMarker := s.clearStamps.sentalongMarker + 1 } else s

def bumpSentalong (s : State χ) (one : Option χ) : State χ := one.elim s.bumpMarker s.bumpMarker.stamp

def sendOnce (st : State χ × List χ) (user : χ) : State χ × List χ :=
  if st.1.sentalong (st.1.cliFrom user) = st.1.sentalongMarker then st
  else (st.1.stamp user, st.2 ++ [st.1.cliFrom user])

/-- `sendcmdto_common_channels_butone`, with those that get a copy, in order. -/
def commonChannels (s : State χ) (rooms : Rooms κ χ) (source : χ) (one : Option χ) : State χ × List χ :=
  let st := (rooms.channel source).foldl
    (fun st chan =>
      if chan.zombie || chan.delayedJoin then st
      else (rooms.members chan.channel).foldl
        (fun st member =>
          if s.MyConnect member.user ∧ s.Opened member.user ∧ some member.user ≠ one then sendOnce st member.user
          else st) st)
    (s.bumpSentalong (some source), [])
  if s.MyConnect source ∧ some source ≠ one then (st.1, st.2 ++ [s.cliFrom source]) else st

def channelServers (s : State χ) (rooms : Rooms κ χ) (source : χ) (chptr : κ) (one : Option χ) (skip : Skip) :
    State χ × List χ :=
  (rooms.members chptr).foldl
    (fun st member =>
      if ¬ s.MyConnect member.user ∧ member.zombie = false ∧ s.Opened member.user ∧ skip.leaves member = true then
        sendOnce st member.user
      else st)
    ((s.bumpSentalong one).stamp source, [])

def otherSend (s : State χ) (one : Option χ) (targets : List χ) : State χ :=
  (targets.foldl sendOnce (s.bumpSentalong one, [])).1

def connect (s : State χ) (c : χ) (n : Nat) : State χ :=
  { s with
    sentalong := Function.update s.sentalong c 0
    cliFrom := Function.update s.cliFrom c c
    fd := Function.update s.fd c (some n)
    localClientArray := Function.update s.localClientArray n (some c)
    highestFd := max s.highestFd n }

def introduce (s : State χ) (c link : χ) : State χ :=
  { s with cliFrom := Function.update s.cliFrom c (s.cliFrom link) }

/-- The loop at the end of `close_connection`. -/
def lowerFd (localClientArray : Nat → Option χ) : Nat → Nat
  | 0 => 0
  | n + 1 => if (localClientArray (n + 1)).isSome then n + 1 else lowerFd localClientArray n

def close (s : State χ) (c : χ) : State χ :=
  let s := (s.fd c).elim s fun n =>
    { s with localClientArray := Function.update s.localClientArray n none, fd := Function.update s.fd c none }
  if 0 < s.highestFd then { s with highestFd := lowerFd s.localClientArray s.highestFd.toNat } else s

end State

inductive Call (κ χ : Type) where
  | connect (c : χ) (n : Nat)
  | introduce (c link : χ)
  | close (c : χ)
  | commonChannels (rooms : Rooms κ χ) (source : χ) (one : Option χ)
  | channelServers (rooms : Rooms κ χ) (source : χ) (chptr : κ) (one : Option χ) (skip : Skip)
  | otherSend (one : Option χ) (targets : List χ)

def State.perform (s : State χ) : Call κ χ → State χ
  | .connect c n => s.connect c n
  | .introduce c link => s.introduce c link
  | .close c => s.close c
  | .commonChannels rooms source one => (s.commonChannels rooms source one).1
  | .channelServers rooms source chptr one skip => (s.channelServers rooms source chptr one skip).1
  | .otherSend one targets => s.otherSend one targets

/-- A new client, and its descriptor, are not in use, and the server that a source is behind is on no channel. -/
def Allowed (s : State χ) : Call κ χ → Prop
  | .connect c n => s.fd c = none ∧ s.localClientArray n = none
  | .introduce c _ => s.fd c = none
  | .commonChannels rooms source _ =>
    ∀ chan ∈ rooms.channel source, ∀ member ∈ rooms.members chan.channel,
      member.user = s.cliFrom source → member.user = source
  | _ => True

structure Started (s : State χ) : Prop where
  marker : s.sentalongMarker = 0
  fds : ∀ c, s.fd c = none
  array : ∀ n, s.localClientArray n = none

def Shares (rooms : Rooms κ χ) (source c : χ) : Prop :=
  ∃ chan ∈ rooms.channel source, (chan.zombie = false ∧ chan.delayedJoin = false) ∧
    ∃ member ∈ rooms.members chan.channel, member.user = c

def CommonDue (s : State χ) (rooms : Rooms κ χ) (source : χ) (one : Option χ) (c : χ) : Prop :=
  s.MyConnect c ∧ some c ≠ one ∧ (c = source ∨ s.Opened c ∧ Shares rooms source c)

def ServersDue (s : State χ) (rooms : Rooms κ χ) (source : χ) (chptr : κ) (one : Option χ) (skip : Skip) (link : χ) :
    Prop :=
  link ≠ s.cliFrom source ∧ (∀ o ∈ one, link ≠ s.cliFrom o) ∧
    ∃ member ∈ rooms.members chptr, s.cliFrom member.user = link ∧ ¬ s.MyConnect member.user ∧
      member.zombie = false ∧ s.Opened member.user ∧ skip.leaves member = true

def OneEach (copies : List χ) (due : χ → Prop) : Prop :=
  ∀ c, (due c → copies.count c = 1) ∧ (¬ due c → copies.count c = 0)

def Right (s : State χ) : Call κ χ → Prop
  | .commonChannels rooms source one => OneEach (s.commonChannels rooms source one).2 (CommonDue s rooms source one)
  | .channelServers rooms source chptr one skip =>
    OneEach (s.channelServers rooms source chptr one skip).2 (ServersDue s rooms source chptr one skip)
  | _ => True

def Stale (s : State χ) (c : χ) : Prop := s.bumpMarker.sentalong c = s.bumpMarker.sentalongMarker

instance (s : State χ) (c : χ) : Decidable (Stale s c) := inferInstanceAs (Decidable (_ = _))

def NoneStale (s : State χ) : Call κ χ → Prop
  | .commonChannels rooms source one => ∀ c, CommonDue s rooms source one c → c ≠ source → ¬ Stale s c
  | .channelServers rooms source chptr one skip => ∀ c, ServersDue s rooms source chptr one skip c → ¬ Stale s c
  | _ => True

/-- If the marker wraps around, the connection with the highest descriptor has no stamp. -/
def WrapsClean (s : State χ) : Call κ χ → Prop
  | .connect _ _ => True
  | .introduce _ _ => True
  | .close _ => True
  | _ => s.sentalongMarker + 1 = 0 → ∀ c, s.localClientArray s.highestFd.toNat = some c → s.sentalong c = 0

open State

theorem sendOnce_foldl (s : State χ) (copies users : List χ) :
    users.foldl sendOnce (s, copies) =
      ({ s with sentalong := ((users.map s.cliFrom).foldl (visitOnce s.sentalongMarker) (s.sentalong, copies)).1 },
        ((users.map s.cliFrom).foldl (visitOnce s.sentalongMarker) (s.sentalong, copies)).2) := by
  induction users generalizing s copies with
  | nil => rfl
  | cons user users ih =>
    rw [List.foldl_cons, List.map_cons, List.foldl_cons]
    by_cases marked : s.sentalong (s.cliFrom user) = s.sentalongMarker
    · have turn : sendOnce (s, copies) user = (s, copies) := if_pos marked
      have visit : visitOnce s.sentalongMarker (s.sentalong, copies) (s.cliFrom user) = (s.sentalong, copies) :=
        if_pos marked
      rw [turn, visit, ih]
    · have turn : sendOnce (s, copies) user = (s.stamp user, copies ++ [s.cliFrom user]) := if_neg marked
      have visit : visitOnce s.sentalongMarker (s.sentalong, copies) (s.cliFrom user) =
          ((s.stamp user).sentalong, copies ++ [s.cliFrom user]) := if_neg marked
      rw [turn, visit, ih]
      rfl

theorem sendOnce_count (s : State χ) (copies users : List χ) (c : χ) :
    (users.foldl sendOnce (s, copies)).2.count c =
      copies.count c + if c ∈ users.map s.cliFrom ∧ s.sentalong c ≠ s.sentalongMarker then 1 else 0 := by
  rw [sendOnce_foldl]
  exact visitOnce_count ..

def commonTargets (s : State χ) (rooms : Rooms κ χ) (source : χ) (one : Option χ) : List χ :=
  ((rooms.channel source).filter fun chan => !(chan.zombie || chan.delayedJoin)).flatMap fun chan =>
    ((rooms.members chan.channel).filter fun member =>
      s.MyConnect member.user ∧ s.Opened member.user ∧ some member.user ≠ one).map Membership.user

def serverTargets (s : State χ) (rooms : Rooms κ χ) (chptr : κ) (skip : Skip) : List χ :=
  ((rooms.members chptr).filter fun member =>
    ¬ s.MyConnect member.user ∧ member.zombie = false ∧ s.Opened member.user ∧ skip.leaves member = true).map
      Membership.user

theorem commonChannels_eq (s : State χ) (rooms : Rooms κ χ) (source : χ) (one : Option χ) :
    s.commonChannels rooms source one =
      let st := (commonTargets s rooms source one).foldl sendOnce (s.bumpSentalong (some source), [])
      if s.MyConnect source ∧ some source ≠ one then (st.1, st.2 ++ [s.cliFrom source]) else st := by
  unfold commonChannels commonTargets
  rw [List.foldl_flatMap, List.foldl_filter]
  have turn (st : State χ × List χ) (chan : Membership κ χ) :
      (if chan.zombie || chan.delayedJoin then st
        else (rooms.members chan.channel).foldl (fun st member =>
          if s.MyConnect member.user ∧ s.Opened member.user ∧ some member.user ≠ one then sendOnce st member.user
          else st) st) =
      if (!(chan.zombie || chan.delayedJoin)) = true then
        (((rooms.members chan.channel).filter fun member =>
            s.MyConnect member.user ∧ s.Opened member.user ∧ some member.user ≠ one).map
          Membership.user).foldl sendOnce st
      else st := by
    rw [List.foldl_map, List.foldl_filter]
    cases chan.zombie || chan.delayedJoin with
    | true => rfl
    | false => simp only [decide_eq_true_eq, Bool.false_eq_true, if_false, Bool.not_false, if_true]
  simp only [turn]

theorem channelServers_eq (s : State χ) (rooms : Rooms κ χ) (source : χ) (chptr : κ) (one : Option χ) (skip : Skip) :
    s.channelServers rooms source chptr one skip =
      (serverTargets s rooms chptr skip).foldl sendOnce ((s.bumpSentalong one).stamp source, []) := by
  unfold channelServers serverTargets
  rw [List.foldl_map, List.foldl_filter]
  simp only [decide_eq_true_eq]

variable {s : State χ}

theorem mem_commonTargets {rooms : Rooms κ χ} {source : χ} {one : Option χ} {c : χ} :
    c ∈ commonTargets s rooms source one ↔ s.MyConnect c ∧ some c ≠ one ∧ s.Opened c ∧ Shares rooms source c := by
  simp only [commonTargets, Shares, List.mem_flatMap, List.mem_filter, List.mem_map, Bool.not_eq_true',
    Bool.or_eq_false_iff, decide_eq_true_eq]
  constructor
  · rintro ⟨chan, ⟨on, plain⟩, member, ⟨mem, here, open_here, other⟩, rfl⟩
    exact ⟨here, other, open_here, chan, on, plain, member, mem, rfl⟩
  · rintro ⟨here, other, open_here, chan, on, plain, member, mem, rfl⟩
    exact ⟨chan, ⟨on, plain⟩, member, ⟨mem, here, open_here, other⟩, rfl⟩

theorem mem_serverTargets {rooms : Rooms κ χ} {chptr : κ} {skip : Skip} {link : χ} :
    link ∈ (serverTargets s rooms chptr skip).map s.cliFrom ↔
      ∃ member ∈ rooms.members chptr, s.cliFrom member.user = link ∧ ¬ s.MyConnect member.user ∧
        member.zombie = false ∧ s.Opened member.user ∧ skip.leaves member = true := by
  simp only [serverTargets, List.map_map, List.mem_map, List.mem_filter, decide_eq_true_eq, Function.comp_apply]
  constructor
  · rintro ⟨member, ⟨mem, rest⟩, same⟩
    exact ⟨member, mem, same, rest⟩
  · rintro ⟨member, mem, same, rest⟩
    exact ⟨member, ⟨mem, rest⟩, same⟩

/-- The loop clears the stamps of the connections that it comes to, and no other changes. -/
theorem clearStamps_spec (s : State χ) :
    ∃ sentalong, s.clearStamps = { s with sentalong := sentalong } ∧
      (∀ c, sentalong c = 0 ∨ sentalong c = s.sentalong c) ∧
        ∀ ii < s.highestFd.toNat, ∀ c ∈ s.localClientArray ii, sentalong (s.cliFrom c) = 0 := by
  have loop (l : List Nat) (s : State χ) : ∃ sentalong,
      l.foldl (fun s ii => (s.localClientArray ii).elim s fun c =>
        { s with sentalong := Function.update s.sentalong (s.cliFrom c) 0 }) s = { s with sentalong := sentalong } ∧
      (∀ c, sentalong c = 0 ∨ sentalong c = s.sentalong c) ∧
        ∀ ii ∈ l, ∀ c ∈ s.localClientArray ii, sentalong (s.cliFrom c) = 0 := by
    induction l generalizing s with
    | nil => exact ⟨s.sentalong, rfl, fun _ => .inr rfl, by simp⟩
    | cons ii l ih =>
      rw [List.foldl_cons]
      cases here : s.localClientArray ii with
      | none =>
        obtain ⟨sentalong, ends, kept, cleared⟩ := ih s
        refine ⟨sentalong, ends, kept, List.forall_mem_cons.mpr ⟨?_, cleared⟩⟩
        rw [here]
        rintro c ⟨⟩
      | some c =>
        obtain ⟨sentalong, ends, kept, cleared⟩ :=
          ih { s with sentalong := Function.update s.sentalong (s.cliFrom c) 0 }
        have first : sentalong (s.cliFrom c) = 0 := (kept _).elim id fun same => same.trans (Function.update_self ..)
        refine ⟨sentalong, ends, fun c' => ?_, List.forall_mem_cons.mpr ⟨?_, cleared⟩⟩
        · by_cases same : c' = s.cliFrom c
          · rw [same]
            exact .inl first
          · exact (kept c').imp_right fun old => old.trans (Function.update_of_ne same _ _)
        · rw [here]
          rintro c' ⟨⟩
          exact first
  obtain ⟨sentalong, ends, kept, cleared⟩ := loop (List.range s.highestFd.toNat) s
  exact ⟨sentalong, ends, kept, fun ii below => cleared ii (List.mem_range.mpr below)⟩

/-- The marker gets a number that is not zero; if it wraps around, the stamps are cleared. -/
theorem bumpMarker_spec (s : State χ) :
    ∃ sentalong marker, s.bumpMarker = { s with sentalong := sentalong, sentalongMarker := marker } ∧
      (s.sentalongMarker + 1 ≠ 0 ∧ sentalong = s.sentalong ∧ marker = s.sentalongMarker + 1 ∨
        s.sentalongMarker + 1 = 0 ∧ marker = 1 ∧ (∀ c, sentalong c = 0 ∨ sentalong c = s.sentalong c) ∧
          ∀ ii < s.highestFd.toNat, ∀ c ∈ s.localClientArray ii, sentalong (s.cliFrom c) = 0) := by
  unfold bumpMarker
  simp only
  by_cases wraps : s.sentalongMarker + 1 = 0
  · obtain ⟨sentalong, ends, kept, cleared⟩ := clearStamps_spec { s with sentalongMarker := s.sentalongMarker + 1 }
    rw [if_pos wraps, ends]
    refine ⟨sentalong, 1, ?_, .inr ⟨wraps, rfl, kept, cleared⟩⟩
    simp only [wraps]
    rfl
  · rw [if_neg wraps]
    exact ⟨s.sentalong, s.sentalongMarker + 1, rfl, .inl ⟨wraps, rfl, rfl⟩⟩

/-- The marker gets its new number, which is also the stamp of the client that is given. -/
theorem bumpSentalong_spec (s : State χ) (one : Option χ) :
    (s.bumpSentalong one).cliFrom = s.cliFrom ∧
      (s.bumpSentalong one).sentalongMarker = s.bumpMarker.sentalongMarker ∧
        ∀ c, (s.bumpSentalong one).sentalong c =
          if ∃ o ∈ one, c = s.cliFrom o then s.bumpMarker.sentalongMarker else s.bumpMarker.sentalong c := by
  obtain ⟨sentalong, marker, bumped, -⟩ := bumpMarker_spec s
  unfold bumpSentalong
  rw [bumped]
  cases one with
  | none => exact ⟨rfl, rfl, fun c => by simp⟩
  | some o =>
    refine ⟨rfl, rfl, fun c => ?_⟩
    by_cases here : c = s.cliFrom o
    · rw [if_pos ⟨o, rfl, here⟩, here]
      exact Function.update_self ..
    · rw [if_neg (by simpa using here)]
      exact Function.update_of_ne here _ _

/-- Members of common channels get a copy unless they are stale, and so does the source. -/
theorem commonChannels_count (s : State χ) (rooms : Rooms κ χ) (source : χ) (one : Option χ) (c : χ) :
    (s.commonChannels rooms source one).2.count c =
      (if c ∈ commonTargets s rooms source one ∧ c ≠ s.cliFrom source ∧ ¬ Stale s c then 1 else 0) +
        if c = source ∧ s.MyConnect source ∧ some source ≠ one then 1 else 0 := by
  obtain ⟨links, marker, stamps⟩ := bumpSentalong_spec s (some source)
  have local_targets : (commonTargets s rooms source one).map s.cliFrom = commonTargets s rooms source one := by
    refine List.map_congr_left (fun c mem => ?_) |>.trans (List.map_id' _)
    exact (mem_commonTargets.mp mem).1
  have loop : ((commonTargets s rooms source one).foldl sendOnce (s.bumpSentalong (some source), [])).2.count c =
      if c ∈ commonTargets s rooms source one ∧ c ≠ s.cliFrom source ∧ ¬ Stale s c then 1 else 0 := by
    rw [sendOnce_count, links, local_targets, marker, stamps, List.count_nil, Nat.zero_add]
    refine if_congr (and_congr_right fun _ => ?_) rfl rfl
    by_cases here : c = s.cliFrom source
    · simp [here]
    · simp [here, Stale]
  rw [commonChannels_eq]
  simp only
  by_cases last : s.MyConnect source ∧ some source ≠ one
  · rw [if_pos last, List.count_append, loop, show s.cliFrom source = source from last.1, List.count_singleton]
    congr 1
    refine if_congr ?_ rfl rfl
    rw [beq_iff_eq, and_iff_left last, eq_comm]
  · have not_last : ¬ (c = source ∧ s.MyConnect source ∧ some source ≠ one) := fun all => last all.2
    rw [if_neg last, loop, if_neg not_last, Nat.add_zero]

/-- The links of eligible members get a copy, but not those of the source and of the skipped client, nor the stale. -/
theorem channelServers_count (s : State χ) (rooms : Rooms κ χ) (source : χ) (chptr : κ) (one : Option χ) (skip : Skip)
    (link : χ) : (s.channelServers rooms source chptr one skip).2.count link =
      if link ∈ (serverTargets s rooms chptr skip).map s.cliFrom ∧
        (link ≠ s.cliFrom source ∧ (∀ o ∈ one, link ≠ s.cliFrom o) ∧ ¬ Stale s link) then 1 else 0 := by
  obtain ⟨links, marker, stamps⟩ := bumpSentalong_spec s one
  have links' : ((s.bumpSentalong one).stamp source).cliFrom = s.cliFrom := links
  have marker' : ((s.bumpSentalong one).stamp source).sentalongMarker = s.bumpMarker.sentalongMarker := marker
  rw [channelServers_eq, sendOnce_count, List.count_nil, Nat.zero_add, links', marker']
  refine if_congr (and_congr_right fun _ => ?_) rfl rfl
  by_cases here : link = s.cliFrom source
  · have stamped : ((s.bumpSentalong one).stamp source).sentalong link = s.bumpMarker.sentalongMarker := by
      rw [here, ← links, ← marker]
      exact Function.update_self ..
    exact iff_of_false (fun differ => differ stamped) fun all => all.1 here
  · have kept : ((s.bumpSentalong one).stamp source).sentalong link = (s.bumpSentalong one).sentalong link :=
      Function.update_of_ne (by rw [links]; exact here) _ _
    rw [kept, stamps]
    by_cases skipped : ∃ o ∈ one, link = s.cliFrom o
    · obtain ⟨o, is_one, same⟩ := skipped
      rw [if_pos ⟨o, is_one, same⟩]
      exact iff_of_false (fun differ => differ rfl) fun all => all.2.1 o is_one same
    · rw [if_neg skipped]
      have others : ∀ o ∈ one, link ≠ s.cliFrom o := fun o is_one same => skipped ⟨o, is_one, same⟩
      exact ⟨fun fresh => ⟨here, others, fresh⟩, fun all => all.2.2⟩

/-- Where a target gets a copy if it is due and fresh, all is right just if all that are due are fresh. -/
theorem oneEach_iff {copies : List χ} {due fresh : χ → Prop} [DecidablePred due] [DecidablePred fresh]
    (count : ∀ c, copies.count c = if due c ∧ fresh c then 1 else 0) : OneEach copies due ↔ ∀ c, due c → fresh c := by
  constructor
  · intro each c is_due
    by_contra stale
    have one := (each c).1 is_due
    rw [count, if_neg fun both => stale both.2] at one
    cases one
  · intro all c
    rw [count]
    exact ⟨fun is_due => if_pos ⟨is_due, all c is_due⟩, fun not_due => if_neg fun both => not_due both.1⟩

theorem right_iff (s : State χ) (call : Call κ χ) (allowed : Allowed s call) : Right s call ↔ NoneStale s call := by
  classical
  cases call with
  | commonChannels rooms source one =>
    have count (c : χ) : (s.commonChannels rooms source one).2.count c =
        if CommonDue s rooms source one c ∧ (c ≠ source → ¬ Stale s c) then 1 else 0 := by
      have targets : c ∈ commonTargets s rooms source one ↔ _ := mem_commonTargets
      rw [commonChannels_count]
      by_cases here : c = source
      · have not_first : ¬ (c ∈ commonTargets s rooms source one ∧ c ≠ s.cliFrom source ∧ ¬ Stale s c) := by
          rintro ⟨mem, apart, -⟩
          have connected := (targets.mp mem).1
          rw [here] at connected apart
          exact apart connected.symm
        rw [if_neg not_first, Nat.zero_add]
        refine if_congr ?_ rfl rfl
        simp [CommonDue, here]
      · have not_last : ¬ (c = source ∧ s.MyConnect source ∧ some source ≠ one) := fun all => here all.1
        rw [if_neg not_last, Nat.add_zero]
        refine if_congr ?_ rfl rfl
        have apart (shares : Shares rooms source c) : c ≠ s.cliFrom source := by
          rintro behind
          obtain ⟨chan, on, -, member, mem, same⟩ := shares
          exact here (same.symm.trans (allowed chan on member mem (same.trans behind)))
        constructor
        · rintro ⟨mem, -, fresh⟩
          obtain ⟨connected, other, opened, shares⟩ := targets.mp mem
          exact ⟨⟨connected, other, .inr ⟨opened, shares⟩⟩, fun _ => fresh⟩
        · rintro ⟨⟨connected, other, due⟩, fresh⟩
          obtain ⟨opened, shares⟩ := due.resolve_left here
          exact ⟨targets.mpr ⟨connected, other, opened, shares⟩, apart shares, fresh here⟩
    exact oneEach_iff count
  | channelServers rooms source chptr one skip =>
    have count (link : χ) : (s.channelServers rooms source chptr one skip).2.count link =
        if ServersDue s rooms source chptr one skip link ∧ ¬ Stale s link then 1 else 0 := by
      rw [channelServers_count]
      refine if_congr ?_ rfl rfl
      unfold ServersDue
      rw [mem_serverTargets]
      constructor
      · rintro ⟨mem, apart, others, fresh⟩
        exact ⟨⟨apart, others, mem⟩, fresh⟩
      · rintro ⟨⟨apart, others, mem⟩, fresh⟩
        exact ⟨mem, apart, others, fresh⟩
    exact oneEach_iff count
  | connect c n => exact Iff.rfl
  | introduce c link => exact Iff.rfl
  | close c => exact Iff.rfl
  | otherSend one targets => exact Iff.rfl

structure Sound (s : State χ) : Prop where
  opened : ∀ c n, s.fd c = some n → s.cliFrom c = c ∧ s.localClientArray n = some c ∧ (n : Int) ≤ s.highestFd
  array : ∀ n c, s.localClientArray n = some c → s.fd c = some n

structure Fresh (s : State χ) : Prop extends Sound s where
  behind : ∀ c, (s.fd c).isSome = true → (s.sentalong c).toNat ≤ s.sentalongMarker.toNat

theorem succ_toNat {marker : BitVec 32} (goes_on : marker + 1 ≠ 0) : (marker + 1).toNat = marker.toNat + 1 := by
  have below := marker.isLt
  have not_last : marker.toNat + 1 ≠ 2 ^ 32 := by
    intro last
    refine goes_on (BitVec.eq_of_toNat_eq ?_)
    rw [BitVec.toNat_add, show (1 : BitVec 32).toNat = 1 from rfl, last]
    rfl
  rw [BitVec.toNat_add, show (1 : BitVec 32).toNat = 1 from rfl, Nat.mod_eq_of_lt (by omega)]

theorem bumpMarker_ahead (fresh : Fresh s)
    (clean : s.sentalongMarker + 1 = 0 → ∀ c, s.localClientArray s.highestFd.toNat = some c → s.sentalong c = 0) :
    ∀ c, (s.fd c).isSome = true →
      (s.bumpMarker.sentalong c).toNat < s.bumpMarker.sentalongMarker.toNat := by
  obtain ⟨sentalong, marker, bumped, changes⟩ := bumpMarker_spec s
  intro c open_c
  rw [bumped]
  rcases changes with ⟨goes_on, rfl, rfl⟩ | ⟨wraps, rfl, kept, cleared⟩
  · have behind := fresh.behind c open_c
    have grown := succ_toNat goes_on
    simp only
    omega
  · obtain ⟨n, is_n⟩ := Option.isSome_iff_exists.mp open_c
    obtain ⟨connected, at_n, below⟩ := fresh.opened c n is_n
    have zero : sentalong c = 0 := by
      by_cases highest : n < s.highestFd.toNat
      · have here := cleared n highest c at_n
        rwa [connected] at here
      · -- The loop leaves the highest descriptor out.
        have last : n = s.highestFd.toNat := by omega
        rcases kept c with zero | same
        · exact zero
        · rw [same]
          exact clean wraps c (last ▸ at_n)
    simp only [zero]
    decide

def Sent (s s' : State χ) : Prop :=
  ∃ sentalong : χ → BitVec 32, s' = { s.bumpMarker with sentalong := sentalong } ∧
    ∀ c, sentalong c = s.bumpMarker.sentalong c ∨ sentalong c = s.bumpMarker.sentalongMarker

theorem Sent.fresh {s' : State χ} (sent : Sent s s') (fresh : Fresh s)
    (ahead : ∀ c, (s.fd c).isSome = true → (s.bumpMarker.sentalong c).toNat < s.bumpMarker.sentalongMarker.toNat) :
    Fresh s' := by
  obtain ⟨bumped_stamps, marker, bumped, -⟩ := bumpMarker_spec s
  obtain ⟨sentalong, rfl, stamps⟩ := sent
  rw [bumped] at ahead stamps ⊢
  refine ⟨⟨fresh.opened, fresh.array⟩, fun c open_c => ?_⟩
  rcases stamps c with same | stamped
  · have behind := ahead c open_c
    exact Nat.le_trans (Nat.le_of_eq (congrArg BitVec.toNat same)) (Nat.le_of_lt behind)
  · exact Nat.le_of_eq (congrArg BitVec.toNat stamped)

theorem Sent.stamp {s' : State χ} (sent : Sent s s') (c : χ) : Sent s (s'.stamp c) := by
  obtain ⟨sentalong, rfl, stamps⟩ := sent
  refine ⟨_, rfl, fun c' => ?_⟩
  by_cases here : c' = s.bumpMarker.cliFrom c
  · rw [here]
    exact .inr (Function.update_self ..)
  · rw [Function.update_of_ne here]
    exact stamps c'

theorem Sent.bumpSentalong (s : State χ) (one : Option χ) : Sent s (s.bumpSentalong one) := by
  have bumped : Sent s s.bumpMarker := ⟨s.bumpMarker.sentalong, rfl, fun _ => .inl rfl⟩
  cases one with
  | none => exact bumped
  | some o => exact bumped.stamp o

theorem Sent.loop {s' : State χ} (sent : Sent s s') (copies users : List χ) :
    Sent s (users.foldl sendOnce (s', copies)).1 := by
  induction users generalizing s' copies with
  | nil => exact sent
  | cons user users ih =>
    rw [List.foldl_cons, sendOnce]
    split
    · exact ih sent copies
    · exact ih (sent.stamp user) _

omit [DecidableEq χ] in
theorem lowerFd_le {localClientArray : Nat → Option χ} {n : Nat} (there : (localClientArray n).isSome = true) {k : Nat}
    (below : n ≤ k) : n ≤ lowerFd localClientArray k := by
  induction k with
  | zero => exact below
  | succ k ih =>
    unfold lowerFd
    split
    · exact below
    · rename_i empty
      have other : n ≠ k + 1 := by
        rintro rfl
        exact empty there
      exact ih (by omega)

theorem connect_fresh (fresh : Fresh s) {c : χ} {n : Nat} (unused : s.fd c = none)
    (free : s.localClientArray n = none) : Fresh (s.connect c n) := by
  have others (d : χ) (other : d ≠ c) : (s.connect c n).cliFrom d = s.cliFrom d ∧ (s.connect c n).fd d = s.fd d ∧
      (s.connect c n).sentalong d = s.sentalong d :=
    ⟨Function.update_of_ne other _ _, Function.update_of_ne other _ _, Function.update_of_ne other _ _⟩
  have here : (s.connect c n).fd c = some n ∧ (s.connect c n).localClientArray n = some c :=
    ⟨Function.update_self .., Function.update_self ..⟩
  have elsewhere (m : Nat) (other : m ≠ n) : (s.connect c n).localClientArray m = s.localClientArray m :=
    Function.update_of_ne other _ _
  refine ⟨⟨fun d m is_m => ?_, fun m d at_m => ?_⟩, fun d open_d => ?_⟩
  · by_cases same : d = c
    · subst same
      obtain rfl : n = m := Option.some.inj (here.1.symm.trans is_m)
      exact ⟨Function.update_self .., here.2, Int.le_max_right _ _⟩
    · rw [(others d same).2.1] at is_m
      obtain ⟨connected, at_m, below⟩ := fresh.opened d m is_m
      have apart : m ≠ n := by
        rintro rfl
        rw [free] at at_m
        cases at_m
      exact ⟨(others d same).1.trans connected, (elsewhere m apart).trans at_m,
        Int.le_trans below (Int.le_max_left _ _)⟩
  · by_cases same : m = n
    · subst same
      obtain rfl : c = d := Option.some.inj (here.2.symm.trans at_m)
      exact here.1
    · have was := fresh.array m d ((elsewhere m same).symm.trans at_m)
      have other : d ≠ c := by
        rintro rfl
        rw [unused] at was
        cases was
      rw [(others d other).2.1, was]
  · by_cases same : d = c
    · subst same
      rw [show (s.connect d n).sentalong d = 0 from Function.update_self ..]
      exact Nat.zero_le _
    · rw [(others d same).2.1] at open_d
      rw [(others d same).2.2]
      exact fresh.behind d open_d

theorem introduce_fresh (fresh : Fresh s) {c : χ} (unused : s.fd c = none) (link : χ) :
    Fresh (s.introduce c link) := by
  refine ⟨⟨fun d m is_m => ?_, fresh.array⟩, fresh.behind⟩
  have other : d ≠ c := by
    rintro rfl
    rw [show s.fd d = some m from is_m] at unused
    cases unused
  have was := fresh.opened d m is_m
  exact ⟨(Function.update_of_ne other _ _).trans was.1, was.2⟩

omit [DecidableEq χ] in
theorem Fresh.lower (fresh : Fresh s) {highest : Int}
    (above : ∀ n c, s.localClientArray n = some c → (n : Int) ≤ highest) :
    Fresh { s with highestFd := highest } := by
  refine ⟨⟨fun c n is_n => ?_, fresh.array⟩, fresh.behind⟩
  have was := fresh.opened c n is_n
  exact ⟨was.1, was.2.1, above n c was.2.1⟩

theorem close_fresh (fresh : Fresh s) (c : χ) : Fresh (s.close c) := by
  have cut : Fresh ((s.fd c).elim s fun n =>
      { s with localClientArray := Function.update s.localClientArray n none, fd := Function.update s.fd c none }) := by
    cases is_n : s.fd c with
    | none => exact fresh
    | some n =>
      have still (d : χ) (open_d : (Function.update s.fd c none d).isSome = true) :
          d ≠ c ∧ Function.update s.fd c none d = s.fd d := by
        have other : d ≠ c := by
          rintro rfl
          rw [Function.update_self] at open_d
          cases open_d
        exact ⟨other, Function.update_of_ne other _ _⟩
      refine ⟨⟨fun d m is_m => ?_, fun m d at_m => ?_⟩, fun d open_d => ?_⟩
      · obtain ⟨other, same⟩ := still d (Option.isSome_of_eq_some is_m)
        have was := fresh.opened d m (same.symm.trans is_m)
        have apart : m ≠ n := by
          rintro rfl
          have first := fresh.opened c m is_n
          exact other (Option.some.inj (was.2.1.symm.trans first.2.1))
        exact ⟨was.1, (Function.update_of_ne apart _ _).trans was.2.1, was.2.2⟩
      · change Function.update s.localClientArray n none m = some d at at_m
        have apart : m ≠ n := by
          rintro rfl
          rw [Function.update_self] at at_m
          cases at_m
        rw [Function.update_of_ne apart] at at_m
        have was := fresh.array m d at_m
        have other : d ≠ c := by
          rintro rfl
          exact apart (Option.some.inj (was.symm.trans is_n))
        exact (Function.update_of_ne other _ _).trans was
      · exact fresh.behind d ((still d open_d).2 ▸ open_d)
  unfold State.close
  simp only
  generalize (s.fd c).elim s _ = s' at cut ⊢
  split
  · rename_i positive
    refine cut.lower fun n d at_n => ?_
    have below := (cut.opened d n (cut.array n d at_n)).2.2
    have lowered := lowerFd_le (Option.isSome_of_eq_some at_n) (k := s'.highestFd.toNat) (by omega)
    exact Int.ofNat_le.mpr lowered
  · exact cut

/-- Without a stamp on the highest connection when the marker wraps around, nobody who is due a copy is stale. -/
theorem fresh_step (s : State χ) (call : Call κ χ) (fresh : Fresh s) (allowed : Allowed s call)
    (clean : WrapsClean s call) : NoneStale s call ∧ Fresh (s.perform call) := by
  cases call with
  | connect c n => exact ⟨trivial, connect_fresh fresh allowed.1 allowed.2⟩
  | introduce c link => exact ⟨trivial, introduce_fresh fresh allowed link⟩
  | close c => exact ⟨trivial, close_fresh fresh c⟩
  | commonChannels rooms source one =>
    have ahead := bumpMarker_ahead fresh clean
    refine ⟨fun c due other stale => ?_, ?_⟩
    · have opened := (due.2.2.resolve_left other).1
      rw [Opened, show s.cliFrom c = c from due.1] at opened
      exact Nat.ne_of_lt (ahead c opened) (congrArg BitVec.toNat stale)
    · have sent : Sent s (s.commonChannels rooms source one).1 := by
        rw [commonChannels_eq]
        simp only
        split
        · exact (Sent.bumpSentalong s (some source)).loop [] _
        · exact (Sent.bumpSentalong s (some source)).loop [] _
      exact sent.fresh fresh ahead
  | channelServers rooms source chptr one skip =>
    have ahead := bumpMarker_ahead fresh clean
    refine ⟨fun link due stale => ?_, ?_⟩
    · obtain ⟨-, -, member, -, rfl, -, -, opened, -⟩ := due
      exact Nat.ne_of_lt (ahead _ opened) (congrArg BitVec.toNat stale)
    · have sent : Sent s (s.channelServers rooms source chptr one skip).1 := by
        rw [channelServers_eq]
        exact ((Sent.bumpSentalong s one).stamp source).loop [] _
      exact sent.fresh fresh ahead
  | otherSend one targets =>
    exact ⟨trivial, ((Sent.bumpSentalong s one).loop [] targets).fresh fresh (bumpMarker_ahead fresh clean)⟩

omit [DecidableEq χ] in
theorem Started.fresh (started : Started s) : Fresh s := by
  refine ⟨⟨fun c n is_n => ?_, fun n c at_n => ?_⟩, fun c open_c => ?_⟩
  · rw [started.fds] at is_n
    cases is_n
  · rw [started.array] at at_n
    cases at_n
  · rw [started.fds] at open_c
    cases open_c

/-- Each send of a run gives exactly one copy to everyone who is due one, just if nobody who is due one carries the
marker's next number already. This is so all along a run in which the highest connection carries no stamp when the
marker wraps around. -/
theorem sends_exactly_one {s : State χ} (started : Started s) {calls : List (Call κ χ)}
    (allowed : Along State.perform Allowed s calls) :
    (Along State.perform Right s calls ↔ Along State.perform NoneStale s calls) ∧
      (Along State.perform WrapsClean s calls → Along State.perform Right s calls) := by
  have agree : Along State.perform Right s calls ↔ Along State.perform NoneStale s calls :=
    Along.iff (fun _ => True) (fun s call _ allowed => right_iff s call allowed) (fun _ _ _ _ _ => trivial) trivial
      allowed
  refine ⟨agree, fun clean => agree.mpr ?_⟩
  exact Along.imp Fresh (fun s call fresh allowed clean => fresh_step s call fresh allowed clean) started.fresh allowed
    clean

theorem idle_foldl (n : Nat) (s : State χ) (room : s.sentalongMarker.toNat + n < 2 ^ 32) :
    (List.replicate n (Call.otherSend none [] : Call κ χ)).foldl State.perform s =
      { s with sentalongMarker := s.sentalongMarker + BitVec.ofNat 32 n } := by
  induction n generalizing s with
  | zero => simp
  | succ n ih =>
    have goes_on : s.sentalongMarker + 1 ≠ 0 := by
      intro wraps
      have zero := congrArg BitVec.toNat wraps
      rw [BitVec.toNat_add, show (1 : BitVec 32).toNat = 1 from rfl, Nat.mod_eq_of_lt (by omega)] at zero
      cases zero
    have turn : s.perform (Call.otherSend none [] : Call κ χ) = { s with sentalongMarker := s.sentalongMarker + 1 } :=
      if_neg goes_on
    rw [List.replicate_succ, List.foldl_cons, turn, ih _ (by rw [succ_toNat goes_on]; omega)]
    congr 1
    rw [BitVec.add_assoc]
    congr 1
    rw [Nat.add_comm, BitVec.ofNat_add]
    rfl

def nobody : State Bool := ⟨0, fun _ => 0, fun c => c, fun _ => none, fun _ => none, -1⟩

theorem nobody_started : Started nobody := ⟨rfl, fun _ => rfl, fun _ => rfl⟩

def oneRoom : Rooms Unit Bool :=
  ⟨fun c => [⟨c, (), false, false, false, false⟩],
    fun _ => [⟨false, (), false, false, false, false⟩, ⟨true, (), false, false, false, false⟩]⟩

def firstSend : List (Call Unit Bool) := [.connect false 0, .connect true 1, .commonChannels oneRoom false none]

theorem firstSend_allowed : Along State.perform Allowed nobody firstSend :=
  ⟨⟨rfl, rfl⟩, ⟨rfl, rfl⟩, fun _ _ _ _ same => same, trivial⟩

theorem sends_exactly_one_first :
    (Along State.perform Right nobody firstSend ↔ Along State.perform NoneStale nobody firstSend) ∧
      (Along State.perform WrapsClean nobody firstSend → Along State.perform Right nobody firstSend) :=
  sends_exactly_one nobody_started firstSend_allowed

/-- When the numbers start again the first sends once more, and the second gets nothing. -/
theorem second_gets_none :
    Along State.perform Allowed nobody
        (firstSend ++ (List.replicate (2 ^ 32 - 2) (.otherSend none []) ++ [.commonChannels oneRoom false none])) ∧
      ¬ Along State.perform Right nobody
        (firstSend ++ (List.replicate (2 ^ 32 - 2) (.otherSend none []) ++ [.commonChannels oneRoom false none])) := by
  have idle_allowed (n : Nat) (s : State Bool) :
      Along State.perform Allowed s (List.replicate n (Call.otherSend none [] : Call Unit Bool)) := by
    induction n generalizing s with
    | zero => trivial
    | succ n ih => exact ⟨trivial, ih _⟩
  have marker : (firstSend.foldl State.perform nobody).sentalongMarker = 1 := rfl
  simp only [along_append, idle_foldl (κ := Unit) (2 ^ 32 - 2) (firstSend.foldl State.perform nobody)
    (by rw [marker]; decide)]
  refine ⟨⟨firstSend_allowed, idle_allowed _ _, fun _ _ _ _ same => same, trivial⟩, ?_⟩
  rintro ⟨-, -, right, -⟩
  have shares : Shares oneRoom false true :=
    ⟨⟨false, (), false, false, false, false⟩, List.mem_singleton.mpr rfl, ⟨rfl, rfl⟩,
      ⟨true, (), false, false, false, false⟩, .tail _ (.head _), rfl⟩
  have copy := (right true).1 ⟨rfl, by decide, .inr ⟨rfl, shares⟩⟩
  exact absurd copy (by decide)

end Ircd.Buffers.Sentalong

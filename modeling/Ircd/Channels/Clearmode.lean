import Ircd.Channels.HiddenJoins
import Ircd.Channels.BanCache

/-! `CLEARMODE`: an operator takes modes, bans and members' modes from a channel.

`do_clearmode` collects the letters of its control string in a mask and spells the mask again for
the other servers, in the order of its table. The messages are left out, but for that string.
-/

set_option autoImplicit false

namespace Ircd.Channels
open Ircd.Text
open Ircd.Auth (userLen hostLen)

variable {Client : Type}

inductive ClearBit where
  | chanop | voice | key | ban
  | flag (f : Flag)
  deriving DecidableEq, Repr

def clearFlags : List (ClearBit × Char) :=
  [(.chanop, 'o'), (.voice, 'v'), (.flag .priv, 'p'), (.flag .secret, 's'), (.flag .moderated, 'm'),
    (.flag .topicLimit, 't'), (.flag .inviteOnly, 'i'), (.flag .noPrivMsgs, 'n'), (.key, 'k'), (.ban, 'b'),
    (.flag .limit, 'l'), (.flag .regOnly, 'R'), (.flag .delJoins, 'D'), (.flag .operOnly, 'O'), (.flag .noColor, 'c'),
    (.flag .noCtcp, 'C'), (.flag .moderateNoReg, 'M'), (.flag .noNotice, 'N'), (.flag .msgNonWeb, 'W'),
    (.flag .noQuitParts, 'u'), (.flag .sslOnly, 'z')]

abbrev ClearMask := ClearBit → Bool

def enterLetter (mask : ClearMask) (c : Char) : ClearMask :=
  match clearFlags.find? fun e => e.2 = c with
  | some e => Function.update mask e.1 true
  | none => mask

def delMode (control : List Char) : ClearMask := control.foldl enterLetter fun _ => false

/-- The letters of the mask, as they are put in `control_buf`. -/
def controlBuf (del : ClearMask) : List Char := (clearFlags.filter fun e => del e.1).map Prod.snd

def controlSize : Nat := 20

def isLocalChannel (name : List Char) : Bool := peek name = '&'

def ClearMask.flags (del : ClearMask) : Flags := fun f => del (.flag f)

def dropMode (names : Names Client) (taken : Bool) (mode : MemberMode) (w : ModeWork Client) (m : Membership Client) :
    Option (ModeWork Client × Membership Client) :=
  if m.status.has mode && taken then do
    let w ← w.call names (.client false mode m.user (maxOpLevel + 1))
    some (w, { m with status := m.status.change .del mode })
  else some (w, m)

def clearMember (names : Names Client) (del : ClearMask) (w : ModeWork Client) (m : Membership Client) :
    Option (ModeWork Client × Membership Client) :=
  if m.status.zombie then some (w, m)
  else do
    let (w, m) ← dropMode names (del .chanop) .chanop w m
    dropMode names (del .voice) .voice w m

def clearMembers (names : Names Client) (del : ClearMask) :
    ModeWork Client → List (Membership Client) → Option (ModeWork Client × List (Membership Client))
  | w, [] => some (w, [])
  | w, m :: members => do
    let (w, m) ← clearMember names del w m
    let (w, members) ← clearMembers names del w members
    some (w, m :: members)

def clearBans (names : Names Client) : ModeWork Client → List Ban → Option (ModeWork Client)
  | w, [] => some w
  | w, link :: banlist => do
    let w ← w.call names (.string false .ban link.banstr true)
    clearBans names w banlist

/-- `ClearBanValid` for the members that are not zombies. -/
def clearValid [DecidableEq Client] (del : ClearMask) (room : Room Client) : Room Client :=
  room.chan.members.foldl (fun room m => if !m.status.zombie && del .ban then room.clearBanValid m.user else room) room

structure Cleared (Client : Type) where
  room : Room Client
  invitesCleared : Bool
  passes : List (Flushed Client)
  control : List Char
  /-- The parameters of the CLEARMODE for the other servers. -/
  relay : Option (List (List Char))

def clearKey (names : Names Client) (del : ClearMask) (w : ModeWork Client) : Option (ModeWork Client) :=
  if del .key && w.chan.mode.key ≠ [] then w.call names (.string false .key w.chan.mode.key false) else some w

def clearLimit (names : Names Client) (del : ClearMask) (w : ModeWork Client) : Option (ModeWork Client) :=
  if del (.flag .limit) && w.chan.mode.limit ≠ 0 then do
    let w ← w.call names (.uint false w.chan.mode.limit)
    some { w with chan := { w.chan with mode := { w.chan.mode with limit := 0 } } }
  else some w

def clearBanlist (names : Names Client) (del : ClearMask) (w : ModeWork Client) : Option (ModeWork Client) :=
  if del .ban then do
    let w ← clearBans names w w.chan.banlist
    some { w with chan := { w.chan with banlist := [] } }
  else some w

def clearUsers (names : Names Client) (del : ClearMask) (w : ModeWork Client) : Option (ModeWork Client) :=
  if del .ban || del .chanop || del .voice then do
    let (w, members) ← clearMembers names del w w.chan.members
    some { w with chan := { w.chan with members := members } }
  else some w

def clearModes [DecidableEq Client] (names : Names Client) (source : Client) (name : List Char) (room : Room Client)
    (del : ClearMask) : Option (Cleared Client) := do
  let mode := room.chan.mode.mode
  let mbuf := modebufInit source (isLocalChannel name) { Dest.none with channel := true, opmode := true, hack4 := true }
  let mbuf := modebufMode mbuf false fun f => del.flags f && mode f
  let w ← clearKey names del ⟨room.chan.setFlags (mode.without del.flags), mbuf, []⟩
  let w ← clearLimit names del w
  let w ← clearBanlist names del w
  let w ← clearUsers names del w
  let w ← w.call names .flush
  let chan := if del .key then { w.chan with mode := { w.chan.mode with key := [] } } else w.chan
  let control := controlBuf del
  some
    { room := { clearValid del room with chan := chan }
      invitesCleared := del (.flag .inviteOnly)
      passes := w.passes
      control := control
      relay := if isLocalChannel name then none else some [name, control] }

def doClearmode [DecidableEq Client] (names : Names Client) (source : Client) (name : List Char) (room : Room Client)
    (control : List Char) : Option (Cleared Client) :=
  let del := delMode control
  if clearFlags.all fun e => !del e.1 then some ⟨room, false, [], [], none⟩
  else clearModes names source name room del

inductive ClearError where
  | needMoreParams | noPrivileges
  | noSuchChannel (name : List Char)

/-- `ms_clearmode`; `privileged` is `IsPrivileged` of the source. -/
def msClearmode [DecidableEq Client] (names : Names Client) (source : Client) (privileged : Bool)
    (findChannel : List Char → Option (Room Client)) : List (List Char) → Except ClearError (Option (Cleared Client))
  | name :: control :: _ =>
    if !privileged then .error .noPrivileges
    else if !isChannelName name || isLocalChannel name then .error (.noSuchChannel name)
    else
      match findChannel name with
      | none => .error (.noSuchChannel name)
      | some room => .ok (doClearmode names source name room control)
  | _ => .error .needMoreParams

/-- The modes that a mask leaves: some hidden joins without `D` make the flag for them. -/
def ClearMask.mode (del : ClearMask) (chan : Channel Client) : Mode :=
  let flags := chan.mode.mode.without del.flags
  { chan.mode with
    mode :=
      if del (.flag .delJoins) && chan.mode.mode .delJoins && findDelayedJoins chan then flags.or (.only .wasDelJoins)
      else flags
    limit := if del (.flag .limit) then 0 else chan.mode.limit
    key := if del .key then [] else chan.mode.key }

def Room.cleared [DecidableEq Client] (del : ClearMask) (room : Room Client) : Room Client :=
  let left := room.clearMode (del .ban) (del .chanop) (del .voice)
  { left with chan := { left.chan with mode := del.mode room.chan } }

/-- The key, the bans and the nicks are no longer than the arrays they are in. -/
structure Channel.Fits (names : Names Client) (chan : Channel Client) : Prop where
  key : chan.mode.key.length ≤ keyLen
  bans : ∀ ban ∈ chan.banlist, ban.banstr.length ≤ nickLen + userLen + hostLen + 2
  nicks : ∀ m ∈ chan.members, (names.name m.user).length ≤ nickLen

theorem clearFlags_once {a b : ClearBit × Char} (listed_a : a ∈ clearFlags) (listed_b : b ∈ clearFlags) :
    a.1 = b.1 ↔ a.2 = b.2 := by
  have table : ∀ a ∈ clearFlags, ∀ b ∈ clearFlags, (a.1 = b.1 ↔ a.2 = b.2) := by decide
  exact table a listed_a b listed_b

theorem enterLetter_iff (mask : ClearMask) (c : Char) {e : ClearBit × Char} (listed : e ∈ clearFlags) :
    enterLetter mask c e.1 = true ↔ mask e.1 = true ∨ e.2 = c := by
  unfold enterLetter
  cases found : clearFlags.find? fun e => e.2 = c with
  | none =>
    have other := List.find?_eq_none.mp found e listed
    simp only [decide_eq_true_eq] at other
    simp [other]
  | some d =>
    have letter : d.2 = c := by simpa using List.find?_some found
    have same := clearFlags_once listed (List.mem_of_find?_eq_some found)
    rw [← letter, ← same]
    by_cases here : e.1 = d.1
    · simp [here]
    · simp [here]

theorem enterLetter_unlisted (mask : ClearMask) (c : Char) {bit : ClearBit} (unlisted : ∀ e ∈ clearFlags, e.1 ≠ bit) :
    enterLetter mask c bit = mask bit := by
  unfold enterLetter
  cases found : clearFlags.find? fun e => e.2 = c with
  | none => rfl
  | some d => exact Function.update_of_ne (unlisted d (List.mem_of_find?_eq_some found)).symm _ _

theorem enterLetters_iff (control : List Char) (mask : ClearMask) {e : ClearBit × Char} (listed : e ∈ clearFlags) :
    control.foldl enterLetter mask e.1 = true ↔ mask e.1 = true ∨ e.2 ∈ control := by
  induction control generalizing mask with
  | nil => simp
  | cons c control ih => rw [List.foldl_cons, ih, enterLetter_iff mask c listed, List.mem_cons, or_assoc]

theorem delMode_iff (control : List Char) {e : ClearBit × Char} (listed : e ∈ clearFlags) :
    delMode control e.1 = true ↔ e.2 ∈ control :=
  (enterLetters_iff control _ listed).trans (by simp)

theorem delMode_unlisted (control : List Char) {bit : ClearBit} (unlisted : ∀ e ∈ clearFlags, e.1 ≠ bit) :
    delMode control bit = false := by
  suffices kept : ∀ mask : ClearMask, control.foldl enterLetter mask bit = mask bit from kept _
  induction control with
  | nil => exact fun _ => rfl
  | cons c control ih =>
    intro mask
    rw [List.foldl_cons, ih, enterLetter_unlisted mask c unlisted]

theorem controlBuf_delMode (control : List Char) :
    controlBuf (delMode control) = (clearFlags.filter fun e => e.2 ∈ control).map Prod.snd := by
  refine congrArg (List.map Prod.snd) (List.filter_congr fun e listed => ?_)
  rw [Bool.eq_iff_iff, delMode_iff control listed, decide_eq_true_eq]

theorem delMode_controlBuf (control : List Char) : delMode (controlBuf (delMode control)) = delMode control := by
  have letters : ∀ e ∈ clearFlags, (e.2 ∈ controlBuf (delMode control) ↔ e.2 ∈ control) := by
    intro e listed
    rw [controlBuf_delMode, List.mem_map]
    constructor
    · rintro ⟨d, mem, letter⟩
      exact letter ▸ of_decide_eq_true (List.mem_filter.mp mem).2
    · intro mem
      exact ⟨e, List.mem_filter.mpr ⟨listed, decide_eq_true mem⟩, rfl⟩
  funext bit
  by_cases known : ∃ e ∈ clearFlags, e.1 = bit
  · obtain ⟨e, listed, rfl⟩ := known
    rw [Bool.eq_iff_iff, delMode_iff _ listed, delMode_iff _ listed]
    exact letters e listed
  · have other : ∀ e ∈ clearFlags, e.1 ≠ bit := fun e listed same => known ⟨e, listed, same⟩
    rw [delMode_unlisted _ other, delMode_unlisted _ other]

/-- The channel is `chan` but for flags that wait in the buffer. -/
structure Clearing (names : Names Client) (target : Flags) (chan : Channel Client) (w : ModeWork Client) : Prop where
  chan : w.chan = chan.setFlags w.chan.mode.mode
  settled : w.settled = target
  waiting : ∃ l, Waiting names w.mbuf l

variable {names : Names Client} {target : Flags} {chan : Channel Client} {w : ModeWork Client}

theorem Clearing.call (clearing : Clearing names target chan w) {call : ModeCall Client} (plain : call.plain = true)
    (small : call.Small names) : ∃ w', w.call names call = some w' ∧ Clearing names target chan w' := by
  obtain ⟨l, waiting⟩ := clearing.waiting
  obtain ⟨w', l', calls, waiting'⟩ := ModeWork.call_some waiting small
  have after := ModeWork.call_plain plain calls
  refine ⟨w', calls, ?_, after.settled_eq.trans clearing.settled, l', waiting'⟩
  rw [after.chan_eq, clearing.chan]
  rfl

theorem Clearing.edit (clearing : Clearing names target chan w) (f : Channel Client → Channel Client)
    (beside : ∀ (chan : Channel Client) (flags : Flags), f (chan.setFlags flags) = (f chan).setFlags flags)
    (flags : (f w.chan).mode.mode = w.chan.mode.mode) (delayed : findDelayedJoins (f w.chan) = findDelayedJoins w.chan) :
    Clearing names target (f chan) { w with chan := f w.chan } := by
  refine ⟨?_, ?_, clearing.waiting⟩
  · dsimp only
    rw [flags, ← beside, ← clearing.chan]
  · have same : (f w.chan).view = w.chan.view := by
      unfold Channel.view
      rw [flags, delayed]
    have settled : ({ w with chan := f w.chan } : ModeWork Client).settled = w.settled := by
      unfold ModeWork.settled
      dsimp only
      rw [same]
    exact settled.trans clearing.settled

theorem Clearing.flush (clearing : Clearing names target chan w) :
    ∃ w', w.call names .flush = some w' ∧ w'.chan = chan.setFlags target := by
  obtain ⟨l, waiting⟩ := clearing.waiting
  have small : (ModeCall.flush : ModeCall Client).Small names := fun _ => nofun
  obtain ⟨w', l', calls, -⟩ := ModeWork.call_some waiting small
  refine ⟨w', calls, ?_⟩
  rw [(ModeWork.call_flush calls).1, clearing.settled, clearing.chan]
  rfl

theorem clearBans_spec (clearing : Clearing names target chan w) {banlist : List Ban}
    (fits : ∀ ban ∈ banlist, ban.banstr.length ≤ nickLen + userLen + hostLen + 2) :
    ∃ w', clearBans names w banlist = some w' ∧ Clearing names target chan w' := by
  induction banlist generalizing w with
  | nil => exact ⟨w, rfl, clearing⟩
  | cons link banlist ih =>
    have small : (ModeCall.string false .ban link.banstr true : ModeCall Client).Small names := by
      intro slot pushed
      obtain rfl := Option.some.inj pushed
      have short := fits link List.mem_cons_self
      exact Nat.lt_of_le_of_lt short (by decide)
    obtain ⟨w', calls, clearing'⟩ := clearing.call rfl small
    obtain ⟨w'', rest, clearing''⟩ := ih clearing' fun ban mem => fits ban (List.mem_cons_of_mem _ mem)
    exact ⟨w'', by rw [clearBans, calls]; exact rest, clearing''⟩

def Status.lose (s : Status) (taken : Bool) (mode : MemberMode) : Status := if taken then s.change .del mode else s

theorem Status.lose_eq (s : Status) (chanops voices : Bool) :
    (s.lose chanops .chanop).lose voices .voice =
      { s with chanop := s.chanop && !chanops, voice := s.voice && !voices } := by
  cases chanops <;> cases voices <;> simp [Status.lose, Status.change]

theorem Status.lose_lacking (s : Status) (taken : Bool) (mode : MemberMode) (lacks : s.has mode = false) :
    s.lose taken mode = s := by
  obtain ⟨chanop, voice, deopped, zombie, delayed, burstJoined, opped, voiced⟩ := s
  cases mode with
  | chanop =>
    obtain rfl : chanop = false := lacks
    cases taken <;> rfl
  | voice =>
    obtain rfl : voice = false := lacks
    cases taken <;> rfl

def Membership.stripped (del : ClearMask) (m : Membership Client) : Membership Client :=
  if m.status.zombie then m
  else { m with status := (m.status.lose (del .chanop) .chanop).lose (del .voice) .voice }

theorem Membership.stripped_delayed (del : ClearMask) (m : Membership Client) :
    (m.stripped del).status.delayed = m.status.delayed := by
  unfold Membership.stripped
  split
  · rfl
  · rw [Status.lose_eq]

theorem small_client {names : Names Client} {user : Client} (mode : MemberMode) (opLevel : Nat)
    (short : (names.name user).length ≤ nickLen) : (ModeCall.client false mode user opLevel).Small names := by
  intro slot pushed
  obtain rfl := Option.some.inj pushed
  have size : max 9 (names.name user).length ≤ max 9 nickLen := max_le_max_left 9 short
  exact Nat.lt_of_le_of_lt size (by decide)

theorem dropMode_spec (clearing : Clearing names target chan w) (taken : Bool) (mode : MemberMode)
    {m : Membership Client} (short : (names.name m.user).length ≤ nickLen) :
    ∃ w', dropMode names taken mode w m = some (w', { m with status := m.status.lose taken mode }) ∧
      Clearing names target chan w' := by
  unfold dropMode
  cases has : m.status.has mode with
  | false => exact ⟨w, by rw [m.status.lose_lacking taken mode has]; rfl, clearing⟩
  | true =>
    cases taken with
    | false => exact ⟨w, rfl, clearing⟩
    | true =>
      obtain ⟨w', calls, clearing'⟩ := clearing.call rfl (small_client mode (maxOpLevel + 1) short)
      exact ⟨w', by rw [Bool.and_true, if_pos rfl, calls]; rfl, clearing'⟩

theorem clearMember_spec (clearing : Clearing names target chan w) (del : ClearMask) {m : Membership Client}
    (short : (names.name m.user).length ≤ nickLen) :
    ∃ w', clearMember names del w m = some (w', m.stripped del) ∧ Clearing names target chan w' := by
  unfold clearMember Membership.stripped
  cases m.status.zombie with
  | true => exact ⟨w, rfl, clearing⟩
  | false =>
    obtain ⟨w', opped, clearing'⟩ := dropMode_spec clearing (del .chanop) .chanop short
    obtain ⟨w'', voiced, clearing''⟩ := dropMode_spec clearing' (del .voice) .voice
      (m := { m with status := m.status.lose (del .chanop) .chanop }) short
    refine ⟨w'', ?_, clearing''⟩
    rw [if_neg Bool.false_ne_true, if_neg Bool.false_ne_true, opped]
    exact voiced

theorem clearMembers_spec (clearing : Clearing names target chan w) (del : ClearMask)
    {members : List (Membership Client)} (short : ∀ m ∈ members, (names.name m.user).length ≤ nickLen) :
    ∃ w', clearMembers names del w members = some (w', members.map (Membership.stripped del)) ∧
      Clearing names target chan w' := by
  induction members generalizing w with
  | nil => exact ⟨w, rfl, clearing⟩
  | cons m members ih =>
    obtain ⟨w', here, clearing'⟩ := clearMember_spec clearing del (short m List.mem_cons_self)
    obtain ⟨w'', rest, clearing''⟩ := ih clearing' fun m mem => short m (List.mem_cons_of_mem _ mem)
    refine ⟨w'', ?_, clearing''⟩
    rw [clearMembers, here]
    change (clearMembers names del w' members).bind _ = _
    rw [rest]
    rfl

theorem clearing_start (names : Names Client) (source : Client) (localChannel : Bool) (dest : Dest)
    (chan : Channel Client) {del : ClearMask} (was : del (.flag .wasDelJoins) = false) :
    Clearing names (del.mode chan).mode chan
      ⟨chan.setFlags (chan.mode.mode.without del.flags),
        modebufMode (modebufInit source localChannel dest) false fun f => del.flags f && chan.mode.mode f, []⟩ := by
  obtain ⟨add, rem⟩ := modebufMode_delJoins (modebufInit source localChannel dest) false
    fun f => del.flags f && chan.mode.mode f
  obtain ⟨args, count⟩ := modebufMode_slots (modebufInit source localChannel dest) false
    fun f => del.flags f && chan.mode.mode f
  refine ⟨rfl, ?_, [], (waiting_init names source localChannel dest).same args count⟩
  funext f
  unfold ModeWork.settled
  by_cases is_was : f = .wasDelJoins
  · subst is_was
    have same : findDelayedJoins (chan.setFlags (chan.mode.mode.without del.flags)) = findDelayedJoins chan := rfl
    rw [settled_wasDelJoins, add, rem]
    unfold ClearMask.mode Channel.view
    rw [same]
    cases takes : del (.flag .delJoins) <;> cases has : chan.mode.mode .delJoins <;>
      cases findDelayedJoins chan <;> simp [ClearMask.flags, modebufInit, takes, has, was]
  · rw [settled_other _ _ is_was]
    unfold ClearMask.mode ClearMask.flags
    dsimp only [Channel.view, Channel.setFlags]
    split <;> simp [is_was]

theorem stripped_members (del : ClearMask) (members : List (Membership Client))
    (none_taken : (del .chanop || del .voice) = false) : members.map (Membership.stripped del) = members := by
  obtain ⟨ops, voices⟩ := Bool.or_eq_false_iff.mp none_taken
  refine (List.map_congr_left fun m _ => ?_).trans (List.map_id members)
  unfold Membership.stripped
  rw [ops, voices]
  split <;> rfl

theorem clearValid_bits [DecidableEq Client] (del : ClearMask) (room : Room Client) (u : Client) :
    (clearValid del room).bits u =
      if del .ban && room.chan.members.any (fun m => m.user = u && !m.status.zombie) then
        { room.bits u with banValid := false }
      else room.bits u := by
  suffices turns : ∀ (members : List (Membership Client)) (now : Room Client),
      (members.foldl (fun room m => if !m.status.zombie && del .ban then room.clearBanValid m.user else room) now).bits u =
        if del .ban && members.any (fun m => m.user = u && !m.status.zombie) then { now.bits u with banValid := false }
        else now.bits u from turns _ room
  intro members
  induction members with
  | nil => intro now; simp
  | cons m members ih =>
    intro now
    rw [List.foldl_cons, ih, List.any_cons]
    cases takes : del .ban with
    | false => simp
    | true =>
      cases zombie : m.status.zombie with
      | true => simp
      | false =>
        rw [Bool.not_false, Bool.and_true, if_pos rfl, Room.clearBanValid, Room.bits_setBits]
        by_cases same : m.user = u
        · subst same
          simp
        · simp [same, Ne.symm same]

theorem clearKey_spec (clearing : Clearing names target chan w) (fits : chan.Fits names) (del : ClearMask) :
    ∃ w', clearKey names del w = some w' ∧ Clearing names target chan w' := by
  unfold clearKey
  split
  · refine clearing.call rfl fun slot pushed => ?_
    obtain rfl := Option.some.inj pushed
    have same : w.chan.mode.key = chan.mode.key := by rw [clearing.chan]; rfl
    have short := fits.key
    rw [← same] at short
    exact Nat.lt_of_le_of_lt short (by decide)
  · exact ⟨w, rfl, clearing⟩

theorem clearLimit_spec (clearing : Clearing names target chan w) (del : ClearMask) :
    ∃ w', clearLimit names del w = some w' ∧
      Clearing names target
        { chan with mode := { chan.mode with limit := if del (.flag .limit) then 0 else chan.mode.limit } } w' := by
  have same : w.chan.mode.limit = chan.mode.limit := by rw [clearing.chan]; rfl
  unfold clearLimit
  rw [same]
  split <;> rename_i takes
  · obtain ⟨taken, -⟩ := Bool.and_eq_true_iff.mp takes
    have small : (ModeCall.uint false chan.mode.limit : ModeCall Client).Small names := fun _ => nofun
    obtain ⟨w', calls, clearing'⟩ := clearing.call rfl small
    have cleared := clearing'.edit (fun chan => { chan with mode := { chan.mode with limit := 0 } }) (fun _ _ => rfl) rfl rfl
    refine ⟨_, by rw [calls]; rfl, ?_⟩
    rw [if_pos taken]
    exact cleared
  · have kept : (if del (.flag .limit) then 0 else chan.mode.limit) = chan.mode.limit := by
      cases taken : del (.flag .limit) with
      | false => rfl
      | true =>
        rw [taken, Bool.true_and, decide_eq_true_eq, not_not] at takes
        rw [takes]
        rfl
    rw [kept]
    exact ⟨w, rfl, clearing⟩

theorem clearBanlist_spec (clearing : Clearing names target chan w) (fits : chan.Fits names) (del : ClearMask) :
    ∃ w', clearBanlist names del w = some w' ∧
      Clearing names target { chan with banlist := if del .ban then [] else chan.banlist } w' := by
  have same : w.chan.banlist = chan.banlist := by rw [clearing.chan]; rfl
  unfold clearBanlist
  rw [same]
  cases del .ban with
  | false => exact ⟨w, rfl, clearing⟩
  | true =>
    obtain ⟨w', bans, clearing'⟩ := clearBans_spec clearing fits.bans
    have cleared := clearing'.edit (fun chan => { chan with banlist := [] }) (fun _ _ => rfl) rfl rfl
    exact ⟨_, by rw [if_pos rfl, bans]; rfl, cleared⟩

theorem clearUsers_spec (clearing : Clearing names target chan w) (fits : chan.Fits names) (del : ClearMask) :
    ∃ w', clearUsers names del w = some w' ∧
      Clearing names target { chan with members := chan.members.map (Membership.stripped del) } w' := by
  have same : w.chan.members = chan.members := by rw [clearing.chan]; rfl
  unfold clearUsers
  rw [same]
  split <;> rename_i takes
  · obtain ⟨w', members, clearing'⟩ := clearMembers_spec clearing del fits.nicks
    have hidden : ∀ members : List (Membership Client),
        (members.map (Membership.stripped del)).any (·.status.delayed) = members.any (·.status.delayed) := by
      intro members
      rw [List.any_map]
      exact congrArg (List.any members) (funext fun m => m.stripped_delayed del)
    have same' : w'.chan.members = chan.members := by rw [clearing'.chan]; rfl
    have cleared := clearing'.edit (fun c => { c with members := chan.members.map (Membership.stripped del) })
      (fun _ _ => rfl) rfl (by unfold findDelayedJoins; rw [hidden, same'])
    exact ⟨_, by rw [members]; rfl, cleared⟩
  · have none_taken : (del .chanop || del .voice) = false := by
      revert takes
      cases del .ban <;> cases del .chanop <;> cases del .voice <;> simp
    rw [stripped_members del chan.members none_taken]
    exact ⟨w, rfl, clearing⟩

theorem clearModes_spec [DecidableEq Client] (source : Client) (name : List Char) {room : Room Client}
    (fits : room.chan.Fits names) {del : ClearMask} (was : del (.flag .wasDelJoins) = false) :
    ∃ r, clearModes names source name room del = some r ∧ r.room = room.cleared del ∧ r.control = controlBuf del ∧
      r.relay = if isLocalChannel name then none else some [name, controlBuf del] := by
  have start := clearing_start names source (isLocalChannel name)
    { Dest.none with channel := true, opmode := true, hack4 := true } room.chan was
  obtain ⟨w₁, key, clearing₁⟩ := clearKey_spec start fits del
  obtain ⟨w₂, limit, clearing₂⟩ := clearLimit_spec clearing₁ del
  obtain ⟨w₃, bans, clearing₃⟩ := clearBanlist_spec clearing₂ ⟨fits.key, fits.bans, fits.nicks⟩ del
  obtain ⟨w₄, users, clearing₄⟩ := clearUsers_spec clearing₃
    ⟨fits.key, fun ban mem => fits.bans ban (by revert mem; dsimp only; split <;> simp), fits.nicks⟩ del
  obtain ⟨w₅, flushes, left⟩ := clearing₄.flush
  unfold clearModes
  dsimp only
  rw [key, Option.bind_eq_bind, Option.bind_some, limit, Option.bind_some, bans, Option.bind_some, users,
    Option.bind_some, flushes, Option.bind_some]
  refine ⟨_, rfl, ?_, rfl, rfl⟩
  have chan : (if del .key then { w₅.chan with mode := { w₅.chan.mode with key := [] } } else w₅.chan) =
      (room.cleared del).chan := by
    rw [left]
    unfold Room.cleared Room.clearMode ClearMask.mode
    have stripped : room.chan.members.map (Membership.stripped del) = room.chan.members.map fun m =>
        if m.status.zombie then m
        else { m with status := { m.status with
          chanop := m.status.chanop && !del .chanop
          voice := m.status.voice && !del .voice } } := by
      refine List.map_congr_left fun m _ => ?_
      unfold Membership.stripped
      rw [Status.lose_eq]
    dsimp only
    rw [← stripped]
    cases del .key <;> rfl
  have bits : (clearValid del room).bits = (room.cleared del).bits := funext fun u => clearValid_bits del room u
  rw [chan, bits]

theorem delMode_was (control : List Char) : delMode control (.flag .wasDelJoins) = false :=
  delMode_unlisted control (by decide)

theorem controlBuf_length (control : List Char) :
    (controlBuf (delMode control)).length = clearFlags.countP fun e => e.2 ∈ control := by
  rw [controlBuf_delMode, List.length_map, List.countP_eq_length_filter]

theorem doClearmode_spec [DecidableEq Client] (source : Client) (name : List Char) {room : Room Client}
    (fits : room.chan.Fits names) (control : List Char) :
    ∃ r, doClearmode names source name room control = some r ∧
      if clearFlags.all fun e => !delMode control e.1 then r.room = room ∧ r.control = [] ∧ r.relay = none
      else r.room = room.cleared (delMode control) ∧ r.control = controlBuf (delMode control) ∧
        r.relay = if isLocalChannel name then none else some [name, controlBuf (delMode control)] := by
  unfold doClearmode
  dsimp only
  split
  · exact ⟨_, rfl, rfl, rfl, rfl⟩
  · exact clearModes_spec source name fits (delMode_was control)

/-- A server that holds the same channel comes to the same state by the line that is sent on, or gets none
and has nothing to do; the string fits in its buffer, if and only if it is spelled with at most 19 of the 21
letters. -/
theorem clearmode_relay [DecidableEq Client] {names names' : Names Client} (source source' : Client) {name : List Char}
    (channel : isChannelName name = true) {room : Room Client} (fits : room.chan.Fits names)
    (fits' : room.chan.Fits names') (control : List Char) :
    ∃ here, doClearmode names source name room control = some here ∧
      (here.control.length + 1 ≤ controlSize ∧
          (∀ line findChannel, here.relay = some line → findChannel name = some room → ∃ there,
            msClearmode names' source' true findChannel line = .ok (some there) ∧ there.room = here.room) ∧
          (isLocalChannel name = false → here.relay = none → here.room = room) ↔
        clearFlags.countP (fun e => e.2 ∈ control) < controlSize) := by
  obtain ⟨here, clears, left⟩ := doClearmode_spec source name fits control
  have again := doClearmode_spec source' name fits' (controlBuf (delMode control))
  rw [delMode_controlBuf] at again
  obtain ⟨there, clears', left'⟩ := again
  refine ⟨here, clears, ?_⟩
  have length := controlBuf_length control
  split at left <;> rename_i nothing
  · obtain ⟨same, empty, silent⟩ := left
    have none_listed : clearFlags.countP (fun e => e.2 ∈ control) = 0 := by
      refine List.countP_eq_zero.mpr fun e listed mem => ?_
      have entered := (delMode_iff control listed).mpr (of_decide_eq_true mem)
      have unset := List.all_eq_true.mp nothing e listed
      rw [entered] at unset
      cases unset
    rw [empty, none_listed]
    refine ⟨fun _ => Nat.zero_lt_succ _, fun _ => ⟨by decide, fun line findChannel sent => ?_, fun _ _ => same⟩⟩
    cases silent.symm.trans sent
  · rw [if_neg nothing] at left'
    obtain ⟨room_left, spelled, sent⟩ := left
    rw [spelled, length]
    refine ⟨fun fit => fit.1, fun few => ⟨few, fun line findChannel line_sent found => ?_, fun other none_sent => ?_⟩⟩
    · rw [sent] at line_sent
      cases loc : isLocalChannel name with
      | true =>
        rw [loc] at line_sent
        cases line_sent
      | false =>
        rw [loc, if_neg Bool.false_ne_true] at line_sent
        obtain rfl := Option.some.inj line_sent
        refine ⟨there, ?_, left'.1.trans room_left.symm⟩
        unfold msClearmode
        dsimp only
        rw [channel, loc, found, ← clears']
        rfl
    · rw [sent, other] at none_sent
      cases none_sent

/-- A channel with one operator, `+stn`, a key, a limit and a ban. -/
def busyRoom : Room Unit where
  chan :=
    { creationTime := 100
      mode := ⟨(Flags.only .secret).or ((Flags.only .topicLimit).or (.only .noPrivMsgs)), 12, ['k'], [], []⟩
      members := [⟨(), { noStatus with chanop := true }, maxOpLevel⟩]
      banlist := [⟨"*!*@h".toList, ['*'], 0, ⟨false, false, false, false, false, false, false⟩⟩] }
  bits _ := ⟨true, false⟩

def oneName : Names Unit := ⟨fun _ => ['a'], fun _ => "ABAAA".toList⟩

theorem busyRoom_fits : busyRoom.chan.Fits oneName :=
  ⟨by decide, by decide, fun _ _ => Nat.le_of_ble_eq_true rfl⟩

theorem clearmode_relay_defaults :
    ∃ here, doClearmode oneName () "#c".toList busyRoom "ovpsmikbl".toList = some here ∧
      (here.control.length + 1 ≤ controlSize ∧
          (∀ line findChannel, here.relay = some line → findChannel "#c".toList = some busyRoom → ∃ there,
            msClearmode oneName () true findChannel line = .ok (some there) ∧ there.room = here.room) ∧
          (isLocalChannel "#c".toList = false → here.relay = none → here.room = busyRoom) ↔
        clearFlags.countP (fun e => e.2 ∈ "ovpsmikbl".toList) < controlSize) :=
  clearmode_relay () () (by decide) busyRoom_fits busyRoom_fits "ovpsmikbl".toList

/-- All the letters of the table do not fit. -/
theorem clearmode_overrun : ¬ ∀ (names : Names Unit) (name : List Char) (room : Room Unit) (control : List Char),
    isChannelName name = true → room.chan.Fits names →
    ∃ here, doClearmode names () name room control = some here ∧ here.control.length + 1 ≤ controlSize := by
  intro fit
  obtain ⟨here, clears, short⟩ := fit oneName "#c".toList busyRoom (clearFlags.map Prod.snd) (by decide) busyRoom_fits
  obtain ⟨here', clears', left⟩ := doClearmode_spec () "#c".toList busyRoom_fits (clearFlags.map Prod.snd)
  obtain rfl := Option.some.inj (clears.symm.trans clears')
  rw [if_neg (by decide)] at left
  rw [left.2.1, controlBuf_length] at short
  exact absurd short (by decide)

end Ircd.Channels

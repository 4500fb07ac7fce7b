import Ircd.Channels.LimitFlag
import Ircd.Channels.DelayedJoinRuns

/-! The limit flag over the runs of a channel: who empties a channel with an apass and a limit, and which BURST
wipes a flag out and leaves the limit.
-/

set_option autoImplicit false

namespace Ircd.Channels
open Ircd.Text

variable {Client : Type}

/-- A channel that `sub1_from_channel` keeps, less its limit. -/
def Channel.Stranded (chan : Channel Client) : Prop := chan.mode.apass ≠ [] ∧ chan.mode.limit ≠ 0

section
variable {chan chan' : Channel Client}

theorem Channel.stranded_congr (limits : chan'.limits = chan.limits) (apass : chan'.mode.apass = chan.mode.apass) :
    chan'.Stranded ↔ chan.Stranded := by
  have limit : chan'.mode.limit = chan.mode.limit := congrArg Prod.snd limits
  rw [Channel.Stranded, Channel.Stranded, limit, apass]

theorem limitGone_agrees (agrees : chan.Agrees) (flag : chan'.mode.mode .limit = chan.mode.mode .limit)
    (zero : chan'.mode.limit = 0) : chan'.Agrees ↔ chan.mode.limit = 0 := by
  rw [Channel.Agrees, flag, zero]
  constructor
  · intro both
    by_contra some
    exact both.mp (agrees.mpr some) rfl
  · intro none
    exact iff_of_false (fun set => agrees.mp set none) (fun some => some rfl)

theorem lastGone_agrees (agrees : chan.Agrees) (oplevels : Bool) :
    (∀ left ∈ lastGone oplevels chan, left.Agrees) ↔ ¬chan.Stranded := by
  unfold lastGone
  dsimp only
  by_cases none : chan.mode.apass = []
  · rw [if_pos none]
    refine iff_of_true (fun left gone => ?_) fun stranded => stranded.1 none
    split at gone
    · obtain rfl := Option.some.inj gone
      exact iff_of_false Bool.false_ne_true fun some => some rfl
    · cases gone
  · rw [if_neg none]
    have flag : (chan.mode.mode.without (.only .inviteOnly)) .limit = chan.mode.mode .limit := by simp
    constructor
    · intro all stranded
      exact stranded.2 ((limitGone_agrees agrees flag rfl).mp (all _ rfl))
    · rintro kept _ ⟨⟩
      exact (limitGone_agrees agrees flag rfl).mpr (not_not.mp fun some => kept ⟨none, some⟩)

theorem dropMembers_limits (gone : Membership Client → Bool) (chan : Channel Client) :
    (dropMembers gone chan).limits = chan.limits := by
  unfold dropMembers
  dsimp only
  split
  · exact checkDelayedJoins_limits _
  · rfl

theorem checkDelayedJoins_apass (chan : Channel Client) : (checkDelayedJoins chan).mode.apass = chan.mode.apass := by
  unfold checkDelayedJoins
  split <;> rfl

theorem dropMembers_apass (gone : Membership Client → Bool) (chan : Channel Client) :
    (dropMembers gone chan).mode.apass = chan.mode.apass := by
  unfold dropMembers
  dsimp only
  split
  · exact checkDelayedJoins_apass _
  · rfl

theorem dropMembers_members (gone : Membership Client → Bool) (chan : Channel Client) :
    (dropMembers gone chan).members = chan.members.filter fun m => !gone m := by
  unfold dropMembers
  dsimp only
  split
  · exact checkDelayedJoins_members _
  · rfl

theorem emptied_agrees (agrees : chan.Agrees) (oplevels : Bool) (gone gone' : Membership Client → Bool) :
    (∀ left ∈ lastGone oplevels (dropMembers gone (dropMembers gone' chan)), left.Agrees) ↔ ¬chan.Stranded := by
  have limits := (dropMembers_limits gone _).trans (dropMembers_limits gone' chan)
  have apass := (dropMembers_apass gone _).trans (dropMembers_apass gone' chan)
  rw [lastGone_agrees (agrees.of_limits limits), Channel.stranded_congr limits apass]

variable [DecidableEq Client]

def Channel.LastUser (chan : Channel Client) (user : Client) : Prop :=
  (∃ m ∈ chan.members, m.user = user) ∧ ∀ m ∈ chan.members, m.user = user ∨ m.status.zombie = true

theorem removeUser_agrees (agrees : chan.Agrees) (oplevels : Bool) (user : Client) :
    (∀ left ∈ removeUser oplevels user chan, left.Agrees) ↔ ¬(chan.LastUser user ∧ chan.Stranded) := by
  unfold removeUser
  dsimp only
  split
  case isTrue absent =>
    refine iff_of_true ?_ ?_
    · rintro left ⟨⟩
      exact agrees
    · rintro ⟨⟨⟨m, mem, same⟩, _⟩, _⟩
      have there : chan.members.any (·.user = user) = true := List.any_eq_true.mpr ⟨m, mem, decide_eq_true same⟩
      rw [there] at absent
      cases absent
  case isFalse present =>
    have there : ∃ m ∈ chan.members, m.user = user := by simpa using present
    have others : (dropMembers (fun m => m.user = user) chan).members.all (·.status.zombie) = true ↔
        ∀ m ∈ chan.members, m.user = user ∨ m.status.zombie = true := by
      rw [dropMembers_members, List.all_filter, List.all_eq_true]
      refine forall₂_congr fun m _ => ?_
      simp
    split
    next zombies =>
      rw [emptied_agrees agrees]
      exact not_congr (and_iff_right ⟨there, others.mp zombies⟩).symm
    next more =>
      refine iff_of_true ?_ fun ⟨⟨_, last⟩, _⟩ => more (others.mpr last)
      rintro left ⟨⟩
      exact agrees.of_limits (dropMembers_limits _ chan)

omit [DecidableEq Client] in
def Membership.zombified (m : Membership Client) : Membership Client :=
  { m with status := { m.status with zombie := true } }

def Channel.KicksLast (chan : Channel Client) (user : Client) (which : ZombieCase) : Prop :=
  (chan.member user).isSome = true ∧ ∀ m ∈ (chan.mapMember user Membership.zombified).members,
    m.status.zombie = true ∨ which ≠ .other ∧ m.user = user

theorem kicked_user {user : Client} (there : (chan.member user).isSome = true) :
    ∃ m ∈ (chan.mapMember user Membership.zombified).members, m.user = user := by
  have kept : (chan.mapMember user Membership.zombified).member user =
      (chan.member user).map Membership.zombified := chan.member_map user fun _ => rfl
  obtain ⟨m, found⟩ := Option.isSome_iff_exists.mp there
  rw [found] at kept
  exact ⟨_, List.mem_of_find?_eq_some kept, by simpa using List.find?_some kept⟩

theorem zombify_agrees (agrees : chan.Agrees) (oplevels : Bool) {user : Client} (which : ZombieCase)
    (there : (chan.member user).isSome = true) :
    (∀ left ∈ zombify oplevels user which chan, left.Agrees) ↔ ¬(chan.KicksLast user which ∧ chan.Stranded) := by
  have marked : (chan.mapMember user Membership.zombified).Agrees := agrees
  have removed := removeUser_agrees marked oplevels user
  have last : (chan.mapMember user Membership.zombified).LastUser user ↔
      ∀ m ∈ (chan.mapMember user Membership.zombified).members, m.status.zombie = true ∨ m.user = user :=
    (and_iff_right (kicked_user there)).trans (forall₂_congr fun _ _ => or_comm)
  cases which with
  | myUser =>
    refine removed.trans (not_congr (and_congr ?_ .rfl))
    rw [last, Channel.KicksLast, and_iff_right there]
    simp
  | behindKicker =>
    refine removed.trans (not_congr (and_congr ?_ .rfl))
    rw [last, Channel.KicksLast, and_iff_right there]
    simp
  | other =>
    have all : chan.KicksLast user .other ↔
        (chan.mapMember user Membership.zombified).members.all (·.status.zombie) = true := by
      rw [Channel.KicksLast, and_iff_right there, List.all_eq_true]
      simp
    rw [all]
    change (∀ left ∈ (if (chan.mapMember user Membership.zombified).members.all (·.status.zombie) = true then
      removeUser oplevels user (chan.mapMember user Membership.zombified)
      else some (chan.mapMember user Membership.zombified)), left.Agrees) ↔ _
    split
    next zombies =>
      refine removed.trans (not_congr (and_congr ?_ .rfl))
      rw [last]
      exact iff_of_true (fun m mem => .inl (List.all_eq_true.mp zombies m mem)) zombies
    next more =>
      refine iff_of_true ?_ fun both => more both.1
      rintro left ⟨⟩
      exact marked

theorem kickUser_agrees (agrees : chan.Agrees) (oplevels : Bool) (user : Client) (fromServer : Bool)
    (which : ZombieCase) : (∀ left ∈ kickUser oplevels user fromServer which chan, left.Agrees) ↔
      ¬(chan.KicksLast user which ∧ chan.Stranded) := by
  unfold kickUser
  cases found : chan.member user with
  | none =>
    refine iff_of_true ?_ fun both => ?_
    · rintro left ⟨⟩
      exact agrees
    · have there := both.1.1
      rw [found] at there
      cases there
  | some member =>
    have there : (chan.member user).isSome = true := by rw [found]; rfl
    dsimp only
    split
    · -- `CheckDelayedJoins` has nothing to do with the members and the limit.
      have members : (checkDelayedJoins chan).members = chan.members := checkDelayedJoins_members chan
      have same : (checkDelayedJoins chan).KicksLast user which ↔ chan.KicksLast user which := by
        unfold Channel.KicksLast Channel.member Channel.mapMember
        rw [members]
      have stays : ((checkDelayedJoins chan).member user).isSome = true := by
        rw [Channel.member, members]
        exact there
      rw [zombify_agrees (agrees.of_limits (checkDelayedJoins_limits chan)) oplevels which stays, same,
        Channel.stranded_congr (checkDelayedJoins_limits chan) (checkDelayedJoins_apass chan)]
    · exact zombify_agrees agrees oplevels which there

omit [DecidableEq Client] in
theorem burstEnded_agrees (agrees : chan.Agrees) (oplevels : Bool) :
    (∀ left ∈ burstEnded oplevels chan, left.Agrees) ↔
      ¬((chan.members = [] ∧ chan.mode.mode .burstAdded = true) ∧ chan.Stranded) := by
  have limits : (chan.setFlags (chan.mode.mode.without (.only .burstAdded))).limits = chan.limits :=
    setFlags_limits chan (by simp)
  have ended := agrees.of_limits limits
  unfold burstEnded
  dsimp only
  split
  next empty =>
    rw [lastGone_agrees ended, Channel.stranded_congr limits rfl]
    exact not_congr (and_iff_right empty).symm
  next others =>
    refine iff_of_true ?_ fun both => others both.1
    rintro left ⟨⟩
    exact ended

omit [DecidableEq Client] in
theorem dropModes_limits (names : Names Client) (w : ModeWork Client) (m : Membership Client) :
    (dropModes names w m).chan.limits = w.chan.limits := by
  unfold dropModes
  dsimp only
  split <;> split <;> simp

omit [DecidableEq Client] in
theorem dropString_limits (names : Names Client) (which : StringMode) (text : List Char) (w : ModeWork Client) :
    (dropString names which text w).chan.limits = w.chan.limits := by
  unfold dropString
  split <;> simp

omit [DecidableEq Client] in
theorem dropLimit_limits (names : Names Client) (limit : Nat) (w : ModeWork Client) :
    (dropLimit names limit w).chan.limits = w.chan.limits := by
  unfold dropLimit
  split <;> simp

omit [DecidableEq Client] in
theorem resetModes_agrees (agrees : chan.Agrees) {site : ModeSite Client} {sptr : Client} {creation : Int}
    {left : Channel Client} (resets : resetModes site sptr creation chan = some left) : left.Agrees := by
  unfold resetModes at resets
  split at resets
  · dsimp only at resets
    obtain ⟨flushed, calls, same⟩ := Option.bind_eq_some_iff.mp resets
    obtain rfl := Option.some.inj same
    have limits := flush_limits calls
    have dropped := @foldl_limits _ _ _ (fun w : ModeWork Client => w.chan) _ (dropModes_limits site.names)
      chan.members
    have flag := congrArg Prod.fst <| (dropped _).trans <|
      (dropString_limits site.names .apass chan.mode.apass _).trans <|
      (dropString_limits site.names .upass chan.mode.upass _).trans <|
        (dropString_limits site.names .key chan.mode.key _).trans <| dropLimit_limits site.names chan.mode.limit
          ⟨{ chan.setFlags (fun f => chan.mode.mode f && (f = .burstAdded || f = .wasDelJoins)) with
              creationTime := creation },
            modebufMode (modebufInit sptr site.localChannel { Dest.none with channel := true, hack3 := true }) false
              chan.mode.mode, []⟩
    refine iff_of_false (fun set => ?_) (fun some => some (congrArg Prod.snd limits))
    have unset : flushed.chan.mode.mode .limit = false :=
      (congrArg Prod.fst limits).trans (flag.trans (Bool.and_false _))
    rw [unset] at set
    cases set
  · obtain rfl := Option.some.inj resets
    exact agrees

omit [DecidableEq Client] in
theorem bounceModes_limits {site : ModeSite Client} {sptr : Client} {w : ModeWork Client}
    (bounces : bounceModes site sptr chan = some w) : w.chan.limits = chan.limits := by
  unfold bounceModes at bounces
  dsimp only at bounces
  have told (w : ModeWork Client) (m : Membership Client) :
      (if m.status.voice then
        (if m.status.chanop then w.client site.names false .chanop m.user m.opLevel else w).client site.names false
          .voice m.user (maxOpLevel + 1)
      else if m.status.chanop then w.client site.names false .chanop m.user m.opLevel else w).chan.limits =
        w.chan.limits := by
    split <;> split <;> simp
  have members := @foldl_limits _ _ _ (fun w : ModeWork Client => w.chan) _ told chan.members
  have bans := @foldl_limits _ _ _ (fun w : ModeWork Client => w.chan)
    (fun w (ban : Ban) => w.string site.names false .ban ban.banstr false) (fun w ban => string_limits ..)
    chan.banlist
  exact (flush_limits bounces).trans <| (bans _).trans <| (dropString_limits ..).trans <|
    (dropString_limits ..).trans <| (dropLimit_limits ..).trans <| (dropString_limits ..).trans (members _)

omit [DecidableEq Client] in
theorem tellMembers_limits {names : Names Client} {source : Client} {localChannel : Bool} {dest : Dest}
    {changes : List (CliChange Client)} {w : ModeWork Client}
    (tells : tellMembers names source localChannel dest changes chan = some w) : w.chan.limits = chan.limits :=
  (flush_limits tells).trans <| @foldl_limits _ _ _ (fun w : ModeWork Client => w.chan) _
    (fun w (_ : CliChange Client) => client_limits names w _ _ _ _) changes _

section
variable {names : Names Client} {del : ClearMask} {w w' : ModeWork Client}

omit [DecidableEq Client] in
theorem clearKey_limits (clears : clearKey names del w = some w') : w'.chan.limits = w.chan.limits := by
  unfold clearKey at clears
  split at clears
  · exact (ModeWork.call_plain rfl clears).limits
  · obtain rfl := Option.some.inj clears
    rfl

omit [DecidableEq Client] in
theorem clearLimit_limits (clears : clearLimit names del w = some w') :
    w'.chan.limits = (w.chan.mode.mode .limit, if del (.flag .limit) then 0 else w.chan.mode.limit) := by
  unfold clearLimit at clears
  cases taken : del (.flag .limit) with
  | false =>
    rw [taken] at clears
    obtain rfl := Option.some.inj clears
    rfl
  | true =>
    rw [taken] at clears
    split at clears
    · obtain ⟨pushed, calls, same⟩ := Option.bind_eq_some_iff.mp clears
      obtain rfl := Option.some.inj same
      exact congrArg (fun limits => (limits.1, 0)) (ModeWork.call_plain rfl calls).limits
    next none =>
      obtain rfl := Option.some.inj clears
      have zero : w.chan.mode.limit = 0 := by simpa using none
      rw [Channel.limits, zero]
      rfl

omit [DecidableEq Client] in
theorem clearBans_limits {banlist : List Ban} (clears : clearBans names w banlist = some w') :
    w'.chan.limits = w.chan.limits := by
  induction banlist generalizing w with
  | nil =>
    obtain rfl := Option.some.inj clears
    rfl
  | cons link banlist ih =>
    rw [clearBans] at clears
    obtain ⟨pushed, calls, rest⟩ := Option.bind_eq_some_iff.mp clears
    exact (ih rest).trans (ModeWork.call_plain rfl calls).limits

omit [DecidableEq Client] in
theorem clearBanlist_limits (clears : clearBanlist names del w = some w') : w'.chan.limits = w.chan.limits := by
  unfold clearBanlist at clears
  split at clears
  · obtain ⟨pushed, bans, same⟩ := Option.bind_eq_some_iff.mp clears
    obtain rfl := Option.some.inj same
    have limits := clearBans_limits bans
    exact limits
  · obtain rfl := Option.some.inj clears
    rfl

omit [DecidableEq Client] in
theorem dropMode_limits {taken : Bool} {mode : MemberMode} {m m' : Membership Client}
    (drops : dropMode names taken mode w m = some (w', m')) : w'.chan.limits = w.chan.limits := by
  unfold dropMode at drops
  split at drops
  · obtain ⟨pushed, calls, same⟩ := Option.bind_eq_some_iff.mp drops
    obtain ⟨rfl, rfl⟩ := Prod.mk.inj (Option.some.inj same)
    exact (ModeWork.call_plain rfl calls).limits
  · obtain ⟨rfl, rfl⟩ := Prod.mk.inj (Option.some.inj drops)
    rfl

omit [DecidableEq Client] in
theorem clearMembers_limits {members members' : List (Membership Client)}
    (clears : clearMembers names del w members = some (w', members')) : w'.chan.limits = w.chan.limits := by
  induction members generalizing w members' with
  | nil =>
    obtain ⟨rfl, rfl⟩ := Prod.mk.inj (Option.some.inj clears)
    rfl
  | cons m members ih =>
    rw [clearMembers] at clears
    obtain ⟨⟨pushed, cleared⟩, first, rest⟩ := Option.bind_eq_some_iff.mp clears
    obtain ⟨⟨last, others⟩, later, same⟩ := Option.bind_eq_some_iff.mp rest
    obtain ⟨rfl, rfl⟩ := Prod.mk.inj (Option.some.inj same)
    refine (ih later).trans ?_
    unfold clearMember at first
    split at first
    · obtain ⟨rfl, rfl⟩ := Prod.mk.inj (Option.some.inj first)
      rfl
    · obtain ⟨⟨told, deopped⟩, drops, devoices⟩ := Option.bind_eq_some_iff.mp first
      exact (dropMode_limits devoices).trans (dropMode_limits drops)

omit [DecidableEq Client] in
theorem clearUsers_limits (clears : clearUsers names del w = some w') : w'.chan.limits = w.chan.limits := by
  unfold clearUsers at clears
  split at clears
  · obtain ⟨⟨pushed, members⟩, walk, same⟩ := Option.bind_eq_some_iff.mp clears
    obtain rfl := Option.some.inj same
    exact (clearMembers_limits walk).trans rfl
  · obtain rfl := Option.some.inj clears
    rfl

theorem doClearmode_agrees (agrees : chan.Agrees) {source : Client} {name control : List Char}
    {bits : Client → CacheBits} {cleared : Cleared Client}
    (clears : doClearmode names source name ⟨chan, bits⟩ control = some cleared) : cleared.room.chan.Agrees := by
  unfold doClearmode at clears
  dsimp only at clears
  split at clears
  · obtain rfl := Option.some.inj clears
    exact agrees
  · generalize delMode control = del at clears
    obtain ⟨w₁, key, clears⟩ := Option.bind_eq_some_iff.mp clears
    obtain ⟨w₂, limit, clears⟩ := Option.bind_eq_some_iff.mp clears
    obtain ⟨w₃, banlist, clears⟩ := Option.bind_eq_some_iff.mp clears
    obtain ⟨w₄, users, clears⟩ := Option.bind_eq_some_iff.mp clears
    obtain ⟨w₅, flushed, same⟩ := Option.bind_eq_some_iff.mp clears
    obtain rfl := Option.some.inj same
    have start := Prod.mk.inj (clearKey_limits key)
    have limits := (flush_limits flushed).trans <| (clearUsers_limits users).trans <|
      (clearBanlist_limits banlist).trans (clearLimit_limits limit)
    rw [start.1, start.2] at limits
    have left : w₅.chan.Agrees := by
      obtain ⟨flag, limit⟩ := Prod.mk.inj limits
      rw [Channel.Agrees, flag, limit]
      cases taken : del (.flag .limit) with
      | true => simp [ClearMask.flags, taken]
      | false =>
        have stays : chan.mode.mode .limit = true ↔ chan.mode.limit ≠ 0 := agrees
        simpa [ClearMask.flags, taken, Channel.setFlags] using stays
    dsimp only
    split
    · exact left
    · exact left

end

section
variable {site : ModeSite Client} {source : ModeSource Client} {w : ModeWork Client}

omit [DecidableEq Client] in
theorem endBurst_limits (names : Names Client) (wipeout : Bool) (w : ModeWork Client) :
    (endBurst names wipeout w).chan.limits = w.chan.limits := by
  have told (b : Bool) (w : ModeWork Client) (add : Bool) (mode : MemberMode) (m : Membership Client) :
      (if b then w.client names add mode m.user m.opLevel else w).chan.limits = w.chan.limits :=
    limits_optional b (by simp)
  have member (w : ModeWork Client) (m : Membership Client) :
      (burstMember names wipeout w m).chan.limits = w.chan.limits := by
    unfold burstMember
    dsimp only
    split
    · exact (told _ _ _ _ m).trans (told _ _ _ _ m)
    split
    · exact (told _ _ _ _ m).trans (told _ _ _ _ m)
    · rfl
  have ban (w : ModeWork Client) (ban : Ban) : (burstBan names w ban).chan.limits = w.chan.limits := by
    unfold burstBan
    split
    · simp
    split <;> simp
  exact (@foldl_limits _ _ _ (fun w : ModeWork Client => w.chan) _ ban _ _).trans
    (@foldl_limits _ _ _ (fun w : ModeWork Client => w.chan) _ member _ _)

theorem readBurstModes_wipes (remote : source.server = true) {timestamp : Int} {params : List (List Char)}
    (wipes : chan.creationTime = 0 ∨ chan.creationTime > timestamp)
    (reads : readBurstModes site source chan timestamp params = some w) :
    w.chan.Agrees ↔ Mends (false, chan.mode.limit) (burstChanges params.length params) := by
  have wipeout : (decide (chan.creationTime = 0) || decide (chan.creationTime > timestamp)) = true := by
    simpa using wipes
  unfold readBurstModes at reads
  dsimp only at reads
  rw [wipeout, Bool.true_or, if_pos rfl] at reads
  have start : (startBurst site true timestamp chan).chan.limits = (false, chan.mode.limit) := by
    have flag : (prepare true timestamp chan).mode.mode .limit = false := by simp [prepare]
    exact Prod.ext flag rfl
  have limits := (flush_limits reads).trans <| (endBurst_limits ..).trans <|
    burstWork_wipes remote params.length (startBurst site true timestamp chan) params
  rw [start] at limits
  obtain ⟨flag, limit⟩ := Prod.mk.inj limits
  have mends := @mends_iff (false, chan.mode.limit) (fun told => absurd told Bool.false_ne_true)
  rw [← mends, Channel.Agrees, flag, limit]

theorem readBurstModes_agrees (agrees : chan.Agrees) {timestamp : Int} {params : List (List Char)}
    (keeps : ¬(chan.creationTime = 0 ∨ chan.creationTime > timestamp))
    (reads : readBurstModes site source chan timestamp params = some w) : w.chan.Agrees := by
  have kept : (decide (chan.creationTime = 0) || decide (chan.creationTime > timestamp)) = false := by
    simpa using keeps
  have timed : decide (chan.creationTime = 0) = false := (Bool.or_eq_false_iff.mp kept).1
  unfold readBurstModes at reads
  dsimp only at reads
  rw [kept] at reads
  have start : (startBurst site false timestamp chan).chan.limits = chan.limits := by
    unfold startBurst prepare
    dsimp only
    rw [if_neg Bool.false_ne_true, if_neg (of_decide_eq_false timed)]
    rfl
  have worked := @burstWork_agrees _ site source _ (false || decide (chan.creationTime = timestamp))
    params.length _ (agrees.of_limits start) params
  split at reads
  · exact worked.of_limits ((flush_limits reads).trans (endBurst_limits ..))
  · obtain rfl := Option.some.inj reads
    exact worked

/-- A BURST that leaves a flag without a limit, or a limit without a flag: it has no modes to add and empties a
channel, or it wipes out what its letters do not mend. -/
def BurstUnlimits (site : ModeSite Client) (found : Option (Channel Client)) (parv : List (List Char)) : Prop :=
  match parv with
  | name :: ts :: params =>
    let chan := { found.getD newChannel with creationTime := (burstTimes (found.getD newChannel) (atoi ts) params).2 }
    isChannelName name = true ∧
      (chan.creationTime = 0 ∨ chan.creationTime > (burstTimes (found.getD newChannel) (atoi ts) params).1) ∧
      match netRide site.toLink chan params with
      | .error _ => chan.members = [] ∧ chan.Stranded
      | .ok left => ¬Mends (false, (left.getD newChannel).mode.limit) (burstChanges params.length params)
  | _ => False

omit [DecidableEq Client] in
theorem newChannel_agrees : (newChannel : Channel Client).Agrees :=
  iff_of_false Bool.false_ne_true fun some => some rfl

omit [DecidableEq Client] in
theorem netRide_stops (agrees : chan.Agrees) {link : Link Client} {params : List (List Char)}
    {gone : Option (Channel Client)} (stops : netRide link chan params = .error gone) :
    (∀ left ∈ gone, left.Agrees) ↔ ¬(chan.members = [] ∧ chan.Stranded) := by
  unfold netRide at stops
  cases plus : params.dropWhile (peek · ≠ '+') with
  | nil =>
    rw [plus] at stops
    cases stops
  | cons modes args =>
    rw [plus] at stops
    dsimp only at stops
    cases modes_read : netrideModes chan.mode.key ⟨false, false, false⟩ modes args with
    | some check =>
      rw [modes_read] at stops
      cases stops
    | none =>
      rw [modes_read] at stops
      injection stops with same
      subst same
      split
      next empty =>
        rw [lastGone_agrees agrees]
        exact not_congr (and_iff_right empty).symm
      next others =>
        refine iff_of_true ?_ fun both => others both.1
        rintro left ⟨⟩
        exact agrees

theorem msBurstModes_agrees (remote : source.server = true) {found left : Option (Channel Client)}
    {parv : List (List Char)} (agrees : ∀ chan ∈ found, chan.Agrees)
    (reads : msBurstModes site source found parv = some left) :
    (∀ chan ∈ left, chan.Agrees) ↔ ¬BurstUnlimits site found parv := by
  have now : (found.getD newChannel).Agrees := by
    cases found with
    | none => exact newChannel_agrees
    | some chan => exact agrees chan rfl
  unfold msBurstModes at reads
  unfold BurstUnlimits
  rcases parv with _ | ⟨name, _ | ⟨ts, params⟩⟩
  · obtain rfl := Option.some.inj reads
    exact iff_of_true agrees id
  · obtain rfl := Option.some.inj reads
    exact iff_of_true agrees id
  · dsimp only at reads ⊢
    by_cases named : isChannelName name = true
    · rw [if_pos named] at reads
      rw [and_iff_right named]
      split_ifs at reads with wipes
      · rw [and_iff_right wipes]
        generalize ends : netRide site.toLink _ params = ridden at reads ⊢
        cases ridden with
        | error gone =>
          obtain rfl := Option.some.inj reads
          exact @netRide_stops _ { found.getD newChannel with
            creationTime := (burstTimes (found.getD newChannel) (atoi ts) params).2 } now _ _ _ ends
        | ok kept =>
          obtain ⟨w, burst, rfl⟩ := Option.map_eq_some_iff.mp reads
          have older : (kept.getD newChannel).creationTime = 0 ∨ (kept.getD newChannel).creationTime >
              (burstTimes (found.getD newChannel) (atoi ts) params).1 := by
            cases kept with
            | none => exact .inl rfl
            | some chan =>
              rw [Option.getD_some, (netRide_time _ _ _).2 chan ends]
              exact wipes
          dsimp only
          rw [not_not, ← readBurstModes_wipes remote older burst]
          exact ⟨fun all => all w.chan rfl, fun mended chan same => by cases same; exact mended⟩
      · refine iff_of_true ?_ fun both => wipes both.1
        obtain ⟨w, burst, rfl⟩ := Option.map_eq_some_iff.mp reads
        rintro chan ⟨⟩
        exact @readBurstModes_agrees _ { found.getD newChannel with
            creationTime := (burstTimes (found.getD newChannel) (atoi ts) params).2 } _ _ _ _ now _ _ wipes burst
    · rw [if_neg named] at reads
      obtain rfl := Option.some.inj reads
      exact iff_of_true agrees fun both => named both.1

end

end

section
variable [DecidableEq Client]

def ChannelEvent.FromServer : ChannelEvent Client → Prop
  | .burst _ source _ => source.server = true
  | _ => True

def ChannelEvent.Empties (chan : Channel Client) : ChannelEvent Client → Prop
  | .part _ user => chan.LastUser user
  | .kick _ user _ which => chan.KicksLast user which
  | .endOfBurst _ => chan.members = [] ∧ chan.mode.mode .burstAdded = true
  | _ => False

def ChannelEvent.Unlimits : ChannelEvent Client → Option (Channel Client) → Prop
  | .burst site _ parv, found => BurstUnlimits site found parv
  | event, found => ∃ chan ∈ found, event.Empties chan ∧ chan.Stranded

theorem ChannelEvent.leaves_agrees {chan : Channel Client} (agrees : chan.Agrees) {event : ChannelEvent Client}
    (served : event.FromServer) {left : Option (Channel Client)} (goes : event.leaves chan = some left) :
    (∀ chan' ∈ left, chan'.Agrees) ↔ ¬event.Unlimits (some chan) := by
  have one {chan' : Channel Client} (agrees' : chan'.Agrees) (same : some chan' = left) :
      ∀ chan' ∈ left, chan'.Agrees := by
    subst same
    rintro chan' ⟨⟩
    exact agrees'
  have here (P : Channel Client → Prop) : (∃ c ∈ some chan, P c) ↔ P chan := by simp
  have idle : ¬∃ c ∈ some chan, False ∧ c.Stranded := fun ⟨_, _, both⟩ => both.1
  cases event with
  | create creation => exact iff_of_true (one agrees (Option.some.inj goes)) idle
  | stamp creation =>
    have stamped : ({ chan with creationTime := creation } : Channel Client).Agrees := agrees
    exact iff_of_true (one stamped (Option.some.inj goes)) idle
  | reset site sptr creation =>
    obtain ⟨chan', resets, same⟩ := Option.map_eq_some_iff.mp goes
    exact iff_of_true (one (resetModes_agrees agrees resets) same) idle
  | join user status manager =>
    have joined : (joinUser user status manager chan).Agrees := by
      unfold joinUser
      dsimp only
      split
      · exact agrees
      · exact agrees
    exact iff_of_true (one joined (Option.some.inj goes)) idle
  | part oplevels user =>
    obtain rfl := Option.some.inj goes
    exact (removeUser_agrees agrees oplevels user).trans
      (not_congr (here fun c => c.LastUser user ∧ c.Stranded).symm)
  | kick oplevels user fromServer which =>
    obtain rfl := Option.some.inj goes
    exact (kickUser_agrees agrees oplevels user fromServer which).trans
      (not_congr (here fun c => c.KicksLast user which ∧ c.Stranded).symm)
  | reveal user =>
    have revealed : (revealIfNeeded user chan).Agrees := by
      unfold revealIfNeeded
      split
      · split
        · exact agrees.of_limits (checkDelayedJoins_limits _)
        · exact agrees
      · exact agrees
    exact iff_of_true (one revealed (Option.some.inj goes)) idle
  | mode site handler source dest modestr args =>
    obtain ⟨w, message, same⟩ := Option.map_eq_some_iff.mp goes
    exact iff_of_true (one (modeMessage_agrees agrees handler dest message) same) idle
  | burst site source parv =>
    refine msBurstModes_agrees served ?_ goes
    rintro chan' ⟨⟩
    exact agrees
  | endOfBurst oplevels =>
    obtain rfl := Option.some.inj goes
    exact (burstEnded_agrees agrees oplevels).trans (not_congr
      (here fun c => (c.members = [] ∧ c.mode.mode .burstAdded = true) ∧ c.Stranded).symm)
  | clearmode names source name bits control =>
    obtain ⟨cleared, clears, same⟩ := Option.map_eq_some_iff.mp goes
    exact iff_of_true (one (doClearmode_agrees agrees clears) same) idle
  | tell names source localChannel dest changes =>
    obtain ⟨w, tells, same⟩ := Option.map_eq_some_iff.mp goes
    exact iff_of_true (one (agrees.of_limits (tellMembers_limits tells)) same) idle
  | destruct site sptr =>
    dsimp only [ChannelEvent.leaves] at goes
    split at goes
    · obtain rfl := Option.some.inj goes
      exact iff_of_true nofun idle
    · obtain ⟨w, bounces, same⟩ := Option.map_eq_some_iff.mp goes
      exact iff_of_true (one (agrees.of_limits (bounceModes_limits bounces)) same) idle

theorem ChannelEvent.step_agrees {found left : Option (Channel Client)} (agrees : ∀ chan ∈ found, chan.Agrees)
    {event : ChannelEvent Client} (served : event.FromServer) (goes : event.step found = some left) :
    (∀ chan ∈ left, chan.Agrees) ↔ ¬event.Unlimits found := by
  cases found with
  | some chan => exact leaves_agrees (agrees chan rfl) served goes
  | none =>
    cases event with
    | create creation =>
      obtain rfl := Option.some.inj goes
      refine iff_of_true ?_ fun ⟨_, there, _⟩ => nomatch there
      rintro chan ⟨⟩
      exact (newChannel_agrees : (newChannel : Channel Client).Agrees)
    | burst site source parv => exact msBurstModes_agrees served agrees goes
    | _ =>
      obtain rfl := Option.some.inj goes
      exact iff_of_true nofun fun ⟨_, there, _⟩ => nomatch there

def Unparted : Option (Channel Client) → List (ChannelEvent Client × Option (Channel Client)) → Prop
  | _, [] => True
  | chan, (event, left) :: later => ¬event.Unlimits chan ∧ Unparted left later

theorem ChannelEvent.trace_agrees {found : Option (Channel Client)} {events : List (ChannelEvent Client)}
    {trace : List (ChannelEvent Client × Option (Channel Client))} (served : ∀ event ∈ events, event.FromServer)
    (runs : ChannelEvent.trace found events = some trace) (agrees : ∀ chan ∈ found, chan.Agrees) :
    (∀ after ∈ trace, ∀ chan ∈ after.2, chan.Agrees) ↔ Unparted found trace := by
  induction events generalizing found trace with
  | nil =>
    obtain rfl := Option.some.inj runs
    exact iff_of_true (fun _ mem => absurd mem List.not_mem_nil) trivial
  | cons event events ih =>
    rw [ChannelEvent.trace] at runs
    obtain ⟨left, goes, runs⟩ := Option.bind_eq_some_iff.mp runs
    obtain ⟨later, rest, same⟩ := Option.bind_eq_some_iff.mp runs
    obtain rfl := Option.some.inj same
    have behind := fun agrees => ih (fun e mem => served e (List.mem_cons_of_mem _ mem)) rest agrees
    rw [List.forall_mem_cons, Unparted, ← ChannelEvent.step_agrees agrees (served event List.mem_cons_self) goes]
    exact and_congr_right behind

/-- In every run from the start, the flag is set where there is a limit if and only if nobody empties a channel
with an apass and a limit, and every BURST that wipes a limit out mends it. -/
theorem limit_flagged {events : List (ChannelEvent Client)}
    {trace : List (ChannelEvent Client × Option (Channel Client))} (served : ∀ event ∈ events, event.FromServer)
    (runs : ChannelEvent.trace none events = some trace) :
    (∀ after ∈ trace, ∀ chan ∈ after.2, (chan.mode.mode .limit = true ↔ chan.mode.limit ≠ 0)) ↔
      Unparted none trace :=
  ChannelEvent.trace_agrees served runs nofun

theorem unparted_of {found : Option (Channel Client)} {events : List (ChannelEvent Client)}
    {trace : List (ChannelEvent Client × Option (Channel Client))}
    (runs : ChannelEvent.trace found events = some trace)
    (quiet : ∀ event ∈ events, ∀ found, ¬event.Unlimits found) : Unparted found trace := by
  induction events generalizing found trace with
  | nil =>
    obtain rfl := Option.some.inj runs
    trivial
  | cons event events ih =>
    rw [ChannelEvent.trace] at runs
    obtain ⟨left, goes, runs⟩ := Option.bind_eq_some_iff.mp runs
    obtain ⟨later, rest, same⟩ := Option.bind_eq_some_iff.mp runs
    obtain rfl := Option.some.inj same
    exact ⟨quiet event List.mem_cons_self found, ih rest fun e mem => quiet e (List.mem_cons_of_mem _ mem)⟩

end

def limitSet : List (ChannelEvent Nat) :=
  [.create 1, .join 0 { noStatus with chanop := true } false,
    .mode plainSite .chanop (plainUser 0) { Dest.none with channel := true, server := true } ['+', 'l'] [['5']],
    .mode plainSite .chanop (plainUser 0) { Dest.none with channel := true, server := true } ['-', 'l'] []]

theorem limit_flagged_set : ∃ trace, ChannelEvent.trace none limitSet = some trace ∧
    ∀ after ∈ trace, ∀ chan ∈ after.2, (chan.mode.mode .limit = true ↔ chan.mode.limit ≠ 0) := by
  have runs : (ChannelEvent.trace none limitSet).isSome = true := by decide +kernel
  obtain ⟨trace, runs⟩ := Option.isSome_iff_exists.mp runs
  have served : ∀ event ∈ limitSet, event.FromServer := by simp [limitSet, ChannelEvent.FromServer]
  refine ⟨trace, runs, (limit_flagged served runs).mpr (unparted_of runs ?_)⟩
  simp [limitSet, ChannelEvent.Unlimits, ChannelEvent.Empties]

def burstServer : ModeSource Nat := ⟨8, false, false, false, false, true, true, false, false⟩

/-- `#c` with the limit 9 is wiped out by an older `#c` with `+n`. -/
def wipedLimit : List (ChannelEvent Nat) :=
  [.burst plainSite burstServer [['#', 'c'], ['5'], ['+', 'l'], ['9']],
    .burst plainSite burstServer [['#', 'c'], ['3'], ['+', 'n']]]

theorem limit_unflagged : ∃ trace, ChannelEvent.trace none wipedLimit = some trace ∧
    ∃ after ∈ trace, ∃ chan ∈ after.2, ¬(chan.mode.mode .limit = true ↔ chan.mode.limit ≠ 0) := by
  have wrong : (ChannelEvent.trace none wipedLimit).any (fun trace => trace.any fun after =>
      after.2.any fun chan => !chan.mode.mode .limit && chan.mode.limit ≠ 0) = true := by decide +kernel
  obtain ⟨trace, runs, wrong⟩ := (Option.any_eq_true _ _).mp wrong
  obtain ⟨after, mem, wrong⟩ := List.any_eq_true.mp wrong
  obtain ⟨chan, left, wrong⟩ := (Option.any_eq_true _ _).mp wrong
  rw [Bool.and_eq_true, Bool.not_eq_true', decide_eq_true_eq] at wrong
  refine ⟨trace, runs, after, mem, chan, left, fun agrees => ?_⟩
  have set := agrees.mpr wrong.2
  rw [wrong.1] at set
  cases set

end Ircd.Channels

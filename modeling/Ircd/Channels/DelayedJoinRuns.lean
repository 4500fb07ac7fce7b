import Ircd.Channels.DelayedJoins
import Ircd.Channels.Membership

/-! The runs of a channel: joins, parts, kicks, modes from anywhere, bursts and what reveals a hidden member. -/

set_option autoImplicit false

namespace Ircd.Channels
open Ircd.Text

variable {Client : Type} [DecidableEq Client]

/-! ### What happens to a channel -/

/-- `joinbuf_join`, for a user that joins; a channel manager gets the level 0. -/
def joinUser (user : Client) (status : Status) (manager : Bool) (chan : Channel Client) : Channel Client :=
  let joined := addUser user status chan
  if manager ∧ chan.mode.apass ≠ [] then joined.mapMember user fun m => { m with opLevel := 0 } else joined

def zombify (oplevels : Bool) (user : Client) (which : ZombieCase) (chan : Channel Client) : Option (Channel Client) :=
  let chan := chan.mapMember user fun m => { m with status := { m.status with zombie := true } }
  match which with
  | .myUser | .behindKicker => removeUser oplevels user chan
  | .other => if chan.members.all (·.status.zombie) then removeUser oplevels user chan else some chan

/-- The end of `m_kick` and `ms_kick`; `m_kick` looks for the hidden joins first. -/
def kickUser (oplevels : Bool) (user : Client) (fromServer : Bool) (which : ZombieCase) (chan : Channel Client) :
    Option (Channel Client) :=
  match chan.member user with
  | none => some chan
  | some member =>
    zombify oplevels user which (if !fromServer && member.status.delayed then checkDelayedJoins chan else chan)

/-- `RevealDelayedJoinIfNeeded`, and what the other callers of `RevealDelayedJoin` do. -/
def revealIfNeeded (user : Client) (chan : Channel Client) : Channel Client :=
  match chan.member user with
  | some member => if member.status.delayed then revealDelayedJoin chan user else chan
  | none => chan

def tellMembers (names : Names Client) (source : Client) (localChannel : Bool) (dest : Dest)
    (changes : List (CliChange Client)) (chan : Channel Client) : Option (ModeWork Client) :=
  let tell (w : ModeWork Client) (change : CliChange Client) :=
    w.client names (change.dir = .add) change.mode change.client change.opLevel
  (changes.foldl tell ⟨chan, modebufInit source localChannel dest, []⟩).call names .flush

/-- `ms_end_of_burst`, for one of the channels. -/
def burstEnded (oplevels : Bool) (chan : Channel Client) : Option (Channel Client) :=
  let ended := chan.setFlags (chan.mode.mode.without (.only .burstAdded))
  if chan.members = [] ∧ chan.mode.mode .burstAdded then lastGone oplevels ended else some ended

/-- What a message or a timer does to a channel. A JOIN or a CREATE first sets the time of the channel or
wipes its modes out, and then adds the user. -/
inductive ChannelEvent (Client : Type) where
  | create (creation : Int)
  | stamp (creation : Int)
  | reset (site : ModeSite Client) (sptr : Client) (creation : Int)
  | join (user : Client) (status : Status) (manager : Bool)
  | part (oplevels : Bool) (user : Client)
  | kick (oplevels : Bool) (user : Client) (fromServer : Bool) (which : ZombieCase)
  | reveal (user : Client)
  | mode (site : ModeSite Client) (handler : ModeHandler) (source : ModeSource Client) (dest : Dest)
      (modestr : List Char) (args : List (List Char))
  | burst (site : ModeSite Client) (source : ModeSource Client) (parv : List (List Char))
  | endOfBurst (oplevels : Bool)
  | clearmode (names : Names Client) (source : Client) (name : List Char) (bits : Client → CacheBits)
      (control : List Char)
  | tell (names : Names Client) (source : Client) (localChannel : Bool) (dest : Dest)
      (changes : List (CliChange Client))
  | destruct (site : ModeSite Client) (sptr : Client)

def ChannelEvent.leaves (chan : Channel Client) : ChannelEvent Client → Option (Option (Channel Client))
  | .create _ => some (some chan)
  | .stamp creation => some (some { chan with creationTime := creation })
  | .reset site sptr creation => (resetModes site sptr creation chan).map some
  | .join user status manager => some (some (joinUser user status manager chan))
  | .part oplevels user => some (removeUser oplevels user chan)
  | .kick oplevels user fromServer which => some (kickUser oplevels user fromServer which chan)
  | .reveal user => some (some (revealIfNeeded user chan))
  | .mode site handler source dest modestr args =>
    (modeMessage site handler source dest chan modestr args).map fun w => some w.chan
  | .burst site source parv => msBurstModes site source (some chan) parv
  | .endOfBurst oplevels => some (burstEnded oplevels chan)
  | .clearmode names source name bits control =>
    (doClearmode names source name ⟨chan, bits⟩ control).map fun cleared => some cleared.room.chan
  | .tell names source localChannel dest changes =>
    (tellMembers names source localChannel dest changes chan).map fun w => some w.chan
  | .destruct site sptr =>
    if chan.members = [] then some none else (bounceModes site sptr chan).map fun w => some w.chan

def ChannelEvent.step (event : ChannelEvent Client) : Option (Channel Client) → Option (Option (Channel Client))
  | some chan => event.leaves chan
  | none =>
    match event with
    | .create creation => some (some { newChannel with creationTime := creation })
    | .burst site source parv => msBurstModes site source none parv
    | _ => some none

def ChannelEvent.trace : Option (Channel Client) → List (ChannelEvent Client) →
    Option (List (ChannelEvent Client × Option (Channel Client)))
  | _, [] => some []
  | chan, event :: events => do
    let left ← event.step chan
    let later ← ChannelEvent.trace left events
    some ((event, left) :: later)

/-! ### The members -/

section
variable {chan chan' : Channel Client}

omit [DecidableEq Client] in
theorem Channel.Hides.some_hidden (hides : chan.Hides) (was : chan.mode.mode .wasDelJoins = true) :
    findDelayedJoins chan = true := by
  rw [hides] at was
  exact (Bool.and_eq_true_iff.mp was).2

omit [DecidableEq Client] in
theorem Channel.Hides.reveals (hides : chan.Hides) (reveals : chan.Reveals chan') : chan'.Hides := by
  obtain ⟨delJoins, hidden, was⟩ := reveals
  unfold Channel.Hides at hides ⊢
  rw [was, delJoins, hides]
  revert hidden
  cases chan.mode.mode .delJoins <;> cases findDelayedJoins chan <;> cases findDelayedJoins chan' <;> simp

omit [DecidableEq Client] in
theorem Channel.Hides.beside (hides : chan.Hides) (beside : chan.Beside chan') : chan'.Hides :=
  hides.reveals (beside.reveals hides.some_hidden)

omit [DecidableEq Client] in
theorem dropMembers_hides (hides : chan.Hides) (gone : Membership Client → Bool) : (dropMembers gone chan).Hides := by
  unfold dropMembers
  dsimp only
  have fewer : (chan.members.filter fun m => !gone m).any (·.status.delayed) = true →
      chan.members.any (·.status.delayed) = true := by
    rw [List.any_eq_true, List.any_eq_true]
    rintro ⟨m, left, hidden⟩
    exact ⟨m, (List.mem_filter.mp left).1, hidden⟩
  split
  · obtain ⟨delJoins, hidden, was⟩ := checkDelayedJoins_spec
      { chan with members := chan.members.filter fun m => !gone m }
    exact hides.reveals ⟨delJoins, fun some_left => fewer (hidden.symm.trans some_left), by rw [was, hidden]⟩
  next none_hidden =>
    refine hides.beside ⟨rfl, rfl, rfl, Bool.eq_iff_iff.mpr ⟨fewer, fun some_hidden => ?_⟩⟩
    obtain ⟨m, mem, hidden⟩ := List.any_eq_true.mp some_hidden
    have stays : gone m = false := Bool.eq_false_of_not_eq_true fun goes =>
      none_hidden (List.any_eq_true.mpr ⟨m, mem, by rw [goes, hidden]; rfl⟩)
    exact List.any_eq_true.mpr ⟨m, List.mem_filter.mpr ⟨mem, by rw [stays]; rfl⟩, hidden⟩

omit [DecidableEq Client] in
theorem lastGone_hides (hides : chan.Hides) (empty : chan.members = []) {oplevels : Bool} :
    ∀ left ∈ lastGone oplevels chan, left.Hides := by
  have unset : chan.mode.mode .wasDelJoins = false := by
    rw [hides, findDelayedJoins, empty, List.any_nil, Bool.and_false]
  intro left gone
  unfold lastGone at gone
  dsimp only at gone
  split at gone
  · split at gone
    · obtain rfl := Option.some.inj gone
      rfl
    · cases gone
  · obtain rfl := Option.some.inj gone
    simp [Channel.Hides, findDelayedJoins, unset]

omit [DecidableEq Client] in
theorem dropAll_members (chan : Channel Client) : (dropMembers (fun _ => true) chan).members = [] := by
  unfold dropMembers
  dsimp only
  split
  · rw [checkDelayedJoins_members]
    simp
  · simp

theorem removeUser_hides (hides : chan.Hides) (oplevels : Bool) (user : Client) :
    ∀ left ∈ removeUser oplevels user chan, left.Hides := by
  unfold removeUser
  dsimp only
  split
  · rintro left ⟨⟩
    exact hides
  split
  · exact lastGone_hides (dropMembers_hides (dropMembers_hides hides _) _) (dropAll_members _)
  · rintro left ⟨⟩
    exact dropMembers_hides hides _

theorem zombify_hides (hides : chan.Hides) (oplevels : Bool) (user : Client) (which : ZombieCase) :
    ∀ left ∈ zombify oplevels user which chan, left.Hides := by
  have same : chan.Beside (chan.mapMember user fun m => { m with status := { m.status with zombie := true } }) :=
    mapMember_beside fun _ _ => rfl
  have marked := hides.beside same
  unfold zombify
  cases which with
  | myUser => exact removeUser_hides marked oplevels user
  | behindKicker => exact removeUser_hides marked oplevels user
  | other =>
    dsimp only
    split
    · exact removeUser_hides marked oplevels user
    · rintro left ⟨⟩
      exact marked

omit [DecidableEq Client] in
theorem checkDelayedJoins_hides (hides : chan.Hides) : (checkDelayedJoins chan).Hides := by
  obtain ⟨delJoins, hidden, was⟩ := checkDelayedJoins_spec chan
  exact hides.reveals ⟨delJoins, fun some_left => hidden.symm.trans some_left, by rw [was, hidden]⟩

theorem kickUser_hides (hides : chan.Hides) (oplevels : Bool) (user : Client) (fromServer : Bool)
    (which : ZombieCase) : ∀ left ∈ kickUser oplevels user fromServer which chan, left.Hides := by
  unfold kickUser
  split
  · rintro left ⟨⟩
    exact hides
  · refine zombify_hides ?_ oplevels user which
    split
    · exact checkDelayedJoins_hides hides
    · exact hides

theorem joinUser_hides (hides : chan.Hides) (user : Client) (status : Status) (manager : Bool) :
    (joinUser user status manager chan).Hides := by
  have joined : (addUser user status chan).Hides := by
    unfold Channel.Hides findDelayedJoins at hides ⊢
    dsimp only [addUser]
    rw [hides, List.any_cons]
    cases chan.mode.mode .delJoins <;> simp
  unfold joinUser
  dsimp only
  split
  · exact joined.beside (mapMember_beside fun _ _ => rfl)
  · exact joined

theorem revealIfNeeded_hides (hides : chan.Hides) (user : Client) : (revealIfNeeded user chan).Hides := by
  unfold revealIfNeeded
  split
  · split
    · exact hides.reveals (revealDelayedJoin_reveals chan user)
    · exact hides
  · exact hides

omit [DecidableEq Client] in
theorem burstEnded_hides (hides : chan.Hides) (oplevels : Bool) : ∀ left ∈ burstEnded oplevels chan, left.Hides := by
  have ended : (chan.setFlags (chan.mode.mode.without (.only .burstAdded))).Hides := by
    refine hides.beside ⟨rfl, ?_, ?_, rfl⟩ <;> simp
  unfold burstEnded
  dsimp only
  split
  next empty => exact lastGone_hides ended empty.1
  · rintro left ⟨⟩
    exact ended

end

/-! ### The buffers -/

section
variable {w : ModeWork Client} {chan : Channel Client}

omit [DecidableEq Client] in
theorem sound_without {chan' : Channel Client} {mbuf : ModeBuf Client} (hides : chan.Hides)
    (fresh : mbuf.add .delJoins = false)
    (rem : mbuf.rem .delJoins = (chan.mode.mode .delJoins && !chan'.mode.mode .delJoins))
    (fewer : chan'.mode.mode .delJoins = true → chan.mode.mode .delJoins = true)
    (was : chan'.mode.mode .wasDelJoins = chan.mode.mode .wasDelJoins)
    (hidden : findDelayedJoins chan' = findDelayedJoins chan) (passes : List (Flushed Client)) :
    ModeWork.Sound ⟨chan', mbuf, passes⟩ where
  was := by
    dsimp only
    rw [was, hidden]
    exact hides.some_hidden
  settled := by
    rw [ModeWork.settled_was]
    dsimp only
    rw [fresh, rem, was, hidden, hides]
    revert fewer
    cases chan.mode.mode .delJoins <;> cases chan'.mode.mode .delJoins <;> cases findDelayedJoins chan <;> simp

omit [DecidableEq Client] in
theorem modebufMode_init (source : Client) (localChannel : Bool) (dest : Dest) (flags : Flags) :
    (modebufMode (modebufInit source localChannel dest) false flags).add .delJoins = false ∧
      (modebufMode (modebufInit source localChannel dest) false flags).rem .delJoins = flags .delJoins := by
  obtain ⟨add, rem⟩ := modebufMode_delJoins (modebufInit source localChannel dest) false flags
  rw [add, rem]
  cases flags .delJoins <;> exact ⟨rfl, rfl⟩

omit [DecidableEq Client] in
theorem dropModes_calm (names : Names Client) (w : ModeWork Client) (m : Membership Client) :
    w.Calm (dropModes names w m) := by
  unfold dropModes
  dsimp only
  split <;> split
  · exact (ModeWork.client_calm _ _ _ _ _ _).trans (ModeWork.client_calm _ _ _ _ _ _)
  · exact ModeWork.client_calm _ _ _ _ _ _
  · exact ModeWork.client_calm _ _ _ _ _ _
  · exact .refl _

omit [DecidableEq Client] in
theorem dropString_calm (names : Names Client) (which : StringMode) (text : List Char) (w : ModeWork Client) :
    w.Calm (dropString names which text w) := by
  unfold dropString
  split
  · exact ModeWork.string_calm _ _ _ _ _ _
  · exact .refl _

omit [DecidableEq Client] in
theorem dropLimit_calm (names : Names Client) (limit : Nat) (w : ModeWork Client) :
    w.Calm (dropLimit names limit w) := by
  unfold dropLimit
  split
  · exact ModeWork.uint_calm _ _ _ _
  · exact .refl _

omit [DecidableEq Client] in
theorem wiped_calm (names : Names Client) (mode : Mode) (members : List (Membership Client)) (w : ModeWork Client) :
    w.Calm (members.foldl (dropModes names) (dropString names .apass mode.apass (dropString names .upass mode.upass
      (dropString names .key mode.key (dropLimit names mode.limit w))))) :=
  (dropLimit_calm _ _ _).trans <| (dropString_calm _ _ _ _).trans <| (dropString_calm _ _ _ _).trans <|
    (dropString_calm _ _ _ _).trans <| @foldl_calm _ _ _ id _ (dropModes_calm names) members _

omit [DecidableEq Client] in
theorem resetModes_hides (hides : chan.Hides) {site : ModeSite Client} {sptr : Client} {creation : Int}
    {left : Channel Client} (resets : resetModes site sptr creation chan = some left) : left.Hides := by
  unfold resetModes at resets
  split at resets
  · dsimp only at resets
    obtain ⟨flushed, calls, same⟩ := Option.bind_eq_some_iff.mp resets
    obtain rfl := Option.some.inj same
    refine ModeWork.Sound.flush ?_ calls
    let kept : Flags := fun f => chan.mode.mode f && (f = .burstAdded || f = .wasDelJoins)
    obtain ⟨add, rem⟩ := modebufMode_init sptr site.localChannel
      { Dest.none with channel := true, hack3 := true } chan.mode.mode
    let start : ModeWork Client := ⟨{ chan.setFlags kept with creationTime := creation },
      modebufMode (modebufInit sptr site.localChannel { Dest.none with channel := true, hack3 := true }) false
        chan.mode.mode, []⟩
    have sound : start.Sound := by
      refine sound_without hides add ?_ ?_ ?_ ?_ []
      · simp [kept, rem]
      · simp [kept]
      · simp [kept]
      · rfl
    have calm := wiped_calm site.names chan.mode chan.members start
    refine (Channel.Beside.calm ?_ _).sound (calm.sound sound)
    refine ⟨rfl, rfl, rfl, ?_⟩
    exact (List.any_map.trans rfl).trans calm.hidden.symm
  · obtain rfl := Option.some.inj resets
    exact hides

omit [DecidableEq Client] in
theorem flagsTold_sound (fresh : w.Fresh) (hides : w.chan.Hides) : (w.flags false w.chan.mode.mode).Sound where
  was := hides.some_hidden
  settled := by
    obtain ⟨add, rem⟩ := modebufMode_delJoins w.mbuf false w.chan.mode.mode
    rw [ModeWork.settled_was]
    dsimp only [ModeWork.flags]
    rw [add, rem, fresh.add, fresh.rem, hides]
    cases w.chan.mode.mode .delJoins <;> simp

omit [DecidableEq Client] in
theorem memberTold_calm (names : Names Client) (w : ModeWork Client) (m : Membership Client) :
    w.Calm (if m.status.voice then
      (if m.status.chanop then w.client names false .chanop m.user m.opLevel else w).client names false .voice m.user
        (maxOpLevel + 1)
    else if m.status.chanop then w.client names false .chanop m.user m.opLevel else w) := by
  split <;> split
  · exact (ModeWork.client_calm _ _ _ _ _ _).trans (ModeWork.client_calm _ _ _ _ _ _)
  · exact ModeWork.client_calm _ _ _ _ _ _
  · exact ModeWork.client_calm _ _ _ _ _ _
  · exact .refl _

omit [DecidableEq Client] in
theorem bounceModes_hides (hides : chan.Hides) {site : ModeSite Client} {sptr : Client}
    (bounces : bounceModes site sptr chan = some w) : w.chan.Hides := by
  unfold bounceModes at bounces
  dsimp only at bounces
  refine ModeWork.Sound.flush ?_ bounces
  have fresh := fresh_init chan sptr site.localChannel { Dest.none with server := true, bounce := true }
  have members := @foldl_calm _ _ _ id _ (memberTold_calm site.names) chan.members
    ⟨chan, modebufInit sptr site.localChannel { Dest.none with server := true, bounce := true }, []⟩
  have sound := flagsTold_sound (members.fresh fresh) (hides.of_calm fresh members)
  refine (@foldl_calm _ _ _ id _ (fun w ban => ModeWork.string_calm _ _ _ _ _ _) chan.banlist _).sound ?_
  exact (dropString_calm _ _ _ _).sound <| (dropString_calm _ _ _ _).sound <| (dropLimit_calm _ _ _).sound <|
    (dropString_calm _ _ _ _).sound sound

omit [DecidableEq Client] in
theorem tellMembers_hides (hides : chan.Hides) {names : Names Client} {source : Client} {localChannel : Bool}
    {dest : Dest} {changes : List (CliChange Client)}
    (tells : tellMembers names source localChannel dest changes chan = some w) : w.chan.Hides := by
  have fresh := fresh_init chan source localChannel dest
  exact ((@foldl_calm _ _ _ id _ (fun w change => ModeWork.client_calm _ _ _ _ _ _) changes _).sound
    (fresh.sound hides)).flush tells

/-! ### CLEARMODE -/

omit [DecidableEq Client] in
theorem ModeWork.plain_calm {names : Names Client} {w w' : ModeWork Client} {call : ModeCall Client}
    (calls : w.call names call = some w') (plain : call.plain = true) : w.Calm w' :=
  (ModeWork.call_plain plain calls).calm

section
variable {names : Names Client} {del : ClearMask} {w' : ModeWork Client}

omit [DecidableEq Client] in
theorem clearKey_calm (clears : clearKey names del w = some w') : w.Calm w' := by
  unfold clearKey at clears
  split at clears
  · exact ModeWork.plain_calm clears rfl
  · obtain rfl := Option.some.inj clears
    exact .refl w

omit [DecidableEq Client] in
theorem ModeWork.Calm.edited {chan' : Channel Client} (calm : w.Calm w') (delJoins : chan'.mode.mode = w'.chan.mode.mode)
    (time : chan'.creationTime = w'.chan.creationTime) (hidden : findDelayedJoins chan' = findDelayedJoins w'.chan) :
    w.Calm { w' with chan := chan' } :=
  calm.trans (Channel.Beside.calm ⟨time, congrFun delJoins _, congrFun delJoins _, hidden⟩ w'.passes)

omit [DecidableEq Client] in
theorem clearLimit_calm (clears : clearLimit names del w = some w') : w.Calm w' := by
  unfold clearLimit at clears
  split at clears
  · obtain ⟨pushed, calls, same⟩ := Option.bind_eq_some_iff.mp clears
    obtain rfl := Option.some.inj same
    exact (ModeWork.plain_calm calls rfl).edited rfl rfl rfl
  · obtain rfl := Option.some.inj clears
    exact .refl w

omit [DecidableEq Client] in
theorem clearBans_calm {banlist : List Ban} (clears : clearBans names w banlist = some w') : w.Calm w' := by
  induction banlist generalizing w with
  | nil =>
    obtain rfl := Option.some.inj clears
    exact .refl w
  | cons link banlist ih =>
    rw [clearBans] at clears
    obtain ⟨pushed, calls, rest⟩ := Option.bind_eq_some_iff.mp clears
    exact (ModeWork.plain_calm calls rfl).trans (ih rest)

omit [DecidableEq Client] in
theorem clearBanlist_calm (clears : clearBanlist names del w = some w') : w.Calm w' := by
  unfold clearBanlist at clears
  split at clears
  · obtain ⟨pushed, bans, same⟩ := Option.bind_eq_some_iff.mp clears
    obtain rfl := Option.some.inj same
    exact (clearBans_calm bans).edited rfl rfl rfl
  · obtain rfl := Option.some.inj clears
    exact .refl w

omit [DecidableEq Client] in
theorem dropMode_calm {taken : Bool} {mode : MemberMode} {m m' : Membership Client}
    (drops : dropMode names taken mode w m = some (w', m')) : w.Calm w' ∧ m'.status.delayed = m.status.delayed := by
  unfold dropMode at drops
  split at drops
  · obtain ⟨pushed, calls, same⟩ := Option.bind_eq_some_iff.mp drops
    obtain ⟨rfl, rfl⟩ := Prod.mk.inj (Option.some.inj same)
    exact ⟨ModeWork.plain_calm calls rfl, by cases mode <;> rfl⟩
  · obtain ⟨rfl, rfl⟩ := Prod.mk.inj (Option.some.inj drops)
    exact ⟨.refl w, rfl⟩

omit [DecidableEq Client] in
theorem clearMember_calm {m m' : Membership Client} (clears : clearMember names del w m = some (w', m')) :
    w.Calm w' ∧ m'.status.delayed = m.status.delayed := by
  unfold clearMember at clears
  split at clears
  · obtain ⟨rfl, rfl⟩ := Prod.mk.inj (Option.some.inj clears)
    exact ⟨.refl w, rfl⟩
  · obtain ⟨⟨pushed, deopped⟩, drops, devoices⟩ := Option.bind_eq_some_iff.mp clears
    obtain ⟨calm, same⟩ := dropMode_calm drops
    obtain ⟨calm', same'⟩ := dropMode_calm devoices
    exact ⟨calm.trans calm', same'.trans same⟩

omit [DecidableEq Client] in
theorem clearMembers_calm {members members' : List (Membership Client)}
    (clears : clearMembers names del w members = some (w', members')) :
    w.Calm w' ∧ members'.any (·.status.delayed) = members.any (·.status.delayed) := by
  induction members generalizing w members' with
  | nil =>
    obtain ⟨rfl, rfl⟩ := Prod.mk.inj (Option.some.inj clears)
    exact ⟨.refl w, rfl⟩
  | cons m members ih =>
    rw [clearMembers] at clears
    obtain ⟨⟨pushed, cleared⟩, first, rest⟩ := Option.bind_eq_some_iff.mp clears
    obtain ⟨⟨last, others⟩, later, same⟩ := Option.bind_eq_some_iff.mp rest
    obtain ⟨rfl, rfl⟩ := Prod.mk.inj (Option.some.inj same)
    obtain ⟨calm, delayed⟩ := clearMember_calm first
    obtain ⟨calm', delayed'⟩ := ih later
    exact ⟨calm.trans calm', by rw [List.any_cons, List.any_cons, delayed, delayed']⟩

omit [DecidableEq Client] in
theorem clearUsers_calm (clears : clearUsers names del w = some w') : w.Calm w' := by
  unfold clearUsers at clears
  split at clears
  · obtain ⟨⟨pushed, members⟩, walk, same⟩ := Option.bind_eq_some_iff.mp clears
    obtain rfl := Option.some.inj same
    obtain ⟨calm, delayed⟩ := clearMembers_calm walk
    exact calm.edited rfl rfl (delayed.trans calm.hidden.symm)
  · obtain rfl := Option.some.inj clears
    exact .refl w

theorem clearModes_hides (hides : chan.Hides) {source : Client} {name : List Char} {bits : Client → CacheBits}
    (unlisted : del (.flag .wasDelJoins) = false) {cleared : Cleared Client}
    (clears : clearModes names source name ⟨chan, bits⟩ del = some cleared) : cleared.room.chan.Hides := by
  obtain ⟨w₁, key, clears⟩ := Option.bind_eq_some_iff.mp clears
  obtain ⟨w₂, limit, clears⟩ := Option.bind_eq_some_iff.mp clears
  obtain ⟨w₃, banlist, clears⟩ := Option.bind_eq_some_iff.mp clears
  obtain ⟨w₄, users, clears⟩ := Option.bind_eq_some_iff.mp clears
  obtain ⟨w₅, flushed, same⟩ := Option.bind_eq_some_iff.mp clears
  obtain rfl := Option.some.inj same
  obtain ⟨add, rem⟩ := modebufMode_init source (isLocalChannel name)
    { Dest.none with channel := true, opmode := true, hack4 := true } fun f => del.flags f && chan.mode.mode f
  have start : ModeWork.Sound ⟨chan.setFlags (chan.mode.mode.without del.flags),
      modebufMode (modebufInit source (isLocalChannel name)
        { Dest.none with channel := true, opmode := true, hack4 := true }) false
          fun f => del.flags f && chan.mode.mode f, []⟩ := by
    refine sound_without hides add ?_ ?_ ?_ ?_ []
    · rw [rem]
      cases taken : del.flags .delJoins <;> cases set : chan.mode.mode .delJoins <;> simp [taken, set]
    · simp +contextual
    · simp [ClearMask.flags, unlisted]
    · rfl
  have calm := (clearKey_calm key).trans <| (clearLimit_calm limit).trans <|
    (clearBanlist_calm banlist).trans <| clearUsers_calm users
  have hides := (calm.sound start).flush flushed
  dsimp only
  split
  · exact hides
  · exact hides

theorem doClearmode_hides (hides : chan.Hides) {source : Client} {name control : List Char}
    {bits : Client → CacheBits} {cleared : Cleared Client}
    (clears : doClearmode names source name ⟨chan, bits⟩ control = some cleared) : cleared.room.chan.Hides := by
  unfold doClearmode at clears
  dsimp only at clears
  split at clears
  · obtain rfl := Option.some.inj clears
    exact hides
  · exact clearModes_hides hides (delMode_unlisted control (by decide)) clears

end

/-! ### BURST -/

omit [DecidableEq Client] in
theorem readFlags_delayed {base : Status} {fuel : Nat} {reset : Bool} {st : NickState} {text : List Char}
    (hidden : (readFlags base fuel reset st text).mode.delayed = true) : st.mode.delayed = true := by
  induction fuel generalizing reset st text with
  | zero => exact hidden
  | succ fuel ih =>
    cases text with
    | nil => exact hidden
    | cons c rest =>
      rw [readFlags] at hidden
      split at hidden
      · dsimp only at hidden
        split at hidden
        · cases ih hidden
        · cases ih hidden
      split at hidden
      · cases ih hidden
      split at hidden
      · dsimp only at hidden
        generalize (if decide (st.opLevel = -1) = true then 0 else st.opLevel) + (readNumber 0 (c :: rest) : Int) = level
          at hidden
        split at hidden
        · cases hidden
        · cases ih hidden
      · exact hidden

omit [DecidableEq Client] in
theorem readNick_delayed (link : Link Client) (base : Status) (set : Bool) (acc : NickState × List (Entry Client))
    (token : List Char) :
    ∃ st : NickState, (st.mode.delayed = true → acc.1.mode.delayed = true) ∧
      (readNick link base set acc token = (st, acc.2) ∨
        ∃ user, readNick link base set acc token = (st, acc.2 ++ [⟨user, st.mode, st.opLevel⟩])) := by
  generalize result : readNick link base set acc token = r
  unfold readNick at result
  extract_lets st at result
  refine ⟨st, ?_, ?_⟩
  · dsimp only [st]
    split
    · exact id
    · split
      · exact readFlags_delayed
      · exact id
  · split at result
    · exact .inl result.symm
    · split at result
      · exact .inr ⟨_, result.symm⟩
      · exact .inl result.symm

omit [DecidableEq Client] in
theorem readNicks_delayed {link : Link Client} {base : Status} {set : Bool} {nicklist : List Char} :
    ∀ e ∈ readNicks link base set nicklist, e.mode.delayed = true → base.delayed = true := by
  suffices walk : ∀ (tokens : List (List Char)) (acc : NickState × List (Entry Client)),
      (acc.1.mode.delayed = true → base.delayed = true) → (∀ e ∈ acc.2, e.mode.delayed = true → base.delayed = true) →
        ∀ e ∈ (tokens.foldl (readNick link base set) acc).2, e.mode.delayed = true → base.delayed = true from
    walk _ _ id nofun
  intro tokens
  induction tokens with
  | nil => exact fun _ _ entries => entries
  | cons token tokens ih =>
    intro acc state entries
    obtain ⟨st, kept, same | ⟨user, same⟩⟩ := readNick_delayed link base set acc token
    · rw [List.foldl_cons, same]
      exact ih _ (state ∘ kept) entries
    · rw [List.foldl_cons, same]
      refine ih _ (state ∘ kept) fun e mem => ?_
      rcases List.mem_append.mp mem with old | new
      · exact entries e old
      · obtain rfl := List.mem_singleton.mp new
        exact state ∘ kept

theorem joinMember_hidden (members : List (Membership Client)) (e : Entry Client) :
    (members.any (·.status.delayed) = true → (joinMember members e).any (·.status.delayed) = true) ∧
      (e.mode.delayed = false →
        (joinMember members e).any (·.status.delayed) = members.any (·.status.delayed)) := by
  unfold joinMember
  split
  · have same : (members.map fun m =>
        if m.user = e.user then ⟨m.user, m.status.synchronize e.mode, storedLevel e.opLevel⟩ else m).any
          (·.status.delayed) = members.any (·.status.delayed) := by
      rw [List.any_map]
      refine congrArg _ (funext fun m => ?_)
      dsimp only [Function.comp_apply]
      split <;> rfl
    exact ⟨fun hidden => same.trans hidden, fun _ => same⟩
  · rw [List.any_cons]
    exact ⟨fun hidden => by rw [hidden, Bool.or_true], fun seen => by rw [seen, Bool.false_or]⟩

theorem joinMembers_hidden (entries : List (Entry Client)) (members : List (Membership Client)) :
    (members.any (·.status.delayed) = true → (entries.foldl joinMember members).any (·.status.delayed) = true) ∧
      ((∀ e ∈ entries, e.mode.delayed = false) →
        (entries.foldl joinMember members).any (·.status.delayed) = members.any (·.status.delayed)) := by
  induction entries generalizing members with
  | nil => exact ⟨id, fun _ => rfl⟩
  | cons e entries ih =>
    obtain ⟨grows, kept⟩ := ih (joinMember members e)
    obtain ⟨grows', kept'⟩ := joinMember_hidden members e
    exact ⟨grows ∘ grows', fun seen => (kept fun e mem => seen e (List.mem_cons_of_mem _ mem)).trans
      (kept' (seen e List.mem_cons_self))⟩

omit [DecidableEq Client] in
theorem ModeWork.Sound.joined (sound : w.Sound) {members : List (Membership Client)}
    (grows : findDelayedJoins w.chan = true → members.any (·.status.delayed) = true)
    (kept : w.chan.mode.mode .delJoins = false → members.any (·.status.delayed) = findDelayedJoins w.chan) :
    ModeWork.Sound { w with chan := { w.chan with members := members } } where
  was := grows ∘ sound.was
  settled := by
    have settled := sound.settled
    rw [ModeWork.settled_was] at settled ⊢
    unfold findDelayedJoins at settled grows kept ⊢
    dsimp only
    cases set : w.chan.mode.mode .delJoins with
    | false =>
      rw [set] at settled
      rw [kept set]
      exact settled
    | true =>
      rw [set] at settled
      simpa using settled

theorem burstWork_sound (site : ModeSite Client) (source : ModeSource Client) (set wipeout : Bool) (fuel : Nat)
    (params : List (List Char)) (sound : w.Sound) (fresh : set = false → w.Fresh) :
    (burstWork site source set wipeout fuel w params).Sound ∧
      (set = false → (burstWork site source set wipeout fuel w params).Fresh) := by
  induction fuel generalizing w params with
  | zero => exact ⟨sound, fresh⟩
  | succ fuel ih =>
    cases params with
    | nil => exact ⟨sound, fresh⟩
    | cons param rest =>
      rw [burstWork]
      split
      · refine ih _ (parseModes_sound (fun buffered => buffered) sound (.inr rfl) param rest) fun unset => ?_
        exact (parseModes_unbuffered unset unset (fresh unset) sound param rest).1
      split
      · exact ih _ ⟨sound.was, sound.settled⟩ fun unset => ⟨(fresh unset).add, (fresh unset).rem⟩
      · obtain ⟨grows, kept⟩ := joinMembers_hidden
          (readNicks site.toLink (baseMode (w.chan.mode.mode .delJoins)) set param) w.chan.members
        refine ih _ (sound.joined grows fun unset => kept fun e mem => ?_) fun unset =>
          ⟨(fresh unset).add, (fresh unset).rem⟩
        refine Bool.eq_false_of_not_eq_true fun hidden => ?_
        have under := readNicks_delayed e mem hidden
        rw [baseMode, unset] at under
        cases under

omit [DecidableEq Client] in
theorem startBurst_sound (hides : chan.Hides) (site : ModeSite Client) (wipeout : Bool) (timestamp : Int) :
    (startBurst site wipeout timestamp chan).Sound := by
  have hidden : (chan.members.map fun m => { m with status := m.status.unjoined }).any (·.status.delayed) =
      chan.members.any (·.status.delayed) := List.any_map
  have joined (f : Flag) (other : f ≠ .burstAdded) :
      (if chan.creationTime = 0 then chan.mode.mode.or (.only .burstAdded) else chan.mode.mode) f =
        chan.mode.mode f := by
    split
    · simp [other]
    · rfl
  cases wipeout with
  | true =>
    obtain ⟨add, rem⟩ := modebufMode_init site.me site.localChannel
      { Dest.none with channel := true, noKey := true } chan.mode.mode
    refine sound_without hides add ?_ ?_ ?_ ?_ []
    · rw [rem]
      simp [prepare]
    · simp [prepare]
    · simp [prepare, joined]
    · exact hidden
  | false =>
    refine (Channel.Beside.calm ?_ []).sound ((fresh_init chan site.me site.localChannel _).sound hides)
    exact ⟨rfl, joined _ (by decide), joined _ (by decide), hidden⟩

omit [DecidableEq Client] in
theorem burstMember_calm (names : Names Client) (wipeout : Bool) (w : ModeWork Client) (m : Membership Client) :
    w.Calm (burstMember names wipeout w m) := by
  have told (add : Bool) (mode : MemberMode) (w : ModeWork Client) :
      w.Calm (w.client names add mode m.user m.opLevel) := ModeWork.client_calm _ _ _ _ _ _
  unfold burstMember
  dsimp only
  split
  · exact ((ModeWork.Calm.refl w).optional _ (told _ _ _)).optional _ (told _ _ _)
  split
  · exact ((ModeWork.Calm.refl w).optional _ (told _ _ _)).optional _ (told _ _ _)
  · exact .refl w

omit [DecidableEq Client] in
theorem burstBan_calm (names : Names Client) (w : ModeWork Client) (ban : Ban) : w.Calm (burstBan names w ban) := by
  unfold burstBan
  split
  · exact ModeWork.string_calm _ _ _ _ _ _
  split
  · exact ModeWork.string_calm _ _ _ _ _ _
  · exact .refl w

omit [DecidableEq Client] in
theorem endBurst_calm (names : Names Client) (wipeout : Bool) (w : ModeWork Client) :
    w.Calm (endBurst names wipeout w) := by
  have members := @foldl_calm _ _ _ id _ (burstMember_calm names wipeout) w.chan.members w
  have bans := @foldl_calm _ _ _ id _ (burstBan_calm names)
    (w.chan.members.foldl (burstMember names wipeout) w).chan.banlist (w.chan.members.foldl (burstMember names wipeout) w)
  refine (members.trans bans).edited rfl rfl ?_
  exact List.any_map.trans (congrArg _ (funext fun m => by dsimp only [Function.comp_apply]; split <;> rfl))

theorem readBurstModes_hides (hides : chan.Hides) {site : ModeSite Client} {source : ModeSource Client}
    {timestamp : Int} {params : List (List Char)}
    (reads : readBurstModes site source chan timestamp params = some w) : w.chan.Hides := by
  unfold readBurstModes at reads
  dsimp only at reads
  generalize (decide (chan.creationTime = 0) || decide (chan.creationTime > timestamp)) = wipeout at reads
  generalize later : decide (chan.creationTime = timestamp) = same at reads
  obtain ⟨sound, fresh⟩ := burstWork_sound site source (wipeout || same) wipeout params.length params
    (startBurst_sound hides site wipeout timestamp) fun unset => by
      obtain ⟨rfl, -⟩ := Bool.or_eq_false_iff.mp unset
      exact ⟨rfl, rfl⟩
  split at reads
  · exact ((endBurst_calm _ _ _).sound sound).flush reads
  next unset =>
    obtain rfl := Option.some.inj reads
    exact sound.hides (fresh (Bool.eq_false_of_not_eq_true unset))

omit [DecidableEq Client] in
theorem kickNetRiders_hides (hides : chan.Hides) (link : Link Client) (check : RideCheck) :
    ∀ left ∈ kickNetRiders link check chan, left.Hides := by
  unfold kickNetRiders
  split
  · rintro left ⟨⟩
    exact hides
  split
  · exact lastGone_hides (dropMembers_hides hides _) (dropAll_members _)
  · rintro left ⟨⟩
    exact dropMembers_hides hides _

omit [DecidableEq Client] in
theorem netRide_hides (hides : chan.Hides) (link : Link Client) (params : List (List Char)) :
    match netRide link chan params with
    | .error gone => ∀ left ∈ gone, left.Hides
    | .ok kept => ∀ left ∈ kept, left.Hides := by
  have stays : ∀ left ∈ some chan, left.Hides := by
    rintro left ⟨⟩
    exact hides
  unfold netRide
  cases params.dropWhile (peek · ≠ '+') with
  | nil => exact stays
  | cons modes args =>
    dsimp only
    cases netrideModes chan.mode.key ⟨false, false, false⟩ modes args with
    | none =>
      dsimp only
      split
      next empty => exact lastGone_hides hides empty
      · exact stays
    | some check => exact kickNetRiders_hides hides link check

omit [DecidableEq Client] in
theorem newChannel_hides : (newChannel : Channel Client).Hides := rfl

theorem msBurstModes_hides {site : ModeSite Client} {source : ModeSource Client} {found left : Option (Channel Client)}
    {parv : List (List Char)} (hides : ∀ chan ∈ found, chan.Hides)
    (reads : msBurstModes site source found parv = some left) : ∀ chan ∈ left, chan.Hides := by
  have now : (found.getD newChannel).Hides := by
    cases found with
    | none => exact newChannel_hides
    | some chan => exact hides chan rfl
  have read {chan : Channel Client} (hides : chan.Hides) {timestamp : Int} {params : List (List Char)}
      (reads : (readBurstModes site source chan timestamp params).map (fun w => some w.chan) = some left) :
      ∀ chan ∈ left, chan.Hides := by
    obtain ⟨w, burst, rfl⟩ := Option.map_eq_some_iff.mp reads
    rintro chan ⟨⟩
    exact readBurstModes_hides hides burst
  unfold msBurstModes at reads
  split at reads
  next name ts params =>
    split at reads
    · dsimp only at reads
      have timed : ({ found.getD newChannel with
          creationTime := (burstTimes (found.getD newChannel) (atoi ts) params).2 } : Channel Client).Hides := now
      split at reads
      · have rides := netRide_hides timed site.toLink params
        split at reads
        next gone ends =>
          rw [ends] at rides
          obtain rfl := Option.some.inj reads
          exact rides
        next kept ends =>
          rw [ends] at rides
          refine read ?_ reads
          cases kept with
          | none => exact newChannel_hides
          | some chan => exact rides chan rfl
      · exact read timed reads
    · obtain rfl := Option.some.inj reads
      exact hides
  · obtain rfl := Option.some.inj reads
    exact hides

end

/-! ### The runs -/

/-- A MODE that is not set asks for `D` while the flag is set. -/
def ChannelEvent.Confuses (chan : Channel Client) : ChannelEvent Client → Prop
  | .mode _ handler source _ modestr args =>
    handler.bounces source.bursting chan.creationTime modestr args = true ∧
      chan.mode.mode .wasDelJoins = true ∧ delJoinsAsked .add none modestr = some .add
  | _ => False

theorem ChannelEvent.leaves_hides {chan : Channel Client} (hides : chan.Hides) {event : ChannelEvent Client}
    {left : Option (Channel Client)} (goes : event.leaves chan = some left) :
    (∀ chan' ∈ left, chan'.Hides) ↔ ¬event.Confuses chan := by
  have one {chan' : Channel Client} (hides' : chan'.Hides) (same : some chan' = left) : ∀ chan' ∈ left, chan'.Hides := by
    subst same
    rintro chan' ⟨⟩
    exact hides'
  cases event with
  | create creation => exact iff_of_true (one hides (Option.some.inj goes)) id
  | stamp creation =>
    have stamped : ({ chan with creationTime := creation } : Channel Client).Hides := hides
    exact iff_of_true (one stamped (Option.some.inj goes)) id
  | reset site sptr creation =>
    obtain ⟨chan', resets, same⟩ := Option.map_eq_some_iff.mp goes
    exact iff_of_true (one (resetModes_hides hides resets) same) id
  | join user status manager =>
    exact iff_of_true (one (joinUser_hides hides user status manager) (Option.some.inj goes)) id
  | part oplevels user =>
    obtain rfl := Option.some.inj goes
    exact iff_of_true (removeUser_hides hides oplevels user) id
  | kick oplevels user fromServer which =>
    obtain rfl := Option.some.inj goes
    exact iff_of_true (kickUser_hides hides oplevels user fromServer which) id
  | reveal user => exact iff_of_true (one (revealIfNeeded_hides hides user) (Option.some.inj goes)) id
  | mode site handler source dest modestr args =>
    obtain ⟨w, message, rfl⟩ := Option.map_eq_some_iff.mp goes
    have kept := modeMessage_hides handler dest hides message
    constructor
    · rintro all ⟨bounces, was, asked⟩
      exact kept.mp (all w.chan rfl) bounces was asked
    · intro clear
      exact one (kept.mpr fun bounces was asked => clear ⟨bounces, was, asked⟩) rfl
  | burst site source parv =>
    refine iff_of_true (msBurstModes_hides ?_ goes) id
    rintro chan' ⟨⟩
    exact hides
  | endOfBurst oplevels =>
    obtain rfl := Option.some.inj goes
    exact iff_of_true (burstEnded_hides hides oplevels) id
  | clearmode names source name bits control =>
    obtain ⟨cleared, clears, same⟩ := Option.map_eq_some_iff.mp goes
    exact iff_of_true (one (doClearmode_hides hides clears) same) id
  | tell names source localChannel dest changes =>
    obtain ⟨w, tells, same⟩ := Option.map_eq_some_iff.mp goes
    exact iff_of_true (one (tellMembers_hides hides tells) same) id
  | destruct site sptr =>
    dsimp only [ChannelEvent.leaves] at goes
    split at goes
    · obtain rfl := Option.some.inj goes
      exact iff_of_true nofun id
    · obtain ⟨w, bounces, same⟩ := Option.map_eq_some_iff.mp goes
      exact iff_of_true (one (bounceModes_hides hides bounces) same) id

theorem ChannelEvent.step_hides {chan left : Option (Channel Client)} (hides : ∀ c ∈ chan, c.Hides)
    {event : ChannelEvent Client} (goes : event.step chan = some left) :
    (∀ c ∈ left, c.Hides) ↔ ∀ c ∈ chan, ¬event.Confuses c := by
  cases chan with
  | some chan =>
    refine (leaves_hides (hides chan rfl) goes).trans ⟨?_, fun clear => clear chan rfl⟩
    rintro clear c ⟨⟩
    exact clear
  | none =>
    refine iff_of_true ?_ nofun
    cases event with
    | create creation =>
      obtain rfl := Option.some.inj goes
      rintro c ⟨⟩
      exact newChannel_hides
    | burst site source parv => exact msBurstModes_hides hides goes
    | _ =>
      obtain rfl := Option.some.inj goes
      exact nofun

omit [DecidableEq Client] in
theorem Channel.hides_iff (chan : Channel Client) :
    chan.Hides ↔ (chan.mode.mode .wasDelJoins = true ↔
      chan.mode.mode .delJoins = false ∧ ∃ m ∈ chan.members, m.status.delayed = true) := by
  rw [Channel.Hides, Bool.eq_iff_iff, Bool.and_eq_true, Bool.not_eq_true', findDelayedJoins, List.any_eq_true]

def Unconfused : Option (Channel Client) → List (ChannelEvent Client × Option (Channel Client)) → Prop
  | _, [] => True
  | chan, (event, left) :: later => (∀ c ∈ chan, ¬event.Confuses c) ∧ Unconfused left later

theorem ChannelEvent.trace_hides {chan : Option (Channel Client)} {events : List (ChannelEvent Client)}
    {trace : List (ChannelEvent Client × Option (Channel Client))} (runs : ChannelEvent.trace chan events = some trace)
    (hides : ∀ c ∈ chan, c.Hides) : (∀ after ∈ trace, ∀ c ∈ after.2, c.Hides) ↔ Unconfused chan trace := by
  induction events generalizing chan trace with
  | nil =>
    obtain rfl := Option.some.inj runs
    exact iff_of_true (fun _ mem => absurd mem List.not_mem_nil) trivial
  | cons event events ih =>
    rw [ChannelEvent.trace] at runs
    obtain ⟨left, goes, runs⟩ := Option.bind_eq_some_iff.mp runs
    obtain ⟨later, rest, same⟩ := Option.bind_eq_some_iff.mp runs
    obtain rfl := Option.some.inj same
    rw [List.forall_mem_cons, Unconfused, ← ChannelEvent.step_hides hides goes]
    exact ⟨fun ⟨now, behind⟩ => ⟨now, (ih rest now).mp behind⟩, fun ⟨now, behind⟩ => ⟨now, (ih rest now).mpr behind⟩⟩

theorem unconfused_of {chan : Option (Channel Client)} {events : List (ChannelEvent Client)}
    {trace : List (ChannelEvent Client × Option (Channel Client))} (runs : ChannelEvent.trace chan events = some trace)
    (quiet : ∀ event ∈ events, ∀ c, ¬event.Confuses c) : Unconfused chan trace := by
  induction events generalizing chan trace with
  | nil =>
    obtain rfl := Option.some.inj runs
    trivial
  | cons event events ih =>
    rw [ChannelEvent.trace] at runs
    obtain ⟨left, goes, runs⟩ := Option.bind_eq_some_iff.mp runs
    obtain ⟨later, rest, same⟩ := Option.bind_eq_some_iff.mp runs
    obtain rfl := Option.some.inj same
    exact ⟨fun c _ => quiet event List.mem_cons_self c, ih rest fun e mem => quiet e (List.mem_cons_of_mem _ mem)⟩

/-- In every run from the start, the flag is what it is for behind every event if and only if no MODE that is
not set asks for `D` while it is set. -/
theorem delayed_joins_flagged {events : List (ChannelEvent Client)}
    {trace : List (ChannelEvent Client × Option (Channel Client))} (runs : ChannelEvent.trace none events = some trace) :
    (∀ after ∈ trace, ∀ chan ∈ after.2,
        (chan.mode.mode .wasDelJoins = true ↔
          chan.mode.mode .delJoins = false ∧ ∃ m ∈ chan.members, m.status.delayed = true)) ↔
      Unconfused none trace := by
  rw [← ChannelEvent.trace_hides runs nofun]
  exact forall₂_congr fun after _ => forall₂_congr fun chan _ => chan.hides_iff.symm

/-! ### A run -/

def plainSite : ModeSite Nat :=
  { world := ⟨fun _ => none, id, fun _ => false, fun _ _ => false, 0⟩
    behind := fun _ => true
    myUser := fun _ => false
    isAnOper := fun _ => false
    isAccount := fun _ => false
    mmatch := fun _ _ => false
    oplevels := false
    me := 9
    names := ⟨fun _ => ['n'], fun _ => ['A', 'B', 'A', 'A', 'A']⟩
    findChasing := fun _ => none
    channelService := fun _ => false
    deopLchan := fun _ => false
    avBanLen := 40
    maxBans := 45
    localChannel := false }

def plainUser (sptr : Nat) : ModeSource Nat := ⟨sptr, true, false, false, false, false, false, true, false⟩

/-- An operator sets `D`, somebody joins, and the operator removes `D`. -/
def hiddenJoin : List (ChannelEvent Nat) :=
  [.create 1, .join 0 { noStatus with chanop := true } false,
    .mode plainSite .chanop (plainUser 0) { Dest.none with channel := true, server := true } ['+', 'D'] [],
    .join 1 { noStatus with deopped := true } false,
    .mode plainSite .chanop (plainUser 0) { Dest.none with channel := true, server := true } ['-', 'D'] []]

theorem delayed_joins_flagged_hidden : ∃ trace, ChannelEvent.trace none hiddenJoin = some trace ∧
    ∀ after ∈ trace, ∀ chan ∈ after.2,
      (chan.mode.mode .wasDelJoins = true ↔
        chan.mode.mode .delJoins = false ∧ ∃ m ∈ chan.members, m.status.delayed = true) := by
  have runs : (ChannelEvent.trace none hiddenJoin).isSome = true := by decide +kernel
  obtain ⟨trace, runs⟩ := Option.isSome_iff_exists.mp runs
  refine ⟨trace, runs, (delayed_joins_flagged runs).mpr (unconfused_of runs ?_)⟩
  simp [hiddenJoin, ChannelEvent.Confuses, ModeHandler.bounces]

/-- The member that joined, who is no operator, asks for `D` on another server. -/
def bouncedDelJoins : List (ChannelEvent Nat) :=
  hiddenJoin ++ [.mode plainSite .bounce (plainUser 1)
    { Dest.none with server := true, hack2 := true, deop := true, bounce := true } ['+', 'D'] []]

theorem hidden_unflagged : ¬∀ (events : List (ChannelEvent Nat)) (trace : List (ChannelEvent Nat × Option (Channel Nat))),
    ChannelEvent.trace none events = some trace → ∀ after ∈ trace, ∀ chan ∈ after.2,
      (chan.mode.mode .wasDelJoins = true ↔
        chan.mode.mode .delJoins = false ∧ ∃ m ∈ chan.members, m.status.delayed = true) := by
  intro flagged
  have wrong : (ChannelEvent.trace none bouncedDelJoins).any (fun trace => trace.any fun after => after.2.any fun chan =>
      !chan.mode.mode .wasDelJoins && (!chan.mode.mode .delJoins && findDelayedJoins chan)) = true := by decide +kernel
  cases runs : ChannelEvent.trace none bouncedDelJoins with
  | none =>
    rw [runs] at wrong
    cases wrong
  | some trace =>
    rw [runs] at wrong
    obtain ⟨after, mem, wrong⟩ := List.any_eq_true.mp wrong
    cases left : after.2 with
    | none =>
      rw [left] at wrong
      cases wrong
    | some chan =>
      rw [left] at wrong
      have right := (flagged bouncedDelJoins trace runs after mem chan left).mpr
      simp only [Option.any_some, Bool.and_eq_true, Bool.not_eq_true', findDelayedJoins, List.any_eq_true] at wrong
      obtain ⟨unset, off, hidden⟩ := wrong
      rw [right ⟨off, hidden⟩] at unset
      cases unset

end Ircd.Channels

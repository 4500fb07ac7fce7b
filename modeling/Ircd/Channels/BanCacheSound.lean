import Ircd.Channels.BanCacheRooms
import Ircd.Channels.BanCover

/-! The bits of `is_banned` and what `find_ban` would say, over whole runs.

The bits of a member that is here are right as long as they are valid. What changes the names of a
user takes them away, but for the account flag: a user mode sets and clears it, and it goes with
the nick.
-/

set_option autoImplicit false

namespace Ircd.Channels
open Ircd.Text Ircd.Match Ircd.Net

section
variable {Chan Client : Type} [DecidableEq Chan] [DecidableEq Client] {conf : Settings Client} {s : Crowd Chan Client}

structure Crowd.Sound (conf : Settings Client) (s : Crowd Chan Client) : Prop where
  agrees : ∀ c, (s.room c).Agrees conf.hidden s.user s.myUser
  stands : ∀ c, (s.room c).Stands false
  hosts : ∀ u, s.myUser u = true → (s.user u).hiddenHost = false → (s.user u).host = (s.user u).realhost

def Crowd.Uncached (s : Crowd Chan Client) (u : Client) : Prop :=
  ∀ c, (s.room c).Present u → ((s.room c).bits u).banValid = false

omit [DecidableEq Client] in
theorem Crowd.Sound.setRoom (sound : s.Sound conf) {c : Chan} {room : Room Client}
    (agrees : room.Agrees conf.hidden s.user s.myUser) (stands : room.Stands false) : (s.setRoom c room).Sound conf := by
  refine ⟨fun d => ?_, fun d => ?_, sound.hosts⟩
  · rw [Crowd.room_setRoom]
    split
    · exact agrees
    · exact sound.agrees d
  · rw [Crowd.room_setRoom]
    split
    · exact stands
    · exact sound.stands d

omit [DecidableEq Chan] in
/-- A user that no ban sees differently, whose bits are not valid, or who is not of this server. -/
theorem Crowd.Sound.setUser (sound : s.Sound conf) {u : Client} {view : UserView}
    (unseen : s.myUser u = true →
      (∀ ban : Ban, ban.hits conf.hidden view = ban.hits conf.hidden (s.user u)) ∨ s.Uncached u)
    (hosts : s.myUser u = true → view.hiddenHost = false → view.host = view.realhost) : (s.setUser u view).Sound conf := by
  refine ⟨fun c v mine present valid => ?_, sound.stands, fun v mine => ?_⟩
  · rw [Crowd.user_setUser]
    split <;> rename_i same
    · subst same
      rcases unseen mine with alike | uncached
      · rw [findBan_view conf.hidden alike]
        exact sound.agrees c v mine present valid
      · exact absurd (valid.symm.trans (uncached c present)) Bool.true_eq_false_eq_False
    · exact sound.agrees c v mine present valid
  · rw [Crowd.user_setUser]
    split <;> rename_i same
    · exact hosts (same ▸ mine)
    · exact sound.hosts v mine

omit [DecidableEq Chan] in
theorem Crowd.Sound.clearBanValid (sound : s.Sound conf) (u : Client) :
    (s.clearBanValid u).Sound conf ∧ (s.clearBanValid u).Uncached u := by
  refine ⟨⟨fun c => (sound.agrees c).clearBanValid u, sound.stands, sound.hosts⟩, fun c _ => ?_⟩
  have bits : ((s.clearBanValid u).room c).bits u = { (s.room c).bits u with banValid := false } :=
    ((s.room c).bits_setBits u u _).trans (if_pos rfl)
  rw [bits]

theorem Crowd.Sound.isBanned (sound : s.Sound conf) (c : Chan) (u : Client) : (s.isBanned conf c u).1.Sound conf := by
  unfold Crowd.isBanned
  dsimp only
  split
  · exact sound
  · refine sound.setRoom (fun v mine present valid => ?_) (sound.stands c)
    rw [Room.bits_setBits] at valid ⊢
    split at valid <;> rename_i same
    · rw [if_pos same, same]
      rfl
    · rw [if_neg same]
      exact sound.agrees c v mine present valid

theorem Crowd.Sound.isBanned_eq (sound : s.Sound conf) {c : Chan} {u : Client} (mine : s.myUser u = true)
    (present : (s.room c).Present u) : (s.isBanned conf c u).2 = (s.findBan conf c u).isSome := by
  unfold Crowd.isBanned
  dsimp only
  split <;> rename_i valid
  · exact sound.agrees c u mine present valid
  · rfl

omit [DecidableEq Chan] in
theorem Crowd.Sound.hideHost (sound : s.Sound conf) (u : Client) (shown : (s.user u).hiddenHost = false) :
    (s.hideHost conf u).Sound conf := by
  unfold Crowd.hideHost
  split
  · exact sound
  · refine sound.setUser (fun mine => .inl (hits_hide conf.hidden shown (sound.hosts u mine shown))) fun _ hidden => ?_
    rw [UserView.hide_hiddenHost] at hidden
    cases hidden

omit [DecidableEq Chan] in
theorem Crowd.Sound.msAccount (sound : s.Sound conf) (u : Client) (account : AccountName) :
    (s.msAccount conf u account).Sound conf := by
  unfold Crowd.msAccount
  split <;> rename_i known
  · exact sound
  · have none_yet : (s.user u).isAccount = false := Bool.eq_false_iff.mpr known
    have named : (s.setUser u ((s.user u).setAccount account)).Sound conf := by
      refine sound.setUser (fun _ => .inl fun ban => ?_) (sound.hosts u)
      unfold UserView.setAccount Ban.hits Ban.hitsHost UserView.sr
      simp only [none_yet, Bool.not_false, if_true]
      rfl
    obtain ⟨cleared, uncached⟩ := named.clearBanValid u
    have at_u : (s.setUser u ((s.user u).setAccount account)).user u = (s.user u).setAccount account :=
      (s.user_setUser u u _).trans (if_pos rfl)
    refine cleared.setUser (fun _ => .inr uncached) fun mine shown => ?_
    rw [UserView.hide_hiddenHost] at shown
    rw [UserView.hide_of_shown conf.hidden shown]
    rw [at_u] at shown ⊢
    exact sound.hosts u mine shown

omit [DecidableEq Chan] in
theorem Crowd.Sound.setNickName (sound : s.Sound conf) (u : Client) (nick : NickName) :
    (s.setNickName u nick).Sound conf := by
  unfold Crowd.setNickName
  cases mine : s.myUser u with
  | true =>
    obtain ⟨cleared, uncached⟩ := sound.clearBanValid u
    rw [if_pos rfl]
    exact cleared.setUser (fun _ => .inr uncached) (sound.hosts u)
  | false =>
    rw [if_neg Bool.false_ne_true]
    exact sound.setUser (fun is_mine => absurd (is_mine.symm.trans mine) Bool.true_eq_false_eq_False) (sound.hosts u)

/-- An event that takes the bits away where it has to. The account flag of a user of this server changes
by a user mode, or goes with its nick, only while its bits are not valid; a MODE line leaves no ban of
the parser; a burst that marks bans of the list makes one or wipes out. -/
def Crowd.Careful (conf : Settings Client) (s : Crowd Chan Client) : CacheEvent Chan Client → Prop
  | .mode c _ items ending => Lasting (bmatch conf.link.mmatch) (s.room c).chan.banlist items ending
  | .burst c timestamp params =>
    ((s.room c).timed timestamp params).1.BurstKeeps conf ((s.room c).timed timestamp params).2 params
  | .userMode u trusted letters =>
    s.myUser u = true →
      (readLetters conf.ddb trusted (s.user u) letters).isAccount = (s.user u).isAccount ∨ s.Uncached u
  | .nickDropped u => s.myUser u = true → (s.user u).isAccount = false ∨ s.Uncached u
  | _ => True

omit [DecidableEq Chan] in
theorem Crowd.Sound.setUserMode (sound : s.Sound conf) (u : Client) (trusted : Bool) (letters : List UserLetter)
    (careful : s.Careful conf (.userMode u trusted letters)) : (s.setUserMode conf u trusted letters).Sound conf := by
  have kept_or_uncached : s.myUser u = true →
      (readLetters conf.ddb trusted (s.user u) letters).isAccount = (s.user u).isAccount ∨ s.Uncached u := careful
  unfold Crowd.setUserMode
  extract_lets old modes plain view now
  have same_host : view.host = old.host ∧ view.realhost = old.realhost ∧ view.hiddenHost = old.hiddenHost := by
    unfold view
    split
    · split
      · exact ⟨rfl, rfl, rfl⟩
      · exact ⟨rfl, rfl, rfl⟩
    · exact ⟨rfl, rfl, rfl⟩
  obtain ⟨host, realhost, hiddenHost⟩ := same_host
  have unseen : s.myUser u = true →
      (∀ ban : Ban, ban.hits conf.hidden view = ban.hits conf.hidden (s.user u)) ∨ s.Uncached u := by
    intro mine
    refine (kept_or_uncached mine).imp_left fun same ban => ?_
    have unchanged : view = s.user u := by
      have none_new : (!conf.ddb && !old.isAccount && modes.isAccount) = false := by
        rw [same, Bool.and_assoc, Bool.not_and_self, Bool.and_false]
      unfold view plain
      rw [none_new, same]
      rfl
    rw [unchanged]
  have changed : (s.setUser u view).Sound conf := by
    refine sound.setUser unseen fun mine shown => ?_
    rw [host, realhost]
    exact sound.hosts u mine (hiddenHost ▸ shown)
  split <;> rename_i hides
  · refine changed.hideHost u ?_
    rw [Crowd.user_setUser, if_pos rfl, hiddenHost]
    exact (Bool.not_eq_true' _).mp (Bool.and_eq_true_iff.mp hides).1
  · exact changed

omit [DecidableEq Chan] in
theorem Crowd.Sound.nickregClearMode (sound : s.Sound conf) (u : Client)
    (careful : s.Careful conf (.nickDropped u)) : (s.nickregClearMode u).Sound conf := by
  refine sound.setUser (fun mine => (careful mine).imp_left fun none_yet ban => ?_) (sound.hosts u)
  have unchanged : { s.user u with isAccount := false } = s.user u := by rw [← none_yet]
  rw [unchanged]

theorem Crowd.Sound.step (sound : s.Sound conf) (event : CacheEvent Chan Client) (careful : s.Careful conf event) :
    (s.step conf event).Sound conf := by
  cases event with
  | isBanned c u => exact sound.isBanned c u
  | join c u status => exact sound.setRoom ((sound.agrees c).join u status) (sound.stands c)
  | leave c u =>
    obtain ⟨fewer, -⟩ := removeUser_leaves conf.oplevels u (s.room c).chan
    exact sound.setRoom ((sound.agrees c).leave conf u) fun ban mem => sound.stands c ban (fewer mem)
  | makeZombie c u => exact sound.setRoom ((sound.agrees c).makeZombie u) (sound.stands c)
  | mode c limits items ending =>
    exact sound.setRoom ((sound.agrees c).modeBans (sound.stands c) conf limits items ending careful)
      ((sound.stands c).modeBans conf limits items ending)
  | burst c timestamp params =>
    have timed : ((s.room c).timed timestamp params).1.Agrees conf.hidden s.user s.myUser := sound.agrees c
    have stands : ((s.room c).timed timestamp params).1.Stands false := sound.stands c
    obtain ⟨agrees', stands'⟩ := Room.timedBurst_good timed stands conf _ params careful
    exact sound.setRoom agrees' stands'
  | clearMode c bans chanops voices =>
    refine sound.setRoom ((sound.agrees c).clearMode bans chanops voices) fun ban mem => ?_
    unfold Room.clearMode at mem
    dsimp only at mem
    split at mem
    · exact absurd mem List.not_mem_nil
    · exact sound.stands c ban mem
  | nick u nick => exact sound.setNickName u nick
  | account u account => exact sound.msAccount u account
  | userMode u trusted letters => exact sound.setUserMode u trusted letters careful
  | nickDropped u => exact sound.nickregClearMode u careful

def Crowd.RunCareful (conf : Settings Client) : Crowd Chan Client → List (CacheEvent Chan Client) → Prop
  | _, [] => True
  | s, event :: events => s.Careful conf event ∧ (s.step conf event).RunCareful conf events

theorem Crowd.Sound.run (sound : s.Sound conf) {events rest : List (CacheEvent Chan Client)}
    (careful : s.RunCareful conf (events ++ rest)) : (s.run conf events).Sound conf := by
  induction events generalizing s with
  | nil => exact sound
  | cons event events ih => exact ih (sound.step event careful.1) careful.2

/-- Before anyone is looked at: bans as they are kept, and users that show their own host. -/
structure Crowd.Fresh (s : Crowd Chan Client) : Prop where
  invalid : ∀ c u, ((s.room c).bits u).banValid = false
  stands : ∀ c, (s.room c).Stands false
  hosts : ∀ u, s.myUser u = true → (s.user u).hiddenHost = false → (s.user u).host = (s.user u).realhost

/-- In a run whose events are careful the valid bits of the members of this server are what `find_ban`
says, in every state, and so is what `is_banned` answers. -/
theorem ban_cache_right (conf : Settings Client) {s : Crowd Chan Client} (fresh : s.Fresh)
    {events rest : List (CacheEvent Chan Client)} (careful : s.RunCareful conf (events ++ rest)) (c : Chan) (u : Client) :
    let now := s.run conf events
    now.myUser u = true → (now.room c).Present u →
      (((now.room c).bits u).banValid = true → ((now.room c).bits u).banned = (now.findBan conf c u).isSome) ∧
        (now.isBanned conf c u).2 = (now.findBan conf c u).isSome := by
  intro now mine present
  have start : s.Sound conf := ⟨fun c => .of_invalid fun u _ => fresh.invalid c u, fresh.stands, fresh.hosts⟩
  have sound : now.Sound conf := start.run careful
  exact ⟨sound.agrees c u mine present, sound.isBanned_eq mine present⟩

end

def hiddenH : CString := ⟨['h'], by decide, by decide⟩

def accountUser : UserView := { atTenOne with
  account := ⟨['q', 'x'], by decide, by decide⟩
  isAccount := true
  account_fits := by decide }

def plainSettings : Settings Unit where
  ddb := true
  hostHiding := true
  oplevels := false
  hidden := hiddenH
  link := ⟨⟨fun _ => none, id, fun _ => false, fun _ _ => false, 0⟩, fun _ => false, fun _ => true, fun _ => false,
    fun _ => true, fun old new => mmatch old new = some 0, false⟩

def accountBan : Ban := ⟨"*!*@qx.h".toList, ['*'], 0, ⟨false, false, false, false, false, false, false⟩⟩

def accountCrowd : Crowd Unit Unit where
  myUser _ := true
  user _ := accountUser
  room _ := ⟨⟨100, ⟨.none, 0, [], [], []⟩, [], [accountBan]⟩, fun _ => ⟨false, false⟩⟩

theorem accountCrowd_fresh : accountCrowd.Fresh := by
  refine ⟨fun _ _ => rfl, fun _ ban mem => ?_, fun _ _ _ => rfl⟩
  rw [List.mem_singleton.mp mem]
  exact ⟨rfl, fun wipeout => absurd wipeout Bool.false_ne_true⟩

/-- After a BURST of the same age and a change of nick the member is looked at again. -/
theorem ban_cache_right_nick :
    let now := accountCrowd.run plainSettings
      [.join () () noStatus, .isBanned () (), .burst () 100 [], .nick () ⟨hiddenH, by decide, by decide⟩, .isBanned () ()]
    (now.isBanned plainSettings () ()).2 = (now.findBan plainSettings () ()).isSome := by
  have careful : accountCrowd.RunCareful plainSettings
      ([.join () () noStatus, .isBanned () (), .burst () 100 [], .nick () ⟨hiddenH, by decide, by decide⟩,
        .isBanned () ()] ++ []) := by
    refine ⟨trivial, trivial, ⟨trivial, fun _ => .inr (.inr fun ban mem => ?_)⟩, trivial, trivial, trivial⟩
    rw [List.mem_singleton.mp mem]
    rfl
  exact (ban_cache_right plainSettings accountCrowd_fresh careful () () rfl
    ⟨_, List.mem_cons_self, rfl, rfl⟩).2

theorem accountBan_hits : accountBan.hits hiddenH accountUser = true := by
  have parts : nuPart accountBan.banstr = ['*', '!', '*'] ∧ accountUser.nu = ['a', '!', 'b'] ∧
      hostPart accountBan.banstr = ['q', 'x', '.', 'h'] ∧ accountUser.sr hiddenH = some ['q', 'x', '.', 'h'] := by
    decide +kernel
  have nu : ircMatch ['*', '!', '*'] ['a', '!', 'b'] = 0 :=
    (ircMatch_decides (by decide) (by decide) rfl).mpr (.more (.skip (.lit rfl (.more (.skip .nil)))))
  have host : ircMatch ['q', 'x', '.', 'h'] ['q', 'x', '.', 'h'] = 0 :=
    (ircMatch_decides (by decide) (by decide) rfl).mpr (.lit rfl (.lit rfl (.lit rfl (.lit rfl .nil))))
  unfold Ban.hits Ban.hitsHost
  rw [parts.1, parts.2.1, parts.2.2.1, parts.2.2.2, nu, Option.any_some, host]
  simp

theorem accountBan_misses : accountBan.hits hiddenH { accountUser with isAccount := false } = false := by
  have parts : hostPart accountBan.banstr = ['q', 'x', '.', 'h'] ∧ accountUser.host.chars = ['c'] ∧
      ircdNtoaR accountUser.ip = ['1', '0', '.', '1', '.', '2', '.', '3'] ∧
      accountBan.takesAddress accountUser.ip = false := by
    decide +kernel
  obtain ⟨pattern, host_text, address_text, outside⟩ := parts
  have host : ircMatch ['q', 'x', '.', 'h'] ['c'] ≠ 0 := by
    intro hit
    cases (ircMatch_decides (by decide) (by decide) rfl).mp hit with
    | lit same _ => exact absurd same (by decide)
  have address : ircMatch ['q', 'x', '.', 'h'] ['1', '0', '.', '1', '.', '2', '.', '3'] ≠ 0 := by
    intro hit
    cases (ircMatch_decides (by decide) (by decide) rfl).mp hit with
    | lit same _ => exact absurd same (by decide)
  have no_account : UserView.sr hiddenH { accountUser with isAccount := false } = none := rfl
  have off : accountBan.hitsHost hiddenH { accountUser with isAccount := false } = false := by
    unfold Ban.hitsHost
    rw [no_account, pattern]
    simp only [host_text, address_text, outside, host, address, Option.any_none, decide_false, Bool.or_false]
  rw [Ban.hits, off, Bool.and_false]

/-- The account goes by a user mode, the bits stay: the member is refused, and no ban of the list is on it. -/
theorem dropped_account_stays_banned :
    let now := accountCrowd.run plainSettings
      [.join () () noStatus, .isBanned () (), .userMode () false [.r false none]]
    now.myUser () = true ∧ (now.room ()).Present () ∧ ((now.room ()).bits ()).banValid = true ∧
      (now.isBanned plainSettings () ()).2 = true ∧ now.findBan plainSettings () () = none := by
  intro now
  have taken : findBan hiddenH accountUser [accountBan] = some accountBan := by
    simp only [findBan, findBanLoop, accountBan_hits, Option.isSome_none, Bool.false_and, Bool.not_true,
      Bool.false_eq_true, if_false]
    rfl
  have free : findBan hiddenH { accountUser with isAccount := false } [accountBan] = none := by
    simp only [findBan, findBanLoop, accountBan_misses, Option.isSome_none, Bool.false_and, Bool.not_false,
      Bool.false_eq_true, if_false, if_true]
  have bits : (now.room ()).bits () = ⟨true, (findBan hiddenH accountUser [accountBan]).isSome⟩ := rfl
  have valid : ((now.room ()).bits ()).banValid = true := by rw [bits]
  have banned : ((now.room ()).bits ()).banned = true := by rw [bits, taken]; rfl
  refine ⟨rfl, ⟨_, List.mem_cons_self, rfl, rfl⟩, valid, ?_, free⟩
  unfold Crowd.isBanned
  dsimp only
  rw [if_pos valid, banned]

end Ircd.Channels

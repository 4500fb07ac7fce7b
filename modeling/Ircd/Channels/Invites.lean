import Mathlib.Data.List.Nodup
import Mathlib.Data.UInt
import Mathlib.Logic.Function.Basic

/-! Invites: a list of users for each channel, and a list of channels with its length for each user.

The counter goes down where the user is taken off the list of the channel, and the two lists are searched
apart from each other. As long as each holds what the other one says, they agree.
-/

set_option autoImplicit false

namespace Ircd.Channels

/-- `chptr->invites`, and `invited` and `invites` of a `struct User`. -/
structure Invites (Chan Client : Type) where
  invites : Chan → List Client := fun _ => []
  invited : Client → List Chan := fun _ => []
  count : Client → UInt32 := fun _ => 0

section
variable {Chan Client : Type} [DecidableEq Chan] [DecidableEq Client]

def delInvite (s : Invites Chan Client) (cptr : Client) (chptr : Chan) : Invites Chan Client :=
  let s :=
    if cptr ∈ s.invites chptr then
      { s with
        invites := Function.update s.invites chptr ((s.invites chptr).erase cptr)
        count := Function.update s.count cptr (s.count cptr - 1) }
    else s
  { s with invited := Function.update s.invited cptr ((s.invited cptr).erase chptr) }

/-- The end of `add_invite`: the user comes first in the list of the channel, the channel last in that of
the user. -/
def linkInvite (s : Invites Chan Client) (cptr : Client) (chptr : Chan) : Invites Chan Client where
  invites := Function.update s.invites chptr (cptr :: s.invites chptr)
  invited := Function.update s.invited cptr (s.invited cptr ++ [chptr])
  count := Function.update s.count cptr (s.count cptr + 1)

/-- `add_invite`, with `FEAT_MAXCHANNELSPERUSER`. It fails at the `assert`, or where it takes the first
channel of a list that has none. -/
def addInvite (max : Int) (s : Invites Chan Client) (cptr : Client) (chptr : Chan) : Option (Invites Chan Client) :=
  let s := delInvite s cptr chptr
  let room :=
    if UInt32.ofNat (s.invited cptr).length ≠ s.count cptr then none
    else if s.count cptr ≥ UInt32.ofInt max then (s.invited cptr).head?.map (delInvite s cptr)
    else some s
  room.map fun s => linkInvite s cptr chptr

/-- The loop of `mode_invite_clear`, with fuel for each of its turns. -/
def clearLoop : Nat → Invites Chan Client → Chan → Invites Chan Client
  | 0, s, _ => s
  | fuel + 1, s, chan =>
    match s.invites chan with
    | [] => s
    | cptr :: _ => clearLoop fuel (delInvite s cptr chan) chan

def modeInviteClear (s : Invites Chan Client) (chan : Chan) : Invites Chan Client :=
  clearLoop (s.invites chan).length s chan

inductive InviteCall (Chan Client : Type) where
  | add (cptr : Client) (chptr : Chan)
  | del (cptr : Client) (chptr : Chan)
  | clear (chan : Chan)

def InviteCall.step (max : Int) (s : Invites Chan Client) : InviteCall Chan Client → Option (Invites Chan Client)
  | .add cptr chptr => addInvite max s cptr chptr
  | .del cptr chptr => some (delInvite s cptr chptr)
  | .clear chan => some (modeInviteClear s chan)

def InviteCall.run (max : Int) (s : Invites Chan Client) (calls : List (InviteCall Chan Client)) :
    Option (Invites Chan Client) :=
  calls.foldlM (InviteCall.step max) s

abbrev Invitations (Chan Client : Type) := Client → List Chan

def remember (limit : Nat) (chan : Chan) (queue : List Chan) : List Chan :=
  let others := queue.erase chan
  (if limit ≤ others.length then others.tail else others) ++ [chan]

def Invitations.step (limit : Nat) (q : Invitations Chan Client) : InviteCall Chan Client → Invitations Chan Client
  | .add cptr chptr => Function.update q cptr (remember limit chptr (q cptr))
  | .del cptr chptr => Function.update q cptr ((q cptr).erase chptr)
  | .clear chan => fun cptr => (q cptr).erase chan

structure Invites.Mutual (limit : Nat) (s : Invites Chan Client) : Prop where
  both : ∀ cptr chptr, chptr ∈ s.invited cptr ↔ cptr ∈ s.invites chptr
  channels : ∀ cptr, (s.invited cptr).Nodup
  users : ∀ chptr, (s.invites chptr).Nodup
  counted : ∀ cptr, (s.count cptr).toNat = (s.invited cptr).length
  bounded : ∀ cptr, (s.invited cptr).length ≤ limit

variable {limit : Nat} {s : Invites Chan Client}

omit [DecidableEq Chan] [DecidableEq Client] in
theorem mutual_start : Invites.Mutual limit ({} : Invites Chan Client) where
  both _ _ := iff_of_false List.not_mem_nil List.not_mem_nil
  channels _ := .nil
  users _ := .nil
  counted _ := rfl
  bounded _ := Nat.zero_le _

theorem delInvite_invited (s : Invites Chan Client) (cptr : Client) (chptr : Chan) :
    (delInvite s cptr chptr).invited = Function.update s.invited cptr ((s.invited cptr).erase chptr) := by
  unfold delInvite
  split
  · rfl
  · rfl

theorem delInvite_invites (s : Invites Chan Client) (cptr : Client) (chptr : Chan) :
    (delInvite s cptr chptr).invites = Function.update s.invites chptr ((s.invites chptr).erase cptr) := by
  unfold delInvite
  split <;> rename_i there
  · rfl
  · rw [List.erase_of_not_mem there, Function.update_eq_self]

section
variable {κ α : Type} [DecidableEq κ] [DecidableEq α] {table : κ → List α}

theorem mem_update_erase (nodup : ∀ k, (table k).Nodup) {k k' : κ} {a a' : α} :
    a' ∈ Function.update table k ((table k).erase a) k' ↔ (k' = k → a' ≠ a) ∧ a' ∈ table k' := by
  by_cases here : k' = k
  · subst here
    rw [Function.update_self, (nodup k').mem_erase_iff, forall_prop_of_true rfl]
  · rw [Function.update_of_ne here]
    exact (and_iff_right fun same => absurd same here).symm

theorem nodup_update_erase (nodup : ∀ k, (table k).Nodup) (k k' : κ) (a : α) :
    (Function.update table k ((table k).erase a) k').Nodup := by
  by_cases here : k' = k
  · subst here
    rw [Function.update_self]
    exact (nodup k').erase a
  · rw [Function.update_of_ne here]
    exact nodup k'

theorem length_update_erase (k k' : κ) (a : α) :
    (Function.update table k ((table k).erase a) k').length ≤ (table k').length := by
  by_cases here : k' = k
  · subst here
    rw [Function.update_self]
    exact List.length_erase_le
  · rw [Function.update_of_ne here]

end

/-- The counter goes down with the list of the user: the user is on the list of the channel exactly if the
channel is on that of the user. -/
theorem Invites.Mutual.count_del (agree : s.Mutual limit) (cptr : Client) (chptr : Chan) (user : Client) :
    ((delInvite s cptr chptr).count user).toNat = ((delInvite s cptr chptr).invited user).length := by
  rw [delInvite_invited]
  by_cases here : user = cptr
  · subst here
    rw [Function.update_self]
    unfold delInvite
    split <;> rename_i there
    · have listed : chptr ∈ s.invited user := (agree.both user chptr).mpr there
      have some_left := List.length_pos_of_mem listed
      have counted := agree.counted user
      dsimp only
      rw [Function.update_self, List.length_erase_of_mem listed, ← counted]
      rw [← counted] at some_left
      exact UInt32.toNat_sub_of_le _ _ (UInt32.le_iff_toNat_le.mpr some_left)
    · have unlisted : chptr ∉ s.invited user := fun listed => there ((agree.both user chptr).mp listed)
      rw [List.erase_of_not_mem unlisted]
      exact agree.counted user
  · rw [Function.update_of_ne here, ← agree.counted]
    unfold delInvite
    split
    · exact congrArg UInt32.toNat (Function.update_of_ne here _ _)
    · rfl

theorem Invites.Mutual.del (agree : s.Mutual limit) (cptr : Client) (chptr : Chan) :
    (delInvite s cptr chptr).Mutual limit where
  both user chan := by
    rw [delInvite_invited, delInvite_invites, mem_update_erase agree.channels, mem_update_erase agree.users,
      agree.both]
    exact and_congr_left fun _ => ⟨fun other here user_eq => other user_eq here, fun other here chan_eq => other chan_eq here⟩
  channels user := by
    rw [delInvite_invited]
    exact nodup_update_erase agree.channels ..
  users chan := by
    rw [delInvite_invites]
    exact nodup_update_erase agree.users ..
  counted := agree.count_del cptr chptr
  bounded user := by
    rw [delInvite_invited]
    exact (length_update_erase ..).trans (agree.bounded user)

theorem Invites.Mutual.link (agree : s.Mutual limit) {cptr : Client} {chptr : Chan} (fresh : chptr ∉ s.invited cptr)
    (room : (s.invited cptr).length < limit) (small : limit < 2 ^ 32) : (linkInvite s cptr chptr).Mutual limit where
  both user chan := by
    unfold linkInvite
    dsimp only
    rw [Function.update_apply, Function.update_apply]
    have same := agree.both user chan
    split <;> rename_i here <;> split <;> rename_i there
    · subst here there
      simp
    · subst here
      simpa [there] using same
    · subst there
      simpa [here] using same
    · exact same
  channels user := by
    unfold linkInvite
    dsimp only
    by_cases here : user = cptr
    · subst here
      rw [Function.update_self]
      exact (agree.channels user).append (List.nodup_singleton chptr) (by simpa using fresh)
    · rw [Function.update_of_ne here]
      exact agree.channels user
  users chan := by
    unfold linkInvite
    dsimp only
    by_cases here : chan = chptr
    · subst here
      rw [Function.update_self]
      exact List.nodup_cons.mpr ⟨fun listed => fresh ((agree.both cptr chan).mpr listed), agree.users chan⟩
    · rw [Function.update_of_ne here]
      exact agree.users chan
  counted user := by
    unfold linkInvite
    dsimp only
    by_cases here : user = cptr
    · subst here
      have counted := agree.counted user
      rw [Function.update_self, Function.update_self, List.length_append, List.length_singleton, UInt32.toNat_add,
        counted, UInt32.toNat_one]
      exact Nat.mod_eq_of_lt (by omega)
    · rw [Function.update_of_ne here, Function.update_of_ne here]
      exact agree.counted user
  bounded user := by
    unfold linkInvite
    dsimp only
    by_cases here : user = cptr
    · subst here
      rw [Function.update_self, List.length_append, List.length_singleton]
      exact room
    · rw [Function.update_of_ne here]
      exact agree.bounded user

/-- `add_invite` goes through and leaves the newest invite last, in the place of the oldest if need be. -/
theorem Invites.Mutual.add (agree : s.Mutual limit) (some_limit : 1 ≤ limit) (small : limit < 2 ^ 31) (cptr : Client)
    (chptr : Chan) : ∃ s', addInvite limit s cptr chptr = some s' ∧ s'.Mutual limit ∧
      s'.invited = Function.update s.invited cptr (remember limit chptr (s.invited cptr)) := by
  have agree₁ := agree.del cptr chptr
  have others : (delInvite s cptr chptr).invited cptr = (s.invited cptr).erase chptr := by
    rw [delInvite_invited, Function.update_self]
  have fresh : chptr ∉ (delInvite s cptr chptr).invited cptr := others ▸ (agree.channels cptr).not_mem_erase
  have counted := agree₁.counted cptr
  have bounded := agree₁.bounded cptr
  have listed : UInt32.ofNat ((delInvite s cptr chptr).invited cptr).length = (delInvite s cptr chptr).count cptr := by
    rw [← counted, UInt32.ofNat_toNat]
  have full : (delInvite s cptr chptr).count cptr ≥ UInt32.ofInt limit ↔
      limit ≤ ((delInvite s cptr chptr).invited cptr).length := by
    have number : (UInt32.ofInt limit).toNat = limit := by
      have size : UInt32.size = 4294967296 := rfl
      rw [UInt32.ofInt, Int.emod_eq_of_lt (by omega) (by omega), Int.toNat_natCast]
      exact UInt32.toNat_ofNat_of_lt (by omega)
    rw [ge_iff_le, UInt32.le_iff_toNat_le, number, counted]
  have linked (room : Invites Chan Client) (invited : room.invited =
      Function.update (delInvite s cptr chptr).invited cptr (room.invited cptr)) :
      (linkInvite room cptr chptr).invited = Function.update s.invited cptr (room.invited cptr ++ [chptr]) := by
    unfold linkInvite
    dsimp only
    rw [invited, Function.update_self, Function.update_idem, delInvite_invited, Function.update_idem]
  unfold addInvite
  dsimp only
  rw [if_neg (not_not_intro listed), remember, ← others]
  by_cases many : limit ≤ ((delInvite s cptr chptr).invited cptr).length
  · rw [if_pos (full.mpr many), if_pos many]
    cases queue : (delInvite s cptr chptr).invited cptr with
    | nil =>
      rw [queue] at many
      exact absurd (some_limit.trans many) (Nat.not_succ_le_zero 0)
    | cons oldest later =>
      have left : (delInvite (delInvite s cptr chptr) cptr oldest).invited cptr = later := by
        rw [delInvite_invited, Function.update_self, queue, List.erase_cons_head]
      rw [queue] at fresh bounded
      have unlisted : chptr ∉ later := fun listed => fresh (List.mem_cons_of_mem oldest listed)
      refine ⟨linkInvite (delInvite (delInvite s cptr chptr) cptr oldest) cptr chptr, rfl, ?_, ?_⟩
      · exact (agree₁.del cptr oldest).link (left ▸ unlisted) (left ▸ bounded) (by omega)
      · rw [linked, left]
        · rfl
        · rw [left, delInvite_invited, queue, List.erase_cons_head]
  · rw [if_neg (mt full.mp many), if_neg many]
    refine ⟨_, rfl, agree₁.link fresh (by omega) (by omega), linked _ ?_⟩
    rw [Function.update_eq_self]

theorem clearLoop_spec {fuel : Nat} {chan : Chan} (agree : s.Mutual limit) (left : (s.invites chan).length = fuel) :
    (clearLoop fuel s chan).Mutual limit ∧ (clearLoop fuel s chan).invites chan = [] ∧
      (clearLoop fuel s chan).invited = fun cptr => (s.invited cptr).erase chan := by
  induction fuel generalizing s with
  | zero =>
    have none_left : s.invites chan = [] := List.eq_nil_of_length_eq_zero left
    refine ⟨agree, none_left, funext fun user => (List.erase_of_not_mem fun listed => ?_).symm⟩
    have invited := (agree.both user chan).mp listed
    rw [none_left] at invited
    exact List.not_mem_nil invited
  | succ fuel ih =>
    rw [clearLoop]
    cases users : s.invites chan with
    | nil =>
      rw [users] at left
      cases left
    | cons user rest =>
      have after : (delInvite s user chan).invites chan = rest := by
        rw [delInvite_invites, Function.update_self, users, List.erase_cons_head]
      have fewer : ((delInvite s user chan).invites chan).length = fuel := by
        rw [after]
        rw [users] at left
        exact Nat.succ.inj left
      obtain ⟨agree', none_left, invited⟩ := ih (agree.del user chan) fewer
      refine ⟨agree', none_left, invited.trans (funext fun other => ?_)⟩
      rw [delInvite_invited]
      by_cases here : other = user
      · subst here
        rw [Function.update_self]
        exact List.erase_of_not_mem (agree.channels other).not_mem_erase
      · rw [Function.update_of_ne here]

theorem InviteCall.step_mutual (agree : s.Mutual limit) (some_limit : 1 ≤ limit) (small : limit < 2 ^ 31)
    (call : InviteCall Chan Client) : ∃ s', call.step limit s = some s' ∧ s'.Mutual limit ∧
      s'.invited = Invitations.step limit s.invited call := by
  cases call with
  | add cptr chptr => exact agree.add some_limit small cptr chptr
  | del cptr chptr => exact ⟨_, rfl, agree.del cptr chptr, delInvite_invited s cptr chptr⟩
  | clear chan =>
    obtain ⟨agree', -, invited⟩ := clearLoop_spec agree (rfl : (s.invites chan).length = _)
    exact ⟨_, rfl, agree', invited⟩

theorem InviteCall.run_mutual (agree : s.Mutual limit) (some_limit : 1 ≤ limit) (small : limit < 2 ^ 31)
    (calls : List (InviteCall Chan Client)) : ∃ s', InviteCall.run limit s calls = some s' ∧ s'.Mutual limit ∧
      s'.invited = calls.foldl (Invitations.step limit) s.invited := by
  induction calls generalizing s with
  | nil => exact ⟨s, rfl, agree, rfl⟩
  | cons call calls ih =>
    obtain ⟨next, goes, agree', invited⟩ := call.step_mutual agree some_limit small
    obtain ⟨s', rest, left⟩ := ih agree'
    refine ⟨s', ?_, ?_⟩
    · rw [InviteCall.run, List.foldlM_cons, goes]
      exact rest
    · rw [List.foldl_cons, ← invited]
      exact left

/-- Every sequence of calls goes through, and behind it the lists of users and channels say the same, without
duplicates and within the limit; what a user is invited to is the queue that drops its oldest invite when it
is full. -/
theorem invites_mutual (some_limit : 1 ≤ limit) (small : limit < 2 ^ 31) (calls : List (InviteCall Chan Client)) :
    ∃ s', InviteCall.run limit {} calls = some s' ∧
      (∀ cptr chptr, chptr ∈ s'.invited cptr ↔ cptr ∈ s'.invites chptr) ∧
      (∀ cptr, (s'.invited cptr).Nodup) ∧ (∀ chptr, (s'.invites chptr).Nodup) ∧
      (∀ cptr, (s'.count cptr).toNat = (s'.invited cptr).length ∧ (s'.invited cptr).length ≤ limit) ∧
      s'.invited = calls.foldl (Invitations.step limit) fun _ => [] := by
  obtain ⟨s', run, agree, queue⟩ := InviteCall.run_mutual mutual_start some_limit small calls
  exact ⟨s', run, agree.both, agree.channels, agree.users, fun cptr => ⟨agree.counted cptr, agree.bounded cptr⟩, queue⟩

end

/-- With room for two, the third invite of a user drops the first. -/
theorem invites_mutual_third : ∃ s' : Invites Nat Nat,
    InviteCall.run 2 {} [.add 7 0, .add 7 1, .add 8 1, .add 7 2] = some s' ∧ s'.invited 7 = [1, 2] ∧ 7 ∈ s'.invites 2 := by
  obtain ⟨s', run, both, -, -, -, queue⟩ :=
    @invites_mutual Nat Nat _ _ 2 (by decide) (by decide) [.add 7 0, .add 7 1, .add 8 1, .add 7 2]
  have left : s'.invited 7 = [1, 2] := by
    rw [queue]
    decide
  refine ⟨s', run, left, (both 7 2).mp ?_⟩
  rw [left]
  decide

end Ircd.Channels

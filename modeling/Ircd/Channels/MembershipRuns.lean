import Ircd.Channels.Membership

/-! The memberships in every run: the lists of the channels and of the users hold the same
memberships, and the counters count them.
-/

set_option autoImplicit false

namespace Ircd.Channels
open Ircd.Library

variable {μ χ υ : Type} [DecidableEq χ] [DecidableEq υ]

def Rolls.onChannel (s : Rolls μ χ υ) (l : List μ) (c : χ) : List μ := l.filter fun m => s.channel m = some c

def Rolls.ofUser (s : Rolls μ χ υ) (l : List μ) (u : υ) : List μ := l.filter fun m => s.user m = some u

/-- The memberships in use are `l`, the ones on the free list are `f`. -/
structure Rolls.Inv (s : Rolls μ χ υ) (l f : List μ) : Prop where
  byChannel : s.byChannel.Holds s.channel l
  byUser : s.byUser.Holds s.user l
  free : Chain s.byChannel.next s.freeList f
  distinct : (l ++ f).Nodup
  allocated : ∀ m, s.allocated m = true ↔ m ∈ l ++ f
  channel : ∀ m ∈ l, ∃ c, s.channel m = some c ∧ s.live c = true
  user : ∀ m ∈ l, ∃ u, s.user m = some u
  single : ∀ m ∈ l, ∀ m' ∈ l, s.user m = s.user m' → s.channel m = s.channel m' → m = m'
  users : ∀ c, s.users c = (s.onChannel l c).length
  joined : ∀ u, s.joined u = (s.ofUser l u).length

theorem inv_init (opLevels : Bool) : (Rolls.init opLevels : Rolls μ χ υ).Inv [] [] where
  byChannel := ⟨fun _ => rfl, fun _ => trivial⟩
  byUser := ⟨fun _ => rfl, fun _ => trivial⟩
  free := rfl
  distinct := List.nodup_nil
  allocated := fun m => by simp [Rolls.init]
  channel := fun _ => nofun
  user := fun _ => nofun
  single := fun _ => nofun
  users := fun _ => rfl
  joined := fun _ => rfl

/-- Whether a membership is the one of `cptr` on `chptr`. -/
def Rolls.isLink (s : Rolls μ χ υ) (chptr : χ) (cptr : υ) (m : μ) : Bool :=
  s.channel m = some chptr && s.user m = some cptr

variable {s s' : Rolls μ χ υ} {l f : List μ}

theorem Rolls.Inv.nodup (inv : s.Inv l f) : l.Nodup := (List.nodup_append.mp inv.distinct).1

theorem Rolls.Inv.not_free (inv : s.Inv l f) {m : μ} (mem : m ∈ l) : m ∉ f := fun free =>
  (List.nodup_append.mp inv.distinct).2.2 m mem m free rfl

variable {fuel : Nat} {chptr : χ}

theorem Rolls.Inv.find (inv : s.Inv l f) {cptr : υ} {found : Option μ}
    (ends : findMemberLink fuel s chptr cptr = some found) : found = l.find? (s.isLink chptr cptr) := by
  unfold findMemberLink at ends
  split at ends
  · rw [(inv.byChannel.chain chptr).found ends, List.find?_filter]
    congr 1
    funext m
    simp [Rolls.isLink]
  · rw [(inv.byUser.chain cptr).found ends, List.find?_filter]
    congr 1
    funext m
    simp [Rolls.isLink, Bool.and_comm]

theorem Rolls.Inv.find_ends (inv : s.Inv l f) (enough : l.length < fuel) (chptr : χ) (cptr : υ) :
    ∃ found, findMemberLink fuel s chptr cptr = some found := by
  have fewer (p : μ → Bool) : (l.filter p).length < fuel := Nat.lt_of_le_of_lt (List.length_filter_le p l) enough
  unfold findMemberLink
  split
  · exact ⟨_, (inv.byChannel.chain chptr).findCell _ (fewer _)⟩
  · exact ⟨_, (inv.byUser.chain cptr).findCell _ (fewer _)⟩

theorem Rolls.Inv.zombies_ends (inv : s.Inv l f) (enough : l.length < fuel) (chptr : χ) :
    ∃ zombies, channelAllZombies fuel s chptr = some zombies := by
  have fewer : (s.onChannel l chptr).length < fuel := Nat.lt_of_le_of_lt (List.length_filter_le _ l) enough
  rw [channelAllZombies, (inv.byChannel.chain chptr).findCell _ fewer]
  exact ⟨_, rfl⟩

variable [DecidableEq μ]

/-- What `add_user_to_channel` does with the membership it has taken. -/
def enterMember (s : Rolls μ χ υ) (m : μ) (chptr : χ) (who : υ) (zombie : Bool) : Rolls μ χ υ :=
  { s with
    user := Function.update s.user m (some who)
    channel := Function.update s.channel m (some chptr)
    zombie := Function.update s.zombie m zombie
    byChannel := s.byChannel.push chptr m
    byUser := s.byUser.push who m
    users := Function.update s.users chptr (s.users chptr + 1)
    joined := Function.update s.joined who (s.joined who + 1) }

theorem update_off {α β : Type} [DecidableEq α] {g : α → β} {a : α} {b : β} {l : List α} (off : a ∉ l) :
    ∀ x ∈ l, Function.update g a b x = g x := by
  intro x mem
  have differs : x ≠ a := fun same => off (same ▸ mem)
  exact Function.update_of_ne differs _ _

theorem filter_update {κ : Type} [DecidableEq κ] {key : μ → Option κ} {m : μ} {l : List μ} (fresh : m ∉ l) (k k' : κ) :
    ((m :: l).filter fun a => Function.update key m (some k) a = some k') =
      if k' = k then m :: l.filter fun a => key a = some k' else l.filter fun a => key a = some k' := by
  have rest : (l.filter fun a => Function.update key m (some k) a = some k') = l.filter fun a => key a = some k' := by
    apply List.filter_congr
    intro a mem
    rw [update_off fresh a mem]
  by_cases same : k' = k
  · rw [List.filter_cons_of_pos (by simp [same]), rest, if_pos same]
  · rw [List.filter_cons_of_neg (by simp [Ne.symm same]), rest, if_neg same]

theorem length_filter_update {κ : Type} [DecidableEq κ] {key : μ → Option κ} {m : μ} {l : List μ} (fresh : m ∉ l)
    {count : κ → Nat} (counts : ∀ k, count k = (l.filter fun a => key a = some k).length) (k k' : κ) :
    Function.update count k (count k + 1) k' =
      ((m :: l).filter fun a => Function.update key m (some k) a = some k').length := by
  rw [filter_update fresh]
  by_cases same : k' = k
  · subst same
    rw [Function.update_self, if_pos rfl, List.length_cons, counts]
  · rw [Function.update_of_ne same, if_neg same, counts]

theorem Rolls.Inv.enter (inv : s.Inv l f) {m : μ} {who : υ} (zombie : Bool) {f' : List μ} (fresh : m ∉ l)
    (live : s.live chptr = true) (off : ∀ m' ∈ l, s.isLink chptr who m' = false) {freeList : Option μ}
    (free : Chain s.byChannel.next freeList f') (split : (m :: l ++ f').Nodup) {alloc : μ → Bool}
    (allocated : ∀ m', alloc m' = true ↔ m' ∈ m :: l ++ f') :
    (enterMember { s with freeList := freeList, allocated := alloc } m chptr who zombie).Inv (m :: l) f' := by
  have not_free : m ∉ f' := (List.nodup_cons.mp (by simpa using split)).1 ∘ List.mem_append_right l
  have chan : s.byChannel.Holds (Function.update s.channel m (some chptr)) l :=
    inv.byChannel.congr (fun _ _ => rfl) (fun _ _ => rfl) rfl (update_off fresh)
  have user : s.byUser.Holds (Function.update s.user m (some who)) l :=
    inv.byUser.congr (fun _ _ => rfl) (fun _ _ => rfl) rfl (update_off fresh)
  refine ⟨chan.push inv.nodup fresh (Function.update_self ..), user.push inv.nodup fresh (Function.update_self ..),
    ?_, split, allocated, ?_, ?_, ?_, length_filter_update fresh inv.users chptr,
    length_filter_update fresh inv.joined who⟩
  · exact free.congr (update_off not_free)
  · intro m' mem
    rcases List.mem_cons.mp mem with rfl | mem
    · exact ⟨chptr, Function.update_self .., live⟩
    · obtain ⟨c, here, alive⟩ := inv.channel m' mem
      exact ⟨c, (update_off fresh m' mem).trans here, alive⟩
  · intro m' mem
    rcases List.mem_cons.mp mem with rfl | mem
    · exact ⟨who, Function.update_self ..⟩
    · obtain ⟨u, here⟩ := inv.user m' mem
      exact ⟨u, (update_off fresh m' mem).trans here⟩
  · have apart : ∀ m' ∈ l, ¬ (s.user m' = some who ∧ s.channel m' = some chptr) := by
      intro m' mem both
      have link := off m' mem
      simp [Rolls.isLink, both] at link
    intro a mem_a b mem_b same_user same_channel
    simp only [enterMember] at same_user same_channel
    rcases List.mem_cons.mp mem_a with first_a | in_a <;> rcases List.mem_cons.mp mem_b with first_b | in_b
    · rw [first_a, first_b]
    · rw [first_a, Function.update_self, update_off fresh b in_b] at same_user same_channel
      exact absurd ⟨same_user.symm, same_channel.symm⟩ (apart b in_b)
    · rw [first_b, Function.update_self, update_off fresh a in_a] at same_user same_channel
      exact absurd ⟨same_user, same_channel⟩ (apart a in_a)
    · rw [update_off fresh a in_a, update_off fresh b in_b] at same_user same_channel
      exact inv.single a in_a b in_b same_user same_channel

theorem Rolls.Inv.add (inv : s.Inv l f) {malloc : μ} {who : υ} (zombie : Bool)
    (unused : s.freeList = none → s.allocated malloc = false) (live : s.live chptr = true)
    (off : ∀ m ∈ l, s.isLink chptr who m = false) :
    ∃ l' f', (addUserToChannel s malloc chptr who zombie).Inv l' f' := by
  cases f with
  | nil =>
    have empty : s.freeList = none := inv.free
    have fresh : malloc ∉ l := by
      intro mem
      have used := (inv.allocated malloc).mpr (by simpa using mem)
      rw [unused empty] at used
      cases used
    have split : (malloc :: l ++ []).Nodup := by simpa using ⟨fresh, inv.nodup⟩
    have allocated : ∀ m, Function.update s.allocated malloc true m = true ↔ m ∈ malloc :: l ++ [] := by
      intro m
      by_cases self : m = malloc
      · simp [self]
      · simp [self, inv.allocated m]
    refine ⟨malloc :: l, [], ?_⟩
    simpa only [addUserToChannel, takeMember, empty, enterMember] using
      inv.enter zombie fresh live off inv.free split allocated
  | cons m f =>
    obtain ⟨first, rest⟩ := inv.free
    have middle := List.nodup_middle.mp inv.distinct
    have fresh : m ∉ l := fun mem => (List.nodup_cons.mp middle).1 (List.mem_append_left f mem)
    have allocated : ∀ m', s.allocated m' = true ↔ m' ∈ m :: l ++ f := by
      intro m'
      rw [inv.allocated m']
      simp only [List.cons_append, List.mem_cons, List.mem_append]
      tauto
    refine ⟨m :: l, f, ?_⟩
    simpa only [addUserToChannel, takeMember, first, enterMember] using
      inv.enter zombie fresh live off rest middle allocated

theorem filter_erase_length {p : μ → Bool} {m : μ} (distinct : l.Nodup) (there : m ∈ l) :
    ((l.erase m).filter p).length = (l.filter p).length - if p m then 1 else 0 := by
  rw [filter_erase distinct]
  by_cases here : p m = true
  · rw [if_pos here, List.length_erase_of_mem (List.mem_filter.mpr ⟨there, here⟩)]
  · rw [if_neg here, List.erase_of_not_mem (fun mem => here (List.mem_filter.mp mem).2), Nat.sub_zero]

theorem length_filter_erase {κ : Type} [DecidableEq κ] {key : μ → Option κ} {m : μ} (distinct : l.Nodup)
    (there : m ∈ l) {count : κ → Nat} (counts : ∀ k, count k = (l.filter fun a => key a = some k).length) {k : κ}
    (key_m : key m = some k) (k' : κ) :
    Function.update count k (count k - 1) k' = ((l.erase m).filter fun a => key a = some k').length := by
  rw [filter_erase_length distinct there, key_m, ← counts]
  by_cases same : k' = k
  · subst same
    simp
  · simp [Function.update_of_ne same, Ne.symm same]

structure SameRecords (s s' : Rolls μ χ υ) : Prop where
  user : s'.user = s.user
  channel : s'.channel = s.channel
  zombie : s'.zombie = s.zombie

omit [DecidableEq μ] [DecidableEq χ] [DecidableEq υ] in
theorem SameRecords.trans {s₁ s₂ s₃ : Rolls μ χ υ} (first : SameRecords s₁ s₂) (second : SameRecords s₂ s₃) :
    SameRecords s₁ s₃ :=
  ⟨second.user.trans first.user, second.channel.trans first.channel, second.zombie.trans first.zombie⟩

def leaveLists (s : Rolls μ χ υ) (m : μ) (chptr : χ) (cptr : υ) : Rolls μ χ υ :=
  { s with
    byChannel := { s.byChannel.unlink chptr m with
      next := Function.update (s.byChannel.unlink chptr m).next m s.freeList }
    byUser := s.byUser.unlink cptr m
    joined := Function.update s.joined cptr (s.joined cptr - 1)
    freeList := some m }

theorem removeMember_eq {m : μ} {cptr : υ} (channel : s.channel m = some chptr) (user : s.user m = some cptr) :
    removeMemberFromChannel s m = some (sub1FromChannel (leaveLists s m chptr cptr) chptr) := by
  rw [removeMemberFromChannel, channel, user]
  rfl

omit [DecidableEq υ] [DecidableEq μ] in
/-- `sub1_from_channel` as one update: the counter goes down, and an empty channel may go away. -/
theorem sub1FromChannel_eq (s : Rolls μ χ υ) (chptr : χ) :
    ∃ live, sub1FromChannel s chptr =
        ({ s with users := Function.update s.users chptr (s.users chptr - 1), live := live }, decide (1 < s.users chptr)) ∧
      (live = s.live ∨ s.users chptr ≤ 1 ∧ live = Function.update s.live chptr false) := by
  unfold sub1FromChannel
  by_cases more : 1 < s.users chptr
  · exact ⟨s.live, by simp [more], .inl rfl⟩
  · have last : s.users chptr - 1 = 0 := by omega
    rw [if_neg more, last, decide_eq_false more]
    dsimp only
    split
    · exact ⟨_, rfl, .inr ⟨by omega, rfl⟩⟩
    · exact ⟨_, rfl, .inl rfl⟩

theorem Rolls.Inv.leave (inv : s.Inv l f) {m : μ} (there : m ∈ l) {cptr : υ} (channel : s.channel m = some chptr)
    (user : s.user m = some cptr) {live : χ → Bool}
    (alive : live = s.live ∨ s.users chptr ≤ 1 ∧ live = Function.update s.live chptr false) :
    Rolls.Inv { leaveLists s m chptr cptr with
      users := Function.update s.users chptr (s.users chptr - 1), live := live } (l.erase m) (m :: f) := by
  have gone : m ∉ l.erase m := inv.nodup.not_mem_erase
  have subset : ∀ m' ∈ l.erase m, m' ∈ l := fun m' mem => List.mem_of_mem_erase mem
  have chan := inv.byChannel.unlink inv.nodup there channel
  have split : (l.erase m ++ m :: f).Nodup := by
    refine List.nodup_middle.mpr (List.nodup_cons.mpr ⟨?_, inv.distinct.sublist ((List.erase_sublist).append_right f)⟩)
    rw [List.mem_append]
    exact fun either => either.elim gone (inv.not_free there)
  have users := length_filter_erase inv.nodup there inv.users channel
  refine ⟨?_, inv.byUser.unlink inv.nodup there user, ⟨rfl, ?_⟩, split, ?_, ?_, ?_, ?_, users,
    length_filter_erase inv.nodup there inv.joined user⟩
  · exact chan.congr (update_off gone) (fun _ _ => rfl) rfl (fun _ _ => rfl)
  · change Chain (Function.update (s.byChannel.unlink chptr m).next m s.freeList)
      (Function.update (s.byChannel.unlink chptr m).next m s.freeList m) f
    rw [Function.update_self]
    apply inv.free.congr
    intro b mem
    have other : b ≠ m := fun same => inv.not_free there (same ▸ mem)
    have outside : b ∉ l := fun mem' => inv.not_free mem' mem
    rw [Function.update_of_ne other, inv.byChannel.unlink_next inv.nodup there channel outside]
  · intro m'
    change s.allocated m' = true ↔ _
    rw [inv.allocated m', List.mem_append, List.mem_append, inv.nodup.mem_erase_iff, List.mem_cons]
    by_cases self : m' = m
    · simp [self, there]
    · simp [self]
  · intro m' mem
    obtain ⟨c, here, lives⟩ := inv.channel m' (subset m' mem)
    refine ⟨c, here, ?_⟩
    rcases alive with rfl | ⟨last, rfl⟩
    · exact lives
    · have other : c ≠ chptr := by
        intro same
        have count := users chptr
        rw [Function.update_self] at count
        have empty : ((l.erase m).filter fun a => s.channel a = some chptr) = [] :=
          List.length_eq_zero_iff.mp (by omega)
        have mem' : m' ∈ (l.erase m).filter fun a => s.channel a = some chptr :=
          List.mem_filter.mpr ⟨mem, by simp [here, same]⟩
        rw [empty] at mem'
        cases mem'
      exact (Function.update_of_ne other _ _).trans lives
  · exact fun m' mem => inv.user m' (subset m' mem)
  · exact fun a mem_a b mem_b => inv.single a (subset a mem_a) b (subset b mem_b)

theorem Rolls.Inv.removeMember (inv : s.Inv l f) {m : μ} (there : m ∈ l) (channel : s.channel m = some chptr) :
    ∃ s' more, removeMemberFromChannel s m = some (s', more) ∧ s'.Inv (l.erase m) (m :: f) ∧ SameRecords s s' ∧
      (more = true ↔ s.onChannel (l.erase m) chptr ≠ []) := by
  obtain ⟨cptr, user⟩ := inv.user m there
  obtain ⟨live, counted, alive⟩ := sub1FromChannel_eq (leaveLists s m chptr cptr) chptr
  refine ⟨_, _, (removeMember_eq channel user).trans (congrArg some counted), inv.leave there channel user alive,
    ⟨rfl, rfl, rfl⟩, ?_⟩
  have count := length_filter_erase inv.nodup there inv.users channel chptr
  rw [Function.update_self] at count
  change decide (1 < s.users chptr) = true ↔ _
  rw [decide_eq_true_iff, Rolls.onChannel, ← List.length_pos_iff, ← count]
  omega

structure Removed (s s' : Rolls μ χ υ) (l l' : List μ) (f' : List μ) : Prop where
  inv : s'.Inv l' f'
  sublist : l'.Sublist l
  same : SameRecords s s'

theorem removeMembers_spec (inv : s.Inv l f) (ends : removeMembers fuel s chptr = some s') :
    ∃ l' f', Removed s s' l l' f' := by
  induction fuel generalizing s l f with
  | zero => cases ends
  | succ fuel ih =>
    have first : s.byChannel.head chptr = (s.onChannel l chptr).head? := (inv.byChannel.chain chptr).head_eq
    simp only [removeMembers, first] at ends
    cases here : s.onChannel l chptr with
    | nil => simp [here] at ends
    | cons m rest =>
      have mem : m ∈ s.onChannel l chptr := by simp [here]
      obtain ⟨there, channel⟩ := List.mem_filter.mp mem
      obtain ⟨s₁, more, removed, inv₁, same, _⟩ := inv.removeMember there (by simpa using channel)
      simp only [here, List.head?_cons, Option.bind_eq_bind, Option.bind_some, removed] at ends
      cases more with
      | false =>
        cases ends
        exact ⟨l.erase m, m :: f, inv₁, List.erase_sublist, same⟩
      | true =>
        obtain ⟨l', f', last⟩ := ih inv₁ ends
        exact ⟨l', f', last.inv, last.sublist.trans List.erase_sublist, same.trans last.same⟩

theorem removeMembers_ends (inv : s.Inv l f) (some_left : s.onChannel l chptr ≠ []) (enough : l.length < fuel) :
    ∃ s', removeMembers fuel s chptr = some s' := by
  induction fuel generalizing s l f with
  | zero => omega
  | succ fuel ih =>
    have first : s.byChannel.head chptr = (s.onChannel l chptr).head? := (inv.byChannel.chain chptr).head_eq
    obtain ⟨m, rest, here⟩ := List.exists_cons_of_ne_nil some_left
    have mem : m ∈ s.onChannel l chptr := by simp [here]
    obtain ⟨there, channel⟩ := List.mem_filter.mp mem
    obtain ⟨s₁, more, removed, inv₁, same, left⟩ := inv.removeMember there (by simpa using channel)
    simp only [removeMembers, first, here, List.head?_cons, Option.bind_eq_bind, Option.bind_some, removed]
    cases more with
    | false => exact ⟨s₁, rfl⟩
    | true =>
      apply ih inv₁
      · rw [Rolls.onChannel, same.channel]
        exact left.mp rfl
      · have nonempty := List.length_pos_of_mem there
        rw [List.length_erase_of_mem there]
        omega

theorem removeUser_spec {cptr : υ} (inv : s.Inv l f) (ends : removeUserFromChannel fuel s cptr chptr = some s') :
    ∃ l' f', Removed s s' l l' f' ∧ ∀ m ∈ l', s.isLink chptr cptr m = false := by
  obtain ⟨found, finds, ends⟩ := Option.bind_eq_some_iff.mp ends
  have found_eq := inv.find finds
  cases found with
  | none =>
    cases ends
    refine ⟨l, f, ⟨inv, List.Sublist.refl l, rfl, rfl, rfl⟩, fun m mem => ?_⟩
    have none_here := List.find?_eq_none.mp found_eq.symm m mem
    simpa using none_here
  | some m =>
    have there : m ∈ l := List.mem_of_find?_eq_some found_eq.symm
    have link : s.isLink chptr cptr m = true := List.find?_some found_eq.symm
    have fields : s.channel m = some chptr ∧ s.user m = some cptr := by simpa [Rolls.isLink] using link
    have gone : ∀ m' ∈ l.erase m, s.isLink chptr cptr m' = false := by
      intro m' mem
      obtain ⟨differs, mem⟩ := inv.nodup.mem_erase_iff.mp mem
      rw [← Bool.not_eq_true]
      intro link'
      have fields' : s.channel m' = some chptr ∧ s.user m' = some cptr := by simpa [Rolls.isLink] using link'
      exact differs (inv.single m' mem m there (fields'.2.trans fields.2.symm) (fields'.1.trans fields.1.symm))
    obtain ⟨s₁, more, removed, inv₁, same, left⟩ := inv.removeMember there fields.1
    simp only [removed, Option.bind_eq_bind, Option.bind_some] at ends
    have once : ∃ l' f', Removed s s₁ l l' f' ∧ ∀ m ∈ l', s.isLink chptr cptr m = false :=
      ⟨l.erase m, m :: f, ⟨inv₁, List.erase_sublist, same⟩, gone⟩
    cases more with
    | false =>
      cases ends
      exact once
    | true =>
      obtain ⟨zombies, _, ends⟩ := Option.bind_eq_some_iff.mp ends
      cases zombies with
      | false =>
        cases ends
        exact once
      | true =>
        obtain ⟨l', f', last⟩ := removeMembers_spec inv₁ ends
        exact ⟨l', f', ⟨last.inv, last.sublist.trans List.erase_sublist, same.trans last.same⟩,
          fun m' mem => gone m' (last.sublist.subset mem)⟩

theorem removeUser_ends (inv : s.Inv l f) (enough : l.length < fuel) (cptr : υ) (chptr : χ) :
    ∃ s', removeUserFromChannel fuel s cptr chptr = some s' := by
  obtain ⟨found, finds⟩ := inv.find_ends enough chptr cptr
  have found_eq := inv.find finds
  simp only [removeUserFromChannel, finds, Option.bind_eq_bind, Option.bind_some]
  cases found with
  | none => exact ⟨s, rfl⟩
  | some m =>
    have there : m ∈ l := List.mem_of_find?_eq_some found_eq.symm
    have link : s.isLink chptr cptr m = true := List.find?_some found_eq.symm
    have fields : s.channel m = some chptr ∧ s.user m = some cptr := by simpa [Rolls.isLink] using link
    obtain ⟨s₁, more, removed, inv₁, same, left⟩ := inv.removeMember there fields.1
    have fewer : (l.erase m).length < fuel := Nat.lt_of_le_of_lt (List.erase_sublist).length_le enough
    simp only [removed, Option.bind_some]
    cases more with
    | false => exact ⟨s₁, rfl⟩
    | true =>
      obtain ⟨zombies, all⟩ := inv₁.zombies_ends fewer chptr
      simp only [all, Option.bind_some, if_true]
      cases zombies with
      | false => exact ⟨s₁, rfl⟩
      | true =>
        refine removeMembers_ends inv₁ ?_ fewer
        rw [Rolls.onChannel, same.channel]
        exact left.mp rfl

theorem removeAll_spec {turns : Nat} {cptr : υ} (inv : s.Inv l f)
    (ends : removeUserFromAllChannels fuel turns s cptr = some s') : ∃ l' f', s'.Inv l' f' := by
  induction turns generalizing s l f with
  | zero => cases ends
  | succ turns ih =>
    unfold removeUserFromAllChannels at ends
    split at ends
    · cases ends
      exact ⟨l, f, inv⟩
    · obtain ⟨chptr, _, ends⟩ := Option.bind_eq_some_iff.mp ends
      obtain ⟨s₁, removed, ends⟩ := Option.bind_eq_some_iff.mp ends
      obtain ⟨l', f', last, _⟩ := removeUser_spec inv removed
      exact ih last.inv ends

theorem removeAll_ends {turns : Nat} {cptr : υ} (inv : s.Inv l f) (enough : l.length < fuel)
    (rounds : l.length < turns) : ∃ s', removeUserFromAllChannels fuel turns s cptr = some s' := by
  induction turns generalizing s l f with
  | zero => omega
  | succ turns ih =>
    have first : s.byUser.head cptr = (s.ofUser l cptr).head? := (inv.byUser.chain cptr).head_eq
    unfold removeUserFromAllChannels
    rw [first]
    cases here : s.ofUser l cptr with
    | nil => exact ⟨s, rfl⟩
    | cons m rest =>
      have mem : m ∈ s.ofUser l cptr := by simp [here]
      obtain ⟨there, user⟩ := List.mem_filter.mp mem
      obtain ⟨chptr, channel, _⟩ := inv.channel m there
      obtain ⟨s₁, removed⟩ := removeUser_ends inv enough cptr chptr
      obtain ⟨l', f', last, gone⟩ := removeUser_spec inv removed
      have off : m ∉ l' := by
        intro mem'
        have link := gone m mem'
        simp [Rolls.isLink, channel, of_decide_eq_true user] at link
      have fewer : l'.length < l.length := by
        have upto := last.sublist.length_le
        by_contra not_fewer
        exact off (last.sublist.eq_of_length (by omega) ▸ there)
      simp only [List.head?_cons, channel, removed, Option.bind_eq_bind, Option.bind_some]
      exact ih last.inv (by omega) (by omega)

theorem Rolls.Inv.setZombie (inv : s.Inv l f) (m : μ) :
    Rolls.Inv { s with zombie := Function.update s.zombie m true } l f :=
  ⟨inv.byChannel, inv.byUser, inv.free, inv.distinct, inv.allocated, inv.channel, inv.user, inv.single, inv.users,
    inv.joined⟩

theorem makeZombie_spec {member : μ} {who : υ} {which : ZombieCase} (inv : s.Inv l f)
    (ends : makeZombie fuel s member who chptr which = some s') : ∃ l' f', s'.Inv l' f' := by
  have removes {s' : Rolls μ χ υ}
      (ends : removeUserFromChannel fuel { s with zombie := Function.update s.zombie member true } who chptr = some s') :
      ∃ l' f', s'.Inv l' f' := by
    obtain ⟨l', f', last, _⟩ := removeUser_spec (inv.setZombie member) ends
    exact ⟨l', f', last.inv⟩
  cases which with
  | myUser => exact removes ends
  | behindKicker => exact removes ends
  | other =>
    obtain ⟨zombies, _, ends⟩ := Option.bind_eq_some_iff.mp ends
    cases zombies with
    | false =>
      cases ends
      exact ⟨l, f, inv.setZombie member⟩
    | true => exact removes ends

theorem makeZombie_ends (inv : s.Inv l f) (enough : l.length < fuel) (member : μ) (who : υ) (chptr : χ)
    (which : ZombieCase) : ∃ s', makeZombie fuel s member who chptr which = some s' := by
  have removes := removeUser_ends (inv.setZombie member) enough who chptr
  cases which with
  | myUser => exact removes
  | behindKicker => exact removes
  | other =>
    obtain ⟨zombies, all⟩ := (inv.setZombie member).zombies_ends enough chptr
    simp only [makeZombie, all, Option.bind_eq_bind, Option.bind_some]
    cases zombies with
    | false => exact ⟨_, rfl⟩
    | true => exact removes

omit [DecidableEq μ] in
theorem Rolls.Inv.setChannel (inv : s.Inv l f) (empty : s.onChannel l chptr = []) {head : χ → Option μ}
    (head_eq : head = s.byChannel.head ∨ head = Function.update s.byChannel.head chptr none) {users : χ → Nat}
    (users_eq : users = s.users ∨ users = Function.update s.users chptr 0) (live apass : χ → Bool)
    (live_eq : ∀ c ≠ chptr, live c = s.live c) :
    Rolls.Inv { s with byChannel := { s.byChannel with head := head }, users := users, apass := apass, live := live }
      l f := by
  have off : ∀ m ∈ l, s.channel m ≠ some chptr := by
    intro m mem here
    have mem' : m ∈ s.onChannel l chptr := List.mem_filter.mpr ⟨mem, by simp [here]⟩
    rw [empty] at mem'
    cases mem'
  have none_here : s.byChannel.head chptr = none := by
    rw [(inv.byChannel.chain chptr).head_eq]
    exact congrArg List.head? empty
  have zero : s.users chptr = 0 := by rw [inv.users chptr, empty, List.length_nil]
  have same_head : head = s.byChannel.head := by
    rcases head_eq with same | cleared
    · exact same
    · rw [cleared, ← none_here, Function.update_eq_self]
  have same_users : users = s.users := by
    rcases users_eq with same | cleared
    · exact same
    · rw [cleared, ← zero, Function.update_eq_self]
  subst same_head same_users
  refine ⟨inv.byChannel, inv.byUser, inv.free, inv.distinct, inv.allocated, ?_, inv.user, inv.single, inv.users,
    inv.joined⟩
  intro m mem
  obtain ⟨c, here, lives⟩ := inv.channel m mem
  have other : c ≠ chptr := fun same => off m mem (same ▸ here)
  exact ⟨c, here, (live_eq c other).trans lives⟩

omit [DecidableEq μ] in
theorem Rolls.Inv.unborn (inv : s.Inv l f) (dead : s.live chptr = false) : s.onChannel l chptr = [] := by
  apply List.filter_eq_nil_iff.mpr
  intro m mem here
  obtain ⟨c, channel, lives⟩ := inv.channel m mem
  have same : c = chptr := Option.some.inj (channel.symm.trans (of_decide_eq_true here))
  rw [same, dead] at lives
  cases lives

theorem Rolls.Inv.call (inv : s.Inv l f) {c : Call μ χ υ} (permitted : s.Permitted c)
    (ends : s.call fuel c = some s') : ∃ l' f', s'.Inv l' f' := by
  cases c with
  | create chptr =>
    cases ends
    exact ⟨l, f, inv.setChannel (inv.unborn permitted) (.inr rfl) (.inr rfl) _ _
      fun c other => Function.update_of_ne other _ _⟩
  | destruct chptr =>
    cases ends
    have empty : s.onChannel l chptr = [] := by
      rw [← List.length_eq_zero_iff, ← inv.users chptr]
      exact permitted.2
    exact ⟨l, f, inv.setChannel empty (.inl rfl) (.inl rfl) _ s.apass fun c other => Function.update_of_ne other _ _⟩
  | add malloc chptr who zombie =>
    cases ends
    obtain ⟨unused, live, bound, off⟩ := permitted
    refine inv.add zombie unused live fun m mem => ?_
    have none_here := List.find?_eq_none.mp (inv.find off).symm m mem
    simpa using none_here
  | remove cptr chptr =>
    obtain ⟨l', f', last, _⟩ := removeUser_spec inv ends
    exact ⟨l', f', last.inv⟩
  | removeAll cptr => exact removeAll_spec inv ends
  | makeZombie member who chptr which => exact makeZombie_spec inv ends
  | setApass chptr apass =>
    cases ends
    exact ⟨l, f, inv.byChannel, inv.byUser, inv.free, inv.distinct, inv.allocated, inv.channel, inv.user, inv.single,
      inv.users, inv.joined⟩
  | setService cptr service =>
    cases ends
    exact ⟨l, f, inv.byChannel, inv.byUser, inv.free, inv.distinct, inv.allocated, inv.channel, inv.user, inv.single,
      inv.users, inv.joined⟩

theorem Rolls.Inv.call_ends (inv : s.Inv l f) (c : Call μ χ υ) : ∃ fuel s', s.call fuel c = some s' := by
  refine ⟨l.length + 1, ?_⟩
  cases c with
  | create chptr => exact ⟨_, rfl⟩
  | destruct chptr => exact ⟨_, rfl⟩
  | add malloc chptr who zombie => exact ⟨_, rfl⟩
  | remove cptr chptr => exact removeUser_ends inv (Nat.lt_succ_self _) cptr chptr
  | removeAll cptr => exact removeAll_ends inv (Nat.lt_succ_self _) (Nat.lt_succ_self _)
  | makeZombie member who chptr which => exact makeZombie_ends inv (Nat.lt_succ_self _) member who chptr which
  | setApass chptr apass => exact ⟨_, rfl⟩
  | setService cptr service => exact ⟨_, rfl⟩

theorem Rolls.Reachable.inv (reachable : s.Reachable) : ∃ l f, s.Inv l f := by
  induction reachable with
  | init opLevels => exact ⟨[], [], inv_init opLevels⟩
  | call _ permitted ends ih =>
    obtain ⟨l, f, inv⟩ := ih
    exact inv.call permitted ends

/-- In every run the memberships in use, which are those that are allocated and not on the free
list, are on the list of their channel and on the list of their user and on no other, with
consistent pointers both ways; no user is twice on a channel; the counters count the lists; and
every call returns. -/
theorem memberships_kept (reachable : s.Reachable) :
    ∃ l f : List μ, Chain s.byChannel.next s.freeList f ∧ (l ++ f).Nodup ∧
      (∀ m, s.allocated m = true ↔ m ∈ l ++ f) ∧ (∀ m ∈ l, (s.channel m).isSome ∧ (s.user m).isSome) ∧
      (∀ c, Chain s.byChannel.next (s.byChannel.head c) (l.filter fun m => s.channel m = some c) ∧
        Prevs s.byChannel.prev none (l.filter fun m => s.channel m = some c) ∧
        s.users c = (l.filter fun m => s.channel m = some c).length) ∧
      (∀ u, Chain s.byUser.next (s.byUser.head u) (l.filter fun m => s.user m = some u) ∧
        Prevs s.byUser.prev none (l.filter fun m => s.user m = some u) ∧
        s.joined u = (l.filter fun m => s.user m = some u).length) ∧
      (∀ m ∈ l, ∀ m' ∈ l, s.user m = s.user m' → s.channel m = s.channel m' → m = m') ∧
      ∀ c, s.Permitted c → ∃ fuel s', s.call fuel c = some s' := by
  obtain ⟨l, f, inv⟩ := reachable.inv
  refine ⟨l, f, inv.free, inv.distinct, inv.allocated, fun m mem => ?_, fun c => ?_, fun u => ?_, inv.single,
    fun c _ => inv.call_ends c⟩
  · obtain ⟨c, channel, _⟩ := inv.channel m mem
    obtain ⟨u, user⟩ := inv.user m mem
    simp [channel, user]
  · exact ⟨inv.byChannel.chain c, inv.byChannel.prevs c, inv.users c⟩
  · exact ⟨inv.byUser.chain u, inv.byUser.prevs u, inv.joined u⟩

/-- A user joins a channel that is created for it. -/
theorem memberships_kept_join :
    ∃ s : Rolls Nat Nat Nat, s.Reachable ∧ s.users 3 = 1 ∧
      ∃ l : List Nat, (l.filter fun m => s.user m = some 5).length = 1 := by
  let start : Rolls Nat Nat Nat := Rolls.init true
  have created : (createChannel start 3).Reachable :=
    .call (.init true) (show start.Permitted (.create 3) from rfl) (show start.call 1 (.create 3) = some _ from rfl)
  have joined : (addUserToChannel (createChannel start 3) 7 3 5 false).Reachable :=
    .call created (show (createChannel start 3).Permitted (.add 7 3 5 false) from ⟨fun _ => rfl, rfl, 1, rfl⟩)
      (show (createChannel start 3).call 1 (.add 7 3 5 false) = some _ from rfl)
  obtain ⟨l, _, _, _, _, _, _, users, _⟩ := memberships_kept joined
  exact ⟨_, joined, rfl, l, (users 5).2.2.symm⟩

end Ircd.Channels

import Ircd.Channels.BanCache

/-! The bits of `is_banned` in one channel.

What changes the bans of the channel takes the bits of its members away, or leaves bans that
`find_ban` cannot tell from the old ones.
-/

set_option autoImplicit false

namespace Ircd.Channels
open Ircd.Text Ircd.Match Ircd.Net

/-- A ban without what `find_ban` does not read. -/
def Ban.bare (ban : Ban) : Ban :=
  ⟨ban.banstr, [], 0, ⟨ban.flags.ipmask, false, ban.flags.exception, false, false, false, false⟩⟩

section
variable (hidden : CString) (cptr : UserView)

theorem findBan_bare (banlist : List Ban) :
    (findBan hidden cptr (banlist.map Ban.bare)).isSome = (findBan hidden cptr banlist).isSome := by
  have hits : ∀ ban : Ban, ban.bare.hits hidden cptr = ban.hits hidden cptr := fun _ => rfl
  have exception : ∀ ban : Ban, ban.bare.flags.exception = ban.flags.exception := fun _ => rfl
  rw [Bool.eq_iff_iff, findBan_isSome, findBan_isSome]
  simp only [List.mem_map, exists_exists_and_eq_and, forall_exists_index, and_imp, forall_apply_eq_imp_iff₂, hits,
    exception]

theorem findBan_congr {banlist banlist' : List Ban} (same : banlist'.map Ban.bare = banlist.map Ban.bare) :
    (findBan hidden cptr banlist').isSome = (findBan hidden cptr banlist).isSome := by
  rw [← findBan_bare, same, findBan_bare]

variable {cptr} {cptr' : UserView}

theorem findBan_view (same : ∀ ban : Ban, ban.hits hidden cptr' = ban.hits hidden cptr) (banlist : List Ban) :
    (findBan hidden cptr' banlist).isSome = (findBan hidden cptr banlist).isSome := by
  rw [Bool.eq_iff_iff, findBan_isSome, findBan_isSome]
  simp only [same]

/-- To hide the host of a user that has shown its own exchanges the two hosts that bans are compared with. -/
theorem hits_hide (shown : cptr.hiddenHost = false) (own : cptr.host = cptr.realhost) (ban : Ban) :
    ban.hits hidden (UserView.hide hidden { cptr with hiddenHost := true }) = ban.hits hidden cptr := by
  unfold UserView.hide
  cases account : cptr.isAccount with
  | true =>
    simp only [Bool.and_self, if_true]
    unfold Ban.hits Ban.hitsHost UserView.sr
    simp only [account, shown, own, Bool.not_true, Bool.false_eq_true, if_false, if_true, Option.any_some]
    generalize decide (ircMatch (hostPart ban.banstr) cptr.realhost.chars = 0) = at_real
    generalize decide (ircMatch (hostPart ban.banstr) (accountHost hidden cptr.account) = 0) = at_account
    generalize decide (ircMatch (hostPart ban.banstr) (ircdNtoaR cptr.ip) = 0) = at_ip
    congr 1
    cases at_real <;> cases at_account <;> cases at_ip <;> simp
  | false =>
    simp only [Bool.and_false, Bool.false_eq_true, if_false]
    unfold Ban.hits Ban.hitsHost UserView.sr
    simp only [account, Bool.not_false, if_true]
    rfl

end

def Ban.Stands (wiping : Bool) (ban : Ban) : Prop :=
  ban.flags.exception = false ∧ (ban.flags.burstWipeout = true → wiping = true)

theorem Ban.Stands.onlyIpMask {wiping : Bool} {ban : Ban} : ban.onlyIpMask.Stands wiping :=
  ⟨rfl, fun wipeout => absurd wipeout Bool.false_ne_true⟩

theorem Ban.Stands.bare_onlyIpMask {wiping : Bool} {ban : Ban} (stands : ban.Stands wiping) :
    ban.onlyIpMask.bare = ban.bare := by
  unfold Ban.bare
  rw [stands.1]
  rfl

section
variable {wiping : Bool}

theorem linkBan_stands {covers : Ban → Ban → Bool} {cells : List Cell} (all : ∀ c ∈ cells, c.ban.Stands wiping)
    (it : BanItem) : ∀ c ∈ linkBan covers cells it, c.ban.Stands wiping := by
  have marked : ∀ c ∈ cells.map (fun c => if covers it.ban c.ban then c.mark else c), c.ban.Stands wiping := by
    intro c mem
    obtain ⟨before, there, rfl⟩ := List.mem_map.mp mem
    split
    · exact all before there
    · exact all before there
  have new : it.ban.Stands wiping := ⟨rfl, fun wipeout => absurd wipeout Bool.false_ne_true⟩
  unfold linkBan
  intro c mem
  cases dir : it.dir with
  | add =>
    rw [dir] at mem
    dsimp only at mem
    split at mem
    · exact all c mem
    · rcases List.mem_append.mp mem with before | now
      · exact marked c before
      · exact List.mem_singleton.mp now ▸ new
  | del =>
    rw [dir] at mem
    exact marked c mem

theorem processBans_stands (limits : Limits) (set bounce : Bool) {cells : List Cell}
    (all : ∀ c ∈ cells, c.ban.Stands wiping) (w : Walk) (made : ∀ ban ∈ w.made, ban.Stands wiping)
    (kept : ∀ c ∈ w.kept, c.ban.Stands wiping) :
    (∀ ban ∈ (cells.foldl (processBan limits set bounce) w).made, ban.Stands wiping) ∧
      ∀ c ∈ (cells.foldl (processBan limits set bounce) w).kept, c.ban.Stands wiping := by
  induction cells generalizing w with
  | nil => exact ⟨made, kept⟩
  | cons c cells ih =>
    have here := all c List.mem_cons_self
    have more : ∀ c' : Cell, c'.ban.Stands wiping → ∀ c'' ∈ w.kept ++ [c'], c''.ban.Stands wiping := by
      intro c' stands c'' mem
      rcases List.mem_append.mp mem with before | now
      · exact kept c'' before
      · exact List.mem_singleton.mp now ▸ stands
    have entered : ∀ ban ∈ c.ban.onlyIpMask :: w.made, ban.Stands wiping :=
      List.forall_mem_cons.mpr ⟨.onlyIpMask, made⟩
    rw [List.foldl_cons]
    refine ih (fun c mem => all c (List.mem_cons_of_mem _ mem)) _ ?_ ?_
    all_goals
      unfold processBan
      dsimp only
      repeat' split
    all_goals first
      | exact made
      | exact kept
      | exact entered
      | exact more _ here
      | exact more _ .onlyIpMask

theorem parseBans_stands (covers : Ban → Ban → Bool) (limits : Limits) {old : List Ban}
    (all : ∀ ban ∈ old, ban.Stands wiping) (items : List BanItem) (ending : Ending) :
    ∀ c ∈ (parseBans covers limits old items ending).1, c.ban.Stands wiping := by
  have base : ∀ c ∈ baseCells old items, c.ban.Stands wiping := by
    intro c mem
    obtain ⟨ban, there, rfl⟩ := List.mem_map.mp mem
    split at there
    · exact all ban there
    · obtain ⟨before, mem_old, rfl⟩ := List.mem_map.mp there
      exact all before mem_old
  have linked : ∀ c ∈ items.foldl (linkBan covers) (baseCells old items), c.ban.Stands wiping := by
    generalize baseCells old items = cells at base
    induction items generalizing cells with
    | nil => exact base
    | cons it items ih => exact ih _ (linkBan_stands base it)
  unfold parseBans
  cases ending with
  | processed set bounce =>
    dsimp only
    split
    · exact linked
    · obtain ⟨made, kept⟩ := processBans_stands limits set bounce linked ⟨0, 0, [], [], false, [], 0⟩
        (fun _ mem => absurd mem List.not_mem_nil) fun _ mem => absurd mem List.not_mem_nil
      intro c mem
      rcases List.mem_append.mp mem with new | old
      · obtain ⟨ban, there, rfl⟩ := List.mem_map.mp new
        exact made ban there
      · exact kept c old
  | ignored => exact linked
  | unbuffered => exact linked

theorem markedBy_bare (covers : Ban → Ban → Bool) (done : List BanItem) (c : Cell) :
    (c.markedBy covers done).ban.bare = c.ban.bare := by
  unfold Cell.markedBy
  split <;> rfl

theorem baseCells_bare (old : List Ban) (items : List BanItem) :
    (baseCells old items).map (fun c => c.ban.bare) = old.map Ban.bare := by
  unfold baseCells
  rw [List.map_map]
  split
  · rfl
  · rw [List.map_map]
    rfl

theorem processBans_unset_front (limits : Limits) (bounce : Bool) {cells : List Cell}
    (old : ∀ c ∈ cells, c.ban.flags.add = false ∧ c.ban.Stands wiping) (w : Walk) (whole : w.cut = false) :
    (cells.foldl (processBan limits false bounce) w).made = w.made ∧
      (cells.foldl (processBan limits false bounce) w).kept.map (fun c => c.ban.bare) =
        w.kept.map (fun c => c.ban.bare) ++ cells.map fun c => c.ban.bare := by
  induction cells generalizing w with
  | nil => exact ⟨rfl, (List.append_nil _).symm⟩
  | cons c cells ih =>
    obtain ⟨no_add, stands⟩ := old c List.mem_cons_self
    have rest : ∀ c ∈ cells, c.ban.flags.add = false ∧ c.ban.Stands wiping := fun c mem =>
      old c (List.mem_cons_of_mem _ mem)
    have step : ∃ c' : Cell, c'.ban.bare = c.ban.bare ∧ (processBan limits false bounce w c).made = w.made ∧
        (processBan limits false bounce w c).cut = false ∧
        (processBan limits false bounce w c).kept = w.kept ++ [c'] := by
      unfold processBan
      simp only [no_add, Bool.and_false, Bool.false_eq_true, if_false, whole]
      split
      · exact ⟨{ c with ban := c.ban.onlyIpMask }, stands.bare_onlyIpMask, rfl, rfl, rfl⟩
      · exact ⟨c, rfl, rfl, rfl, rfl⟩
    obtain ⟨c', bare, made, uncut, kept⟩ := step
    obtain ⟨made', kept'⟩ := ih rest (processBan limits false bounce w c) uncut
    refine ⟨made'.trans made, kept'.trans ?_⟩
    rw [kept, List.map_append, List.append_assoc, List.map_cons, List.map_cons, List.map_nil, bare]
    rfl

theorem processBans_unset_back (limits : Limits) (bounce : Bool) {back : List Cell}
    (temps : ∀ c ∈ back, c.ban.flags.add = true) (w : Walk) :
    (back.foldl (processBan limits false bounce) w).made = w.made ∧
      (back.foldl (processBan limits false bounce) w).kept = w.kept := by
  induction back generalizing w with
  | nil => exact ⟨rfl, rfl⟩
  | cons c back ih =>
    have add := temps c List.mem_cons_self
    have step : (processBan limits false bounce w c).made = w.made ∧ (processBan limits false bounce w c).kept = w.kept := by
      unfold processBan
      simp only [add, Bool.and_true, if_true, Bool.false_and, Bool.false_eq_true, if_false]
      repeat' split
      all_goals exact ⟨rfl, rfl⟩
    obtain ⟨made, kept⟩ := ih (fun c mem => temps c (List.mem_cons_of_mem _ mem)) (processBan limits false bounce w c)
    exact ⟨made.trans step.1, kept.trans step.2⟩

def Lasting (covers : Ban → Ban → Bool) (old : List Ban) (items : List BanItem) : Ending → Prop
  | .processed _ _ => True
  | _ => ∀ it ∈ applied covers (baseCells old items) items, it.dir = .del

theorem linked_bare (covers : Ban → Ban → Bool) (old : List Ban) (items : List BanItem)
    (dels : ∀ it ∈ applied covers (baseCells old items) items, it.dir = .del) :
    (items.foldl (linkBan covers) (baseCells old items)).map (fun c => c.ban.bare) = old.map Ban.bare := by
  by_cases some_items : items = []
  · subst some_items
    exact baseCells_bare old []
  · obtain ⟨back, shape, no_back, -⟩ := linked_shape covers old some_items
    rw [shape.split, no_back.mpr dels, List.append_nil, List.map_map, ← baseCells_bare old items]
    exact List.map_congr_left fun c _ => markedBy_bare covers _ c

theorem parseBans_bare (mmatch : List Char → List Char → Bool) (limits : Limits) {old : List Ban}
    (all : ∀ ban ∈ old, ban.Stands wiping) {items : List BanItem} {ending : Ending}
    (lasting : Lasting (bmatch mmatch) old items ending)
    (unchanged : ∀ set bounce, ending = .processed set bounce → items ≠ [] →
      (processBans limits set bounce (items.foldl (linkBan (bmatch mmatch)) (baseCells old items))).changed = 0) :
    ((parseBans (bmatch mmatch) limits old items ending).1.map Cell.ban).map Ban.bare = old.map Ban.bare := by
  rw [List.map_map]
  unfold parseBans
  cases ending with
  | ignored => exact linked_bare (bmatch mmatch) old items lasting
  | unbuffered => exact linked_bare (bmatch mmatch) old items lasting
  | processed set bounce =>
    dsimp only
    split <;> rename_i none_or_some
    · subst none_or_some
      exact baseCells_bare old []
    · have same := unchanged set bounce rfl none_or_some
      cases set with
      | true =>
        obtain ⟨list, -, changed⟩ := @processed_set (bmatch mmatch) limits bounce old items none_or_some
        rw [same] at changed
        have none_removed : removed (bmatch mmatch) old items = [] := List.length_eq_zero_iff.mp (by omega)
        have none_new : accepted (bmatch mmatch) limits old items = [] := List.length_eq_zero_iff.mp (by omega)
        have stay : survivors (bmatch mmatch) old items = (baseCells old items).map Cell.ban := by
          refine List.filter_eq_self.mpr fun ban mem => ?_
          have uncovered := List.filter_eq_nil_iff.mp none_removed ban mem
          rw [Bool.eq_false_iff.mpr uncovered]
          rfl
        rw [← List.map_map, list, none_new, stay, List.map_nil, List.reverse_nil, List.nil_append, List.map_map]
        exact baseCells_bare old items
      | false =>
        obtain ⟨back, shape, -, -⟩ := linked_shape (bmatch mmatch) old none_or_some
        have front : ∀ c ∈ (baseCells old items).map
            (Cell.markedBy (bmatch mmatch) (applied (bmatch mmatch) (baseCells old items) items)),
            c.ban.flags.add = false ∧ c.ban.Stands wiping := by
          intro c mem
          obtain ⟨before, there, rfl⟩ := List.mem_map.mp mem
          have plain := (baseCells_plain old none_or_some before there).2.1
          have stands : before.ban.Stands wiping := by
            obtain ⟨ban, here, rfl⟩ := List.mem_map.mp there
            rw [if_neg none_or_some] at here
            obtain ⟨earlier, mem_old, rfl⟩ := List.mem_map.mp here
            exact all earlier mem_old
          unfold Cell.markedBy
          split
          · exact ⟨plain, stands⟩
          · exact ⟨plain, stands⟩
        obtain ⟨made, kept⟩ := processBans_unset_front limits bounce front ⟨0, 0, [], [], false, [], 0⟩ rfl
        obtain ⟨made', kept'⟩ := processBans_unset_back limits bounce (fun c mem => (shape.temps c mem).2)
          (((baseCells old items).map (Cell.markedBy (bmatch mmatch)
            (applied (bmatch mmatch) (baseCells old items) items))).foldl (processBan limits false bounce)
              ⟨0, 0, [], [], false, [], 0⟩)
        unfold processBans Walk.cells
        rw [shape.split, List.foldl_append, made', kept', made, List.map_nil, List.nil_append]
        refine kept.trans ?_
        rw [List.map_nil, List.nil_append, List.map_map, ← baseCells_bare old items]
        exact List.map_congr_left fun c _ => markedBy_bare (bmatch mmatch) _ c

end

section
variable {Client : Type} [DecidableEq Client]

def Room.Present (room : Room Client) (u : Client) : Prop :=
  ∃ m ∈ room.chan.members, m.user = u ∧ m.status.zombie = false

def Room.Right (hidden : CString) (view : UserView) (room : Room Client) (u : Client) : Prop :=
  (room.bits u).banValid = true → (room.bits u).banned = (findBan hidden view room.chan.banlist).isSome

def Room.Agrees (hidden : CString) (user : Client → UserView) (mine : Client → Bool) (room : Room Client) : Prop :=
  ∀ u, mine u = true → room.Present u → room.Right hidden (user u) u

def Room.Stands (wiping : Bool) (room : Room Client) : Prop := ∀ ban ∈ room.chan.banlist, ban.Stands wiping

section
variable {hidden : CString} {user : Client → UserView} {mine : Client → Bool} {room room' : Room Client}

omit [DecidableEq Client] in
/-- With the bans and the bits of those who were here before, the bits are still right. -/
theorem Room.Agrees.of_same (agrees : room.Agrees hidden user mine)
    (bans : room'.chan.banlist.map Ban.bare = room.chan.banlist.map Ban.bare)
    (old_bits : ∀ u, room'.Present u → (room'.bits u).banValid = true →
      room.Present u ∧ room'.bits u = room.bits u) : room'.Agrees hidden user mine := by
  intro u local_user present valid
  obtain ⟨before, bits⟩ := old_bits u present valid
  rw [bits] at valid ⊢
  rw [agrees u local_user before valid, findBan_congr hidden (user u) bans]

omit [DecidableEq Client] in
theorem Room.Agrees.of_invalid (invalid : ∀ u, room.Present u → (room.bits u).banValid = false) :
    room.Agrees hidden user mine := by
  intro u _ present valid
  exact absurd (valid.symm.trans (invalid u present)) Bool.true_eq_false_eq_False

omit [DecidableEq Client] in
theorem Room.Agrees.with_bans (agrees : room.Agrees hidden user mine) {banlist : List Ban}
    (bans : banlist.map Ban.bare = room.chan.banlist.map Ban.bare) :
    Room.Agrees hidden user mine { room with chan := { room.chan with banlist } } :=
  agrees.of_same bans fun _ present _ => ⟨present, rfl⟩

theorem Room.invalidate_agrees : room.invalidate.Agrees hidden user mine := by
  refine .of_invalid fun u present => ?_
  obtain ⟨m, mem, same, -⟩ := present
  have here : room.chan.members.any (·.user = u) = true := List.any_eq_true.mpr ⟨m, mem, decide_eq_true same⟩
  unfold Room.invalidate
  simp only [here, if_true]

theorem Room.Agrees.clearBanValid (agrees : room.Agrees hidden user mine) (u : Client) :
    (room.clearBanValid u).Agrees hidden user mine := by
  refine agrees.of_same rfl fun v present valid => ⟨present, ?_⟩
  unfold Room.clearBanValid at valid ⊢
  rw [Room.bits_setBits] at valid ⊢
  by_cases same : v = u
  · rw [if_pos same] at valid
    cases valid
  · exact if_neg same

theorem Room.Agrees.join (agrees : room.Agrees hidden user mine) (client : Client) (status : Status) :
    (room.join client status).Agrees hidden user mine := by
  refine agrees.of_same rfl fun u present valid => ?_
  have bits : (room.join client status).bits u = if u = client then ⟨false, false⟩ else room.bits u :=
    room.bits_setBits client u ⟨false, false⟩
  rw [bits] at valid ⊢
  by_cases same : u = client
  · rw [if_pos same] at valid
    cases valid
  · refine ⟨?_, if_neg same⟩
    obtain ⟨m, mem, is_u, alive⟩ := present
    rcases List.mem_cons.mp mem with rfl | before
    · exact absurd is_u.symm same
    · exact ⟨m, before, is_u, alive⟩

omit [DecidableEq Client] in
theorem dropMembers_spec (gone : Membership Client → Bool) (chan : Channel Client) :
    (dropMembers gone chan).banlist = chan.banlist ∧ (dropMembers gone chan).members ⊆ chan.members := by
  have fewer : chan.members.filter (fun m => !gone m) ⊆ chan.members := List.filter_subset_self _
  unfold dropMembers checkDelayedJoins
  dsimp only
  split
  · split
    · exact ⟨rfl, fewer⟩
    · exact ⟨rfl, fewer⟩
  · exact ⟨rfl, fewer⟩

/-- A user that leaves takes the channel away or leaves the bans and the other members. -/
theorem removeUser_leaves (oplevels : Bool) (client : Client) (chan : Channel Client) :
    let left := (removeUser oplevels client chan).getD newChannel
    left.banlist ⊆ chan.banlist ∧
      (left.members = [] ∨ left.banlist = chan.banlist ∧ left.members ⊆ chan.members) := by
  obtain ⟨bans, members⟩ := dropMembers_spec (fun m => decide (m.user = client)) chan
  unfold removeUser
  dsimp only
  split
  · exact ⟨List.Subset.refl _, .inr ⟨rfl, List.Subset.refl _⟩⟩
  · split
    · obtain ⟨bans', -⟩ := dropMembers_spec (fun _ => true) (dropMembers (fun m => decide (m.user = client)) chan)
      unfold lastGone
      dsimp only
      split
      · split
        · exact ⟨List.nil_subset _, .inl rfl⟩
        · exact ⟨List.nil_subset _, .inl rfl⟩
      · refine ⟨?_, .inl rfl⟩
        dsimp only [Option.getD_some]
        rw [bans', bans]
        exact List.Subset.refl _
    · exact ⟨bans ▸ List.Subset.refl _, .inr ⟨bans, members⟩⟩

theorem Room.Agrees.leave (agrees : room.Agrees hidden user mine) (conf : Settings Client) (client : Client) :
    (room.leave conf client).Agrees hidden user mine := by
  obtain ⟨-, empty | ⟨bans, members⟩⟩ := removeUser_leaves conf.oplevels client room.chan
  · rintro u - ⟨m, mem, -⟩
    have none_left : (room.leave conf client).chan.members = [] := empty
    rw [none_left] at mem
    exact absurd mem List.not_mem_nil
  · have same : (room.leave conf client).chan.banlist = room.chan.banlist := bans
    refine agrees.of_same (congrArg _ same) fun u present _ => ⟨?_, rfl⟩
    obtain ⟨m, mem, is_u, alive⟩ := present
    exact ⟨m, members mem, is_u, alive⟩

theorem Room.Agrees.makeZombie (agrees : room.Agrees hidden user mine) (client : Client) :
    (room.makeZombie client).Agrees hidden user mine := by
  refine agrees.of_same rfl fun u present _ => ⟨?_, rfl⟩
  obtain ⟨m, mem, is_u, alive⟩ := present
  obtain ⟨before, there, rfl⟩ := List.mem_map.mp mem
  split at is_u <;> rename_i hit
  · rw [if_pos hit] at alive
    cases alive
  · rw [if_neg hit] at alive
    exact ⟨before, there, is_u, alive⟩

theorem Room.Agrees.clearMode (agrees : room.Agrees hidden user mine) (bans chanops voices : Bool) :
    (room.clearMode bans chanops voices).Agrees hidden user mine := by
  have before : ∀ u, (room.clearMode bans chanops voices).Present u → room.Present u := by
    rintro u ⟨m, mem, is_u, alive⟩
    obtain ⟨earlier, there, rfl⟩ := List.mem_map.mp mem
    split at is_u <;> rename_i zombie
    · rw [if_pos zombie] at alive
      exact ⟨earlier, there, is_u, alive⟩
    · exact ⟨earlier, there, is_u, Bool.eq_false_iff.mpr zombie⟩
  cases bans with
  | true =>
    refine .of_invalid fun u present => ?_
    obtain ⟨m, mem, is_u, alive⟩ := before u present
    have here : room.chan.members.any (fun m => m.user = u && !m.status.zombie) = true :=
      List.any_eq_true.mpr ⟨m, mem, by rw [is_u, alive]; simp⟩
    unfold Room.clearMode
    simp only [Bool.true_and, here, if_true]
  | false => exact agrees.of_same rfl fun u present _ => ⟨before u present, rfl⟩

theorem Room.Agrees.modeBans (agrees : room.Agrees hidden user mine) {wiping : Bool} (stands : room.Stands wiping)
    (conf : Settings Client) (limits : Limits) (items : List BanItem) (ending : Ending)
    (lasting : Lasting (bmatch conf.link.mmatch) room.chan.banlist items ending) :
    (room.modeBans conf limits items ending).Agrees hidden user mine := by
  have kept (unchanged : ∀ set bounce, ending = .processed set bounce → items ≠ [] →
      (processBans limits set bounce (items.foldl (linkBan (bmatch conf.link.mmatch))
        (baseCells room.chan.banlist items))).changed = 0) :=
    agrees.with_bans (parseBans_bare conf.link.mmatch limits stands lasting unchanged)
  unfold Room.modeBans
  dsimp only
  cases ending with
  | processed set bounce =>
    dsimp only
    split <;> rename_i changed
    · exact Room.invalidate_agrees
    · refine kept fun set' bounce' same some_items => ?_
      cases same
      exact Nat.eq_zero_of_not_pos fun more => changed ⟨some_items, more⟩
  | ignored => exact kept fun _ _ impossible => by cases impossible
  | unbuffered => exact kept fun _ _ impossible => by cases impossible

theorem Room.Stands.modeBans {wiping : Bool} (stands : room.Stands wiping) (conf : Settings Client) (limits : Limits)
    (items : List BanItem) (ending : Ending) : (room.modeBans conf limits items ending).Stands wiping := by
  have all : ∀ ban ∈ (parseBans (bmatch conf.link.mmatch) limits room.chan.banlist items ending).1.map Cell.ban,
      ban.Stands wiping := by
    intro ban mem
    obtain ⟨c, there, rfl⟩ := List.mem_map.mp mem
    exact parseBans_stands (bmatch conf.link.mmatch) limits stands items ending c there
  unfold Room.modeBans
  dsimp only
  split
  · split
    · exact all
    · exact all
  · exact all

omit [DecidableEq Client] in
theorem addBurstBan_stands {wiping : Bool} (link : Link Client) (text : List Char) {banlist : List Ban}
    (all : ∀ ban ∈ banlist, ban.Stands wiping) : ∀ ban ∈ addBurstBan link text banlist, ban.Stands wiping := by
  induction banlist with
  | nil =>
    intro ban mem
    rw [List.mem_singleton.mp mem]
    exact ⟨rfl, fun wipeout => absurd wipeout Bool.false_ne_true⟩
  | cons ban rest ih =>
    obtain ⟨here, behind⟩ := List.forall_mem_cons.mp all
    rw [addBurstBan]
    split
    · exact List.forall_mem_cons.mpr ⟨⟨here.1, fun wipeout => absurd wipeout Bool.false_ne_true⟩, behind⟩
    · split
      · exact all
      · split
        · exact List.forall_mem_cons.mpr ⟨here, ih behind⟩
        · exact List.forall_mem_cons.mpr ⟨here, ih behind⟩

omit [DecidableEq Client] in
theorem addBurstBan_bare (link : Link Client) (text : List Char) {banlist : List Ban}
    (none_new : (addBurstBan link text banlist).length = banlist.length) :
    (addBurstBan link text banlist).map Ban.bare = banlist.map Ban.bare := by
  induction banlist with
  | nil => cases none_new
  | cons ban rest ih =>
    rw [addBurstBan] at none_new ⊢
    split
    · rfl
    · rename_i other
      rw [if_neg other] at none_new
      split
      · rfl
      · rename_i free
        rw [if_neg free] at none_new
        split <;> rename_i covered
        · rw [if_pos covered] at none_new
          rw [List.map_cons, ih (Nat.succ.inj none_new)]
          rfl
        · rw [if_neg covered] at none_new
          rw [List.map_cons, ih (Nat.succ.inj none_new)]
          rfl

structure BurstWalk.Good (hidden : CString) (user : Client → UserView) (mine : Client → Bool) (wiping : Bool)
    (w : BurstWalk Client) : Prop where
  stands : w.room.Stands wiping
  agrees : w.banpos = false → w.room.Agrees hidden user mine

variable {wiping : Bool} {w : BurstWalk Client}

omit [DecidableEq Client] in
theorem BurstWalk.Good.readMask (good : w.Good hidden user mine wiping) (link : Link Client) (mask : List Char) :
    (w.readMask link mask).Good hidden user mine wiping := by
  refine ⟨addBurstBan_stands link mask good.stands, fun none_new => ?_⟩
  obtain ⟨before, same⟩ := Bool.or_eq_false_iff.mp none_new
  have length := of_not_not (of_decide_eq_false same)
  exact (good.agrees before).with_bans (addBurstBan_bare link mask length)

theorem Room.Agrees.readEntry (agrees : room.Agrees hidden user mine) (e : Entry Client) :
    (room.readEntry e).Agrees hidden user mine := by
  have bans : (room.readEntry e).chan.banlist = room.chan.banlist := rfl
  refine agrees.of_same (congrArg _ bans) fun u present valid => ?_
  obtain ⟨m, mem, is_u, alive⟩ := present
  have members : (room.readEntry e).chan.members = joinMember room.chan.members e := rfl
  rw [members] at mem
  unfold joinMember at mem
  unfold Room.readEntry at valid ⊢
  cases known : room.chan.members.any (·.user = e.user) with
  | true =>
    rw [if_pos known] at mem
    obtain ⟨before, there, rfl⟩ := List.mem_map.mp mem
    refine ⟨⟨before, there, ?_⟩, rfl⟩
    split at is_u <;> rename_i hit
    · rw [if_pos hit] at alive
      exact ⟨is_u, alive⟩
    · rw [if_neg hit] at alive
      exact ⟨is_u, alive⟩
  | false =>
    rw [known, if_neg Bool.false_ne_true] at valid
    rw [if_neg (Bool.eq_false_iff.mp known)] at mem
    rw [if_neg Bool.false_ne_true]
    rw [Room.bits_setBits] at valid ⊢
    by_cases same : u = e.user
    · rw [if_pos same] at valid
      cases valid
    · refine ⟨?_, if_neg same⟩
      rcases List.mem_cons.mp mem with rfl | before
      · exact absurd is_u.symm same
      · exact ⟨m, before, is_u, alive⟩

def BurstParam.Lasting (conf : Settings Client) (set : Bool) (w : BurstWalk Client) : BurstParam Client → Prop
  | .modes items => set = true ∨ Channels.Lasting (bmatch conf.link.mmatch) w.room.chan.banlist items .unbuffered
  | _ => True

theorem BurstWalk.Good.readParam (good : w.Good hidden user mine wiping) (conf : Settings Client) (set : Bool)
    (param : BurstParam Client) (lasting : param.Lasting conf set w) :
    (w.readParam conf set param).Good hidden user mine wiping := by
  cases param with
  | modes items =>
    refine ⟨good.stands.modeBans conf ⟨false, 0, 0⟩ items _, fun none_new => ?_⟩
    refine (good.agrees none_new).modeBans good.stands conf ⟨false, 0, 0⟩ items _ ?_
    cases set with
    | true => exact trivial
    | false => exact lasting.resolve_left Bool.false_ne_true
  | bans masks =>
    unfold BurstWalk.readParam
    dsimp only
    split
    · clear lasting
      induction masks generalizing w with
      | nil => exact good
      | cons mask masks ih => exact ih (good.readMask conf.link mask)
    · exact good
  | clients entries =>
    have stands : ∀ {room : Room Client}, room.Stands wiping → (entries.foldl Room.readEntry room).Stands wiping := by
      clear lasting
      induction entries with
      | nil => exact fun stands => stands
      | cons e entries ih => exact fun {room} (stands : (room.readEntry e).Stands wiping) => ih stands
    have agrees : ∀ {room : Room Client}, room.Agrees hidden user mine →
        (entries.foldl Room.readEntry room).Agrees hidden user mine := by
      clear lasting stands
      induction entries with
      | nil => exact fun agrees => agrees
      | cons e entries ih => exact fun agrees => ih (agrees.readEntry e)
    exact ⟨stands good.stands, fun none_new => agrees (good.agrees none_new)⟩

def BurstWalk.Lasting (conf : Settings Client) (set : Bool) : BurstWalk Client → List (BurstParam Client) → Prop
  | _, [] => True
  | w, param :: params => param.Lasting conf set w ∧ (w.readParam conf set param).Lasting conf set params

theorem BurstWalk.Good.readParams (good : w.Good hidden user mine wiping) (conf : Settings Client) (set : Bool)
    (params : List (BurstParam Client)) (lasting : w.Lasting conf set params) :
    (params.foldl (BurstWalk.readParam conf set) w).Good hidden user mine wiping := by
  induction params generalizing w with
  | nil => exact good
  | cons param params ih => exact ih (good.readParam conf set param lasting.1) lasting.2

omit [DecidableEq Client] in
theorem Room.Agrees.prepare (agrees : room.Agrees hidden user mine) (wipeout : Bool) (timestamp : Int) :
    Room.Agrees hidden user mine { room with chan := prepare wipeout timestamp room.chan } := by
  refine agrees.of_same ?_ fun u present _ => ⟨?_, rfl⟩
  · unfold Channels.prepare
    dsimp only
    split
    · exact List.map_map
    · rfl
  · obtain ⟨m, mem, is_u, alive⟩ := present
    have members : (Channels.prepare wipeout timestamp room.chan).members =
        room.chan.members.map fun m => { m with status := m.status.unjoined } := by
      unfold Channels.prepare
      dsimp only
      split <;> rfl
    rw [members] at mem
    obtain ⟨before, there, rfl⟩ := List.mem_map.mp mem
    exact ⟨before, there, is_u, alive⟩

omit [DecidableEq Client] in
theorem Room.Stands.prepare (stands : room.Stands false) (wipeout : Bool) (timestamp : Int) :
    Room.Stands wipeout { room with chan := prepare wipeout timestamp room.chan } := by
  unfold Room.Stands Channels.prepare
  dsimp only
  cases wipeout with
  | true =>
    intro ban mem
    obtain ⟨before, there, rfl⟩ := List.mem_map.mp mem
    exact ⟨(stands before there).1, fun _ => rfl⟩
  | false => exact stands

def Room.BurstKeeps (conf : Settings Client) (room : Room Client) (timestamp : Int) (params : List (BurstParam Client)) :
    Prop :=
  let rule := burstRule room.chan timestamp
  let start : BurstWalk Client := ⟨{ room with chan := Channels.prepare rule.1 timestamp room.chan }, false⟩
  start.Lasting conf rule.2 params ∧
    (rule.2 = true → rule.1 = true ∨ (room.readBurst conf timestamp params).banpos = true ∨
      ∀ ban ∈ (room.readBurst conf timestamp params).room.chan.banlist, ban.flags.overlapped = false)

omit [DecidableEq Client] in
theorem cleanUp_present {set wipeout : Bool} {u : Client} {room : Room Client}
    (present : Room.Present { room with chan := cleanUp set wipeout room.chan } u) : room.Present u := by
  obtain ⟨m, mem, is_u, alive⟩ := present
  unfold cleanUp at mem
  cases set with
  | true =>
    obtain ⟨before, there, rfl⟩ := List.mem_map.mp mem
    refine ⟨before, there, ?_⟩
    split at is_u <;> rename_i hit
    · rw [if_pos hit] at alive
      exact ⟨is_u, alive⟩
    · rw [if_neg hit] at alive
      exact ⟨is_u, alive⟩
  | false => exact ⟨m, mem, is_u, alive⟩

theorem Room.timedBurst_good (agrees : room.Agrees hidden user mine) (stands : room.Stands false)
    (conf : Settings Client) (timestamp : Int) (params : List (BurstParam Client))
    (keeps : room.BurstKeeps conf timestamp params) :
    (room.timedBurst conf timestamp params).Agrees hidden user mine ∧
      (room.timedBurst conf timestamp params).Stands false := by
  obtain ⟨lasting, keeps⟩ := keeps
  have start : BurstWalk.Good hidden user mine (burstRule room.chan timestamp).1
      ⟨{ room with chan := Channels.prepare (burstRule room.chan timestamp).1 timestamp room.chan }, false⟩ :=
    ⟨stands.prepare _ timestamp, fun _ => agrees.prepare _ timestamp⟩
  have good : (room.readBurst conf timestamp params).Good hidden user mine (burstRule room.chan timestamp).1 :=
    start.readParams conf _ params lasting
  have set_of_wipeout : (burstRule room.chan timestamp).1 = true → (burstRule room.chan timestamp).2 = true := by
    intro wipeout
    unfold burstRule at wipeout ⊢
    dsimp only at wipeout ⊢
    rw [wipeout, Bool.true_or]
  unfold Room.timedBurst
  dsimp only
  generalize room.readBurst conf timestamp params = w at *
  generalize (burstRule room.chan timestamp).1 = wipeout at *
  generalize (burstRule room.chan timestamp).2 = set at *
  have left_list : (if (wipeout || w.banpos) = true then w.room.invalidate else w.room).chan = w.room.chan := by
    split <;> rfl
  have left_stands : Room.Stands false
      { (if (wipeout || w.banpos) = true then w.room.invalidate else w.room) with
        chan := cleanUp set wipeout w.room.chan } := by
    intro ban mem
    unfold cleanUp at mem
    cases set with
    | true =>
      obtain ⟨before, -, rfl⟩ := List.mem_map.mp mem
      exact .onlyIpMask
    | false =>
      refine ⟨(good.stands ban mem).1, fun mark => ?_⟩
      exact absurd (set_of_wipeout ((good.stands ban mem).2 mark)) Bool.false_ne_true
  rw [left_list]
  refine ⟨?_, left_stands⟩
  cases invalidates : wipeout || w.banpos with
  | true =>
    rw [if_pos rfl]
    refine .of_invalid fun u present => ?_
    have present' : w.room.invalidate.Present u := cleanUp_present present
    obtain ⟨m, mem, is_u, -⟩ := present'
    have here : w.room.chan.members.any (·.user = u) = true := List.any_eq_true.mpr ⟨m, mem, decide_eq_true is_u⟩
    unfold Room.invalidate
    simp only [here, if_true]
  | false =>
    obtain ⟨no_wipeout, none_new⟩ := Bool.or_eq_false_iff.mp invalidates
    rw [if_neg Bool.false_ne_true]
    refine (good.agrees none_new).of_same ?_ fun u present _ => ⟨cleanUp_present present, rfl⟩
    unfold cleanUp
    cases set with
    | true =>
      have unmarked : ∀ ban ∈ w.room.chan.banlist, ban.flags.overlapped = false := by
        rcases keeps rfl with wiped | added | unmarked
        · exact absurd (no_wipeout.symm.trans wiped) Bool.false_ne_true
        · exact absurd (none_new.symm.trans added) Bool.false_ne_true
        · exact unmarked
      have all_stay : w.room.chan.banlist.filter (fun ban => !(ban.flags.overlapped || ban.flags.burstWipeout)) =
          w.room.chan.banlist := by
        refine List.filter_eq_self.mpr fun ban mem => ?_
        have no_mark : ban.flags.burstWipeout = false := by
          by_contra mark
          rw [Bool.not_eq_false] at mark
          exact Bool.false_ne_true (no_wipeout.symm.trans ((good.stands ban mem).2 mark))
        rw [unmarked ban mem, no_mark]
        rfl
      rw [if_pos rfl, all_stay, List.map_map]
      exact List.map_congr_left fun ban mem => (good.stands ban mem).bare_onlyIpMask
    | false => rfl

end

end

end Ircd.Channels

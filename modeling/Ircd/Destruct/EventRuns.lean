import Ircd.Channels.DelayedJoinRuns
import Ircd.Destruct.EventLists

/-! Runs of a server whose channels become empty, are filled again and are destroyed.

The one place where an event may be forgotten is `sub1_from_channel` for a channel that is empty already: it
destroys the channel at once if op levels are not in use and there is no apass.
-/

set_option autoImplicit false

namespace Ircd.Destruct
open Ircd.Channels Ircd.Library

section
variable {ε χ Client : Type}

structure Server.Linked (s : Server ε χ Client) (q : Queue) (l : List ε) : Prop where
  down : Chain s.prevEvent (s.top q) l
  up : Prevs s.nextEvent none l
  bottom : s.bottom q = l.getLast?
  distinct : l.Nodup

structure Server.Sound (s : Server ε χ Client) : Prop where
  lists : ∃ l : Queue → List ε, (∀ q, s.Linked q (l q)) ∧ (∀ q, ∀ e ∈ l q, s.allocated e = true) ∧
    ∀ e, s.allocated e = true → ∃! q, e ∈ l q
  refers : ∀ e, s.allocated e = true → ∃ cell, s.channel (s.chptr e) = some cell ∧ cell.destructEvent = some e
  points : ∀ c cell e, s.channel c = some cell → cell.destructEvent = some e → s.allocated e = true ∧ s.chptr e = c
  one : ∀ e e', s.allocated e = true → s.allocated e' = true → s.chptr e = s.chptr e' → e = e'

def Server.Ordered (s : Server ε χ Client) : Prop :=
  ∀ q l, s.Linked q l → l.Pairwise fun e e' => s.expires e' ≤ s.expires e

/-- What happens. Memory that is made is given a name, which is used if an event is scheduled. -/
inductive Action (ε χ Client : Type) where
  | create (chptr : χ) (creationTime : Int)
  | targetRefused (chptr : χ)
  | addUser (chptr : χ) (member : Membership Client)
  | removeUser (new : ε) (chptr : χ) (user : Client)
  | destruct (chptr : χ) (chanTS : Int)
  | burstRefused (new : ε) (chptr : χ)
  | burstOver (new : ε) (chptr : χ)
  | expire (fuel : Nat)
  | change (chptr : χ) (chan : Channel Client)
  | clock (now : Int)
  | feature (opLevels : Bool)

/-- Memory that is made was free, and only `addUser` and `removeUser` change who is on a channel. -/
def Allowed (s : Server ε χ Client) : Action ε χ Client → Prop
  | .create chptr _ | .targetRefused chptr => s.channel chptr = none
  | .removeUser new _ _ | .burstRefused new _ | .burstOver new _ => s.allocated new = false
  | .change chptr chan => ∀ cell, s.channel chptr = some cell →
      chan.members.map Membership.user = cell.chan.members.map Membership.user
  | _ => True

/-- `sub1_from_channel` would destroy the empty channel and leave its event. -/
def Server.Forgets (s : Server ε χ Client) (chptr : χ) : Prop :=
  ∃ cell, s.channel chptr = some cell ∧ cell.chan.members = [] ∧ cell.destructEvent ≠ none ∧
    cell.chan.mode.apass = [] ∧ s.opLevels = false

/-- An empty channel whose event is pending is not destroyed by a second `sub1_from_channel`. -/
def Calm (s : Server ε χ Client) : Action ε χ Client → Prop
  | .burstRefused _ chptr => ¬s.Forgets chptr
  | .burstOver _ chptr =>
    (∃ cell, s.channel chptr = some cell ∧ cell.chan.mode.mode .burstAdded = true) → ¬s.Forgets chptr
  | _ => True

def Forward (s : Server ε χ Client) : Action ε χ Client → Prop
  | .clock now => s.now ≤ now
  | _ => True

variable [DecidableEq ε] [DecidableEq χ] [DecidableEq Client]

def step (s : Server ε χ Client) : Action ε χ Client → Server ε χ Client
  | .create chptr creationTime => s.createChannel chptr creationTime
  | .targetRefused chptr => s.targetRefused chptr
  | .addUser chptr member => s.addUserToChannel chptr member
  | .removeUser new chptr user => s.removeUserFromChannel new chptr user
  | .destruct chptr chanTS => s.msDestruct chptr chanTS
  | .burstRefused new chptr => s.burstRefused new chptr
  | .burstOver new chptr => s.burstOver new chptr
  | .expire fuel => s.execExpiredDestructEvents fuel
  | .change chptr chan => s.change chptr chan
  | .clock now => { s with now := now }
  | .feature opLevels => { s with opLevels := opLevels }

/-- The states of a server that starts without channels, where every step meets a condition. -/
inductive Reaches (meets : Server ε χ Client → Action ε χ Client → Prop) : Server ε χ Client → Prop
  | start {s : Server ε χ Client} (no_channel : ∀ c, s.channel c = none) (no_event : ∀ e, s.allocated e = false)
    (no_top : ∀ q, s.top q = none) (no_bottom : ∀ q, s.bottom q = none) : Reaches meets s
  | step {s : Server ε χ Client} {a : Action ε χ Client} (before : Reaches meets s) (allowed : Allowed s a)
    (met : meets s a) : Reaches meets (step s a)

def Keeps (s s' : Server ε χ Client) (key : ε → Option Queue) (l : List ε) : Prop :=
  ∃ key' l', Inv s' key' l' ∧ (Timely s key l → Timely s' key' l')

variable {s s' s'' : Server ε χ Client} {key : ε → Option Queue} {l : List ε} {c : χ} {cell : ChannelCell ε Client}

omit [DecidableEq χ] [DecidableEq Client] in
theorem Inv.keeps (inv : Inv s key l) : Keeps s s key l := ⟨key, l, inv, id⟩

omit [DecidableEq χ] [DecidableEq Client] in
theorem Keeps.trans (first : Keeps s s' key l) (second : ∀ key' l', Inv s' key' l' → Keeps s' s'' key' l') :
    Keeps s s'' key l := by
  obtain ⟨key', l', inv', timely'⟩ := first
  obtain ⟨key'', l'', inv'', timely''⟩ := second key' l' inv'
  exact ⟨key'', l'', inv'', timely'' ∘ timely'⟩

omit [DecidableEq Client] in
theorem Inv.keeps_setChannel (inv : Inv s key l) {new : Option (ChannelCell ε Client)}
    (same : new.bind ChannelCell.destructEvent = s.eventOf c)
    (empty : ∀ cell, new = some cell → cell.destructEvent ≠ none → cell.chan.members = []) :
    Keeps s (s.setChannel c new) key l :=
  ⟨key, l, inv.setChannel same empty, fun timely => timely.setChannel c new⟩

omit [DecidableEq ε] [DecidableEq χ] [DecidableEq Client] in
theorem eventOf_found (found : s.channel c = some cell) : s.eventOf c = cell.destructEvent := by
  rw [Server.eventOf, found, Option.bind_some]

omit [DecidableEq Client] in
theorem Inv.keeps_cell (inv : Inv s key l) (found : s.channel c = some cell) (chan : Channel Client)
    (empty : cell.chan.members = [] → chan.members = []) :
    Keeps s (s.setChannel c (some { cell with chan := chan })) key l := by
  apply inv.keeps_setChannel
  · rw [eventOf_found found]
    rfl
  · rintro new same pending
    obtain rfl := Option.some.inj same
    exact empty (inv.empty c cell found pending)

omit [DecidableEq Client] in
theorem remove_eventOf (s : Server ε χ Client) (c : χ) : (s.removeDestructEvent c).eventOf c = none := by
  cases found : s.channel c with
  | none =>
    have same : s.removeDestructEvent c = s := by
      unfold Server.removeDestructEvent
      simp only [found]
    rw [same, Server.eventOf, found]
    rfl
  | some cell =>
    cases pending : cell.destructEvent with
    | none =>
      have same : s.removeDestructEvent c = s := by
        unfold Server.removeDestructEvent
        simp only [found, pending]
      rw [same, eventOf_found found, pending]
    | some event =>
      rw [eventOf_update (remove_spec found pending).channel, Function.update_self]
      rfl

omit [DecidableEq Client] in
theorem Inv.keeps_remove (inv : Inv s key l) (c : χ) : Keeps s (s.removeDestructEvent c) key l := by
  cases found : s.channel c with
  | none =>
    unfold Server.removeDestructEvent
    simpa only [found] using inv.keeps
  | some cell =>
    cases pending : cell.destructEvent with
    | none =>
      unfold Server.removeDestructEvent
      simpa only [found, pending] using inv.keeps
    | some event =>
      have spec := remove_spec found pending
      have here : s.eventOf c = some event := by rw [eventOf_found found, pending]
      exact ⟨key, l.erase event, spec.inv inv here, fun timely => spec.timely timely inv.distinct⟩

omit [DecidableEq Client] in
theorem Inv.keeps_destruct (inv : Inv s key l) (gone : s.eventOf c = none) : Keeps s (s.destructChannel c) key l :=
  inv.keeps_setChannel gone.symm fun _ there => nomatch there

omit [DecidableEq Client] in
theorem Inv.keeps_end (inv : Inv s key l) (c : χ) :
    Keeps s ((s.removeDestructEvent c).destructChannel c) key l :=
  (inv.keeps_remove c).trans fun _ _ removed => removed.keeps_destruct (remove_eventOf s c)

omit [DecidableEq Client] in
theorem Inv.keeps_schedule (inv : Inv s key l) {new : ε} (fresh : s.allocated new = false) (q : Queue)
    (found : s.channel c = some cell) (empty : cell.chan.members = []) :
    Keeps s (s.schedule q q.delay new c) key l := by
  have outside : new ∉ l := by
    rw [← inv.allocated, fresh]
    exact Bool.false_ne_true
  cases pending : cell.destructEvent with
  | some event =>
    unfold Server.schedule
    simpa only [found, pending, Option.isSome_some, if_true] using inv.keeps
  | none =>
    have not_top : s.top q ≠ some new := by
      intro is_top
      have head := (inv.holds.two_way.chain q).head_eq
      exact outside (List.mem_of_mem_filter (List.mem_of_mem_head? (head.symm.trans is_top)))
    have spec : Scheduled s q q.delay new c cell (s.schedule q q.delay new c) := schedule_spec found pending not_top
    exact ⟨_, _, spec.inv inv outside (by rw [eventOf_found found, pending]) empty,
      fun timely => spec.timely timely outside⟩

omit [DecidableEq ε] [DecidableEq χ] [DecidableEq Client] in
theorem lastGone_none {opLevels : Bool} {chan : Channel Client} (gone : lastGone opLevels chan = none) :
    chan.mode.apass = [] ∧ opLevels = false := by
  unfold lastGone at gone
  dsimp only at gone
  split at gone
  next no_apass =>
    split at gone
    · cases gone
    next off => exact ⟨no_apass, Bool.not_eq_true _ ▸ off⟩
  · cases gone

omit [DecidableEq ε] [DecidableEq χ] [DecidableEq Client] in
theorem lastGone_empty {opLevels : Bool} {chan left : Channel Client} (kept : lastGone opLevels chan = some left) :
    left.members = [] := by
  unfold lastGone at kept
  dsimp only at kept
  split at kept
  · split at kept
    · rw [← Option.some.inj kept]
    · cases kept
  · rw [← Option.some.inj kept]

omit [DecidableEq Client] in
theorem Inv.keeps_sub1 (inv : Inv s key l) {new : ε} (fresh : s.allocated new = false)
    (found : s.channel c = some cell) (empty : cell.chan.members = []) (calm : ¬s.Forgets c) :
    Keeps s (s.sub1FromChannel new c) key l := by
  unfold Server.sub1FromChannel
  simp only [found]
  cases gone : lastGone s.opLevels cell.chan with
  | none =>
    apply inv.keeps_destruct
    obtain ⟨no_apass, off⟩ := lastGone_none gone
    rw [eventOf_found found]
    by_contra pending
    exact calm ⟨cell, found, empty, pending, no_apass, off⟩
  | some chan =>
    have left := lastGone_empty gone
    have here := setChannel_here (s := s) c (some { cell with chan := chan })
    refine (inv.keeps_cell found chan fun _ => left).trans fun key' l' inv' => ?_
    dsimp only
    split
    · exact inv'.keeps_schedule fresh .minute here left
    · exact inv'.keeps_schedule fresh .days here left

omit [DecidableEq Client] in
theorem remove_setChannel (found : s.channel c = some cell) {event : ε} (pending : cell.destructEvent = some event)
    (chan : Channel Client) : (s.setChannel c (some ⟨chan, some event⟩)).removeDestructEvent c =
      (s.removeDestructEvent c).setChannel c (some ⟨chan, none⟩) := by
  unfold Server.removeDestructEvent Server.setChannel
  simp only [found, pending, Function.update_self, Function.update_idem]

omit [DecidableEq Client] in
theorem Inv.keeps_addUser (inv : Inv s key l) (c : χ) (member : Membership Client) :
    Keeps s (s.addUserToChannel c member) key l := by
  unfold Server.addUserToChannel
  cases found : s.channel c with
  | none => exact inv.keeps
  | some cell =>
    dsimp only
    cases pending : cell.destructEvent with
    | none =>
      rw [if_neg (by simp)]
      apply inv.keeps_setChannel
      · rw [eventOf_found found, pending]
        rfl
      · rintro new same some_event
        obtain rfl := Option.some.inj same
        exact absurd rfl some_event
    | some event =>
      rw [if_pos (by simp), remove_setChannel found pending]
      refine (inv.keeps_remove c).trans fun key' l' removed => ?_
      apply removed.keeps_setChannel
      · exact (remove_eventOf s c).symm
      · rintro new same some_event
        obtain rfl := Option.some.inj same
        exact absurd rfl some_event

theorem Inv.keeps_removeUser (inv : Inv s key l) {new : ε} (fresh : s.allocated new = false) (c : χ)
    (user : Client) : Keeps s (s.removeUserFromChannel new c user) key l := by
  unfold Server.removeUserFromChannel
  cases found : s.channel c with
  | none => exact inv.keeps
  | some cell =>
    dsimp only
    split
    · exact inv.keeps
    next there =>
      -- a channel with a member has no event
      have some_member : cell.chan.members ≠ [] := by
        intro empty
        rw [empty] at there
        exact there rfl
      have no_event : cell.destructEvent = none := by
        by_contra pending
        exact some_member (inv.empty c cell found pending)
      split
      · have gone : (dropMembers (fun _ => true)
            (dropMembers (fun m => decide (m.user = user)) cell.chan)).members = [] := dropAll_members _
        refine (inv.keeps_cell found _ fun _ => gone).trans fun key' l' inv' => ?_
        refine inv'.keeps_sub1 fresh (setChannel_here ..) gone ?_
        rintro ⟨cell', found', -, pending, -⟩
        obtain rfl := Option.some.inj ((setChannel_here ..).symm.trans found')
        exact pending no_event
      · exact inv.keeps_cell found _ fun empty => absurd empty some_member

omit [DecidableEq Client] in
theorem Inv.keeps_msDestruct (inv : Inv s key l) (c : χ) (chanTS : Int) :
    Keeps s (s.msDestruct c chanTS) key l := by
  unfold Server.msDestruct
  cases found : s.channel c with
  | none => exact inv.keeps
  | some cell =>
    dsimp only
    split
    · exact inv.keeps
    · split
      · exact inv.keeps_end c
      next no_event =>
        apply inv.keeps_destruct
        rw [eventOf_found found]
        exact Option.not_isSome_iff_eq_none.mp no_event

omit [DecidableEq Client] in
theorem Inv.keeps_burstRefused (inv : Inv s key l) {new : ε} (fresh : s.allocated new = false)
    (calm : ¬s.Forgets c) : Keeps s (s.burstRefused new c) key l := by
  unfold Server.burstRefused
  cases found : s.channel c with
  | none => exact inv.keeps
  | some cell =>
    dsimp only
    split
    next empty => exact inv.keeps_sub1 fresh found empty calm
    · exact inv.keeps

omit [DecidableEq Client] in
theorem Inv.keeps_burstOver (inv : Inv s key l) {new : ε} (fresh : s.allocated new = false)
    (calm : (∃ cell, s.channel c = some cell ∧ cell.chan.mode.mode .burstAdded = true) → ¬s.Forgets c) :
    Keeps s (s.burstOver new c) key l := by
  unfold Server.burstOver
  cases found : s.channel c with
  | none => exact inv.keeps
  | some cell =>
    dsimp only
    have flagged := inv.keeps_cell found { cell.chan with
      mode := { cell.chan.mode with mode := cell.chan.mode.mode.without (.only .burstAdded) } } id
    split
    next added =>
      refine flagged.trans fun key' l' inv' => ?_
      refine inv'.keeps_sub1 fresh (setChannel_here ..) added.1 ?_
      rintro ⟨cell', found', empty, pending, no_apass, off⟩
      obtain rfl := Option.some.inj ((setChannel_here ..).symm.trans found')
      exact calm ⟨cell, found, added.2⟩ ⟨cell, found, empty, pending, no_apass, off⟩
    · exact flagged

omit [DecidableEq Client] in
theorem Inv.keeps_execExpired (inv : Inv s key l) (q : Queue) (fuel : Nat) :
    Keeps s (s.execExpired q fuel) key l := by
  induction fuel generalizing s key l with
  | zero => exact inv.keeps
  | succ fuel ih =>
    rw [Server.execExpired]
    cases s.bottom q with
    | none => exact inv.keeps
    | some event =>
      dsimp only
      split
      · exact (inv.keeps_end (s.chptr event)).trans fun _ _ ended => ih ended
      · exact inv.keeps

/-- A loop over one list has left `l'` of the events: those that went were due, and the last of the list is not. -/
structure Drained (s s' : Server ε χ Client) (key : ε → Option Queue) (l l' : List ε) (q : Queue) : Prop where
  inv : Inv s' key l'
  sub : l'.Sublist l
  now : s'.now = s.now
  expires : s'.expires = s.expires
  due : ∀ e ∈ l, e ∉ l' → s.expires e ≤ s.now
  done : ∀ event, s'.bottom q = some event → s.now < s.expires event

omit [DecidableEq Client] in
theorem Inv.drains (inv : Inv s key l) (q : Queue) {fuel : Nat} (enough : l.length ≤ fuel) :
    ∃ l', Drained s (s.execExpired q fuel) key l l' q := by
  induction fuel generalizing s l with
  | zero =>
    obtain rfl := List.eq_nil_of_length_eq_zero (Nat.le_zero.mp enough)
    have no_last : s.bottom q = none := inv.holds.last q
    exact ⟨[], inv, List.Sublist.refl [], rfl, rfl, fun _ mem => absurd mem List.not_mem_nil,
      fun _ last => absurd (no_last.symm.trans last) (Option.some_ne_none _).symm⟩
  | succ fuel ih =>
    have stays (same : s.execExpired q (fuel + 1) = s) (done : ∀ event, s.bottom q = some event → s.now < s.expires event) :
        ∃ l', Drained s (s.execExpired q (fuel + 1)) key l l' q := by
      rw [same]
      exact ⟨l, inv, List.Sublist.refl l, rfl, rfl, fun _ mem gone => absurd mem gone, done⟩
    cases bottom : s.bottom q with
    | none => exact stays (by rw [Server.execExpired, bottom]) fun _ last =>
        absurd (bottom.symm.trans last) (Option.some_ne_none _).symm
    | some first =>
      by_cases due : s.now ≥ s.expires first
      · have same : s.execExpired q (fuel + 1) =
            ((s.removeDestructEvent (s.chptr first)).destructChannel (s.chptr first)).execExpired q fuel := by
          rw [Server.execExpired, bottom]
          exact if_pos due
        have mem : first ∈ l := List.mem_of_mem_filter (List.mem_of_getLast? ((inv.holds.last q).symm.trans bottom))
        have owner := inv.refers first mem
        obtain ⟨cell, found, pending⟩ := Option.bind_eq_some_iff.mp owner
        have removed := remove_spec found pending
        have ended : Inv ((s.removeDestructEvent (s.chptr first)).destructChannel (s.chptr first)) key (l.erase first) :=
          (removed.inv inv owner).setChannel (remove_eventOf s (s.chptr first)).symm fun _ there => nomatch there
        have fewer : (l.erase first).length ≤ fuel := by
          rw [List.length_erase_of_mem mem]
          omega
        obtain ⟨l', inv', sub, now, expires, gone, done⟩ := ih ended fewer
        have now' : ((s.removeDestructEvent (s.chptr first)).destructChannel (s.chptr first)).now = s.now := removed.now
        have expires' : ((s.removeDestructEvent (s.chptr first)).destructChannel (s.chptr first)).expires = s.expires :=
          removed.expires
        rw [now', expires'] at gone done
        rw [same]
        refine ⟨l', inv', sub.trans List.erase_sublist, now.trans now', expires.trans expires', fun e old left => ?_, done⟩
        by_cases here : e = first
        · exact here ▸ due
        · exact gone e ((List.mem_erase_of_ne here).mpr old) left
      · refine stays ?_ fun event last => ?_
        · rw [Server.execExpired, bottom]
          exact if_neg due
        · obtain rfl := Option.some.inj (bottom.symm.trans last)
          exact Int.not_le.mp due

section
variable {l' : List ε} {q : Queue} (timely : Timely s key l) (left : Drained s s' key l l' q)
include timely left

omit [DecidableEq χ] [DecidableEq Client] in
theorem Timely.drained : Timely s' key l' where
  order q := by
    rw [left.expires]
    exact (timely.order q).sublist (left.sub.filter _)
  bound e mem q here := by
    rw [left.expires, left.now]
    exact timely.bound e (left.sub.subset mem) q here

omit [DecidableEq χ] [DecidableEq Client] in
theorem Drained.later {e : ε} (mem : e ∈ l') (here : key e = some q) : s.now < s.expires e := by
  have order := (timely.drained left).order q
  have listed : e ∈ l'.filter fun e => key e = some q := List.mem_filter.mpr ⟨mem, by simp [here]⟩
  have last : s'.bottom q = (l'.filter fun e => key e = some q).getLast? := left.inv.holds.last q
  rw [left.expires] at order
  revert order listed last
  generalize (l'.filter fun e => key e = some q) = chain
  intro order listed last
  rcases List.eq_nil_or_concat' chain with rfl | ⟨front, event, rfl⟩
  · cases listed
  · have done := left.done event (by rw [last, List.getLast?_concat])
    rcases List.mem_append.mp listed with before | this
    · exact Int.lt_of_lt_of_le done ((List.pairwise_append.mp order).2.2 e before event List.mem_cons_self)
    · exact List.mem_singleton.mp this ▸ done

end

theorem step_keeps (inv : Inv s key l) {a : Action ε χ Client} (allowed : Allowed s a) (calm : Calm s a) :
    ∃ key' l', Inv (step s a) key' l' ∧ (Forward s a → Timely s key l → Timely (step s a) key' l') := by
  have of_keeps (kept : Keeps s (step s a) key l) :
      ∃ key' l', Inv (step s a) key' l' ∧ (Forward s a → Timely s key l → Timely (step s a) key' l') := by
    obtain ⟨key', l', inv', timely'⟩ := kept
    exact ⟨key', l', inv', fun _ => timely'⟩
  cases a with
  | create c creationTime =>
    apply of_keeps
    apply inv.keeps_setChannel
    · rw [Server.eventOf, show s.channel c = none from allowed]
      rfl
    · rintro cell same pending
      obtain rfl := Option.some.inj same
      exact absurd rfl pending
  | targetRefused c =>
    apply of_keeps
    have gone : s.eventOf c = none := by
      rw [Server.eventOf, show s.channel c = none from allowed]
      rfl
    have same : step s (.targetRefused c) = s.destructChannel c := by
      unfold step Server.targetRefused Server.createChannel Server.destructChannel Server.setChannel
      simp only [Function.update_idem]
    rw [same]
    exact inv.keeps_destruct gone
  | addUser c member => exact of_keeps (inv.keeps_addUser c member)
  | removeUser new c user => exact of_keeps (inv.keeps_removeUser allowed c user)
  | destruct c chanTS => exact of_keeps (inv.keeps_msDestruct c chanTS)
  | burstRefused new c => exact of_keeps (inv.keeps_burstRefused allowed calm)
  | burstOver new c => exact of_keeps (inv.keeps_burstOver allowed calm)
  | expire fuel =>
    exact of_keeps ((inv.keeps_execExpired .minute fuel).trans fun _ _ inv' => inv'.keeps_execExpired .days fuel)
  | change c chan =>
    apply of_keeps
    show Keeps s (s.change c chan) key l
    unfold Server.change
    cases found : s.channel c with
    | none => exact inv.keeps
    | some cell =>
      refine inv.keeps_cell found chan fun empty => ?_
      have users := allowed cell found
      rwa [empty, List.map_nil, List.map_eq_nil_iff] at users
  | clock now =>
    refine ⟨key, l, ⟨inv.holds, inv.keyed, inv.distinct, inv.allocated, inv.refers, inv.points, inv.empty⟩, ?_⟩
    intro forward timely
    refine ⟨timely.order, fun e mem q there => (timely.bound e mem q there).trans ?_⟩
    exact Int.add_le_add_right forward _
  | feature opLevels =>
    exact ⟨key, l, ⟨inv.holds, inv.keyed, inv.distinct, inv.allocated, inv.refers, inv.points, inv.empty⟩,
      fun _ timely => ⟨timely.order, timely.bound⟩⟩

theorem Reaches.inv {meets : Server ε χ Client → Action ε χ Client → Prop} (calm : ∀ s a, meets s a → Calm s a)
    (reaches : Reaches meets s) :
    ∃ key l, Inv s key l ∧ ((∀ s a, meets s a → Forward s a) → Timely s key l) := by
  induction reaches with
  | @start s no_channel no_event no_top no_bottom =>
    refine ⟨fun _ => none, [], ⟨⟨⟨?_, ?_⟩, ?_⟩, ?_, List.nodup_nil, ?_, ?_, ?_, ?_⟩, ?_⟩
    · exact fun q => no_top q
    · exact fun _ => trivial
    · exact fun q => no_bottom q
    · exact fun _ mem => nomatch mem
    · exact fun e => by simp [no_event e]
    · exact fun _ mem => nomatch mem
    · intro c e there
      rw [Server.eventOf, no_channel c] at there
      cases there
    · intro c cell there
      rw [no_channel c] at there
      cases there
    · exact fun _ => ⟨fun _ => List.Pairwise.nil, fun _ mem => nomatch mem⟩
  | step before allowed met ih =>
    obtain ⟨key, l, inv, timely⟩ := ih
    obtain ⟨key', l', inv', timely'⟩ := step_keeps inv allowed (calm _ _ met)
    exact ⟨key', l', inv', fun forward => timely' (forward _ _ met) (timely forward)⟩

omit [DecidableEq χ] [DecidableEq Client] in
theorem Inv.linked (inv : Inv s key l) (q : Queue) : s.Linked q (l.filter fun e => key e = some q) :=
  ⟨inv.holds.two_way.chain q, inv.holds.two_way.prevs q, inv.holds.last q, inv.distinct.filter _⟩

omit [DecidableEq χ] [DecidableEq Client] in
theorem Inv.sound (inv : Inv s key l) : s.Sound where
  lists := by
    refine ⟨fun q => l.filter fun e => key e = some q, inv.linked, ?_, ?_⟩
    · exact fun q e mem => (inv.allocated e).mpr (List.mem_of_mem_filter mem)
    · intro e live
      have mem := (inv.allocated e).mp live
      obtain ⟨q, here⟩ := inv.keyed e mem
      refine ⟨q, List.mem_filter.mpr ⟨mem, by simp [here]⟩, ?_⟩
      intro q' there
      have same : key e = some q' := by simpa using (List.mem_filter.mp there).2
      rw [here] at same
      exact (Option.some.inj same).symm
  refers := by
    intro e live
    exact Option.bind_eq_some_iff.mp (inv.refers e ((inv.allocated e).mp live))
  points := by
    intro c cell e found pending
    obtain ⟨mem, owner⟩ := inv.points c e (by rw [eventOf_found found, pending])
    exact ⟨(inv.allocated e).mpr mem, owner⟩
  one := by
    intro e e' live live' same
    have here := inv.refers e ((inv.allocated e).mp live)
    rw [same, inv.refers e' ((inv.allocated e').mp live')] at here
    exact (Option.some.inj here).symm

omit [DecidableEq χ] [DecidableEq Client] in
theorem Timely.ordered (timely : Timely s key l) (inv : Inv s key l) : s.Ordered := by
  intro q l' linked
  rw [linked.down.unique (inv.linked q).down]
  exact timely.order q

/-- After `exec_expired_destruct_events` the events that were not due are there, and no others. -/
theorem expired_events_gone (reaches : Reaches (fun s a => Calm s a ∧ Forward s a) s) :
    ∃ n, ∀ fuel ≥ n, ∀ e, (step s (.expire fuel)).allocated e = true ↔
      s.allocated e = true ∧ s.now < s.expires e := by
  obtain ⟨key, l, inv, timely⟩ := reaches.inv fun _ _ => And.left
  have timely := timely fun _ _ => And.right
  refine ⟨l.length, fun fuel enough e => ?_⟩
  obtain ⟨l₁, minute⟩ := inv.drains .minute enough
  obtain ⟨l₂, days⟩ := minute.inv.drains .days (minute.sub.length_le.trans enough)
  have due := days.due e
  have later := days.later (timely.drained minute) (e := e)
  rw [minute.now, minute.expires] at due later
  refine (days.inv.allocated e).trans (Iff.trans ?_ (and_congr_left' (inv.allocated e)).symm)
  constructor
  · intro mem
    have old := minute.sub.subset (days.sub.subset mem)
    obtain ⟨q, here⟩ := inv.keyed e old
    cases q with
    | minute => exact ⟨old, minute.later timely (days.sub.subset mem) here⟩
    | days => exact ⟨old, later mem here⟩
  · rintro ⟨old, alive⟩
    by_contra gone
    by_cases kept : e ∈ l₁
    · exact Int.not_le.mpr alive (due kept gone)
    · exact Int.not_le.mpr alive (minute.due e old kept)

/-- While no event is forgotten, the events and the channels agree, and the lists are ordered as long as the clock
does not go backwards. -/
theorem events_sound (s : Server ε χ Client) : (Reaches Calm s → s.Sound) ∧
    (Reaches (fun s a => Calm s a ∧ Forward s a) s → s.Ordered) := by
  constructor
  · intro reaches
    obtain ⟨key, l, inv, -⟩ := reaches.inv fun _ _ => id
    exact inv.sound
  · intro reaches
    obtain ⟨key, l, inv, timely⟩ := reaches.inv fun _ _ => And.left
    exact (timely fun _ _ => And.right).ordered inv

end

def emptyServer : Server Nat Nat Nat :=
  { nextEvent := fun _ => none
    prevEvent := fun _ => none
    expires := fun _ => 0
    chptr := fun _ => 0
    allocated := fun _ => false
    top := fun _ => none
    bottom := fun _ => none
    channel := fun _ => none
    now := 1000
    opLevels := true }

def emptied : Server Nat Nat Nat :=
  let created := step emptyServer (.create 0 1000)
  let joined := step created (.addUser 0 ⟨7, noStatus, 0⟩)
  step joined (.removeUser 0 0 7)

theorem emptied_reaches (meets : Server Nat Nat Nat → Action Nat Nat Nat → Prop)
    (met : ∀ s, (∀ t, meets s (.create 0 t)) ∧ (∀ m, meets s (.addUser 0 m)) ∧ meets s (.removeUser 0 0 7)) :
    Reaches meets emptied := by
  have start : Reaches meets emptyServer :=
    .start (fun _ => rfl) (fun _ => rfl) (fun _ => rfl) fun _ => rfl
  have created := start.step (a := .create 0 1000) rfl ((met _).1 1000)
  have joined := created.step (a := .addUser 0 ⟨7, noStatus, 0⟩) trivial ((met _).2.1 _)
  exact joined.step (a := .removeUser 0 0 7) rfl (met _).2.2

theorem events_sound_emptied : emptied.Sound ∧ emptied.Ordered :=
  ⟨(events_sound emptied).1 (emptied_reaches _ fun _ => ⟨fun _ => trivial, fun _ => trivial, trivial⟩),
    (events_sound emptied).2 (emptied_reaches _ fun _ =>
      ⟨fun _ => ⟨trivial, trivial⟩, fun _ => ⟨trivial, trivial⟩, trivial, trivial⟩)⟩

theorem expired_events_gone_emptied :
    ∃ n, ∀ fuel ≥ n, ∀ e, (step emptied (.expire fuel)).allocated e = true ↔
      emptied.allocated e = true ∧ emptied.now < emptied.expires e :=
  expired_events_gone (emptied_reaches _ fun _ => ⟨fun _ => ⟨trivial, trivial⟩, fun _ => ⟨trivial, trivial⟩, trivial, trivial⟩)

/-- Then op levels are switched off, and a BURST with modes that are none is refused. -/
def forgotten : Server Nat Nat Nat := step (step emptied (.feature false)) (.burstRefused 1 0)

theorem forgotten_unsound : Reaches (fun _ _ => True) forgotten ∧ ¬forgotten.Sound := by
  constructor
  · have switched := (emptied_reaches (fun _ _ => True) fun _ =>
      ⟨fun _ => trivial, fun _ => trivial, trivial⟩).step (a := .feature false) trivial trivial
    exact switched.step (a := .burstRefused 1 0) rfl trivial
  · intro sound
    obtain ⟨cell, found, -⟩ := sound.refers 0 (by decide)
    have gone : forgotten.channel (forgotten.chptr 0) = none := by
      rfl
    rw [gone] at found
    cases found

end Ircd.Destruct

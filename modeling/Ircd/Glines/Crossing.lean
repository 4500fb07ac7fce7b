import Ircd.Glines.Receive

/-! Two servers change the same G-line at once.

Each issues its change on the common record, then the messages cross, and what they make
the other side send back comes last. All of it happens within one second of `TStime`.
-/

set_option autoImplicit false

namespace Ircd.Glines
open Ircd.Text

/-- A global change issued at a server. An expire that a server forces is not past. -/
structure Modification (now : Int) where
  change : Change
  wf : change.Wf
  future : change.flags.force = true → change.expire ≠ 0 → now < change.expire

structure Agree (a b : Gline) : Prop where
  active : a.active = b.active
  expire : a.expire = b.expire
  lifetime : a.lifetime = b.lifetime
  reason : a.reason = b.reason

def Modification.issued {now : Int} (m : Modification now) : Bool × Change := (m.change.flags.force, m.change)

def effective (now : Int) (g : Gline) (c : Change) : Prop :=
  g.lastmod < c.lastmod ∧ ¬ refused now c ∧ alters now g c

instance (now : Int) (g : Gline) (c : Change) : Decidable (effective now g c) :=
  inferInstanceAs (Decidable (_ ∧ ¬ _ ∧ _))

/-- The peer does not refuse the message: a server stands behind it, or the expire that the
record has after the change is in range. -/
def passes (now : Int) (g : Gline) (c : Change) : Prop :=
  c.flags.force = true ∨ inRange now (expireAfter g c)

def readable (now : Int) (g : Gline) (c : Change) : Prop := now - 1 ≤ expireAfter g c

/-- Both changes take effect and the record comes out the same on both sides: the newer one
leaves a readable expire and no shorter lifetime, no reason that differs from the older
one's in case only, and it sets the activity if the older one does; unless the newer one
leaves the record expired, or its message is refused or brings nothing more, so that the
record sent back settles the activity. -/
structure Mergeable (now : Int) (g : Gline) (old new : Change) : Prop where
  expire : readable now g new
  lifetime : lifetimeAfter g old ≤ lifetimeAfter g new
  reason : (reasonAfter g old).foldEq (reasonAfter g new) = true → reasonAfter g old = reasonAfter g new
  active : flips now g old = true → flips now g new = false →
    expireAfter g new ≤ now ∨ ¬ passes now g new ∨
      expireAfter g old = expireAfter g new ∧ lifetimeAfter g old = lifetimeAfter g new ∧
        reasonAfter g old = reasonAfter g new

/-- When an older and a newer change that cross come out the same on both sides. -/
def Compatible (now : Int) (g : Gline) (old new : Change) : Prop :=
  (effective now g old → effective now g new → Mergeable now g old new) ∧
  (effective now g old → ¬ effective now g new → passes now g old ∧ readable now g old) ∧
  (¬ effective now g old → effective now g new → passes now g new ∧ readable now g new)

section
variable {now : Int} {g : Gline} {c : Change} (server : Bool)

theorem issue_effective (wf : g.Wf) (wfc : c.Wf) (effect : effective now g c) :
    issue now server g c =
      (merged now g c, [msgOf now server c.flags.operforce (opOf now g c) (merged now g c)]) := by
  obtain ⟨newer, accepted, altered⟩ := effect
  rw [issue, glineModify_newer wf wfc newer, if_neg accepted, if_pos altered]
  rfl

theorem issue_idle (wf : g.Wf) (wfc : c.Wf) (idle : ¬ effective now g c) : issue now server g c = (g, []) := by
  unfold issue
  rcases lt_trichotomy g.lastmod c.lastmod with newer | same | older
  · rw [glineModify_newer wf wfc newer]
    by_cases refuse : refused now c
    · rw [if_pos refuse]
      rfl
    · have unaltered : ¬ alters now g c := fun altered => idle ⟨newer, refuse, altered⟩
      rw [if_neg refuse, if_neg unaltered]
      rfl
  · rw [glineModify, if_neg (by omega), if_pos ⟨by rw [wfc.isGlobal]; rfl, same⟩]
    rfl
  · have resent : (glineResend now g).filterMap Out.other? = [] := by
      unfold glineResend
      split <;> rfl
    rw [glineModify, if_pos ⟨by rw [wfc.isGlobal]; rfl, older⟩, if_neg (by simp)]
    simp only [resent]

theorem not_agree_of_alters (altered : alters now g c) : ¬ Agree g (merged now g c) := by
  rintro ⟨active, expire, lifetime, reason⟩
  rcases altered with other | longer | brings | flip
  · exact other expire.symm
  · exact longer lifetime.symm
  · have differs : g.reason.foldEq c.reason = false := by
      simpa [bringsReason] using (Bool.and_eq_true_iff.mp brings).2
    simp only [merged, reasonAfter, brings, if_true] at reason
    rw [← reason, CString.foldEq_self] at differs
    cases differs
  · simp [merged, activeAfter, flip] at active

theorem taken_agree (accepted : ¬ refused now c) : Agree (taken now g c) (merged now g c) := by
  rw [taken, if_neg accepted]
  by_cases altered : alters now g c
  · rw [if_pos altered]
    exact ⟨rfl, rfl, rfl, rfl⟩
  · rw [if_neg altered]
    simp only [alters, not_or, not_not, Bool.not_eq_true] at altered
    obtain ⟨expire, lifetime, reason, active⟩ := altered
    refine ⟨?_, expire.symm, lifetime.symm, ?_⟩
    · simp [merged, activeAfter, active]
    · simp [merged, reasonAfter, reason]

theorem Agree.trans_iff {a b d : Gline} (ab : Agree a b) : Agree a d ↔ Agree b d := by
  obtain ⟨active, expire, lifetime, reason⟩ := ab
  constructor
  · rintro ⟨active', expire', lifetime', reason'⟩
    exact ⟨active ▸ active', expire ▸ expire', lifetime ▸ lifetime', reason ▸ reason'⟩
  · rintro ⟨active', expire', lifetime', reason'⟩
    exact ⟨active.trans active', expire.trans expire', lifetime.trans lifetime', reason.trans reason'⟩

theorem Agree.symm_iff {a b : Gline} : Agree a b ↔ Agree b a :=
  ⟨fun h => ⟨h.active.symm, h.expire.symm, h.lifetime.symm, h.reason.symm⟩,
    fun h => ⟨h.active.symm, h.expire.symm, h.lifetime.symm, h.reason.symm⟩⟩

end

section
variable (clock : Clock) (server operforce : Bool) (op : Op) {s v : Gline}

/-- The change that a message about `v` asks for. -/
def asked (clock : Clock) (server operforce : Bool) (op : Op) (v : Gline) : Change :=
  (msgOf clock.now server operforce op v).change clock.now

theorem refused_asked (wf : v.Wf) :
    refused clock.now (asked clock server operforce op v) ↔ server = false ∧ ¬ inRange clock.now v.expire := by
  have int : v.expire < 2 ^ 31 := lt_of_le_of_lt wf.expire_le wf.lifetime_int
  have expire := (change_msgOf clock server operforce op wf).1
  have read := reads_eq clock int
  have modern := clock.modern
  have pos := wf.expire_pos
  have watch : PASTWATCH = 157680000 := rfl
  unfold refused asked
  rw [expire, inRange_reads clock int]
  constructor
  · rintro ⟨-, free, out⟩
    exact ⟨free, out⟩
  · rintro ⟨free, out⟩
    refine ⟨?_, free, out⟩
    rw [read]
    split <;> omega

theorem expire_asked (wf : v.Wf) :
    (merged clock.now s (asked clock server operforce op v)).expire = reads clock.now v.expire := by
  have int : v.expire < 2 ^ 31 := lt_of_le_of_lt wf.expire_le wf.lifetime_int
  have expire := (change_msgOf clock server operforce op wf).1
  have read := reads_eq clock int
  have modern := clock.modern
  have pos := wf.expire_pos
  have watch : PASTWATCH = 157680000 := rfl
  have nonzero : reads clock.now v.expire ≠ 0 := by
    rw [read]
    split <;> omega
  have brought : (asked clock server operforce op v).expire = reads clock.now v.expire := expire
  simp only [merged, expireAfter, brought]
  rw [if_neg nonzero]

theorem lifetime_asked (wf : v.Wf) (alive : clock.now < v.lifetime) :
    (merged clock.now s (asked clock server operforce op v)).lifetime = max s.lifetime v.lifetime := by
  have int : v.expire < 2 ^ 31 := lt_of_le_of_lt wf.expire_le wf.lifetime_int
  obtain ⟨expire, -, lifetime⟩ := change_msgOf clock _ _ _ wf
  have read := reads_eq clock int
  have le := wf.expire_le
  simp only [merged, lifetimeAfter, asked]
  rw [expire, lifetime, read]
  split <;> omega

theorem reason_asked :
    (merged clock.now s (asked clock server operforce op v)).reason =
      if s.reason.foldEq v.reason then s.reason else v.reason := by
  simp only [merged, reasonAfter, bringsReason, asked, Msg.change, msgOf, Bool.true_and]
  cases s.reason.foldEq v.reason <;> rfl

theorem active_asked (wf : v.Wf) :
    (merged clock.now s (asked clock server operforce op v)).active =
      match op with
      | .none => s.active
      | .plus => s.active || decide (clock.now < max s.expire (reads clock.now v.expire))
      | .minus => s.active && !decide (clock.now < max s.expire (reads clock.now v.expire)) := by
  have expire := (change_msgOf clock server operforce op wf).1
  have brought : (asked clock server operforce op v).expire = reads clock.now v.expire := expire
  simp only [merged, activeAfter, flips, brought]
  cases op with
  | none => simp [asked, Msg.change, msgOf]
  | plus => cases s.active <;> simp [asked, Msg.change, msgOf]
  | minus => cases s.active <;> simp [asked, Msg.change, msgOf]

end

theorem gliter_asked (clock : Clock) (server operforce : Bool) (op : Op) {s v : Gline} (wf : v.Wf)
    (alive : clock.now < v.lifetime) :
    ∃ r, gliter clock.now (merged clock.now s (asked clock server operforce op v)) = some r ∧
      r.lastmod = v.lastmod := by
  have int : v.expire < 2 ^ 31 := lt_of_le_of_lt wf.expire_le wf.lifetime_int
  have expire := expire_asked clock server operforce op (s := s) wf
  have lifetime := lifetime_asked clock server operforce op (s := s) wf alive
  have lastmod : (merged clock.now s (asked clock server operforce op v)).lastmod = v.lastmod :=
    (change_msgOf clock _ _ _ wf).2.1
  have month : ONE_MONTH = 2592000 := rfl
  generalize merged clock.now s (asked clock server operforce op v) = mid at expire lifetime lastmod
  rw [reads_eq clock int] at expire
  have kept : ¬ (mid.lifetime ≤ clock.now ∨
      mid.expire < clock.now - ONE_MONTH ∧ mid.lastmod < clock.now - ONE_MONTH) := by
    split at expire <;> omega
  unfold gliter
  rw [if_neg kept]
  split
  · exact ⟨_, rfl, lastmod⟩
  · exact ⟨_, rfl, lastmod⟩

theorem Clock.pos (clock : Clock) : 0 < clock.now := by
  have modern := clock.modern
  have watch : PASTWATCH = 157680000 := rfl
  omega

section
variable {clock : Clock} {g : Gline} {m : Modification clock.now}

theorem effective_future (effect : effective clock.now g m.change) (brought : m.change.expire ≠ 0) :
    clock.now < m.change.expire := by
  obtain ⟨-, accepted, -⟩ := effect
  cases force : m.change.flags.force with
  | true => exact m.future force brought
  | false =>
    have ranged : inRange clock.now m.change.expire := by
      by_contra out
      exact accepted ⟨brought, force, out⟩
    exact ranged.1

theorem settled_effective (settled : Settled clock.now g) (effect : effective clock.now g m.change) :
    Settled clock.now (merged clock.now g m.change) :=
  settled.merged clock.pos.le effect.1 fun brought => effective_future effect brought

theorem Settled.unexpired {now : Int} {g : Gline} (settled : Settled now g) (active : g.active = true) :
    now < g.expire := by
  by_contra past
  have off := (settled.off (not_lt.mp past)).1
  rw [active] at off
  cases off

theorem flips_future (effect : effective clock.now g m.change) (flip : flips clock.now g m.change = true) :
    clock.now < max g.expire (reads clock.now (expireAfter g m.change)) := by
  have late := (flips_true flip).1
  by_cases brought : m.change.expire = 0
  · rw [brought] at late
    have pos := clock.pos
    omega
  · have given : expireAfter g m.change = m.change.expire := if_neg brought
    have future := effective_future effect brought
    have read := reads_eq clock m.wf.expire_int
    rw [if_pos future.le] at read
    rw [given, read]
    omega

theorem expireAfter_int (wf : g.Wf) (m : Modification clock.now) : expireAfter g m.change < 2 ^ 31 := by
  have after := merged_wf clock.now wf m.wf
  exact lt_of_le_of_lt after.expire_le after.lifetime_int

theorem reason_kept {c : Change} :
    (if g.reason.foldEq (reasonAfter g c) then g.reason else reasonAfter g c) = reasonAfter g c := by
  unfold reasonAfter
  by_cases brings : bringsReason g c = true
  · rw [if_pos brings]
    have differs : g.reason.foldEq c.reason = false := by
      simpa [bringsReason] using (Bool.and_eq_true_iff.mp brings).2
    simp [differs]
  · rw [if_neg brings]
    simp

/-- The server that has changed nothing takes the message as the record is, unless it refuses
it or the expire is past. -/
theorem receive_lone (wf : g.Wf) (settled : Settled clock.now g) (effect : effective clock.now g m.change) :
    ∃ r, receive clock.now g [msgOf clock.now m.change.flags.force m.change.flags.operforce
        (opOf clock.now g m.change) (merged clock.now g m.change)] = some (r, []) ∧
      (Agree r (merged clock.now g m.change) ↔ passes clock.now g m.change ∧ readable clock.now g m.change) := by
  have wfv := merged_wf clock.now wf m.wf
  have settled' := settled_effective settled effect
  refine ⟨_, receive_newer clock _ _ _ wf wfv settled effect.1, ?_⟩
  rw [← asked]
  by_cases refuse : refused clock.now (asked clock m.change.flags.force m.change.flags.operforce
      (opOf clock.now g m.change) (merged clock.now g m.change))
  · rw [taken, if_pos refuse]
    obtain ⟨free, out⟩ := (refused_asked clock _ _ _ wfv).mp refuse
    have differ := not_agree_of_alters effect.2.2
    have not_passes : ¬ passes clock.now g m.change := by
      rintro (force | ranged)
      · rw [free] at force
        cases force
      · exact out ranged
    simp [differ, not_passes]
  · have accepted : passes clock.now g m.change := by
      rw [refused_asked clock _ _ _ wfv] at refuse
      unfold passes
      by_contra neither
      simp only [not_or, Bool.not_eq_true] at neither
      exact refuse neither
    rw [(taken_agree refuse).trans_iff]
    simp only [accepted, true_and]
    have longer : g.lifetime ≤ lifetimeAfter g m.change := le_max_left _ _
    constructor
    · intro agree
      have expire := agree.expire
      rw [expire_asked clock _ _ _ wfv] at expire
      exact (reads_eq_self clock (expireAfter_int wf m)).mp expire
    · intro ok
      refine ⟨?_, ?_, ?_, ?_⟩
      · rw [active_asked clock _ _ _ wfv]
        unfold opOf
        cases flip : flips clock.now g m.change with
        | false => simp [merged, activeAfter, flip]
        | true =>
          have future := decide_eq_true (flips_future effect flip)
          simp only [merged, activeAfter, flip, if_true, future]
          cases g.active <;> rfl
      · rw [expire_asked clock _ _ _ wfv]
        exact (reads_eq_self clock (expireAfter_int wf m)).mpr ok
      · rw [lifetime_asked clock _ _ _ wfv settled'.alive]
        simp only [merged]
        omega
      · rw [reason_asked]
        exact reason_kept

end

section
variable {clock : Clock} {g : Gline} {old new : Modification clock.now}

def recordOf (clock : Clock) (g : Gline) (m : Modification clock.now) : Gline := merged clock.now g m.change

def Mergeable.rest (now : Int) (g : Gline) (old new : Change) : Prop :=
  readable now g new ∧ lifetimeAfter g old ≤ lifetimeAfter g new ∧
    ((reasonAfter g old).foldEq (reasonAfter g new) = true → reasonAfter g old = reasonAfter g new)

theorem rest_iff (server operforce : Bool) (op : Op) {r : Gline} (wf : g.Wf) (settled : Settled clock.now g)
    (effect' : effective clock.now g new.change)
    (agree : r.expire = (merged clock.now (recordOf clock g old)
        (asked clock server operforce op (recordOf clock g new))).expire ∧
      r.lifetime = (merged clock.now (recordOf clock g old)
        (asked clock server operforce op (recordOf clock g new))).lifetime ∧
      r.reason = (merged clock.now (recordOf clock g old)
        (asked clock server operforce op (recordOf clock g new))).reason) :
    Agree r (recordOf clock g new) ↔
      Mergeable.rest clock.now g old.change new.change ∧ r.active = (recordOf clock g new).active := by
  have wfv : (recordOf clock g new).Wf := merged_wf clock.now wf new.wf
  have alive : clock.now < (recordOf clock g new).lifetime := (settled_effective settled effect').alive
  obtain ⟨expire, lifetime, reason⟩ := agree
  rw [expire_asked clock _ _ _ wfv] at expire
  rw [lifetime_asked clock _ _ _ wfv alive] at lifetime
  rw [reason_asked] at reason
  have read := reads_eq_self clock (expireAfter_int wf new)
  have reason_iff : r.reason = reasonAfter g new.change ↔
      ((reasonAfter g old.change).foldEq (reasonAfter g new.change) = true →
        reasonAfter g old.change = reasonAfter g new.change) := by
    change r.reason = if (reasonAfter g old.change).foldEq (reasonAfter g new.change) then
      reasonAfter g old.change else reasonAfter g new.change at reason
    rw [reason]
    by_cases fold : (reasonAfter g old.change).foldEq (reasonAfter g new.change) = true
    · rw [if_pos fold]
      simp [fold]
    · rw [if_neg fold]
      simp [fold]
  have lifetime_iff : r.lifetime = lifetimeAfter g new.change ↔
      lifetimeAfter g old.change ≤ lifetimeAfter g new.change := by
    rw [lifetime]
    simp only [recordOf, merged]
    omega
  have expire_iff : r.expire = expireAfter g new.change ↔ readable clock.now g new.change := by
    rw [expire]
    exact read
  unfold Mergeable.rest
  rw [← expire_iff, ← lifetime_iff, ← reason_iff]
  constructor
  · rintro ⟨active, expire, lifetime, reason⟩
    exact ⟨⟨expire, lifetime, reason⟩, active⟩
  · rintro ⟨⟨expire, lifetime, reason⟩, active⟩
    exact ⟨active, expire, lifetime, reason⟩

theorem resent_agree_iff (wf : g.Wf) (settled : Settled clock.now g) (effect : effective clock.now g old.change)
    (effect' : effective clock.now g new.change) :
    Agree (taken clock.now (recordOf clock g old) (asked clock true false
        (if (recordOf clock g new).active then .plus else .minus) (recordOf clock g new))) (recordOf clock g new) ↔
      Mergeable.rest clock.now g old.change new.change := by
  have wfv : (recordOf clock g new).Wf := merged_wf clock.now wf new.wf
  have settled₁ : Settled clock.now (recordOf clock g old) := settled_effective settled effect
  have settled₂ : Settled clock.now (recordOf clock g new) := settled_effective settled effect'
  have accepted : ¬ refused clock.now (asked clock true false
      (if (recordOf clock g new).active then .plus else .minus) (recordOf clock g new)) := by
    intro refuse
    obtain ⟨free, -⟩ := (refused_asked clock _ _ _ wfv).mp refuse
    cases free
  rw [(taken_agree accepted).trans_iff, rest_iff _ _ _ wf settled effect' ⟨rfl, rfl, rfl⟩, and_iff_left]
  rw [active_asked clock _ _ _ wfv]
  cases on : (recordOf clock g new).active with
  | true =>
    have future := settled₂.unexpired on
    have read : reads clock.now (recordOf clock g new).expire = (recordOf clock g new).expire :=
      (reads_eq_self clock (expireAfter_int wf new)).mpr (show clock.now - 1 ≤ (recordOf clock g new).expire by omega)
    have late : clock.now < max (recordOf clock g old).expire (reads clock.now (recordOf clock g new).expire) := by
      rw [read]
      exact lt_max_of_lt_right future
    simp only [if_true, decide_eq_true late, Bool.or_true]
  | false =>
    simp only [Bool.false_eq_true, if_false]
    cases on' : (recordOf clock g old).active with
    | false => rfl
    | true =>
      have late : clock.now < max (recordOf clock g old).expire (reads clock.now (recordOf clock g new).expire) :=
        lt_max_of_lt_left (settled₁.unexpired on')
      simp only [decide_eq_true late, Bool.not_true, Bool.and_false]

/-- The message of the newer change, taken by the server of the older one and followed by a
lookup: the activity is right if the newer change sets it, the older one does not, or the
record has expired. -/
theorem looked_up_agree_iff (wf : g.Wf) (settled : Settled clock.now g) (effect : effective clock.now g old.change)
    (effect' : effective clock.now g new.change) {r : Gline} {server operforce : Bool}
    (found : gliter clock.now (merged clock.now (recordOf clock g old) (asked clock server operforce
      (opOf clock.now g new.change) (recordOf clock g new))) = some r) :
    Agree r (recordOf clock g new) ↔ Mergeable.rest clock.now g old.change new.change ∧
      (flips clock.now g old.change = true → flips clock.now g new.change = false →
        expireAfter g new.change ≤ clock.now) := by
  have wfv : (recordOf clock g new).Wf := merged_wf clock.now wf new.wf
  have settled₁ : Settled clock.now (recordOf clock g old) := settled_effective settled effect
  have settled₂ : Settled clock.now (recordOf clock g new) := settled_effective settled effect'
  have expire := expire_asked clock server operforce (opOf clock.now g new.change) (s := recordOf clock g old) wfv
  have active := active_asked clock server operforce (opOf clock.now g new.change) (s := recordOf clock g old) wfv
  generalize mid_eq : merged clock.now (recordOf clock g old) (asked clock server operforce
    (opOf clock.now g new.change) (recordOf clock g new)) = mid at found expire active
  have rest := @rest_iff clock g old new server operforce (opOf clock.now g new.change) r wf settled effect'
  rw [mid_eq] at rest
  -- The lookup turns the record off if it has expired and leaves the rest.
  have kept : r.expire = mid.expire ∧ r.lifetime = mid.lifetime ∧ r.reason = mid.reason ∧
      r.active = (mid.active && decide (clock.now < mid.expire)) := by
    unfold gliter at found
    split at found
    · cases found
    · split at found
      · rename_i future
        cases found
        exact ⟨rfl, rfl, rfl, by rw [decide_eq_true future, Bool.and_true]⟩
      · rename_i past
        cases found
        exact ⟨rfl, rfl, rfl, by rw [decide_eq_false past, Bool.and_false]⟩
  rw [rest ⟨kept.1, kept.2.1, kept.2.2.1⟩, kept.2.2.2, expire, active]
  apply and_congr_right
  intro merge
  have read : reads clock.now (recordOf clock g new).expire = (recordOf clock g new).expire :=
    (reads_eq_self clock (expireAfter_int wf new)).mpr merge.1
  have expire_new : (recordOf clock g new).expire = expireAfter g new.change := rfl
  have active_old : (recordOf clock g old).active = (g.active != flips clock.now g old.change) := rfl
  have active_new : (recordOf clock g new).active = (g.active != flips clock.now g new.change) := rfl
  rw [read, expire_new]
  by_cases future : clock.now < expireAfter g new.change
  · have late : clock.now < max (recordOf clock g old).expire (expireAfter g new.change) :=
      lt_max_of_lt_right future
    simp only [decide_eq_true future, decide_eq_true late, Bool.and_true, not_le.mpr future, active_old, active_new]
    unfold opOf
    cases flips clock.now g new.change <;> cases flips clock.now g old.change <;> cases g.active <;> simp
  · have off := (settled₂.off (not_lt.mp future)).1
    simp [decide_eq_false future, off, not_lt.mp future]

/-- The message of the newer change brings nothing to a record with the same expire,
lifetime and reason. -/
theorem asked_idle (wf : g.Wf) (settled : Settled clock.now g) (effect' : effective clock.now g new.change)
    {server operforce : Bool} (ok : readable clock.now g new.change) (stay : flips clock.now g new.change = false)
    (expire : expireAfter g old.change = expireAfter g new.change)
    (lifetime : lifetimeAfter g old.change = lifetimeAfter g new.change)
    (reason : reasonAfter g old.change = reasonAfter g new.change) :
    ¬ alters clock.now (recordOf clock g old)
      (asked clock server operforce (opOf clock.now g new.change) (recordOf clock g new)) := by
  have wf₂ : (recordOf clock g new).Wf := merged_wf clock.now wf new.wf
  have alive : clock.now < (recordOf clock g new).lifetime := (settled_effective settled effect').alive
  have read : reads clock.now (recordOf clock g new).expire = (recordOf clock g new).expire :=
    (reads_eq_self clock (expireAfter_int wf new)).mpr ok
  have silent : opOf clock.now g new.change = .none := by rw [opOf, stay]; rfl
  rw [alters, silent]
  rintro (other | longer | brings | flip)
  · apply other
    have result := expire_asked clock server operforce .none (s := recordOf clock g old) wf₂
    rw [read] at result
    exact result.trans expire.symm
  · apply longer
    have result := lifetime_asked clock server operforce .none (s := recordOf clock g old) wf₂ alive
    refine result.trans ?_
    simp only [recordOf, merged, lifetime, max_self]
  · simp [bringsReason, asked, Msg.change, msgOf, recordOf, merged, reason] at brings
  · simp [flips, asked, Msg.change, msgOf] at flip

theorem same_of_asked_idle (wf : g.Wf) (settled : Settled clock.now g) (effect' : effective clock.now g new.change)
    {server operforce : Bool} {op : Op} (rest : Mergeable.rest clock.now g old.change new.change)
    (idle : ¬ alters clock.now (recordOf clock g old) (asked clock server operforce op (recordOf clock g new))) :
    expireAfter g old.change = expireAfter g new.change ∧ lifetimeAfter g old.change = lifetimeAfter g new.change ∧
      reasonAfter g old.change = reasonAfter g new.change := by
  have wf₂ : (recordOf clock g new).Wf := merged_wf clock.now wf new.wf
  have alive : clock.now < (recordOf clock g new).lifetime := (settled_effective settled effect').alive
  have read : reads clock.now (recordOf clock g new).expire = (recordOf clock g new).expire :=
    (reads_eq_self clock (expireAfter_int wf new)).mpr rest.1
  have expire := expire_asked clock server operforce op (s := recordOf clock g old) wf₂
  have lifetime := lifetime_asked clock server operforce op (s := recordOf clock g old) wf₂ alive
  simp only [alters, not_or, not_not, Bool.not_eq_true] at idle
  obtain ⟨same_expire, same_lifetime, same_reason, -⟩ := idle
  refine ⟨?_, ?_, rest.2.2 ?_⟩
  · rw [read] at expire
    exact same_expire.symm.trans expire
  · have shorter := same_lifetime.symm.trans lifetime
    simp only [recordOf, merged] at shorter
    have le := rest.2.1
    omega
  · simpa [bringsReason, asked, Msg.change, msgOf, recordOf, merged] using same_reason

/-- The server of the older change takes the message of the newer one, then the record that
its own message makes the other side send back. -/
theorem receive_both (wf : g.Wf) (settled : Settled clock.now g) (effect : effective clock.now g old.change)
    (effect' : effective clock.now g new.change) (order : old.change.lastmod < new.change.lastmod) :
    ∃ s₁ s₂, receive clock.now (recordOf clock g old) [msgOf clock.now new.change.flags.force
        new.change.flags.operforce (opOf clock.now g new.change) (recordOf clock g new)] = some (s₁, []) ∧
      receive clock.now s₁ [msgOf clock.now true false (if (recordOf clock g new).active then .plus else .minus)
        (recordOf clock g new)] = some (s₂, []) ∧
      (Agree s₂ (recordOf clock g new) ↔ Mergeable clock.now g old.change new.change) := by
  have wf₁ : (recordOf clock g old).Wf := merged_wf clock.now wf old.wf
  have wf₂ : (recordOf clock g new).Wf := merged_wf clock.now wf new.wf
  have settled₁ : Settled clock.now (recordOf clock g old) := settled_effective settled effect
  have settled₂ : Settled clock.now (recordOf clock g new) := settled_effective settled effect'
  have newer : (recordOf clock g old).lastmod < (recordOf clock g new).lastmod := order
  have dated : 0 < (recordOf clock g new).lastmod := new.wf.lastmod_pos
  have first := receive_newer clock new.change.flags.force new.change.flags.operforce (opOf clock.now g new.change) wf₁ wf₂ settled₁ newer
  rw [← asked] at first
  have second := receive_newer clock true false (if (recordOf clock g new).active then .plus else .minus) wf₁ wf₂ settled₁ newer
  rw [← asked] at second
  have resent := resent_agree_iff wf settled effect effect'
  have passes_iff : refused clock.now (asked clock new.change.flags.force new.change.flags.operforce
      (opOf clock.now g new.change) (recordOf clock g new)) ↔ ¬ passes clock.now g new.change := by
    rw [refused_asked clock _ _ _ wf₂, passes, not_or, Bool.not_eq_true]
    rfl
  by_cases refuse : refused clock.now (asked clock new.change.flags.force new.change.flags.operforce
      (opOf clock.now g new.change) (recordOf clock g new))
  · rw [taken, if_pos refuse] at first
    refine ⟨_, _, first, second, resent.trans ⟨fun rest => ?_, fun merge => ?_⟩⟩
    · exact ⟨rest.1, rest.2.1, rest.2.2, fun _ _ => .inr (.inl (passes_iff.mp refuse))⟩
    · exact ⟨merge.expire, merge.lifetime, merge.reason⟩
  · rw [taken, if_neg refuse] at first
    by_cases altered : alters clock.now (recordOf clock g old) (asked clock new.change.flags.force
        new.change.flags.operforce (opOf clock.now g new.change) (recordOf clock g new))
    · rw [if_pos altered] at first
      obtain ⟨r, found, dates⟩ := gliter_asked clock _ _ _ (s := recordOf clock g old) wf₂ settled₂.alive
      have looked := looked_up_agree_iff wf settled effect effect' found
      refine ⟨_, r, first, receive_same clock wf₂ dated found dates, looked.trans ⟨fun ok => ?_, fun merge => ?_⟩⟩
      · exact ⟨ok.1.1, ok.1.2.1, ok.1.2.2, fun flip stay => .inl (ok.2 flip stay)⟩
      · refine ⟨⟨merge.expire, merge.lifetime, merge.reason⟩, fun flip stay => ?_⟩
        rcases merge.active flip stay with past | fails | ⟨expire, lifetime, reason⟩
        · exact past
        · exact absurd (passes_iff.mpr fails) refuse
        · exact absurd (asked_idle wf settled effect' merge.expire stay expire lifetime reason) (not_not.mpr altered)
    · rw [if_neg altered] at first
      refine ⟨_, _, first, second, resent.trans ⟨fun rest => ?_, fun merge => ?_⟩⟩
      · exact ⟨rest.1, rest.2.1, rest.2.2, fun _ _ => .inr (.inr (same_of_asked_idle wf settled effect' rest altered))⟩
      · exact ⟨merge.expire, merge.lifetime, merge.reason⟩

theorem crossing_eq {now : Int} {g : Gline} {mine theirs : Bool × Change} {a b s₁ s₂ s₃ : Gline}
    {sent sent' back back' rest : List Msg} (here : issue now mine.1 g mine.2 = (a, sent))
    (there : issue now theirs.1 g theirs.2 = (b, sent')) (first : receive now a sent' = some (s₁, back))
    (second : receive now b sent = some (s₂, back')) (last : receive now s₁ back' = some (s₃, rest)) :
    crossing now g mine theirs = some (s₃, rest) := by
  rw [crossing, here, there]
  simp only [first, second, last]

theorem crossing_ordered (wf : g.Wf) (settled : Settled clock.now g)
    (order : old.change.lastmod < new.change.lastmod) :
    ∃ a b, crossing clock.now g old.issued new.issued = some (a, []) ∧
      crossing clock.now g new.issued old.issued = some (b, []) ∧
      (Agree a b ↔ Compatible clock.now g old.change new.change) := by
  unfold Modification.issued
  by_cases effect : effective clock.now g old.change
  · have sent := issue_effective old.change.flags.force wf old.wf effect
    by_cases effect' : effective clock.now g new.change
    · have sent' := issue_effective new.change.flags.force wf new.wf effect'
      obtain ⟨s₁, s₂, first, second, agree⟩ := receive_both wf settled effect effect' order
      have back := receive_older clock old.change.flags.force old.change.flags.operforce (opOf clock.now g old.change) (v := recordOf clock g old) (s := recordOf clock g new)
        (merged_wf clock.now wf old.wf) old.wf.lastmod_pos (settled_effective settled effect') order
      refine ⟨s₂, recordOf clock g new, crossing_eq sent sent' first back second,
        crossing_eq sent' sent back first rfl, ?_⟩
      rw [agree]
      simp [Compatible, effect, effect']
    · have sent' := issue_idle new.change.flags.force wf new.wf effect'
      obtain ⟨r, taken, agree⟩ := receive_lone wf settled effect
      refine ⟨recordOf clock g old, r, crossing_eq sent sent' rfl taken rfl, crossing_eq sent' sent taken rfl rfl, ?_⟩
      rw [Agree.symm_iff]
      simpa [Compatible, effect, effect', recordOf] using agree
  · have sent := issue_idle old.change.flags.force wf old.wf effect
    by_cases effect' : effective clock.now g new.change
    · have sent' := issue_effective new.change.flags.force wf new.wf effect'
      obtain ⟨r, taken, agree⟩ := receive_lone wf settled effect'
      refine ⟨r, recordOf clock g new, crossing_eq sent sent' taken rfl rfl, crossing_eq sent' sent rfl taken rfl, ?_⟩
      simpa [Compatible, effect, effect', recordOf] using agree
    · have sent' := issue_idle new.change.flags.force wf new.wf effect'
      refine ⟨g, g, crossing_eq sent sent' rfl rfl rfl, crossing_eq sent' sent rfl rfl rfl, ?_⟩
      have agree : Agree g g := ⟨rfl, rfl, rfl, rfl⟩
      simp [Compatible, effect, effect', agree]

end

/-- Two changes of one G-line with different times of modification, issued at two servers
whose lookup gives the same record: all messages are answered, and the servers agree
exactly when the changes are compatible. -/
theorem crossing_converges_iff (clock : Clock) {g g' : Gline} (wf : g.Wf) (found : gliter clock.now g = some g')
    (first second : Modification clock.now) (differ : first.change.lastmod ≠ second.change.lastmod) :
    ∃ a b, crossing clock.now g' first.issued second.issued = some (a, []) ∧
      crossing clock.now g' second.issued first.issued = some (b, []) ∧
      (Agree a b ↔
        if first.change.lastmod < second.change.lastmod then Compatible clock.now g' first.change second.change
        else Compatible clock.now g' second.change first.change) := by
  have settled := settled_of_gliter found
  have wf' := wf_of_gliter wf found
  rcases lt_or_gt_of_ne differ with order | order
  · rw [if_pos order]
    exact crossing_ordered wf' settled order
  · rw [if_neg (not_lt.mpr order.le)]
    obtain ⟨a, b, side, side', agree⟩ := crossing_ordered wf' settled order
    exact ⟨b, a, side', side, by rw [Agree.symm_iff, agree]⟩

def someday : Clock := ⟨1700000000, by decide, by decide⟩

def anHour : Gline := ⟨true, .global, 1700003600, 100, 1700003600, ⟨['s'], by decide, by decide⟩⟩

theorem anHour_wf : anHour.Wf := ⟨by decide, by decide, by decide, by decide, by decide⟩

theorem anHour_found : gliter someday.now anHour = some anHour := by decide

theorem zero_int : (0 : Int) < 2 ^ 31 := by decide

def turnOff (lastmod : Int) (pos : 0 < lastmod) (int : lastmod < 2 ^ 31) : Modification someday.now where
  change := ⟨.deactivate, ⟨['s'], by decide, by decide⟩, 0, lastmod, 0, {}⟩
  wf := ⟨rfl, fun _ => rfl, fun _ => rfl, Int.le_refl 0, zero_int, Int.le_refl 0, zero_int, pos, int⟩
  future := fun _ brought => absurd rfl brought

def rename (lastmod : Int) (pos : 0 < lastmod) (int : lastmod < 2 ^ 31) : Modification someday.now where
  change := ⟨.modify, ⟨['t'], by decide, by decide⟩, 0, lastmod, 0, { reason := true }⟩
  wf := ⟨rfl, fun _ => rfl, fun _ => rfl, Int.le_refl 0, zero_int, Int.le_refl 0, zero_int, pos, int⟩
  future := fun _ brought => absurd rfl brought

/-- The reason is changed first, then the G-line is turned off. -/
theorem crossing_converges_turnOff :
    anHour.Wf ∧ gliter someday.now anHour = some anHour ∧ ∃ a b,
      crossing someday.now anHour (rename 200 (by decide) (by decide)).issued
        (turnOff 300 (by decide) (by decide)).issued = some (a, []) ∧
      crossing someday.now anHour (turnOff 300 (by decide) (by decide)).issued
        (rename 200 (by decide) (by decide)).issued = some (b, []) ∧ Agree a b := by
  refine ⟨anHour_wf, anHour_found, ?_⟩
  obtain ⟨a, b, side, side', agree⟩ := crossing_converges_iff someday anHour_wf anHour_found
    (rename 200 (by decide) (by decide)) (turnOff 300 (by decide) (by decide)) (by decide)
  refine ⟨a, b, side, side', agree.mpr ?_⟩
  rw [if_pos (by decide)]
  refine ⟨fun _ _ => ⟨by unfold readable; decide, by decide, by decide, fun flip => absurd flip (by decide)⟩, fun _ idle => ?_,
    fun idle => absurd (by decide) idle⟩
  exact absurd (by decide) idle

/-- A G-line is turned off at one server, and a little later its reason is changed at the
other: it stays off here and on there. -/
theorem crossing_diverges :
    ¬ ∀ (clock : Clock) (g : Gline) (first second : Modification clock.now), g.Wf → gliter clock.now g = some g →
      first.change.lastmod ≠ second.change.lastmod → ∀ a b : Gline,
      crossing clock.now g first.issued second.issued = some (a, []) →
      crossing clock.now g second.issued first.issued = some (b, []) → Agree a b := by
  intro every
  obtain ⟨a, b, side, side', agree⟩ := @crossing_ordered someday anHour (turnOff 200 (by decide) (by decide))
    (rename 300 (by decide) (by decide)) anHour_wf (settled_of_gliter anHour_found) (by decide)
  have both := agree.mp (every someday anHour _ _ anHour_wf anHour_found (by decide) a b side side')
  have merge := both.1 (by decide) (by decide)
  rcases merge.active (by decide) (by decide) with past | fails | ⟨-, -, reason⟩
  · exact absurd past (by decide)
  · exact fails (.inr (by decide))
  · exact absurd reason (by decide)

end Ircd.Glines

import Ircd.Glines.Modify
import Mathlib.Tactic.Linarith

/-! What one change makes of a record, field by field. -/

set_option autoImplicit false

namespace Ircd.Glines
open Ircd.Text

/-- The times of a record are in order and fit an `int`. -/
structure Gline.Wf (g : Gline) : Prop where
  expire_pos : 0 < g.expire
  expire_le : g.expire ≤ g.lifetime
  lifetime_int : g.lifetime < 2 ^ 31
  lastmod_pos : 0 ≤ g.lastmod
  lastmod_int : g.lastmod < 2 ^ 31

structure Change.Wf (c : Change) : Prop where
  isGlobal : c.action.isLocal = false
  no_expire : c.flags.expire = false → c.expire = 0
  no_lifetime : c.flags.lifetime = false → c.lifetime = 0
  expire_pos : 0 ≤ c.expire
  expire_int : c.expire < 2 ^ 31
  lifetime_pos : 0 ≤ c.lifetime
  lifetime_int : c.lifetime < 2 ^ 31
  lastmod_pos : 0 < c.lastmod
  lastmod_int : c.lastmod < 2 ^ 31

def expireAfter (g : Gline) (c : Change) : Int := if c.expire = 0 then g.expire else c.expire

def lifetimeAfter (g : Gline) (c : Change) : Int := max g.lifetime (max c.lifetime c.expire)

def bringsReason (g : Gline) (c : Change) : Bool := c.flags.reason && !g.reason.foldEq c.reason

def reasonAfter (g : Gline) (c : Change) : CString := if bringsReason g c then c.reason else g.reason

def flips (now : Int) (g : Gline) (c : Change) : Bool :=
  now < max g.expire c.expire &&
    (c.action = .activate && !g.active || c.action = .deactivate && g.active)

def activeAfter (now : Int) (g : Gline) (c : Change) : Bool := g.active != flips now g c

def inRange (now e : Int) : Prop := now < e ∧ e ≤ now + GLINE_MAX_EXPIRE

instance (now e : Int) : Decidable (inRange now e) := inferInstanceAs (Decidable (_ ∧ _))

def refused (now : Int) (c : Change) : Prop := c.expire ≠ 0 ∧ c.flags.force = false ∧ ¬ inRange now c.expire

instance (now : Int) (c : Change) : Decidable (refused now c) := inferInstanceAs (Decidable (_ ∧ _ ∧ ¬ _))

def alters (now : Int) (g : Gline) (c : Change) : Prop :=
  expireAfter g c ≠ g.expire ∨ lifetimeAfter g c ≠ g.lifetime ∨ bringsReason g c = true ∨ flips now g c = true

instance (now : Int) (g : Gline) (c : Change) : Decidable (alters now g c) :=
  inferInstanceAs (Decidable (_ ∨ _ ∨ _ ∨ _))

def merged (now : Int) (g : Gline) (c : Change) : Gline where
  active := activeAfter now g c
  state := if flips now g c then .global else g.state
  expire := expireAfter g c
  lastmod := c.lastmod
  lifetime := lifetimeAfter g c
  reason := reasonAfter g c

def opOf (now : Int) (g : Gline) (c : Change) : Op :=
  if flips now g c then (if g.active then .minus else .plus) else .none

def msgOf (now : Int) (server operforce : Bool) (op : Op) (g : Gline) : Msg where
  server := server
  operforce := operforce
  op := op
  expire := g.expire - now
  lastmod := g.lastmod
  lifetime := g.lifetime
  reason := g.reason

theorem effectiveAction_eq (now : Int) {g : Gline} {c : Change} {e : Int} (isGlobal : c.action.isLocal = false)
    (same : max g.expire e = max g.expire c.expire) :
    effectiveAction now g c.action e = if flips now g c then c.action else .modify := by
  unfold effectiveAction flips
  rw [same]
  by_cases late : max g.expire c.expire ≤ now
  · have not_late : ¬ now < max g.expire c.expire := not_lt.mpr late
    simp only [late, or_true, if_true, not_late, decide_false, Bool.false_and, Bool.false_eq_true, if_false]
  · have in_time : now < max g.expire c.expire := not_le.mp late
    simp only [late, in_time, or_false, decide_true, Bool.true_and]
    cases action : c.action with
    | activate => cases g.active <;> simp
    | deactivate => cases g.active <;> simp
    | modify => simp
    | localActivate =>
      rw [action] at isGlobal
      cases isGlobal
    | localDeactivate =>
      rw [action] at isGlobal
      cases isGlobal

section
variable {now : Int} {g : Gline} {c : Change}

/-- The expire that `gline_modify` goes on with: zero when it is no new one. -/
def newExpireOf (g : Gline) (c : Change) : Int := if c.expire ≠ 0 ∧ c.expire = g.expire then 0 else c.expire

theorem max_newExpireOf (wf : g.Wf) : max g.expire (newExpireOf g c) = max g.expire c.expire := by
  have pos := wf.expire_pos
  unfold newExpireOf
  split <;> omega

theorem expireAfter_ne : expireAfter g c ≠ g.expire ↔ c.expire ≠ 0 ∧ c.expire ≠ g.expire := by
  unfold expireAfter
  split <;> simp_all

theorem lifetime_longer (wf : g.Wf) (wfc : c.Wf) :
    max (if (!c.flags.lifetime) = true ∨ c.lifetime = 0 then g.lifetime else c.lifetime) (newExpireOf g c) >
        g.lifetime ↔ lifetimeAfter g c ≠ g.lifetime := by
  have le := wf.expire_le
  have pos := wf.expire_pos
  have absent := wfc.no_lifetime
  unfold lifetimeAfter newExpireOf
  cases flag : c.flags.lifetime with
  | true => simp only [Bool.not_true, Bool.false_eq_true, false_or]; split <;> split <;> omega
  | false =>
    have zero := absent flag
    simp only [Bool.not_false, true_or, if_true, zero]
    split <;> omega

theorem lifetime_longer_eq (wf : g.Wf) (wfc : c.Wf) (longer : lifetimeAfter g c ≠ g.lifetime) :
    max (if (!c.flags.lifetime) = true ∨ c.lifetime = 0 then g.lifetime else c.lifetime) (newExpireOf g c) =
      lifetimeAfter g c := by
  have le := wf.expire_le
  have pos := wf.expire_pos
  have absent := wfc.no_lifetime
  unfold lifetimeAfter newExpireOf at *
  cases flag : c.flags.lifetime with
  | true => simp only [Bool.not_true, Bool.false_eq_true, false_or]; split <;> split <;> omega
  | false =>
    have zero := absent flag
    simp only [Bool.not_false, true_or, if_true, zero] at longer ⊢
    split <;> omega

theorem refused_iff (wfc : c.Wf) :
    c.flags.expire = true ∧ c.expire ≠ 0 ∧ (!c.flags.force) = true ∧
      (c.expire ≤ now ∨ c.expire > now + GLINE_MAX_EXPIRE) ↔ refused now c := by
  have absent := wfc.no_expire
  unfold refused inRange
  cases flag : c.flags.expire with
  | true => simp only [Bool.not_eq_true', true_and]; constructor <;> rintro ⟨some_e, free, out⟩ <;> exact ⟨some_e, free, by omega⟩
  | false => simp [absent flag]

theorem hasExpire_iff (wfc : c.Wf) : c.flags.expire = true ∧ c.expire ≠ 0 ↔ c.expire ≠ 0 := by
  have absent := wfc.no_expire
  cases flag : c.flags.expire with
  | true => simp
  | false => simp [absent flag]

end

theorem flips_true {now : Int} {g : Gline} {c : Change} (flip : flips now g c = true) :
    now < max g.expire c.expire ∧
      (c.action = .activate ∧ g.active = false ∨ c.action = .deactivate ∧ g.active = true) := by
  unfold flips at flip
  simpa using flip

theorem perform_merged {now : Int} {server : Bool} {g : Gline} {c : Change} :
    perform now server g c (if flips now g c then c.action else .modify)
        (if expireAfter g c ≠ g.expire then some (expireAfter g c) else none)
        (if lifetimeAfter g c ≠ g.lifetime then some (lifetimeAfter g c) else none)
        (if bringsReason g c then some c.reason else none) =
      (merged now g c, [.toOthers (msgOf now server c.flags.operforce (opOf now g c) (merged now g c))]) := by
  have kept : ∀ a b : Int, (if a = b then none else some a).getD b = a := by
    intro a b
    by_cases same : a = b
    · rw [if_pos same, same]
      rfl
    · rw [if_neg same]
      rfl
  have reason : (if bringsReason g c then some c.reason else none).getD g.reason = reasonAfter g c := by
    unfold reasonAfter
    split <;> rfl
  cases flip : flips now g c with
  | false => simp [perform, actOn, GlineAction.isLocal, merged, msgOf, opOf, activeAfter, flip, kept, reason]
  | true =>
    obtain ⟨-, ⟨action, off⟩ | ⟨action, on⟩⟩ := flips_true flip
    · simp [perform, actOn, GlineAction.isLocal, merged, msgOf, opOf, activeAfter, flip, kept, reason, action, off]
    · simp [perform, actOn, GlineAction.isLocal, merged, msgOf, opOf, activeAfter, flip, kept, reason, action, on]

theorem alters_iff {now : Int} {g : Gline} {c : Change} :
    ¬ alters now g c ↔ expireAfter g c = g.expire ∧ lifetimeAfter g c = g.lifetime ∧ bringsReason g c = false ∧
      (if flips now g c then c.action else .modify) = .modify := by
  have flip : (if flips now g c then c.action else .modify) = .modify ↔ flips now g c = false := by
    cases flip : flips now g c with
    | false => simp
    | true =>
      obtain ⟨-, ⟨action, -⟩ | ⟨action, -⟩⟩ := flips_true flip
      · simp [action]
      · simp [action]
  rw [flip]
  unfold alters
  simp only [not_or, not_not, Bool.not_eq_true]

/-- A newer change: nothing if it is refused or alters nothing, else the merged record, which
is sent on. -/
theorem glineModify_newer {now : Int} {burst server : Bool} {g : Gline} {c : Change} (wf : g.Wf) (wfc : c.Wf)
    (newer : g.lastmod < c.lastmod) :
    glineModify now burst server g c =
      if refused now c then (g, [])
      else if alters now g c then
        (merged now g c, [.toOthers (msgOf now server c.flags.operforce (opOf now g c) (merged now g c))])
      else (g, []) := by
  have not_older : ¬ g.lastmod > c.lastmod := by omega
  have not_same : g.lastmod ≠ c.lastmod := by omega
  have expire_eq : (if c.expire ≠ 0 ∧ c.expire = g.expire then 0 else c.expire) = newExpireOf g c := rfl
  have action_eq := effectiveAction_eq now wfc.isGlobal (max_newExpireOf (c := c) wf)
  unfold glineModify
  simp only [wfc.isGlobal, not_older, not_same, and_false, if_false, refused_iff wfc, hasExpire_iff wfc,
    decide_eq_true_eq, expire_eq, lifetime_longer wf wfc, action_eq, ← expireAfter_ne]
  by_cases refuse : refused now c
  · rw [if_pos refuse, if_pos refuse]
  · rw [if_neg refuse, if_neg refuse]
    have reason_eq : (c.flags.reason = true ∧ (!g.reason.foldEq c.reason) = true) ↔ bringsReason g c = true := by
      simp [bringsReason]
    have expire_some : (if expireAfter g c ≠ g.expire then some (newExpireOf g c) else none) =
        if expireAfter g c ≠ g.expire then some (expireAfter g c) else none := by
      apply ite_congr rfl
      · intro other
        obtain ⟨some_e, other⟩ := expireAfter_ne.mp other
        simp [newExpireOf, expireAfter, some_e, other]
      · intro _
        rfl
    have lifetime_some : (if lifetimeAfter g c ≠ g.lifetime then some (max (if (!c.flags.lifetime) = true ∨
        c.lifetime = 0 then g.lifetime else c.lifetime) (newExpireOf g c)) else none) =
        if lifetimeAfter g c ≠ g.lifetime then some (lifetimeAfter g c) else none := by
      apply ite_congr rfl
      · intro longer
        rw [lifetime_longer_eq wf wfc longer]
      · intro _
        rfl
    simp only [reason_eq, expire_some, lifetime_some, perform_merged]
    have unaltered : ((!decide (expireAfter g c ≠ g.expire)) = true ∧ (!decide (lifetimeAfter g c ≠ g.lifetime)) = true ∧
        (!decide (bringsReason g c = true)) = true ∧
        (if flips now g c then c.action else .modify) = .modify) ↔ ¬ alters now g c := by
      rw [alters_iff]
      simp
    simp only [unaltered]
    by_cases altered : alters now g c
    · rw [if_pos altered, if_neg (not_not.mpr altered)]
    · rw [if_neg altered, if_pos altered]

end Ircd.Glines

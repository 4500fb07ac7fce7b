import Ircd.Glines.Merge

/-! What a server makes of a message about a record of its peer. -/

set_option autoImplicit false

namespace Ircd.Glines
open Ircd.Text

/-- A time at which a relative expire can be told from an absolute one, and an `int` holds it. -/
structure Clock where
  now : Int
  modern : 2 ^ 31 + PASTWATCH ≤ 2 * now
  int : now < 2 ^ 31

def reads (now e : Int) : Int := absExpire now (atoiTime (e - now))

theorem atoiTime_eq {t : Int} (pos : 0 ≤ t) (int : t < 2 ^ 31) : atoiTime t = t := by
  have small : min t (2 ^ 63 - 1) = t := by omega
  rw [atoiTime, if_pos pos, small]
  apply Int.bmod_eq_of_le <;> omega

theorem reads_eq (clock : Clock) {e : Int} (int : e < 2 ^ 31) :
    reads clock.now e = if clock.now ≤ e then e else clock.now - 1 := by
  have modern := clock.modern
  have present := clock.int
  have watch : PASTWATCH = 157680000 := rfl
  unfold reads
  by_cases future : clock.now ≤ e
  · rw [if_pos future, atoiTime_eq (by omega) (by omega), absExpire, if_neg (by omega)]
    omega
  · rw [if_neg future, atoiTime, if_neg (by omega), absExpire, if_neg (by omega)]
    omega

theorem reads_eq_self (clock : Clock) {e : Int} (int : e < 2 ^ 31) :
    reads clock.now e = e ↔ clock.now - 1 ≤ e := by
  rw [reads_eq clock int]
  split <;> omega

theorem inRange_reads (clock : Clock) {e : Int} (int : e < 2 ^ 31) :
    inRange clock.now (reads clock.now e) ↔ inRange clock.now e := by
  unfold inRange
  rw [reads_eq clock int]
  split <;> omega

structure Settled (now : Int) (g : Gline) : Prop where
  alive : now < g.lifetime
  recent : now - ONE_MONTH ≤ g.expire ∨ now - ONE_MONTH ≤ g.lastmod
  off : g.expire ≤ now → g.active = false ∧ g.state = .global

theorem gliter_settled {now : Int} {g : Gline} (settled : Settled now g) : gliter now g = some g := by
  obtain ⟨alive, recent, off⟩ := settled
  unfold gliter
  rw [if_neg (by omega)]
  by_cases future : g.expire > now
  · rw [if_pos future]
  · rw [if_neg future]
    obtain ⟨inactive, state⟩ := off (by omega)
    cases g
    simp only at inactive state
    rw [inactive, state]

theorem settled_of_gliter {now : Int} {g g' : Gline} (found : gliter now g = some g') : Settled now g' := by
  unfold gliter at found
  by_cases gone : g.lifetime ≤ now ∨ g.expire < now - ONE_MONTH ∧ g.lastmod < now - ONE_MONTH
  · rw [if_pos gone] at found
    cases found
  · rw [if_neg gone] at found
    by_cases future : g.expire > now
    · rw [if_pos future] at found
      cases found
      exact ⟨by omega, by omega, fun past => by omega⟩
    · rw [if_neg future] at found
      cases found
      exact ⟨by simp only; omega, by simp only; omega, fun _ => ⟨rfl, rfl⟩⟩

theorem wf_of_gliter {now : Int} {g g' : Gline} (wf : g.Wf) (found : gliter now g = some g') : g'.Wf := by
  unfold gliter at found
  split at found
  · cases found
  · split at found
    · cases found
      exact wf
    · cases found
      exact ⟨wf.expire_pos, wf.expire_le, wf.lifetime_int, wf.lastmod_pos, wf.lastmod_int⟩

theorem Settled.merged {now : Int} {g : Gline} {c : Change} (settled : Settled now g) (present : 0 ≤ now)
    (newer : g.lastmod < c.lastmod) (future : c.expire ≠ 0 → now < c.expire) : Settled now (merged now g c) := by
  obtain ⟨alive, recent, off⟩ := settled
  have longer : g.lifetime ≤ lifetimeAfter g c := le_max_left _ _
  have month : ONE_MONTH = 2592000 := rfl
  by_cases brought : c.expire = 0
  · have same : expireAfter g c = g.expire := if_pos brought
    refine ⟨by simp only [Glines.merged]; omega, ?_, fun past => ?_⟩
    · simp only [Glines.merged, same]
      omega
    · simp only [Glines.merged, same] at past ⊢
      obtain ⟨inactive, state⟩ := off past
      have stays : flips now g c = false := by
        cases flip : flips now g c with
        | false => rfl
        | true =>
          have late := (flips_true flip).1
          rw [brought] at late
          omega
      simp [activeAfter, stays, inactive, state]
  · have given : expireAfter g c = c.expire := if_neg brought
    have later := future brought
    refine ⟨by simp only [Glines.merged]; omega, ?_, fun past => ?_⟩
    · simp only [Glines.merged, given]
      omega
    · simp only [Glines.merged, given] at past
      omega

theorem merged_wf (now : Int) {g : Gline} {c : Change} (wf : g.Wf) (wfc : c.Wf) : (merged now g c).Wf := by
  obtain ⟨expire_pos, expire_le, lifetime_int, lastmod_pos, lastmod_int⟩ := wf
  have pos := wfc.expire_pos
  have int := wfc.expire_int
  have int' := wfc.lifetime_int
  have mod := wfc.lastmod_pos
  refine ⟨?_, ?_, ?_, mod.le, wfc.lastmod_int⟩
  · simp only [merged, expireAfter]
    split <;> omega
  · simp only [merged, expireAfter, lifetimeAfter]
    split <;> omega
  · simp only [merged, lifetimeAfter]
    omega

theorem change_msgOf (clock : Clock) (server operforce : Bool) (op : Op) {v : Gline} (wf : v.Wf) :
    ((msgOf clock.now server operforce op v).change clock.now).expire = reads clock.now v.expire ∧
      ((msgOf clock.now server operforce op v).change clock.now).lastmod = v.lastmod ∧
      ((msgOf clock.now server operforce op v).change clock.now).lifetime = v.lifetime := by
  obtain ⟨expire_pos, expire_le, lifetime_int, lastmod_pos, lastmod_int⟩ := wf
  exact ⟨rfl, atoiTime_eq lastmod_pos lastmod_int, atoiTime_eq (show 0 ≤ v.lifetime by omega) lifetime_int⟩

theorem change_msgOf_wf (clock : Clock) (server operforce : Bool) (op : Op) {v : Gline} (wf : v.Wf)
    (dated : 0 < v.lastmod) : ((msgOf clock.now server operforce op v).change clock.now).Wf := by
  obtain ⟨expire, lastmod, lifetime⟩ := change_msgOf clock _ _ _ wf
  obtain ⟨expire_pos, expire_le, lifetime_int, lastmod_pos, lastmod_int⟩ := wf
  have modern := clock.modern
  have present := clock.int
  have watch : PASTWATCH = 157680000 := rfl
  have read := reads_eq clock (e := v.expire) (by omega)
  refine ⟨?_, ?_, ?_, ?_, ?_, ?_, ?_, ?_, ?_⟩
  · cases op <;> rfl
  · intro absent
    cases absent
  · intro absent
    cases absent
  · rw [expire, read]
    split <;> omega
  · rw [expire, read]
    split <;> omega
  · rw [lifetime]
    omega
  · rw [lifetime]
    exact lifetime_int
  · rw [lastmod]
    exact dated
  · rw [lastmod]
    exact lastmod_int

def taken (now : Int) (g : Gline) (c : Change) : Gline :=
  if refused now c then g else if alters now g c then merged now g c else g

theorem receive_one {now : Int} {s s' : Gline} {msg : Msg} {out : List Out} {back : List Msg}
    (result : msGline now false s msg = some (s', out)) (peers : out.filterMap Out.peer? = back) :
    receive now s [msg] = some (s', back) := by
  rw [receive, result]
  simp [receive, peers]

theorem receive_newer (clock : Clock) (server operforce : Bool) (op : Op) {s v : Gline} (wf : s.Wf) (wfv : v.Wf)
    (settled : Settled clock.now s) (newer : s.lastmod < v.lastmod) :
    receive clock.now s [msgOf clock.now server operforce op v] =
      some (taken clock.now s ((msgOf clock.now server operforce op v).change clock.now), []) := by
  have dated : 0 < v.lastmod := lt_of_le_of_lt wf.lastmod_pos newer
  have wfc := change_msgOf_wf clock server operforce op wfv dated
  obtain ⟨-, lastmod, -⟩ := change_msgOf clock _ _ _ wfv
  have step := @glineModify_newer clock.now false server _ _ wf wfc
    (by rw [lastmod]; exact newer)
  have nonzero : ((msgOf clock.now server operforce op v).change clock.now).lastmod ≠ 0 := by
    rw [lastmod]
    omega
  have result : msGline clock.now false s (msgOf clock.now server operforce op v) = some
      (glineModify clock.now false server s ((msgOf clock.now server operforce op v).change clock.now)) := by
    rw [msGline, gliter_settled settled]
    simp only [nonzero, if_false]
    rfl
  rw [step] at result
  unfold taken
  by_cases refuse : refused clock.now ((msgOf clock.now server operforce op v).change clock.now)
  · rw [if_pos refuse] at result ⊢
    exact receive_one result rfl
  · rw [if_neg refuse] at result ⊢
    by_cases altered : alters clock.now s ((msgOf clock.now server operforce op v).change clock.now)
    · rw [if_pos altered] at result ⊢
      exact receive_one result rfl
    · rw [if_neg altered] at result ⊢
      exact receive_one result rfl

theorem receive_older (clock : Clock) (server operforce : Bool) (op : Op) {s v : Gline} (wfv : v.Wf)
    (dated : 0 < v.lastmod) (settled : Settled clock.now s) (older : v.lastmod < s.lastmod) :
    receive clock.now s [msgOf clock.now server operforce op v] =
      some (s, [msgOf clock.now true false (if s.active then .plus else .minus) s]) := by
  have wfc := change_msgOf_wf clock server operforce op wfv dated
  obtain ⟨-, lastmod, -⟩ := change_msgOf clock _ _ _ wfv
  have nonzero : ((msgOf clock.now server operforce op v).change clock.now).lastmod ≠ 0 := by
    rw [lastmod]
    omega
  have result : msGline clock.now false s (msgOf clock.now server operforce op v) =
      some (s, glineResend clock.now s) := by
    rw [msGline, gliter_settled settled]
    simp only [nonzero, if_false]
    rw [glineModify, if_pos ⟨by rw [wfc.isGlobal]; rfl, by rw [lastmod]; exact older⟩, if_neg (by simp)]
  apply receive_one result
  rw [glineResend, if_neg (by omega)]
  rfl

theorem receive_same (clock : Clock) {server operforce : Bool} {op : Op} {s s' v : Gline} (wfv : v.Wf)
    (dated : 0 < v.lastmod) (found : gliter clock.now s = some s') (same : s'.lastmod = v.lastmod) :
    receive clock.now s [msgOf clock.now server operforce op v] = some (s', []) := by
  have wfc := change_msgOf_wf clock server operforce op wfv dated
  obtain ⟨-, lastmod, -⟩ := change_msgOf clock _ _ _ wfv
  have nonzero : ((msgOf clock.now server operforce op v).change clock.now).lastmod ≠ 0 := by
    rw [lastmod]
    omega
  have result : msGline clock.now false s (msgOf clock.now server operforce op v) = some (s', []) := by
    rw [msGline, found]
    simp only [nonzero, if_false]
    rw [glineModify, if_neg, if_pos ⟨by rw [wfc.isGlobal]; rfl, by rw [lastmod]; exact same⟩]
    rw [lastmod]
    omega
  exact receive_one result rfl

end Ircd.Glines

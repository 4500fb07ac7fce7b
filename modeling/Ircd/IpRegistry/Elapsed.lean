import Ircd.IpRegistry.Attempts

/-! The time since an entry was last used, which `IPcheck.c` takes from the last 16 bits of the clock.

What is recorded is taken from what the clock says now, and nothing is reduced: the difference is the time
that has passed until the 16 bits of the clock go round, and 65536 seconds less from then on.
-/

set_option autoImplicit false

namespace Ircd.IpRegistry
open Ircd.Library Ircd.Net

def recorded (t : Int) : Int := t % 65536

def Env.countedFrom (env : Env) (t : Int) (attempts : UInt8) : UInt8 :=
  if env.CurrentTime - t > env.CLONE_PERIOD then 0 else attempts

/-- For an entry that was last used at `t` the registry goes by the time that has really passed: when it
starts to count attempts anew, when it drops the entry, and when it grants free targets. -/
structure ElapsedRight (env : Env) (t : Int) : Prop where
  since : env.connectedSince (recorded t) = env.CurrentTime - t
  checkLocal : ∀ (reg : Registry) (a : InAddr) (e : IPRegistryEntry), reg.find a = some e →
    e.last_connect = recorded t → e.connected + 1 ≠ 0 →
      (checkEntry env reg a e).1.attemptsOf a = (bump8 (env.countedFrom t e.attempts)).toNat
  checkRemote : ∀ (reg : Registry) (a : InAddr) (e : IPRegistryEntry) (is_burst : Bool), a.valid = true →
    reg.find a = some e → e.last_connect = recorded t → e.connected + 1 ≠ 0 →
      (checkRemote env reg a is_burst).1.attemptsOf a =
        if is_burst then (env.countedFrom t e.attempts).toNat else (bump8 (env.countedFrom t e.attempts)).toNat
  attempt48 : ∀ e : IPRegistry48, e.last_connect = recorded t →
    (attempt48 env e).attempts = bump16 (if env.CurrentTime - t > env.CLONE_PERIOD_48 then 0 else e.attempts)
  expire : ∀ (reg : Registry) (a : InAddr) (e : IPRegistryEntry), Sound reg → reg.find a = some e →
    e.connected = 0 → e.last_connect = recorded t →
      ((expire env reg).find a = none ↔ env.CurrentTime - t > 600)
  targets : ∀ (e : IPRegistryEntry) (target : IPTargetEntry), e.target = some target →
    e.last_connect = recorded t →
      (updateFreeTargets env e).2.toNat ≤ target.count.toNat + ((env.CurrentTime - t) / TARGET_DELAY).toNat

section
variable {env : Env} {t : Int}

theorem connectedSince_recorded :
    env.connectedSince (recorded t) = env.CurrentTime - t ↔ env.CurrentTime / 65536 = t / 65536 := by
  unfold Env.connectedSince Env.now recorded
  omega

section
variable {reg : Registry} {a : InAddr} {e : IPRegistryEntry}

theorem updateFreeTargets_attempts (env : Env) (e : IPRegistryEntry) :
    (updateFreeTargets env e).1.attempts = e.attempts := by
  unfold updateFreeTargets
  split
  · rfl
  · rfl

theorem checkEntry_attemptsOf (found : reg.find a = some e) (more : e.connected + 1 ≠ 0) :
    (checkEntry env reg a e).1.attemptsOf a =
      (bump8 (if env.connectedSince e.last_connect > env.CLONE_PERIOD then 0 else e.attempts)).toNat := by
  unfold checkEntry
  dsimp only
  rw [if_neg more]
  have attempts := updateFreeTargets_attempts env { e with
    connected := e.connected + 1
    attempts := if env.connectedSince e.last_connect > env.CLONE_PERIOD then 0 else e.attempts }
  have addr := updateFreeTargets_addr env { e with
    connected := e.connected + 1
    attempts := if env.connectedSince e.last_connect > env.CLONE_PERIOD then 0 else e.attempts }
  generalize updateFreeTargets env _ = r at attempts addr ⊢
  dsimp only at attempts addr
  rw [← attempts]
  split
  · exact attemptsOf_set found addr
  · split
    · exact attemptsOf_set found addr
    · exact attemptsOf_set found addr

theorem checkRemote_attemptsOf (valid : a.valid = true) (found : reg.find a = some e) (more : e.connected + 1 ≠ 0)
    (is_burst : Bool) :
    let attempts := if env.connectedSince e.last_connect > env.CLONE_PERIOD then 0 else e.attempts
    (checkRemote env reg a is_burst).1.attemptsOf a =
      if is_burst then attempts.toNat else (bump8 attempts).toNat := by
  intro attempts
  unfold checkRemote
  rw [if_neg (by simp [valid])]
  generalize counted : (if a.isIpv4 = true then reg else _ : Registry) = reg₁
  have table : reg₁.hashTable = reg.hashTable := by
    rw [← counted]
    split
    · rfl
    · exact hashTable_modify48 env reg a (attempt48 env)
  have found₁ : reg₁.find a = some e := (find_of_table table a).trans found
  dsimp only
  rw [found₁]
  dsimp only
  rw [if_neg more]
  split
  · exact attemptsOf_set found₁ rfl
  · refine (attemptsOf_set found₁ ?_).trans ?_
    · exact updateFreeTargets_addr ..
    · dsimp only
      rw [updateFreeTargets_attempts]

theorem find_expire (sound : Sound reg) (found : reg.find a = some e) (unused : e.connected = 0) :
    (expire env reg).find a = none ↔ env.connectedSince e.last_connect > 600 := by
  rw [(expire_spec env sound).1.find_eq]
  rw [sound.find_eq, Registry.entry] at found
  rw [Registry.entry, expire, lookup_sweep sound.chained fun e e' kept => (expired_keeps env e e' kept).1, found,
    Option.bind_some, if_pos unused, expireEntry]
  split
  · exact iff_of_true rfl ‹_›
  · refine iff_of_false ?_ ‹_›
    split
    · exact Option.some_ne_none _
    · exact Option.some_ne_none _

theorem updateFreeTargets_le {target : IPTargetEntry} (has : e.target = some target)
    (positive : 0 ≤ env.connectedSince e.last_connect) (small : env.connectedSince e.last_connect < 65536) :
    (updateFreeTargets env e).2.toNat ≤
      target.count.toNat + (env.connectedSince e.last_connect / TARGET_DELAY).toNat := by
  unfold updateFreeTargets
  rw [has]
  dsimp only
  have whole : (env.connectedSince e.last_connect).tdiv TARGET_DELAY =
      env.connectedSince e.last_connect / TARGET_DELAY := Int.tdiv_eq_ediv_of_nonneg positive
  have granted : (UInt32.ofInt ((env.connectedSince e.last_connect).tdiv TARGET_DELAY)).toNat =
      (env.connectedSince e.last_connect / TARGET_DELAY).toNat := by
    have quotient : env.connectedSince e.last_connect / TARGET_DELAY < 65536 := by
      unfold TARGET_DELAY
      omega
    have quotient_nonneg : 0 ≤ env.connectedSince e.last_connect / TARGET_DELAY := by
      unfold TARGET_DELAY
      omega
    rw [whole]
    generalize env.connectedSince e.last_connect / TARGET_DELAY = q at quotient quotient_nonneg
    rw [UInt32.ofInt, Int.emod_eq_of_lt quotient_nonneg (by omega)]
    have size : UInt32.size = 4294967296 := rfl
    exact UInt32.toNat_ofNat_of_lt (by omega)
  have sum : (target.count + UInt32.ofInt ((env.connectedSince e.last_connect).tdiv TARGET_DELAY)).toNat ≤
      target.count.toNat + (env.connectedSince e.last_connect / TARGET_DELAY).toNat := by
    rw [UInt32.toNat_add, granted]
    exact Nat.mod_le _ _
  split <;> rename_i many
  · exact (UInt32.le_iff_toNat_le.mp (UInt32.le_of_lt many)).trans sum
  · exact sum

end

/-- For an entry that was last used less than 65536 seconds ago the registry goes by the time that has really
passed exactly if the clock has not gone round since. -/
theorem elapsedRight_iff (past : t ≤ env.CurrentTime) (recent : env.CurrentTime < t + 65536) :
    ElapsedRight env t ↔ env.CurrentTime / 65536 = t / 65536 := by
  rw [← connectedSince_recorded]
  refine ⟨ElapsedRight.since, fun since => ?_⟩
  have at_entry {n : Int} (used : n = recorded t) : env.connectedSince n = env.CurrentTime - t := by rw [used, since]
  refine ⟨since, ?_, ?_, ?_, ?_, ?_⟩
  · intro reg a e found used more
    rw [checkEntry_attemptsOf found more, at_entry used, Env.countedFrom]
  · intro reg a e is_burst valid found used more
    rw [checkRemote_attemptsOf valid found more, at_entry used, Env.countedFrom]
  · intro e used
    unfold attempt48
    rw [at_entry used]
  · intro reg a e sound found unused used
    rw [find_expire sound found unused, at_entry used]
  · intro e target has used
    have bound := @updateFreeTargets_le env e target has
    rw [at_entry used] at bound
    exact bound (by omega) (by omega)

end

theorem elapsedRight_same_round : ElapsedRight (atTime 66200) 65600 :=
  (elapsedRight_iff (by decide) (by decide)).mpr (by decide)

/-- An entry that was last used at 65000 seems to be in use 64300 seconds ahead at 66236. -/
theorem elapsed_wrong : ¬ElapsedRight (atTime 66236) 65000 := by
  intro right
  exact absurd right.since (by decide)

end Ircd.IpRegistry

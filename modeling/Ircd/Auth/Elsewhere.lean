import Ircd.Auth.Held

/-! What an answer of iauth leaves alone: it works on one client and its request. -/

set_option autoImplicit false

namespace Ircd.Auth
open Ircd.Library Ircd.Net

variable {σ κ : Type}

/-- From `s` on, only the client `c` and its request `a` have changed. -/
structure Stays [DecidableEq σ] [DecidableEq κ] (s : State σ κ) (c : κ) (a : σ) (t : State σ κ) : Prop where
  mine : (t.request a).client = c
  kept : t.auth c = some a ∨ t.auth c = none
  auth : ∀ d, d ≠ c → t.auth d = s.auth d
  client : ∀ d, d ≠ c → t.client d = s.client d
  past : ∀ d, d ≠ c → t.past d = s.past d
  request : ∀ b, b ≠ a → t.request b = s.request b
  queries : ∀ b, b ≠ a → t.queries.filter (·.1 = b) = s.queries.filter (·.1 = b)
  calls : ∀ d, d ≠ c → t.calls.filter (·.client = d) = s.calls.filter (·.client = d)

/-- The registration of the client `d` is in `t` as it is in `s`. -/
structure SameRegistration [DecidableEq σ] [DecidableEq κ] (s t : State σ κ) (d : κ) : Prop where
  auth : t.auth d = s.auth d
  client : t.client d = s.client d
  past : t.past d = s.past d
  request : ∀ b, s.auth d = some b → t.request b = s.request b
  queries : ∀ b, s.auth d = some b → t.queries.filter (·.1 = b) = s.queries.filter (·.1 = b)
  calls : t.calls.filter (·.client = d) = s.calls.filter (·.client = d)

variable [DecidableEq σ] [DecidableEq κ] {w : World} {s t : State σ κ} {c : κ} {a : σ}

theorem SameRegistration.refl (s : State σ κ) (d : κ) : SameRegistration s s d :=
  ⟨rfl, rfl, rfl, fun _ _ => rfl, fun _ _ => rfl, rfl⟩

theorem SameRegistration.trans {s t u : State σ κ} {d : κ} (first : SameRegistration s t d)
    (second : SameRegistration t u d) : SameRegistration s u d where
  auth := second.auth.trans first.auth
  client := second.client.trans first.client
  past := second.past.trans first.past
  request b live := (second.request b (first.auth.trans live)).trans (first.request b live)
  queries b live := (second.queries b (first.auth.trans live)).trans (first.queries b live)
  calls := second.calls.trans first.calls

theorem Stays.start (owned : Owned s) (live : s.auth c = some a) : Stays s c a s :=
  ⟨owned c a live, .inl live, fun _ _ => rfl, fun _ _ => rfl, fun _ _ => rfl, fun _ _ => rfl, fun _ _ => rfl,
    fun _ _ => rfl⟩

theorem Stays.others (stays : Stays s c a t) (owned : Owned s) (live : s.auth c = some a) {d : κ} (other : d ≠ c) :
    SameRegistration s t d where
  auth := stays.auth d other
  client := stays.client d other
  past := stays.past d other
  request b live' := stays.request b (owned.distinct live live' other)
  queries b live' := stays.queries b (owned.distinct live live' other)
  calls := stays.calls d other

theorem Stays.owned (stays : Stays s c a t) (owned : Owned s) (live : s.auth c = some a) : Owned t := by
  intro d b live'
  by_cases same : d = c
  · subst same
    have mine : b = a := by
      rcases stays.kept with kept | kept
      · exact Option.some.inj (live'.symm.trans kept)
      · exact absurd (live'.symm.trans kept) nofun
    rw [mine]
    exact stays.mine
  · have before : s.auth d = some b := (stays.auth d same).symm.trans live'
    rw [stays.request b (owned.distinct live before same)]
    exact owned d b before

omit [DecidableEq κ] in
theorem setRequest_other (r : Request σ κ) {b : σ} (other : b ≠ a) : (t.setRequest a r).request b = t.request b := by
  unfold State.setRequest
  exact Function.update_of_ne other ..

omit [DecidableEq σ] in
theorem setClient_other (x : Client) {d : κ} (other : d ≠ c) : (t.setClient c x).client d = t.client d := by
  unfold State.setClient
  exact Function.update_of_ne other ..

omit [DecidableEq σ] in
theorem setPast_other (p : Past) {d : κ} (other : d ≠ c) : (t.setPast c p).past d = t.past d := by
  unfold State.setPast
  exact Function.update_of_ne other ..

theorem Stays.setRequest (stays : Stays s c a t) {r : Request σ κ} (own : r.client = c) :
    Stays s c a (t.setRequest a r) where
  mine := by
    show (Function.update t.request a r a).client = c
    rw [Function.update_self]
    exact own
  kept := stays.kept
  auth := stays.auth
  client := stays.client
  past := stays.past
  request b other := (setRequest_other r other).trans (stays.request b other)
  queries := stays.queries
  calls := stays.calls

theorem Stays.setFlags (stays : Stays s c a t) (f : Flags) : Stays s c a (t.setFlags a f) :=
  stays.setRequest stays.mine

theorem Stays.setClient (stays : Stays s c a t) (x : Client) : Stays s c a (t.setClient c x) :=
  { stays with client := fun d other => (setClient_other x other).trans (stays.client d other) }

theorem Stays.setPast (stays : Stays s c a t) (p : Past) : Stays s c a (t.setPast c p) :=
  { stays with past := fun d other => (setPast_other p other).trans (stays.past d other) }

theorem Stays.deleteQueries (stays : Stays s c a t) : Stays s c a (deleteResolverQueries t a) :=
  { stays with
    queries := by
      intro b other
      rw [← stays.queries b other]
      show (t.queries.filter (·.1 ≠ a)).filter (·.1 = b) = _
      rw [List.filter_filter]
      refine List.filter_congr fun q _ => ?_
      by_cases same : q.1 = b
      · simp [same, other]
      · simp [same] }

theorem Stays.destroy (stays : Stays s c a t) : Stays s c a (destroyAuthRequest t a) := by
  unfold destroyAuthRequest
  dsimp only
  have cancelled : Stays s c a (if (t.request a).flags.dnsPending then deleteResolverQueries t a else t) := by
    split
    · exact stays.deleteQueries
    · exact stays
  generalize (if (t.request a).flags.dnsPending then deleteResolverQueries t a else t) = u at cancelled
  rw [stays.mine]
  refine ⟨?_, .inr (Function.update_self ..), ?_, cancelled.client, cancelled.past, ?_, cancelled.queries,
    cancelled.calls⟩
  · dsimp only
    rw [Function.update_self]
  · exact fun d other => (Function.update_of_ne other _ _).trans (cancelled.auth d other)
  · exact fun b other => (Function.update_of_ne other _ _).trans (cancelled.request b other)

theorem Stays.exit (stays : Stays s c a t) : Stays s c a (exitClient t c) := by
  unfold exitClient
  dsimp only
  rcases stays.kept with kept | kept
  · rw [kept]
    exact stays.destroy.setClient _
  · rw [kept]
    exact stays.setClient _

theorem Stays.register (stays : Stays s c a t) : Stays s c a (registerUser t a c) :=
  { stays.setClient { t.client c with status := .user } with
    calls := by
      intro d other
      rw [← stays.calls d other]
      refine List.filter_cons_of_neg ?_
      rw [decide_eq_true_eq]
      exact other.symm }

theorem Stays.hurry (stays : Stays s c a t) : Stays s c a (sendHurry t c) := by
  unfold sendHurry
  split
  · split
    · exact { stays with }
    · exact stays
  · exact stays

theorem killCheck_stays (stays : Stays s c a t) : Ends (Stays s c a) (Stays s c a) (killCheck w t a) := by
  unfold killCheck
  dsimp only
  rw [stays.mine]
  split
  · exact stays
  · split
    · exact stays
    · split
      · exact (stays.setClient _).exit
      · split
        · exact ((stays.setClient _).setFlags _).exit
        · exact ((stays.setClient _).setFlags _).setPast _

theorem scanFlags_stays (stays : Stays s c a t) : Ends (Stays s c a) (Stays s c a) (scanFlags t a) := by
  unfold scanFlags
  split
  · exact stays
  · exact stays

theorem passwordCheck_stays (stays : Stays s c a t) : Ends (Stays s c a) (Stays s c a) (passwordCheck w t a) := by
  unfold passwordCheck
  dsimp only
  rw [stays.mine]
  split
  · exact stays
  · split
    · exact stays.exit
    · exact (stays.setFlags _).setPast _

theorem iauthCheck_stays (stays : Stays s c a t) :
    Ends (Stays s c a) (fun passed => Stays s c a passed.1) (iauthCheck t a) := by
  unfold iauthCheck
  dsimp only
  split
  · exact stays.setFlags _
  · exact stays.setFlags _

theorem Stays.finish (stays : Stays s c a t) (hurryUp : Bool) : Stays s c a (finish w t a hurryUp) := by
  unfold Auth.finish
  dsimp only
  rw [stays.mine]
  split
  · exact stays.destroy
  · split
    · exact (stays.setClient _).exit
    · split
      · exact (stays.setClient _).register.hurry.destroy
      · exact (stays.setClient _).register.destroy

theorem Stays.check (stays : Stays s c a t) (bit : Bit) : Stays s c a (checkAuthFinished w t a bit) := by
  unfold checkAuthFinished
  apply checkRest_ends
  refine (killCheck_stays (stays.setFlags _)).bind fun t stays => ?_
  refine (scanFlags_stays stays).bind fun t stays => ?_
  refine (passwordCheck_stays stays).bind fun t stays => ?_
  refine (iauthCheck_stays stays).bind fun passed stays => ?_
  exact stays.finish passed.2

theorem Stays.done (stays : Stays s c a t) (attach : Attach) : Stays s c a (doneClient w t c a attach) := by
  unfold doneClient
  dsimp only
  split
  · exact (stays.setPast _).check _
  · exact ((stays.setPast _).setClient _).check _
  · exact (stays.setPast _).exit

theorem Stays.command (stays : Stays s c a t) (message : Message) : Stays s c a (iauthCommand w t c a message) := by
  cases message with
  | usernameForced name =>
    simp only [iauthCommand]
    split
    · exact stays.check _
    · exact ((stays.setClient _).setFlags _).check _
  | usernameGood name =>
    simp only [iauthCommand]
    split
    · exact stays.check _
    · exact ((stays.setClient _).setFlags _).check _
  | usernameBad name =>
    simp only [iauthCommand]
    split
    · exact stays.check _
    · exact ((stays.setPast _).setClient _).check _
  | hostname name =>
    simp only [iauthCommand]
    split
    · exact stays
    · refine Stays.check (Stays.setClient ?_ _) _
      split
      · exact stays.deleteQueries
      · exact stays
  | ipAddress ip =>
    cases ip with
    | none => exact stays
    | some ip =>
      have saved : Stays s c a (t.setRequest a { t.request a with
          original := if (t.request a).original.valid then (t.request a).original else (t.client c).ip }) :=
        stays.setRequest stays.mine
      exact (saved.setClient _).check _
  | softDone => exact (stays.setFlags _).check _
  | doneClient attach => exact stays.done attach
  | doneAccount account attach =>
    simp only [iauthCommand]
    split
    · exact stays.done attach
    · exact stays

theorem iauthParse_others (owned : Owned s) (message : Message) :
    Owned (iauthParse w s c message) ∧ ∀ d, d ≠ c → SameRegistration s (iauthParse w s c message) d := by
  have unchanged : Owned s ∧ ∀ d, d ≠ c → SameRegistration s s d := ⟨owned, fun d _ => .refl s d⟩
  unfold iauthParse
  cases live : s.auth c with
  | none => exact unchanged
  | some a =>
    dsimp only
    split
    · have stays : Stays s c a (iauthCommand w s c a message) := (Stays.start owned live).command message
      exact ⟨stays.owned owned live, fun d other => stays.others owned live other⟩
    · exact unchanged

theorem iauthKill_others (owned : Owned s) :
    Owned (iauthKill s c) ∧ ∀ d, d ≠ c → SameRegistration s (iauthKill s c) d := by
  unfold iauthKill
  cases live : s.auth c with
  | none =>
    dsimp only
    rw [exitClient_idle live]
    refine ⟨owned, fun d other => ⟨rfl, setClient_other _ other, rfl, fun _ _ => rfl, fun _ _ => rfl, rfl⟩⟩
  | some a =>
    dsimp only
    have stays : Stays s c a (exitClient (s.setFlags a { (s.request a).flags with iauthPending := false }) c) :=
      ((Stays.start owned live).setFlags _).exit
    exact ⟨stays.owned owned live, fun d other => stays.others owned live other⟩

end Ircd.Auth

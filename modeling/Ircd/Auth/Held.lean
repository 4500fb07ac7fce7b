import Ircd.Auth.Gate

/-! Facts about the requests in use: what holds of the flags of each, of its client and of what is recorded of it.

An operation on one client and its request leaves the others alone, so each fact is shown for that one only.
-/

set_option autoImplicit false

namespace Ircd.Auth

variable {σ κ : Type}

def Owned (s : State σ κ) : Prop := ∀ c a, s.auth c = some a → (s.request a).client = c

/-- `holds` is a fact about each request in use. -/
structure Held (holds : Flags → Client → Past → Prop) (s : State σ κ) : Prop where
  owned : Owned s
  fact : ∀ c a, s.auth c = some a → holds (s.request a).flags (s.client c) (s.past c)

variable {s : State σ κ}

theorem Owned.distinct (owned : Owned s) {c d : κ} {a b : σ} (live : s.auth c = some a)
    (live' : s.auth d = some b) (other : d ≠ c) : b ≠ a := by
  rintro rfl
  exact other ((owned d b live').symm.trans (owned c b live))

variable [DecidableEq σ] [DecidableEq κ] {holds : Flags → Client → Past → Prop}

theorem Held.update (held : Held holds s) {c : κ} {a : σ} (live : s.auth c = some a) (r : Request σ κ)
    (x : Client) (p : Past) (queries : List (σ × κ)) (own : r.client = c) (fact : holds r.flags x p) :
    Held holds { s with
      request := Function.update s.request a r
      client := Function.update s.client c x
      past := Function.update s.past c p
      queries := queries } := by
  refine ⟨?_, ?_⟩
  · intro d b live'
    dsimp only
    by_cases same : b = a
    · subst same
      rw [Function.update_self, own]
      by_contra other
      exact held.owned.distinct live live' (Ne.symm other) rfl
    · rw [Function.update_of_ne same]
      exact held.owned d b live'
  · intro d b live'
    dsimp only
    by_cases same : d = c
    · subst same
      obtain rfl : b = a := Option.some.inj (live'.symm.trans live)
      simp only [Function.update_self]
      exact fact
    · simp only [Function.update_of_ne same, Function.update_of_ne (held.owned.distinct live live' same)]
      exact held.fact d b live'

omit [DecidableEq σ] in
theorem Held.close {t : State σ κ} (held : Held holds s) {c : κ} {a : σ} (live : s.auth c = some a)
    (auth : t.auth = Function.update s.auth c none) (request : ∀ b, b ≠ a → t.request b = s.request b)
    (client : ∀ d, d ≠ c → t.client d = s.client d) (past : ∀ d, d ≠ c → t.past d = s.past d) : Held holds t := by
  have elsewhere : ∀ {d b}, t.auth d = some b → d ≠ c ∧ s.auth d = some b ∧ b ≠ a := by
    intro d b live'
    rw [auth] at live'
    by_cases same : d = c
    · rw [same, Function.update_self] at live'
      cases live'
    · rw [Function.update_of_ne same] at live'
      exact ⟨same, live', held.owned.distinct live live' same⟩
  refine ⟨?_, ?_⟩
  · intro d b live'
    obtain ⟨-, before, other⟩ := elsewhere live'
    rw [request b other]
    exact held.owned d b before
  · intro d b live'
    obtain ⟨differs, before, other⟩ := elsewhere live'
    rw [request b other, client d differs, past d differs]
    exact held.fact d b before

omit [DecidableEq σ] in
theorem Held.settle (held : Held holds s) {c : κ} (idle : s.auth c = none) (x : Client) :
    Held holds (s.setClient c x) := by
  refine ⟨held.owned, fun d b live => ?_⟩
  have differs : d ≠ c := by
    rintro rfl
    exact absurd (idle.symm.trans live) nofun
  simp only [State.setClient, Function.update_of_ne differs]
  exact held.fact d b live

theorem Held.opened (held : Held holds s) {c : κ} {a : σ} (unowned : ∀ d, s.auth d ≠ some a) {x : Client}
    {f : Flags} (fact : holds f x (s.past c)) : Held holds (newRequest s c a x f) := by
  have here : ∀ {b}, Function.update s.auth c (some a) c = some b → b = a := by
    intro b live
    rw [Function.update_self] at live
    exact (Option.some.inj live).symm
  have elsewhere : ∀ {d b}, Function.update s.auth c (some a) d = some b → d ≠ c → s.auth d = some b ∧ b ≠ a := by
    intro d b live differs
    rw [Function.update_of_ne differs] at live
    refine ⟨live, ?_⟩
    rintro rfl
    exact unowned d live
  refine ⟨?_, ?_⟩
  · intro d b live
    by_cases same : d = c
    · subst same
      rw [here live]
      simp only [newRequest, Function.update_self]
    · obtain ⟨before, other⟩ := elsewhere live same
      simp only [newRequest, Function.update_of_ne other]
      exact held.owned d b before
  · intro d b live
    by_cases same : d = c
    · subst same
      rw [here live]
      simp only [newRequest, Function.update_self]
      exact fact
    · obtain ⟨before, other⟩ := elsewhere live same
      simp only [newRequest, Function.update_of_ne other, Function.update_of_ne same]
      exact held.fact d b before

theorem destroyAuthRequest_changes (s : State σ κ) (a : σ) :
    (destroyAuthRequest s a).auth = Function.update s.auth (s.request a).client none ∧
      (∀ b, b ≠ a → (destroyAuthRequest s a).request b = s.request b) ∧
      (destroyAuthRequest s a).client = s.client ∧ (destroyAuthRequest s a).past = s.past ∧
      (destroyAuthRequest s a).calls = s.calls := by
  unfold destroyAuthRequest
  dsimp only
  split
  · exact ⟨rfl, fun b other => Function.update_of_ne other _ _, rfl, rfl, rfl⟩
  · exact ⟨rfl, fun b other => Function.update_of_ne other _ _, rfl, rfl, rfl⟩

theorem exitClient_changes {c : κ} {a : σ} (live : s.auth c = some a) (own : (s.request a).client = c) :
    (exitClient s c).auth = Function.update s.auth c none ∧
      (∀ b, b ≠ a → (exitClient s c).request b = s.request b) ∧
      (∀ d, d ≠ c → (exitClient s c).client d = s.client d) ∧ ((exitClient s c).client c).status = .gone ∧
      (exitClient s c).past = s.past ∧ (exitClient s c).calls = s.calls := by
  have value : exitClient s c =
      (destroyAuthRequest s a).setClient c { (destroyAuthRequest s a).client c with status := .gone } := by
    simp only [exitClient, live]
  obtain ⟨auth, request, client, past, calls⟩ := destroyAuthRequest_changes s a
  rw [own] at auth
  rw [value]
  refine ⟨auth, request, fun d other => ?_, ?_, past, calls⟩
  · simp only [State.setClient, Function.update_of_ne other, client]
  · simp only [State.setClient, Function.update_self]

theorem exitClient_idle {c : κ} (idle : s.auth c = none) :
    exitClient s c = s.setClient c { s.client c with status := .gone } := by
  simp only [exitClient, idle]

end Ircd.Auth

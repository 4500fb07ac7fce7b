import Ircd.Auth.Requests
import Ircd.Library.EarlyReturn
import Mathlib.Data.List.Nodup

/-! What holds of the authorization requests in all runs in which no query of the resolver is
forgotten and no request is destroyed twice. -/

set_option autoImplicit false

namespace Ircd.Auth
open Ircd.Library

variable {σ κ : Type}

/-- What is to be true of a call of `register_user`. -/
structure Gate (call : Call κ) : Prop where
  nick : call.past.nick = true
  user : call.past.user = true
  pong : call.past.pong = true
  cap : call.past.cap = false
  waits : call.waits = false
  killCheck : call.past.checked.isSome = true
  password : call.past.password = true
  iauth : call.past.handed = false ∨ call.past.answered = true ∨ call.past.excused = true

structure Facts (r : Request σ κ) (p : Past) : Prop where
  nick : r.flags.needsNick = false → p.nick = true ∧ r.cookie ≠ 0
  user : r.flags.needsUser = false → p.user = true
  pong : r.cookie ≠ 0 → r.flags.needsPong = false → p.pong = true
  cap : p.cap = true → r.flags.capPending = true
  kill : r.flags.glineChecked = true → p.checked.isSome = true
  password : r.flags.passwordChecked = true → p.password = true
  iauth : p.handed = true → r.flags.iauthPending = false → p.answered = true ∨ p.excused = true

structure Free (s : State σ κ) (l : List σ) : Prop where
  chain : Chain (fun a => (s.request a).next) s.freelist l
  distinct : l.Nodup
  unused : ∀ a ∈ l, s.allocated a = true ∧ ∀ c, s.auth c ≠ some a

structure Good (s : State σ κ) : Prop where
  own : ∀ c a, s.auth c = some a → (s.request a).client = c
  status : ∀ c a, s.auth c = some a → (s.client c).status.unregistered = true
  allocated : ∀ c a, s.auth c = some a → s.allocated a = true
  free : ∃ l, Free s l
  idle : ∀ a, (∀ c, s.auth c ≠ some a) → (s.request a).socket = false ∧ (s.request a).timeout = false
  queries : ∀ q ∈ s.queries, s.auth q.2 = some q.1 ∧ (s.request q.1).flags.dnsPending = true
  single : (s.queries.map Prod.fst).Nodup
  facts : ∀ c a, s.auth c = some a → (s.client c).status ≠ .serverPort → Facts (s.request a) (s.past c)
  webirc : ∀ c a, s.auth c = some a → (s.client c).status = .webircPort → (s.request a).flags.iauthPending = false
  unborn : ∀ c, (s.client c).status = .unborn → s.auth c = none ∧ s.past c = .none ∧ ∀ call ∈ s.calls, call.client ≠ c
  gates : ∀ call ∈ s.calls, Gate call
  once : (s.calls.map Call.client).Nodup
  closed : ∀ call ∈ s.calls, s.auth call.client = none

variable {s : State σ κ} {a : σ}

theorem Good.no_query (good : Good s) (dns : (s.request a).flags.dnsPending = false) :
    ∀ q ∈ s.queries, q.1 ≠ a := by
  rintro q mem rfl
  have pending := (good.queries q mem).2
  rw [dns] at pending
  cases pending

theorem good_init [Inhabited κ] : Good (State.init σ κ) where
  own := fun _ _ => nofun
  status := fun _ _ => nofun
  allocated := fun _ _ => nofun
  free := ⟨[], rfl, List.nodup_nil, fun _ => nofun⟩
  idle := fun _ _ => ⟨rfl, rfl⟩
  queries := fun _ => nofun
  single := List.nodup_nil
  facts := fun _ _ => nofun
  webirc := fun _ _ => nofun
  unborn := fun _ _ => ⟨rfl, rfl, fun _ => nofun⟩
  gates := fun _ => nofun
  once := List.nodup_nil
  closed := fun _ => nofun

variable {c : κ}

theorem Good.same_client (good : Good s) {c' : κ} (live : s.auth c = some a) (live' : s.auth c' = some a) :
    c' = c := (good.own c' a live').symm.trans (good.own c a live)

variable [DecidableEq σ] [DecidableEq κ]

theorem Good.update (good : Good s) (live : s.auth c = some a) (r : Request σ κ) (x : Client) (p : Past)
    (queries : List (σ × κ)) (own : r.client = c) (next : r.next = (s.request a).next)
    (status : x.status.unregistered = true) (fewer : queries.Sublist s.queries)
    (dns : r.flags.dnsPending = false → ∀ q ∈ queries, q.1 ≠ a)
    (webirc : x.status = .webircPort → r.flags.iauthPending = false) (facts : x.status ≠ .serverPort → Facts r p) :
    Good { s with
      request := Function.update s.request a r
      client := Function.update s.client c x
      past := Function.update s.past c p
      queries := queries } := by
  have elsewhere : ∀ {c' a'}, s.auth c' = some a' → c' ≠ c → a' ≠ a := by
    rintro c' a' live' differs rfl
    exact differs (good.same_client live live')
  refine ⟨?_, ?_, good.allocated, ?_, ?_, ?_, good.single.sublist (fewer.map _), ?_, ?_, ?_, good.gates, good.once,
    good.closed⟩
  · intro c' a' live'
    dsimp only
    by_cases same : a' = a
    · subst same
      rw [Function.update_self, own]
      exact (good.same_client live live').symm
    · rw [Function.update_of_ne same]
      exact good.own c' a' live'
  · intro c' a' live'
    dsimp only
    by_cases same : c' = c
    · rw [same, Function.update_self]
      exact status
    · rw [Function.update_of_ne same]
      exact good.status c' a' live'
  · obtain ⟨l, chain, distinct, unused⟩ := good.free
    refine ⟨l, chain.congr fun b mem => ?_, distinct, unused⟩
    have other : b ≠ a := fun same => (unused b mem).2 c (same ▸ live)
    dsimp only
    rw [Function.update_of_ne other]
  · intro b unowned
    have other : b ≠ a := fun same => unowned c (same ▸ live)
    dsimp only
    rw [Function.update_of_ne other]
    exact good.idle b unowned
  · intro q mem
    obtain ⟨owner, pending⟩ := good.queries q (fewer.subset mem)
    refine ⟨owner, ?_⟩
    dsimp only
    by_cases same : q.1 = a
    · rw [same, Function.update_self]
      by_contra cleared
      exact dns (Bool.not_eq_true _ ▸ cleared) q mem same
    · rw [Function.update_of_ne same]
      exact pending
  · intro c' a' live' port
    dsimp only at port ⊢
    by_cases same : c' = c
    · subst same
      have at_a : a' = a := Option.some.inj (live'.symm.trans live)
      subst at_a
      rw [Function.update_self] at port
      rw [Function.update_self, Function.update_self]
      exact facts port
    · rw [Function.update_of_ne same] at port
      rw [Function.update_of_ne (elsewhere live' same), Function.update_of_ne same]
      exact good.facts c' a' live' port
  · intro c' a' live' port
    dsimp only at port ⊢
    by_cases same : c' = c
    · subst same
      have at_a : a' = a := Option.some.inj (live'.symm.trans live)
      subst at_a
      rw [Function.update_self] at port ⊢
      exact webirc port
    · rw [Function.update_of_ne same] at port
      rw [Function.update_of_ne (elsewhere live' same)]
      exact good.webirc c' a' live' port
  · intro c' born
    dsimp only at born ⊢
    by_cases same : c' = c
    · rw [same, Function.update_self] at born
      rw [born] at status
      cases status
    · rw [Function.update_of_ne same] at born ⊢
      exact good.unborn c' born

theorem Good.flags (good : Good s) (live : s.auth c = some a) (f : Flags)
    (dns : f.dnsPending = (s.request a).flags.dnsPending)
    (iauth : f.iauthPending = (s.request a).flags.iauthPending)
    (facts : (s.client c).status ≠ .serverPort → Facts { s.request a with flags := f } (s.past c)) :
    Good (s.setFlags a f) := by
  have updated := good.update live { s.request a with flags := f } (s.client c) (s.past c) s.queries
    (good.own c a live) rfl (good.status c a live) (List.Sublist.refl _) ?_
    (fun port => iauth.trans (good.webirc c a live port)) facts
  · simp only [Function.update_eq_self] at updated
    exact updated
  · exact fun cleared => good.no_query (dns ▸ cleared)

theorem Good.client (good : Good s) (live : s.auth c = some a) (x : Client)
    (status : x.status = (s.client c).status) : Good (s.setClient c x) := by
  have updated := good.update live (s.request a) x (s.past c) s.queries (good.own c a live) rfl
    (status ▸ good.status c a live) (List.Sublist.refl _) ?_ (fun port => good.webirc c a live (status ▸ port)) ?_
  · simp only [Function.update_eq_self] at updated
    exact updated
  · exact good.no_query
  · intro port
    exact good.facts c a live (status ▸ port)

theorem Good.record (good : Good s) (live : s.auth c = some a) (p : Past)
    (facts : (s.client c).status ≠ .serverPort → Facts (s.request a) p) : Good (s.setPast c p) := by
  have updated := good.update live (s.request a) (s.client c) p s.queries (good.own c a live) rfl
    (good.status c a live) (List.Sublist.refl _) ?_ (good.webirc c a live) facts
  · simp only [Function.update_eq_self] at updated
    exact updated
  · exact good.no_query

omit [DecidableEq σ] in
theorem Good.settle (good : Good s) (past : s.auth c = none) (x : Client) (born : x.status ≠ .unborn) :
    Good (s.setClient c x) := by
  have elsewhere : ∀ {c' a'}, s.auth c' = some a' → c' ≠ c := by
    rintro c' a' live rfl
    rw [past] at live
    cases live
  refine ⟨good.own, ?_, good.allocated, good.free.imp fun l free => ⟨free.chain, free.distinct, free.unused⟩, good.idle,
    good.queries, good.single, ?_, ?_, ?_, good.gates, good.once, good.closed⟩
  · intro c' a' live
    simp only [State.setClient, Function.update_of_ne (elsewhere live)]
    exact good.status c' a' live
  · intro c' a' live port
    simp only [State.setClient, Function.update_of_ne (elsewhere live)] at port
    exact good.facts c' a' live port
  · intro c' a' live port
    simp only [State.setClient, Function.update_of_ne (elsewhere live)] at port
    exact good.webirc c' a' live port
  · intro c' unborn
    by_cases same : c' = c
    · simp only [same, State.setClient, Function.update_self] at unborn
      exact absurd unborn born
    · simp only [State.setClient, Function.update_of_ne same] at unborn
      exact good.unborn c' unborn

theorem Good.destroy (good : Good s) (live : s.auth c = some a) :
    Good (destroyAuthRequest s a) ∧ (destroyAuthRequest s a).auth c = none ∧
      (destroyAuthRequest s a).client = s.client ∧ (destroyAuthRequest s a).calls = s.calls := by
  have own := good.own c a live
  obtain ⟨queries, fewer, others, value⟩ : ∃ queries : List (σ × κ), queries.Sublist s.queries ∧ (∀ q ∈ queries, q.1 ≠ a) ∧
      destroyAuthRequest s a = { s with
        queries := queries
        auth := Function.update s.auth c none
        request := Function.update s.request a
          { s.request a with socket := false, timeout := false, next := s.freelist }
        freelist := some a } := by
    unfold destroyAuthRequest
    dsimp only
    split
    · refine ⟨s.queries.filter (·.1 ≠ a), List.filter_sublist, ?_, by rw [own]; rfl⟩
      intro q mem
      simpa using (List.mem_filter.mp mem).2
    · rename_i settled
      refine ⟨s.queries, List.Sublist.refl _, ?_, by rw [own]⟩
      exact good.no_query (Bool.not_eq_true _ ▸ settled)
  have elsewhere : ∀ {c' a'}, Function.update s.auth c none c' = some a' → c' ≠ c ∧ s.auth c' = some a' ∧ a' ≠ a := by
    intro c' a' live'
    by_cases same : c' = c
    · rw [same, Function.update_self] at live'
      cases live'
    · rw [Function.update_of_ne same] at live'
      refine ⟨same, live', ?_⟩
      rintro rfl
      exact same (good.same_client live live')
  rw [value]
  refine ⟨?_, Function.update_self .., rfl, rfl⟩
  refine ⟨?_, ?_, ?_, ?_, ?_, ?_, good.single.sublist (fewer.map _), ?_, ?_, ?_, good.gates, good.once, ?_⟩
  · intro c' a' live'
    obtain ⟨-, before, other⟩ := elsewhere live'
    dsimp only
    rw [Function.update_of_ne other]
    exact good.own c' a' before
  · intro c' a' live'
    exact good.status c' a' (elsewhere live').2.1
  · intro c' a' live'
    exact good.allocated c' a' (elsewhere live').2.1
  · obtain ⟨l, chain, distinct, unused⟩ := good.free
    have absent : a ∉ l := fun mem => (unused a mem).2 c live
    refine ⟨a :: l, (chain.push absent).congr ?_, List.nodup_cons.mpr ⟨absent, distinct⟩, ?_⟩
    · intro b _
      by_cases same : b = a
      · rw [same]
        simp only [Function.update_self]
      · simp only [Function.update_of_ne same]
    · intro b mem
      rcases List.mem_cons.mp mem with rfl | mem
      · exact ⟨good.allocated c b live, fun c' live' => (elsewhere live').2.2 rfl⟩
      · exact ⟨(unused b mem).1, fun c' live' => (unused b mem).2 c' (elsewhere live').2.1⟩
  · intro b unowned
    dsimp only
    by_cases same : b = a
    · rw [same, Function.update_self]
      exact ⟨rfl, rfl⟩
    · rw [Function.update_of_ne same]
      refine good.idle b fun c' live' => ?_
      have other : c' ≠ c := by
        rintro rfl
        exact same (Option.some.inj (live'.symm.trans live))
      exact unowned c' ((Function.update_of_ne other _ _).trans live')
  · intro q mem
    obtain ⟨owner, pending⟩ := good.queries q (fewer.subset mem)
    have other : q.2 ≠ c := by
      intro same
      exact others q mem (Option.some.inj (owner.symm.trans (same ▸ live)))
    dsimp only
    rw [Function.update_of_ne other, Function.update_of_ne (others q mem)]
    exact ⟨owner, pending⟩
  · intro c' a' live' port
    obtain ⟨-, before, other⟩ := elsewhere live'
    dsimp only
    rw [Function.update_of_ne other]
    have facts := good.facts c' a' before port
    exact ⟨facts.nick, facts.user, facts.pong, facts.cap, facts.kill, facts.password, facts.iauth⟩
  · intro c' a' live' port
    obtain ⟨-, before, other⟩ := elsewhere live'
    dsimp only
    rw [Function.update_of_ne other]
    exact good.webirc c' a' before port
  · intro c' unborn
    obtain ⟨none_auth, rest⟩ := good.unborn c' unborn
    refine ⟨?_, rest⟩
    dsimp only
    by_cases same : c' = c
    · rw [same, Function.update_self]
    · rw [Function.update_of_ne same]
      exact none_auth
  · intro call mem
    dsimp only
    by_cases same : call.client = c
    · rw [same, Function.update_self]
    · rw [Function.update_of_ne same]
      exact good.closed call mem

theorem Good.exit (good : Good s) (c : κ) : Good (exitClient s c) := by
  unfold exitClient
  cases live : s.auth c with
  | none => exact good.settle live _ nofun
  | some a =>
    obtain ⟨after, past, -, -⟩ := good.destroy live
    exact after.settle past _ nofun

omit [DecidableEq κ] in
theorem Good.unused (good : Good s) (free : ∀ c, s.auth c ≠ some a) (f : Flags) :
    Good (s.setFlags a f) := by
  have other : ∀ {c b}, s.auth c = some b → b ≠ a := by
    rintro c b live rfl
    exact free c live
  have elsewhere : ∀ {c b}, s.auth c = some b → (s.setFlags a f).request b = s.request b := by
    intro c b live
    exact Function.update_of_ne (other live) _ _
  have kept : ∀ b, ((s.setFlags a f).request b).next = (s.request b).next ∧
      ((s.setFlags a f).request b).socket = (s.request b).socket ∧
      ((s.setFlags a f).request b).timeout = (s.request b).timeout := by
    intro b
    simp only [State.setFlags, State.setRequest]
    by_cases same : b = a
    · rw [same, Function.update_self]
      exact ⟨rfl, rfl, rfl⟩
    · rw [Function.update_of_ne same]
      exact ⟨rfl, rfl, rfl⟩
  refine ⟨?_, good.status, good.allocated, ?_, ?_, ?_, good.single, ?_, ?_, good.unborn, good.gates, good.once,
    good.closed⟩
  · intro c b live
    rw [elsewhere live]
    exact good.own c b live
  · obtain ⟨l, chain, distinct, unused⟩ := good.free
    exact ⟨l, chain.congr fun b _ => (kept b).1, distinct, unused⟩
  · intro b unowned
    rw [(kept b).2.1, (kept b).2.2]
    exact good.idle b unowned
  · intro q mem
    obtain ⟨live, pending⟩ := good.queries q mem
    refine ⟨live, ?_⟩
    rw [elsewhere live]
    exact pending
  · intro c b live port
    rw [elsewhere live]
    exact good.facts c b live port
  · intro c b live port
    rw [elsewhere live]
    exact good.webirc c b live port

theorem exitClient_setFlags (live : s.auth c = some a) {f : Flags}
    (dns : f.dnsPending = (s.request a).flags.dnsPending) :
    exitClient (s.setFlags a f) c = (exitClient s c).setFlags a f := by
  unfold exitClient
  cases pending : (s.request a).flags.dnsPending with
  | true =>
    simp only [State.setFlags, State.setRequest, State.setClient, live, destroyAuthRequest, Function.update_self, dns,
      pending, if_true, deleteResolverQueries, Function.update_idem]
  | false =>
    simp only [State.setFlags, State.setRequest, State.setClient, live, destroyAuthRequest, Function.update_self, dns,
      pending, Bool.false_eq_true, if_false, Function.update_idem]

theorem Good.exit_unfit (good : Good s) (live : s.auth c = some a) {f : Flags}
    (dns : f.dnsPending = (s.request a).flags.dnsPending) : Good (exitClient (s.setFlags a f) c) := by
  rw [exitClient_setFlags live dns]
  apply (good.exit c).unused
  intro c' live'
  obtain ⟨after, past, -, -⟩ := good.destroy live
  have value : (exitClient s c).auth = (destroyAuthRequest s a).auth := by simp only [exitClient, live, State.setClient]
  rw [value] at live'
  have own := after.own c' a live'
  have kept : ((destroyAuthRequest s a).request a).client = c := by
    simp only [destroyAuthRequest, Function.update_self]
    exact good.own c a live
  rw [← own, kept, past] at live'
  cases live'

theorem Good.register (good : Good s) (live : s.auth c = some a) (gate : Gate (s.call a c)) :
    Good (destroyAuthRequest (registerUser s a c) a) := by
  obtain ⟨after, past, client, calls⟩ := good.destroy live
  have value : destroyAuthRequest (registerUser s a c) a =
      { (destroyAuthRequest s a).setClient c { s.client c with status := .user } with
        calls := s.call a c :: s.calls } := by
    unfold destroyAuthRequest registerUser
    dsimp only [State.setClient]
    split <;> rfl
  have new : c ∉ s.calls.map Call.client := by
    intro mem
    obtain ⟨earlier, there, same⟩ := List.mem_map.mp mem
    have closed := good.closed earlier there
    rw [same, live] at closed
    cases closed
  have settled := after.settle past { s.client c with status := .user } nofun
  rw [value]
  refine ⟨settled.own, settled.status, settled.allocated,
    settled.free.imp fun l free => ⟨free.chain, free.distinct, free.unused⟩, settled.idle, settled.queries, settled.single,
    settled.facts, settled.webirc, ?_, ?_, ?_, ?_⟩
  · intro c' unborn
    obtain ⟨none_auth, blank, never⟩ := settled.unborn c' unborn
    refine ⟨none_auth, blank, fun call' mem => ?_⟩
    rcases List.mem_cons.mp mem with rfl | mem
    · intro same
      have here : c' = c := same.symm
      subst here
      simp only [State.setClient, Function.update_self] at unborn
      cases unborn
    · refine never call' ?_
      change call' ∈ (destroyAuthRequest s a).calls
      rw [calls]
      exact mem
  · intro call' mem
    rcases List.mem_cons.mp mem with rfl | mem
    · exact gate
    · exact good.gates call' mem
  · exact List.nodup_cons.mpr ⟨new, good.once⟩
  · intro call' mem
    rcases List.mem_cons.mp mem with rfl | mem
    · exact past
    · refine after.closed call' ?_
      rw [calls]
      exact mem

structure Passing (c : κ) (a : σ) (known : Flags → Prop) (s : State σ κ) : Prop where
  good : Good s
  live : s.auth c = some a
  known : (s.client c).status = .userPort → known (s.request a).flags

omit [DecidableEq σ] [DecidableEq κ] in
theorem preregisterUser_keeps {w : World} {x y : Client} (attached : preregisterUser w x = some y) :
    y = { x with conf := y.conf, doId := y.doId } := by
  unfold preregisterUser at attached
  split at attached
  · cases attached
    rfl
  · obtain ⟨conf, -, rfl⟩ := Option.map_eq_some_iff.mp attached
    rfl

theorem killCheck_passing (w : World) (good : Good s) (live : s.auth c = some a) :
    Ends Good (Passing c a fun f => f.glineChecked = true) (killCheck w s a) := by
  have own := good.own c a live
  unfold killCheck
  dsimp only
  rw [own]
  split
  · rename_i skipped
    refine ⟨good, live, fun port => ?_⟩
    simpa [port] using skipped
  · rename_i first
    have port : (s.client c).status = .userPort := by
      by_contra other
      exact first (by simp [other])
    split
    · exact good
    · split
      · apply Good.exit
        exact good.client live _ rfl
      · rename_i y attached
        generalize shape : ({ y with userUsername := checkedUsername w y } : Client) = x
        have status : x.status = (s.client c).status := by
          rw [← shape]
          show y.status = _
          rw [preregisterUser_keeps attached]
        have checked : Good (((s.setClient c x).setFlags a { (s.request a).flags with glineChecked := true }).setPast c
            { s.past c with checked := some x.identity }) := by
          have facts := good.facts c a live (by rw [port]; nofun)
          refine good.update live { s.request a with flags := { (s.request a).flags with glineChecked := true } } x
            { s.past c with checked := some x.identity } s.queries own rfl (status ▸ good.status c a live)
            (List.Sublist.refl _) ?_ (fun webirc => good.webirc c a live (status ▸ webirc)) ?_
          · exact good.no_query
          · intro _
            exact ⟨facts.nick, facts.user, facts.pong, facts.cap, fun _ => rfl, facts.password, facts.iauth⟩
        split
        · exact (good.client live x status).exit_unfit live rfl
        · refine ⟨checked, live, fun _ => ?_⟩
          simp [State.setPast, State.setFlags, State.setRequest]

omit [DecidableEq σ] [DecidableEq κ] in
theorem scanFlags_passing {known : Flags → Prop} (passing : Passing c a known s) :
    Ends Good (Passing c a fun f => known f ∧ f.scan = false) (scanFlags s a) := by
  unfold scanFlags
  split
  · exact passing.good
  · rename_i clear
    exact ⟨passing.good, passing.live, fun port => ⟨passing.known port, Bool.not_eq_true _ ▸ clear⟩⟩

theorem passwordCheck_passing (w : World)
    (passing : Passing c a (fun f => f.glineChecked = true ∧ f.scan = false) s) :
    Ends Good (Passing c a fun f => (f.glineChecked = true ∧ f.scan = false) ∧ f.passwordChecked = true)
      (passwordCheck w s a) := by
  obtain ⟨good, live, known⟩ := passing
  have own := good.own c a live
  unfold passwordCheck
  dsimp only
  rw [own]
  split
  · rename_i skipped
    refine ⟨good, live, fun port => ⟨known port, ?_⟩⟩
    simpa [port] using skipped
  · rename_i first
    have port : (s.client c).status = .userPort := by
      by_contra other
      exact first (by simp [other])
    split
    · exact good.exit c
    · have facts := good.facts c a live (by rw [port]; nofun)
      have checked : Good ((s.setFlags a { (s.request a).flags with passwordChecked := true }).setPast c
          { s.past c with password := true }) := by
        have updated := good.update live
          { s.request a with flags := { (s.request a).flags with passwordChecked := true } } (s.client c)
          { s.past c with password := true } s.queries own rfl (good.status c a live) (List.Sublist.refl _) ?_
          (good.webirc c a live) ?_
        · simp only [Function.update_eq_self] at updated
          exact updated
        · exact good.no_query
        · intro _
          exact ⟨facts.nick, facts.user, facts.pong, facts.cap, facts.kill, fun _ => rfl, facts.iauth⟩
      refine ⟨checked, live, fun _ => ?_⟩
      have before := known port
      simpa [State.setPast, State.setFlags, State.setRequest, Flags.scan] using before

theorem iauthCheck_passing (passing : Passing c a
      (fun f => (f.glineChecked = true ∧ f.scan = false) ∧ f.passwordChecked = true) s) :
    Ends Good (fun passed => Passing c a (fun f => ((f.glineChecked = true ∧ f.scan = false) ∧
      f.passwordChecked = true) ∧ f.iauthPending = false) passed.1 ∧ passed.2 = false) (iauthCheck s a) := by
  obtain ⟨good, live, known⟩ := passing
  have hurried : Good (s.setFlags a { (s.request a).flags with iauthHurry := true }) := by
    refine good.flags live _ rfl rfl fun port => ?_
    have facts := good.facts c a live port
    exact ⟨facts.nick, facts.user, facts.pong, facts.cap, facts.kill, facts.password, facts.iauth⟩
  unfold iauthCheck
  dsimp only
  split
  · exact hurried
  · rename_i answered
    have answered : (s.request a).flags.iauthPending = false := Bool.not_eq_true _ ▸ answered
    refine ⟨⟨hurried, live, fun port => ?_⟩, ?_⟩
    · have before := known port
      simpa [State.setFlags, State.setRequest, Flags.scan, answered] using before
    · show ((s.request a).flags.iauthPending && _) = false
      rw [answered, Bool.false_and]

theorem finish_good (w : World) (passing : Passing c a
      (fun f => ((f.glineChecked = true ∧ f.scan = false) ∧ f.passwordChecked = true) ∧ f.iauthPending = false) s) :
    Good (finish w s a false) := by
  obtain ⟨good, live, known⟩ := passing
  have own := good.own c a live
  unfold finish
  dsimp only
  rw [own]
  split
  · exact (good.destroy live).1
  · rename_i port
    have port : (s.client c).status = .userPort := Decidable.not_not.mp port
    obtain ⟨⟨⟨checked, scanned⟩, password⟩, answered⟩ := known port
    generalize shape : ({ s.client c with
      passwd := []
      userUsername := finalUsername (s.request a).flags (s.client c) } : Client) = x
    have named : Good (s.setClient c x) := good.client live x (by rw [← shape])
    have facts := good.facts c a live (by rw [port]; nofun)
    simp only [Flags.scan, Bool.or_eq_false_iff] at scanned
    obtain ⟨⟨⟨⟨⟨auth, dns⟩, cap⟩, pong⟩, user⟩, nick⟩ := scanned
    split
    · exact named.exit c
    · refine named.register live ⟨(facts.nick nick).1, facts.user user, facts.pong (facts.nick nick).2 pong, ?_, ?_,
        facts.kill checked, facts.password password, ?_⟩
      · by_contra started
        have pending := facts.cap ((Bool.not_eq_false _).mp started)
        rw [cap] at pending
        cases pending
      · have resolved : s.queries.any (·.1 = a) = false := by simpa using fun b c mem => good.no_query dns (b, c) mem
        simp only [State.call, State.setClient, auth, dns, resolved, Bool.or_false]
      · cases handed : (s.past c).handed with
        | false => exact .inl handed
        | true => exact .inr (facts.iauth handed answered)

theorem checkRest_ends {w : World} {holds : State σ κ → Prop} (ends : Ends holds holds (do
      let s ← killCheck w s a
      let s ← scanFlags s a
      let s ← passwordCheck w s a
      let passed ← iauthCheck s a
      return finish w passed.1 a passed.2)) : holds (checkRest w s a) := by
  unfold checkRest
  dsimp only
  split
  · rename_i s' result
    rw [result] at ends
    exact ends
  · rename_i s' result
    rw [result] at ends
    exact ends

theorem checkRest_good (w : World) (good : Good s) (live : s.auth c = some a) :
    Good (checkRest w s a) := by
  apply checkRest_ends
  refine (killCheck_passing w good live).bind fun s passing => ?_
  refine (scanFlags_passing passing).bind fun s passing => ?_
  refine (passwordCheck_passing w passing).bind fun s passing => ?_
  refine (iauthCheck_passing passing).bind fun passed passing => ?_
  rw [passing.2]
  exact finish_good w passing.1

theorem Good.check (good : Good s) (w : World) (live : s.auth c = some a) (bit : Bit)
    (dns : bit = .dns → ∀ q ∈ s.queries, q.1 ≠ a) (facts : (s.client c).status ≠ .serverPort →
      Facts { s.request a with flags := (s.request a).flags.clear bit } (s.past c)) :
    Good (checkAuthFinished w s a bit) := by
  have updated := good.update live { s.request a with flags := (s.request a).flags.clear bit } (s.client c) (s.past c)
    s.queries (good.own c a live) rfl (good.status c a live) (List.Sublist.refl _) ?_ ?_ facts
  · simp only [Function.update_eq_self] at updated
    exact checkRest_good w updated live
  · intro cleared q mem same
    have pending := (good.queries q mem).2
    rw [same] at pending
    by_cases is_dns : bit = .dns
    · exact dns is_dns q mem same
    · cases bit with
      | dns => exact is_dns rfl
      | _ => exact absurd (pending.symm.trans cleared) nofun
  · intro port
    have before := good.webirc c a live port
    cases bit with
    | iauth => rfl
    | _ => exact before

def Bit.outside : Bit → Bool
  | .unused | .auth | .dns | .softDone => true
  | _ => false

omit [DecidableEq σ] [DecidableEq κ] in
theorem Facts.outside {r : Request σ κ} {p : Past} (facts : Facts r p) (bit : Bit) (outside : bit.outside = true) :
    Facts { r with flags := r.flags.clear bit } p := by
  cases bit with
  | unused => exact facts
  | auth => exact ⟨facts.nick, facts.user, facts.pong, facts.cap, facts.kill, facts.password, facts.iauth⟩
  | dns => exact ⟨facts.nick, facts.user, facts.pong, facts.cap, facts.kill, facts.password, facts.iauth⟩
  | softDone => exact facts
  | cap => cases outside
  | pong => cases outside
  | user => cases outside
  | nick => cases outside
  | iauth => cases outside

theorem Good.check_outside (good : Good s) (w : World) (live : s.auth c = some a) (bit : Bit)
    (outside : bit.outside = true) (dns : bit = .dns → ∀ q ∈ s.queries, q.1 ≠ a) :
    Good (checkAuthFinished w s a bit) :=
  good.check w live bit dns fun port => (good.facts c a live port).outside bit outside

omit [DecidableEq κ] in
theorem Good.request (good : Good s) (live : s.auth c = some a) (r : Request σ κ)
    (own : r.client = (s.request a).client) (next : r.next = (s.request a).next)
    (flags : r.flags = (s.request a).flags) (cookie : r.cookie = (s.request a).cookie) :
    Good (s.setRequest a r) := by
  classical
  have updated := good.update live r (s.client c) (s.past c) s.queries (own.trans (good.own c a live)) next
    (good.status c a live) (List.Sublist.refl _) ?_ (fun port => by rw [flags]; exact good.webirc c a live port) ?_
  · simp only [Function.update_eq_self] at updated
    exact updated
  · exact fun cleared => good.no_query (flags ▸ cleared)
  · intro port
    have facts := good.facts c a live port
    refine ⟨?_, ?_, ?_, ?_, ?_, ?_, ?_⟩
    · rw [flags, cookie]
      exact facts.nick
    · rw [flags]
      exact facts.user
    · rw [flags, cookie]
      exact facts.pong
    · rw [flags]
      exact facts.cap
    · rw [flags]
      exact facts.kill
    · rw [flags]
      exact facts.password
    · rw [flags]
      exact facts.iauth

end Ircd.Auth

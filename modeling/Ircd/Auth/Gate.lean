import Ircd.Auth.Sound

/-! No client is registered before its time: the runs of the authorization requests. -/

set_option autoImplicit false

namespace Ircd.Auth
open Ircd.Library Ircd.Net

variable {σ κ : Type} [DecidableEq σ] [DecidableEq κ]

/-! ### Replies and timers -/

variable {s : State σ κ} {c : κ} {a : σ}

theorem Good.unquery (good : Good s) (live : s.auth c = some a) (queries : List (σ × κ))
    (fewer : queries.Sublist s.queries) (others : ∀ q ∈ queries, q.1 ≠ a) :
    Good { s with queries := queries } := by
  have updated := good.update live (s.request a) (s.client c) (s.past c) queries (good.own c a live) rfl
    (good.status c a live) fewer (fun _ => others) (good.webirc c a live) (good.facts c a live)
  simp only [Function.update_eq_self] at updated
  exact updated

omit [DecidableEq σ] [DecidableEq κ] in
theorem Good.in_use (good : Good s) (there : (s.request a).socket = true ∨ (s.request a).timeout = true) :
    ∃ c, s.auth c = some a := by
  by_contra unowned
  have idle := good.idle a fun c live => unowned ⟨c, live⟩
  rw [idle.1, idle.2] at there
  simp at there

theorem Good.dnsReply (good : Good s) (w : World) (asked : (a, c) ∈ s.queries)
    (answer : Option (InAddr × List Char)) :
    Good (authDnsCallback w { s with queries := s.queries.erase (a, c) } a answer) := by
  obtain ⟨live, -⟩ := good.queries (a, c) asked
  have own := good.own c a live
  have others : ∀ q ∈ s.queries.erase (a, c), q.1 ≠ a := by
    intro q mem same
    have apart : s.queries.Pairwise fun q q' => q.1 ≠ q'.1 := List.pairwise_map.mp good.single
    obtain ⟨front, back, fresh, split, rest⟩ := List.exists_erase_eq asked
    rw [split] at apart
    rw [rest] at mem
    obtain ⟨-, tail, across⟩ := List.pairwise_append.mp apart
    rcases List.mem_append.mp mem with mem | mem
    · exact across q mem (a, c) List.mem_cons_self same
    · exact (List.pairwise_cons.mp tail).1 q mem same.symm
  have cleared : Good (({ s with queries := s.queries.erase (a, c) } : State σ κ).setFlags a
      { (s.request a).flags with dnsPending := false }) := by
    have updated := good.update live { s.request a with flags := { (s.request a).flags with dnsPending := false } }
      (s.client c) (s.past c) (s.queries.erase (a, c)) own rfl (good.status c a live) List.erase_sublist
      (fun _ => others) (good.webirc c a live) ?_
    · simp only [Function.update_eq_self] at updated
      exact updated
    · intro port
      exact (good.facts c a live port).outside .dns rfl
  have checked := cleared.check_outside w live .dns rfl fun _ => others
  have client : ((({ s with queries := s.queries.erase (a, c) } : State σ κ).setFlags a
      { (s.request a).flags with dnsPending := false }).request a).client = c := by
    simp only [State.setFlags, State.setRequest, Function.update_self]
    exact own
  unfold authDnsCallback
  dsimp only
  rw [client]
  cases answer with
  | none => exact checked
  | some found =>
    obtain ⟨addr, name⟩ := found
    dsimp only
    split
    · split
      · exact cleared.exit c
      · exact checked
    · split
      · exact checked
      · refine Good.check_outside ?_ w (by exact live) .dns rfl fun _ => others
        exact cleared.client live _ rfl

theorem Good.identReply (good : Good s) (w : World) (there : (s.request a).socket = true) (username : List Char) :
    Good (readAuthReply w s a username) := by
  obtain ⟨c, live⟩ := good.in_use (.inl there)
  obtain rfl := good.own c a live
  have closed := good.request live { s.request a with socket := false } rfl rfl rfl rfl
  unfold readAuthReply
  dsimp only
  split
  · refine Good.check_outside ?_ w (by exact live) .auth rfl nofun
    exact closed.client live _ rfl
  · exact closed.check_outside w live .auth rfl nofun

omit [DecidableEq κ] in
theorem deleteResolverQueries_others (s : State σ κ) (a : σ) : ∀ q ∈ (deleteResolverQueries s a).queries, q.1 ≠ a := by
  intro q mem
  simpa using (List.mem_filter.mp mem).2

theorem Good.authTimeout (good : Good s) (w : World) (there : (s.request a).timeout = true) :
    Good (authTimeoutCallback w s a) := by
  obtain ⟨c, live⟩ := good.in_use (.inr there)
  have past := good.request live { s.request a with timeout := false } rfl rfl rfl rfl
  unfold authTimeoutCallback
  dsimp only
  split
  · have unanswered := past.flags live { (s.request a).flags with authPending := false } (by
      simp [State.setRequest]) (by simp [State.setRequest]) fun port => by
        have facts := past.facts c a live port
        simp only [State.setRequest, Function.update_self] at facts ⊢
        exact facts.outside .auth rfl
    refine Good.check_outside ?_ w (by exact live) .dns rfl fun _ => deleteResolverQueries_others s a
    exact unanswered.unquery live _ List.filter_sublist (deleteResolverQueries_others s a)
  · split
    · exact past.check_outside w live .auth rfl (by rintro ⟨⟩)
    · exact past.check_outside w live .unused rfl (by rintro ⟨⟩)

theorem Good.pingTimeout (good : Good s) (w : World) (c : κ) : Good (authPingTimeout w s c) := by
  unfold authPingTimeout
  cases live : s.auth c with
  | none => exact good.exit c
  | some a =>
    dsimp only
    split
    · exact good.exit c
    · split
      · exact good
      · split
        · exact good.exit c
        · have excused : Good (s.setPast c { s.past c with excused := true }) := by
            refine good.record live _ fun port => ?_
            have facts := good.facts c a live port
            exact ⟨facts.nick, facts.user, facts.pong, facts.cap, facts.kill, facts.password, fun _ _ => .inr rfl⟩
          refine excused.check w live .iauth nofun fun port => ?_
          have facts := excused.facts c a live port
          refine ⟨facts.nick, facts.user, facts.pong, facts.cap, facts.kill, facts.password, fun _ _ => .inr ?_⟩
          simp [State.setPast]

/-! ### Commands -/

theorem Good.ask (good : Good s) (live : s.auth c = some a) (told : (s.past c).nick = true) (cookie : Nat) :
    Good (s.setRequest a
      { s.request a with cookie := cookie + 1, flags := { (s.request a).flags with needsPong := true } }) := by
  have updated := good.update live
    { s.request a with cookie := cookie + 1, flags := { (s.request a).flags with needsPong := true } } (s.client c)
    (s.past c) s.queries (good.own c a live) rfl (good.status c a live) (List.Sublist.refl _) ?_ (good.webirc c a live)
    fun port => ?_
  · simp only [Function.update_eq_self] at updated
    exact updated
  · exact good.no_query
  · have facts := good.facts c a live port
    exact ⟨fun _ => ⟨told, Nat.succ_ne_zero _⟩, facts.user, fun _ => nofun, facts.cap, facts.kill, facts.password,
      facts.iauth⟩

theorem Good.nick (good : Good s) (w : World) (live : s.auth c = some a) (cookie : Nat) :
    Good (authSetNick w s c a cookie) := by
  have named : Good (s.setPast c { s.past c with nick := true }) := by
    refine good.record live _ fun port => ?_
    have facts := good.facts c a live port
    exact ⟨fun cleared => ⟨rfl, (facts.nick cleared).2⟩, facts.user, facts.pong, facts.cap, facts.kill, facts.password,
      facts.iauth⟩
  have told : ((s.setPast c { s.past c with nick := true }).past c).nick = true := by simp [State.setPast]
  have live : (s.setPast c { s.past c with nick := true }).auth c = some a := live
  unfold authSetNick
  generalize s.setPast c { s.past c with nick := true } = s' at named told live
  dsimp only
  split
  · have asked := named.ask live told cookie
    refine asked.check w live .nick (by rintro ⟨⟩) fun port => ?_
    have facts := asked.facts c a live port
    refine ⟨fun _ => ⟨told, ?_⟩, facts.user, fun _ answered => ?_, facts.cap, facts.kill, facts.password, facts.iauth⟩
    · simp [State.setRequest]
    · simp [State.setRequest, Flags.clear] at answered
  · rename_i asked
    refine named.check w live .nick (by rintro ⟨⟩) fun port => ?_
    have facts := named.facts c a live port
    exact ⟨fun _ => ⟨told, asked⟩, facts.user, facts.pong, facts.cap, facts.kill, facts.password, facts.iauth⟩

theorem Good.user (good : Good s) (w : World) (live : s.auth c = some a) (username info : List Char) :
    Good (authSetUser w s c a username info) := by
  have told : Good (s.setPast c { s.past c with user := true }) := by
    refine good.record live _ fun port => ?_
    have facts := good.facts c a live port
    exact ⟨facts.nick, fun _ => rfl, facts.pong, facts.cap, facts.kill, facts.password, facts.iauth⟩
  have sent : ((s.setPast c { s.past c with user := true }).past c).user = true := by simp [State.setPast]
  have live : (s.setPast c { s.past c with user := true }).auth c = some a := live
  unfold authSetUser
  dsimp only
  generalize s.setPast c { s.past c with user := true } = s' at told sent live
  rw [told.own c a live]
  split
  · exact told
  · have claimed : Good (s'.setPast c { s'.past c with claimed := cleanUsername username, renamed := false }) := by
      refine told.record live _ fun port => ?_
      have facts := told.facts c a live port
      exact ⟨facts.nick, facts.user, facts.pong, facts.cap, facts.kill, facts.password, facts.iauth⟩
    have named := claimed.client live { s'.client c with
      info := info.take realLen
      userUsername := cleanUsername username
      host := (s'.client c).sockhost.take hostLen } rfl
    refine named.check w live .user (by rintro ⟨⟩) fun port => ?_
    have facts := named.facts c a live port
    refine ⟨facts.nick, fun _ => ?_, facts.pong, facts.cap, facts.kill, facts.password, facts.iauth⟩
    simpa [State.setPast, State.setClient] using sent

theorem Good.pong (good : Good s) (w : World) (live : s.auth c = some a) (cookie : Nat) :
    Good (authSetPong w s c a cookie) := by
  unfold authSetPong
  dsimp only
  split
  · exact good
  · have told : Good (s.setPast c { s.past c with pong := true }) := by
      refine good.record live _ fun port => ?_
      have facts := good.facts c a live port
      exact ⟨facts.nick, facts.user, fun _ _ => rfl, facts.cap, facts.kill, facts.password, facts.iauth⟩
    refine told.check w live .pong nofun fun port => ?_
    have facts := told.facts c a live port
    refine ⟨facts.nick, facts.user, fun _ _ => ?_, facts.cap, facts.kill, facts.password, facts.iauth⟩
    simp [State.setPast]

theorem Good.capStart (good : Good s) (live : s.auth c = some a) :
    Good (authCapStart s c a) := by
  have updated := good.update live { s.request a with flags := { (s.request a).flags with capPending := true } }
    (s.client c) { s.past c with cap := true } s.queries (good.own c a live) rfl (good.status c a live)
    (List.Sublist.refl _) ?_ (good.webirc c a live) fun port => ?_
  · simp only [Function.update_eq_self] at updated
    exact updated
  · exact good.no_query
  · have facts := good.facts c a live port
    exact ⟨facts.nick, facts.user, facts.pong, fun _ => rfl, facts.kill, facts.password, facts.iauth⟩

theorem Good.capEnd (good : Good s) (w : World) (live : s.auth c = some a) :
    Good (authCapDone w s c a) := by
  have ended : Good (s.setPast c { s.past c with cap := false }) := by
    refine good.record live _ fun port => ?_
    have facts := good.facts c a live port
    exact ⟨facts.nick, facts.user, facts.pong, nofun, facts.kill, facts.password, facts.iauth⟩
  refine ended.check w live .cap nofun fun port => ?_
  have facts := ended.facts c a live port
  refine ⟨facts.nick, facts.user, facts.pong, ?_, facts.kill, facts.password, facts.iauth⟩
  simp [State.setPast]

theorem Good.startIauth (good : Good s) (live : s.auth c = some a) (port : (s.client c).status = .userPort)
    (pending : (s.request a).flags.iauthPending = false) :
    Good (startIauthQuery s c a) := by
  have before := good.facts c a live (by rw [port]; nofun)
  have updated := good.update live
    { s.request a with flags := { (s.request a).flags with iauthPending := s.iauthConnected } } (s.client c)
    { s.past c with handed := (s.past c).handed || s.iauthConnected } s.queries (good.own c a live) rfl
    (good.status c a live) (List.Sublist.refl _) ?_ (fun webirc => absurd (port.symm.trans webirc) nofun) fun _ => ?_
  · simp only [Function.update_eq_self] at updated
    exact updated
  · exact good.no_query
  · refine ⟨before.nick, before.user, before.pong, before.cap, before.kill, before.password, fun handed unsent => ?_⟩
    have unsent : s.iauthConnected = false := unsent
    dsimp only at handed
    rw [unsent, Bool.or_false] at handed
    exact before.iauth handed pending

theorem Good.webirc_in (good : Good s) (w : World) (live : s.auth c = some a)
    (port : (s.client c).status = .webircPort) (authorized admitted : Bool) (hostname : List Char)
    (ip : Option InAddr) :
    Good (Auth.webirc w s c a authorized admitted hostname ip) := by
  unfold Auth.webirc
  cases ip with
  | none => exact good.exit c
  | some ip =>
    dsimp only
    split
    · exact good.exit c
    · have pending := good.webirc c a live port
      generalize shape : ({ s.client c with
        status := .userPort
        wline := true
        ip := ip
        sockhost := hostname.take hostLen
        doId := true } : Client) = x
      have status : x.status = .userPort := by rw [← shape]
      have admitted : Good (s.setClient c x) := by
        have updated := good.update live (s.request a) x (s.past c) s.queries (good.own c a live) rfl
          (by rw [status]; rfl) (List.Sublist.refl _) ?_ (fun _ => pending) fun _ => ?_
        · simp only [Function.update_eq_self] at updated
          exact updated
        · exact good.no_query
        · exact good.facts c a live (by rw [port]; rintro ⟨⟩)
      have asked := admitted.startIauth live (by simp [State.setClient, status]) pending
      exact asked.check_outside w live .unused rfl (by rintro ⟨⟩)

/-! ### Iauth -/

theorem Good.done (good : Good s) (w : World) (live : s.auth c = some a) (attach : Attach) :
    Good (doneClient w s c a attach) := by
  have answered : Good (s.setPast c { s.past c with answered := true }) := by
    refine good.record live _ fun port => ?_
    have facts := good.facts c a live port
    exact ⟨facts.nick, facts.user, facts.pong, facts.cap, facts.kill, facts.password, fun _ _ => .inl rfl⟩
  have told : ((s.setPast c { s.past c with answered := true }).past c).answered = true := by simp [State.setPast]
  unfold doneClient
  dsimp only
  cases attach with
  | unchanged =>
    refine answered.check w live .iauth (by rintro ⟨⟩) fun port => ?_
    have facts := answered.facts c a live port
    exact ⟨facts.nick, facts.user, facts.pong, facts.cap, facts.kill, facts.password, fun _ _ => .inl told⟩
  | attached =>
    have attached := answered.client live { s.client c with conf := some [] } rfl
    refine Good.check attached w live .iauth (by rintro ⟨⟩) fun port => ?_
    have facts := attached.facts c a live port
    exact ⟨facts.nick, facts.user, facts.pong, facts.cap, facts.kill, facts.password, fun _ _ => .inl told⟩
  | full => exact answered.exit c

theorem Good.iauthFlags (good : Good s) (live : s.auth c = some a) (username forced soft : Bool) :
    Good (s.setFlags a { (s.request a).flags with
      iauthUsername := username
      iauthFUsername := forced
      iauthSoftDone := soft }) := by
  refine good.flags live _ rfl rfl fun port => ?_
  have facts := good.facts c a live port
  exact ⟨facts.nick, facts.user, facts.pong, facts.cap, facts.kill, facts.password, facts.iauth⟩

theorem Good.iauth (good : Good s) (w : World) (live : s.auth c = some a) (message : Message)
    (settled : ∀ ip, message = .ipAddress (some ip) → (s.request a).flags.dnsPending = false) :
    Good (iauthCommand w s c a message) := by
  unfold iauthCommand
  cases message with
  | usernameForced name =>
    dsimp only
    split
    · exact good.check_outside w live .auth rfl nofun
    · have named := good.client live { s.client c with username := name.take userLen, gotId := true } rfl
      exact (named.iauthFlags live true true _).check_outside w live .auth rfl nofun
  | usernameGood name =>
    dsimp only
    split
    · exact good.check_outside w live .auth rfl nofun
    · have named := good.client live { s.client c with username := name.take userLen, gotId := true } rfl
      exact (named.iauthFlags live true _ _).check_outside w live .auth rfl nofun
  | usernameBad name =>
    dsimp only
    split
    · exact good.check_outside w live .auth rfl nofun
    · have renamed : Good (s.setPast c { s.past c with renamed := true }) := by
        refine good.record live _ fun port => ?_
        have facts := good.facts c a live port
        exact ⟨facts.nick, facts.user, facts.pong, facts.cap, facts.kill, facts.password, facts.iauth⟩
      have named := renamed.client live { s.client c with userUsername := name.take userLen } rfl
      exact named.check_outside w live .auth rfl nofun
  | hostname name =>
    dsimp only
    split
    · exact good
    · split
      · have unasked : Good (deleteResolverQueries s a) :=
          good.unquery live _ List.filter_sublist (deleteResolverQueries_others s a)
        refine Good.check_outside ?_ w (by exact live) .dns rfl fun _ => deleteResolverQueries_others s a
        refine unasked.client live _ ?_
        split <;> rfl
      · rename_i settled
        refine Good.check_outside ?_ w (by exact live) .dns rfl fun _ => ?_
        · refine good.client live _ ?_
          split <;> rfl
        · exact good.no_query (Bool.not_eq_true _ ▸ settled)
  | ipAddress ip =>
    cases ip with
    | none => exact good
    | some ip =>
      have kept := good.request live
        { s.request a with
          original := if (s.request a).original.valid then (s.request a).original else (s.client c).ip } rfl rfl rfl rfl
      have moved := kept.client live { s.client c with ip := ip } rfl
      exact Good.check_outside moved w live .dns rfl fun _ => good.no_query (settled ip rfl)
  | softDone => exact (good.iauthFlags live _ _ true).check_outside w live .softDone rfl nofun
  | doneClient attach => exact good.done w live attach
  | doneAccount account attach =>
    dsimp only
    split
    · exact good.done w live attach
    · exact good

theorem Good.kill (good : Good s) (c : κ) : Good (iauthKill s c) := by
  unfold iauthKill
  cases live : s.auth c with
  | none => exact good.exit c
  | some a => exact good.exit_unfit live rfl

/-! ### A new request -/

def Port.flags : Port → Flags
  | .server => .none
  | _ => { Flags.none with needsUser := true, needsNick := true }

def newRequest (s : State σ κ) (c : κ) (a : σ) (x : Client) (f : Flags) : State σ κ :=
  { s with
    client := Function.update s.client c x
    request := Function.update s.request a ⟨none, c, f, 0, noAddress, false, true⟩
    allocated := Function.update s.allocated a true
    freelist := s.freelist.bind fun a => (s.request a).next
    auth := Function.update s.auth c (some a) }

omit [DecidableEq σ] [DecidableEq κ] in
theorem Good.fresh_cell (good : Good s) {fresh : σ} (unallocated : s.allocated fresh = false) (c : κ) :
    s.auth c ≠ some (s.freelist.getD fresh) := by
  obtain ⟨l, chain, -, unused⟩ := good.free
  cases head : s.freelist with
  | none =>
    intro live
    have allocated := good.allocated c fresh live
    rw [unallocated] at allocated
    cases allocated
  | some a =>
    rw [head] at chain
    obtain ⟨rest, rfl, -⟩ := chain.exists_cons
    exact (unused a List.mem_cons_self).2 c

theorem Good.opened (good : Good s) (unborn : (s.client c).status = .unborn) {fresh : σ}
    (unallocated : s.allocated fresh = false) (port : Port) {x : Client} (status : x.status = port.status) :
    Good (newRequest s c (s.freelist.getD fresh) x port.flags) := by
  have unowned := good.fresh_cell unallocated
  obtain ⟨never, blank, uncalled⟩ := good.unborn c unborn
  have new : ∀ {c' a'}, Function.update s.auth c (some (s.freelist.getD fresh)) c' = some a' → c' ≠ c →
      s.auth c' = some a' ∧ a' ≠ s.freelist.getD fresh := by
    intro c' a' live differs
    rw [Function.update_of_ne differs] at live
    refine ⟨live, ?_⟩
    rintro rfl
    exact unowned c' live
  refine ⟨?_, ?_, ?_, ?_, ?_, ?_, good.single, ?_, ?_, ?_, good.gates, good.once, ?_⟩
  · intro c' a' live
    by_cases same : c' = c
    · subst same
      simp only [newRequest, Function.update_self, Option.some.injEq] at live
      subst live
      simp only [newRequest, Function.update_self]
    · obtain ⟨before, other⟩ := new live same
      simp only [newRequest, Function.update_of_ne other]
      exact good.own c' a' before
  · intro c' a' live
    by_cases same : c' = c
    · simp only [same, newRequest, Function.update_self, status]
      cases port <;> rfl
    · simp only [newRequest, Function.update_of_ne same]
      exact good.status c' a' (new live same).1
  · intro c' a' live
    by_cases same : c' = c
    · subst same
      simp only [newRequest, Function.update_self, Option.some.injEq] at live
      subst live
      simp only [newRequest, Function.update_self]
    · obtain ⟨before, other⟩ := new live same
      simp only [newRequest, Function.update_of_ne other]
      exact good.allocated c' a' before
  · obtain ⟨l, chain, distinct, unused⟩ := good.free
    have rest : ∃ rest : List σ, Chain (fun a => (s.request a).next) (s.freelist.bind fun a => (s.request a).next) rest ∧
        rest.Nodup ∧ s.freelist.getD fresh ∉ rest ∧ ∀ a ∈ rest, a ∈ l := by
      cases head : s.freelist with
      | none => exact ⟨[], rfl, List.nodup_nil, nofun, fun _ => nofun⟩
      | some a =>
        rw [head] at chain
        obtain ⟨rest, rfl, tail⟩ := chain.exists_cons
        obtain ⟨absent, nodup⟩ := List.nodup_cons.mp distinct
        exact ⟨rest, tail, nodup, absent, fun b mem => List.mem_cons_of_mem a mem⟩
    obtain ⟨rest, tail, nodup, absent, old⟩ := rest
    have other : ∀ a ∈ rest, a ≠ s.freelist.getD fresh := fun a mem same => absent (same ▸ mem)
    refine ⟨rest, tail.congr fun a mem => ?_, nodup, fun a mem => ⟨?_, fun c' live => ?_⟩⟩
    · simp only [newRequest, Function.update_of_ne (other a mem)]
    · simp only [newRequest, Function.update_of_ne (other a mem)]
      exact (unused a (old a mem)).1
    · by_cases same : c' = c
      · subst same
        simp only [newRequest, Function.update_self, Option.some.injEq] at live
        exact other a mem live.symm
      · exact (unused a (old a mem)).2 c' (new live same).1
  · intro b free
    have other : b ≠ s.freelist.getD fresh := by
      rintro rfl
      exact free c (Function.update_self ..)
    simp only [newRequest, Function.update_of_ne other]
    refine good.idle b fun c' live => free c' ?_
    have differs : c' ≠ c := by
      rintro rfl
      rw [never] at live
      cases live
    exact (Function.update_of_ne differs _ _).trans live
  · intro q mem
    obtain ⟨live, pending⟩ := good.queries q mem
    have differs : q.2 ≠ c := by
      intro same
      rw [same, never] at live
      cases live
    have other : q.1 ≠ s.freelist.getD fresh := by
      intro same
      exact unowned q.2 (same ▸ live)
    simp only [newRequest, Function.update_of_ne differs, Function.update_of_ne other]
    exact ⟨live, pending⟩
  · intro c' a' live served
    by_cases same : c' = c
    · subst same
      simp only [newRequest, Function.update_self, Option.some.injEq] at live
      subst live
      simp only [newRequest, Function.update_self, status] at served ⊢
      rw [blank]
      cases port with
      | server => exact absurd rfl served
      | user => exact ⟨nofun, nofun, fun set => absurd rfl set, nofun, nofun, nofun, nofun⟩
      | webirc => exact ⟨nofun, nofun, fun set => absurd rfl set, nofun, nofun, nofun, nofun⟩
    · obtain ⟨before, other⟩ := new live same
      simp only [newRequest, Function.update_of_ne same] at served
      simp only [newRequest, Function.update_of_ne other]
      exact good.facts c' a' before served
  · intro c' a' live webirc
    by_cases same : c' = c
    · subst same
      simp only [newRequest, Function.update_self, Option.some.injEq] at live
      subst live
      simp only [newRequest, Function.update_self]
      cases port <;> rfl
    · obtain ⟨before, other⟩ := new live same
      simp only [newRequest, Function.update_of_ne same] at webirc
      simp only [newRequest, Function.update_of_ne other]
      exact good.webirc c' a' before webirc
  · intro c' born
    have differs : c' ≠ c := by
      rintro rfl
      simp only [newRequest, Function.update_self, status] at born
      cases port <;> cases born
    simp only [newRequest, Function.update_of_ne differs] at born ⊢
    exact good.unborn c' born
  · intro call mem
    have differs : call.client ≠ c := uncalled call mem
    simp only [newRequest, Function.update_of_ne differs]
    exact good.closed call mem

theorem checkRest_waits (w : World) (own : (s.request a).client = c) (waits : (s.client c).status = .userPort ∧ (s.request a).flags.glineChecked = false ∧
        (s.request a).flags.needsUser = true ∨
      (s.client c).status ≠ .userPort ∧ (s.request a).flags.scan = true) : checkRest w s a = s := by
  rcases waits with ⟨port, unchecked, user⟩ | ⟨port, scan⟩
  · have stops : killCheck w s a = .error s := by
      simp [killCheck, own, port, unchecked, user]
    simp only [checkRest, stops, bind, Except.bind]
  · have goes : killCheck w s a = .ok s := by
      simp [killCheck, own, port]
    have stops : scanFlags s a = .error s := if_pos scan
    simp only [checkRest, goes, stops, bind, Except.bind]

theorem Good.startDns (good : Good s) (w : World) (live : s.auth c = some a)
    (unasked : (s.request a).flags.dnsPending = false) : Good (startDnsQuery w s c a) := by
  unfold startDnsQuery
  split
  · exact good
  · split
    · exact good.client live _ rfl
    · have others : ∀ q ∈ s.queries, q.1 ≠ a := good.no_query unasked
      have asked : Good (s.setFlags a { (s.request a).flags with dnsPending := true }) := by
        have updated := good.update live
          { s.request a with flags := { (s.request a).flags with dnsPending := true } } (s.client c) (s.past c) s.queries
          (good.own c a live) rfl (good.status c a live) (List.Sublist.refl _) nofun (good.webirc c a live) fun port => ?_
        · simp only [Function.update_eq_self] at updated
          exact updated
        · have facts := good.facts c a live port
          exact ⟨facts.nick, facts.user, facts.pong, facts.cap, facts.kill, facts.password, facts.iauth⟩
      refine ⟨asked.own, asked.status, asked.allocated,
        asked.free.imp fun l free => ⟨free.chain, free.distinct, free.unused⟩, asked.idle, ?_, ?_, asked.facts,
        asked.webirc, asked.unborn, asked.gates, asked.once, asked.closed⟩
      · intro q mem
        rcases List.mem_cons.mp mem with rfl | mem
        · exact ⟨live, by simp [State.setFlags, State.setRequest]⟩
        · exact asked.queries q mem
      · refine List.nodup_cons.mpr ⟨?_, good.single⟩
        intro mem
        obtain ⟨q, there, same⟩ := List.mem_map.mp mem
        exact others q there same

theorem startDnsQuery_keeps (w : World) (s : State σ κ) (c : κ) (a : σ) :
    (startDnsQuery w s c a).auth = s.auth ∧ ((startDnsQuery w s c a).client c).status = (s.client c).status ∧
      ((startDnsQuery w s c a).request a).client = (s.request a).client ∧
      ∃ pending, ((startDnsQuery w s c a).request a).flags = { (s.request a).flags with dnsPending := pending } ∧
        (w.noDns = false → w.loopback (s.client c).ip = false → pending = true) := by
  unfold startDnsQuery
  split
  · rename_i off
    exact ⟨rfl, rfl, rfl, (s.request a).flags.dnsPending, rfl, fun on => absurd (off.symm.trans on) nofun⟩
  · split
    · rename_i local_ip
      exact ⟨rfl, by simp [State.setClient], rfl, (s.request a).flags.dnsPending, rfl,
        fun _ remote => absurd (local_ip.symm.trans remote) nofun⟩
    · exact ⟨rfl, rfl, by simp [State.setFlags, State.setRequest], true, by simp [State.setFlags, State.setRequest],
        fun _ _ => rfl⟩

theorem startAuthQuery_waits (w : World) (own : (s.request a).client = c) (ident : Ident) (waits : ident = .unsent →
      (s.client c).status = .userPort ∧ (s.request a).flags.glineChecked = false ∧
          (s.request a).flags.needsUser = true ∨
        (s.client c).status ≠ .userPort ∧ (s.request a).flags.dnsPending = true) :
    ∃ socket pending, startAuthQuery w s a ident = s.setRequest a { s.request a with
      socket := socket
      flags := { (s.request a).flags with authPending := pending } } := by
  unfold startAuthQuery
  cases ident with
  | failed => exact ⟨(s.request a).socket, (s.request a).flags.authPending, by simp [State.setRequest]⟩
  | waiting => exact ⟨true, true, rfl⟩
  | unsent =>
    refine ⟨(s.request a).socket, false, ?_⟩
    refine checkRest_waits w (c := c) ?_ ?_
    · simp only [State.setFlags, State.setRequest, Function.update_self]
      exact own
    · simp only [State.setFlags, State.setRequest, Function.update_self, Flags.clear, Flags.scan]
      rcases waits rfl with ⟨port, unchecked, user⟩ | ⟨port, dns⟩
      · exact .inl ⟨port, unchecked, user⟩
      · exact .inr ⟨port, by simp [dns]⟩

theorem Good.ident (good : Good s) (live : s.auth c = some a) (socket pending : Bool) :
    Good (s.setRequest a { s.request a with
      socket := socket
      flags := { (s.request a).flags with authPending := pending } }) := by
  have updated := good.update live
    { s.request a with socket := socket, flags := { (s.request a).flags with authPending := pending } } (s.client c)
    (s.past c) s.queries (good.own c a live) rfl (good.status c a live) (List.Sublist.refl _) ?_ (good.webirc c a live)
    fun port => ?_
  · simp only [Function.update_eq_self] at updated
    exact updated
  · exact good.no_query
  · have facts := good.facts c a live port
    exact ⟨facts.nick, facts.user, facts.pong, facts.cap, facts.kill, facts.password, facts.iauth⟩

/-- The query of the ident server cannot be sent for a server when nothing else is awaited: the
request is finished, and `start_auth` finishes it again. -/
def finishedEarly (w : World) (port : Port) (ip : InAddr) (ident : Ident) : Bool :=
  port = .server && ident = .unsent && (w.noDns || w.loopback ip)

/-- What has been started for a client of each kind when `start_auth` comes to its check. -/
def startedAuth (w : World) (s : State σ κ) (c : κ) (a : σ) (port : Port) (ident : Ident) : State σ κ :=
  match port with
  | .server => startAuthQuery w (startDnsQuery w s c a) a ident
  | .user => startAuthQuery w (startDnsQuery w (startIauthQuery s c a) c a) a ident
  | .webirc => s

theorem startAuth_started (w : World) (s : State σ κ) (c : κ) (fresh : σ) (port : Port) (ip : InAddr) (text : List Char)
    (ident : Ident) :
    let a := s.freelist.getD fresh
    startAuth w s c fresh port ip text true ident = checkAuthFinished w (startedAuth w (newRequest s c a
      { Client.unborn with status := port.status, ip := ip, sockhost := text } port.flags) c a port ident) a .unused := by
  intro a
  let x : Client := { Client.unborn with status := port.status, ip := ip, sockhost := text }
  have flagged : (newRequest s c a x .none).setFlags a { Flags.none with needsUser := true, needsNick := true } =
      newRequest s c a x { Flags.none with needsUser := true, needsNick := true } := by
    simp [newRequest, State.setFlags, State.setRequest]
  have first : ((newRequest s c a x .none).request a).flags = .none := by simp [newRequest]
  cases port with
  | server => rfl
  | user =>
    change checkAuthFinished w (startAuthQuery w (startDnsQuery w (startIauthQuery
      ((newRequest s c a x .none).setFlags a { ((newRequest s c a x .none).request a).flags with
        needsUser := true
        needsNick := true }) c a) c a) a ident) a .unused = _
    rw [first, flagged]
    rfl
  | webirc =>
    change checkAuthFinished w ((newRequest s c a x .none).setFlags a
      { ((newRequest s c a x .none).request a).flags with needsUser := true, needsNick := true }) a .unused = _
    rw [first, flagged]
    rfl

theorem startAuth_unreadable (w : World) (s : State σ κ) (c : κ) (fresh : σ) (port : Port) (ip : InAddr)
    (text : List Char) (ident : Ident) :
    let a := s.freelist.getD fresh
    startAuth w s c fresh port ip text false ident = exitClient ((newRequest s c a
      { Client.unborn with status := port.status, ip := ip, sockhost := text } port.flags).setFlags a .none) c := by
  intro a
  have blank : ∀ x f, newRequest s c a x .none = (newRequest s c a x f).setFlags a .none := by
    intro x f
    simp [newRequest, State.setFlags, State.setRequest]
  rw [← blank]
  rfl

/-- The request of a new client has more to wait for when the ident server is asked, if it is not
`finishedEarly`. -/
theorem startIdent_waits (w : World) {port : Port} {ip : InAddr} {ident : Ident}
    (late : finishedEarly w port ip ident = false) (status : (s.client c).status = port.status)
    (address : (s.client c).ip = ip) (unchecked : (s.request a).flags.glineChecked = false)
    (user : port = .user → (s.request a).flags.needsUser = true) (webirc : port ≠ .webirc) :
    ident = .unsent →
      ((startDnsQuery w s c a).client c).status = .userPort ∧
          ((startDnsQuery w s c a).request a).flags.glineChecked = false ∧
          ((startDnsQuery w s c a).request a).flags.needsUser = true ∨
        ((startDnsQuery w s c a).client c).status ≠ .userPort ∧
          ((startDnsQuery w s c a).request a).flags.dnsPending = true := by
  intro unsent
  obtain ⟨-, kept, -, pending, flags, started⟩ := startDnsQuery_keeps w s c a
  rw [kept, flags, status]
  cases port with
  | user => exact .inl ⟨rfl, unchecked, user rfl⟩
  | server =>
    refine .inr ⟨nofun, ?_⟩
    simp only [finishedEarly, unsent, decide_true, Bool.true_and, Bool.or_eq_false_iff] at late
    exact started late.1 (by rw [address]; exact late.2)
  | webirc => exact absurd rfl webirc

/-- A server that connects: the resolver is asked, and then the ident server changes its request only. -/
theorem startedAuth_server (w : World) (s : State σ κ) (c : κ) (a : σ) {ip : InAddr} (text : List Char) {ident : Ident}
    (late : finishedEarly w .server ip ident = false) :
    let x : Client := { Client.unborn with status := Port.server.status, ip := ip, sockhost := text }
    let t := startDnsQuery w (newRequest s c a x Port.server.flags) c a
    t.auth c = some a ∧ ∃ socket pending, startedAuth w (newRequest s c a x Port.server.flags) c a .server ident =
      t.setRequest a { t.request a with socket := socket, flags := { (t.request a).flags with authPending := pending } } := by
  intro x t
  have cell : (newRequest s c a x Port.server.flags).request a =
      ⟨none, c, Port.server.flags, 0, noAddress, false, true⟩ := Function.update_self ..
  have person : (newRequest s c a x Port.server.flags).client c = x := Function.update_self ..
  obtain ⟨auth, -, own, -⟩ := startDnsQuery_keeps w (newRequest s c a x Port.server.flags) c a
  refine ⟨(congrFun auth c).trans (Function.update_self ..), ?_⟩
  exact startAuthQuery_waits w (own.trans (by rw [cell])) ident
    (startIdent_waits w late (by rw [person]) (by rw [person]) (by rw [cell]; rfl) (by rintro ⟨⟩) (by rintro ⟨⟩))

theorem startedAuth_user (w : World) (s : State σ κ) (c : κ) (a : σ) {ip : InAddr} (text : List Char) {ident : Ident}
    (late : finishedEarly w .user ip ident = false) :
    let x : Client := { Client.unborn with status := Port.user.status, ip := ip, sockhost := text }
    let t := startDnsQuery w (startIauthQuery (newRequest s c a x Port.user.flags) c a) c a
    t.auth c = some a ∧ ∃ socket pending, startedAuth w (newRequest s c a x Port.user.flags) c a .user ident =
      t.setRequest a { t.request a with socket := socket, flags := { (t.request a).flags with authPending := pending } } := by
  intro x t
  let told := startIauthQuery (newRequest s c a x Port.user.flags) c a
  have cell : (newRequest s c a x Port.user.flags).request a =
      ⟨none, c, Port.user.flags, 0, noAddress, false, true⟩ := Function.update_self ..
  have person : told.client c = x := Function.update_self ..
  have asked : told.request a =
      ⟨none, c, { Port.user.flags with iauthPending := s.iauthConnected }, 0, noAddress, false, true⟩ := by
    simp only [told, startIauthQuery, State.setPast, State.setFlags, State.setRequest, Function.update_self]
    rw [cell]
    rfl
  obtain ⟨auth, -, own, -⟩ := startDnsQuery_keeps w told c a
  refine ⟨(congrFun auth c).trans (Function.update_self ..), ?_⟩
  exact startAuthQuery_waits w (own.trans (by rw [asked])) ident
    (startIdent_waits w late (by rw [person]) (by rw [person]) (by rw [asked]; rfl) (fun _ => by rw [asked]; rfl)
      (by rintro ⟨⟩))

theorem Good.start (good : Good s) (w : World) (unborn : (s.client c).status = .unborn) {fresh : σ}
    (unallocated : s.allocated fresh = false) (port : Port) (ip : InAddr) (text : List Char) (readable : Bool)
    (ident : Ident) (late : finishedEarly w port ip ident = false) :
    Good (startAuth w s c fresh port ip text readable ident) := by
  let a := s.freelist.getD fresh
  let x : Client := { Client.unborn with status := port.status, ip := ip, sockhost := text }
  have base : Good (newRequest s c a x port.flags) := good.opened unborn unallocated port rfl
  have live : (newRequest s c a x port.flags).auth c = some a := Function.update_self ..
  have cell : (newRequest s c a x port.flags).request a = ⟨none, c, port.flags, 0, noAddress, false, true⟩ :=
    Function.update_self ..
  have person : (newRequest s c a x port.flags).client c = x := Function.update_self ..
  cases readable with
  | false =>
    rw [startAuth_unreadable]
    refine base.exit_unfit live ?_
    rw [cell]
    cases port <;> rfl
  | true =>
    rw [startAuth_started]
    cases port with
    | webirc => exact base.check_outside w live .unused rfl (by rintro ⟨⟩)
    | server =>
      have asked := base.startDns w live (by rw [cell]; rfl)
      obtain ⟨live', socket, pending, value⟩ := startedAuth_server w s c a text late
      rw [value]
      exact (asked.ident live' socket pending).check_outside w live' .unused rfl (by rintro ⟨⟩)
    | user =>
      have handed := base.startIauth live (by rw [person]; rfl) (by rw [cell]; rfl)
      have flags : ((startIauthQuery (newRequest s c a x Port.user.flags) c a).request a).flags =
          { Port.user.flags with iauthPending := s.iauthConnected } := by
        simp only [startIauthQuery, State.setFlags, State.setRequest, Function.update_self]
        rw [cell]
        rfl
      have asked := handed.startDns w live (by rw [flags]; rfl)
      obtain ⟨live', socket, pending, value⟩ := startedAuth_user w s c a text late
      rw [value]
      exact (asked.ident live' socket pending).check_outside w live' .unused rfl (by rintro ⟨⟩)

/-! ### All runs -/

/-- No address of iauth comes in for a client whose name is being looked up, and no request is
finished while it is started. -/
def Minded (w : World) (s : State σ κ) : Event σ κ → Prop
  | .iauth c (.ipAddress (some _)) =>
    match s.auth c with
    | some a => (s.request a).flags.iauthPending = true → (s.request a).flags.dnsPending = false
    | none => True
  | .start _ _ port ip _ _ ident => finishedEarly w port ip ident = false
  | _ => True

instance (w : World) (s : State σ κ) (event : Event σ κ) : Decidable (Minded w s event) :=
  match event with
  | .iauth c (.ipAddress (some _)) =>
    match live : s.auth c with
    | some a =>
      decidable_of_iff ((s.request a).flags.iauthPending = true → (s.request a).flags.dnsPending = false)
        (by simp only [Minded, live])
    | none => isTrue (by simp only [Minded, live])
  | .start _ _ port ip _ _ ident => inferInstanceAs (Decidable (finishedEarly w port ip ident = false))
  | .iauth _ (.ipAddress none) | .iauth _ (.usernameForced _) | .iauth _ (.usernameGood _) | .iauth _ (.usernameBad _)
  | .iauth _ (.hostname _) | .iauth _ .softDone | .iauth _ (.doneClient _) | .iauth _ (.doneAccount _ _)
  | .dnsReply _ _ _ | .identReply _ _ | .authTimeout _ | .pingTimeout _ | .nick _ _ | .user _ _ _ | .pong _ _
  | .pass _ _ | .capStart _ | .capEnd _ | .webirc _ _ _ _ _ | .iauthKill _ | .iauthSession _ _ | .exit _ => isTrue trivial

theorem Good.command (good : Good s) {act : σ → State σ κ} (acts : ∀ a, s.auth c = some a → Good (act a)) :
    Good (s.command c act) :=
  State.command_keeps good (good.exit c) acts

omit [DecidableEq σ] [DecidableEq κ] in
theorem Good.anyPort (good : Good s) {act : σ → State σ κ} (acts : ∀ a, s.auth c = some a → Good (act a)) :
    Good (s.anyPort c act) :=
  State.anyPort_keeps good acts

theorem Good.step (good : Good s) (w : World) (event : Event σ κ) (permitted : Permitted s event)
    (minded : Minded w s event) : Good (Auth.step w s event) := by
  unfold Auth.step
  cases event with
  | start c fresh port ip text readable ident =>
    exact good.start w permitted.1 permitted.2 port ip text readable ident minded
  | dnsReply a c answer => exact good.dnsReply w permitted answer
  | identReply a username => exact good.identReply w permitted username
  | authTimeout a => exact good.authTimeout w permitted
  | pingTimeout c =>
    dsimp only
    split
    · exact good.pingTimeout w c
    · exact good
  | nick c cookie =>
    refine good.command fun a live => ?_
    split
    · exact good
    · exact (good.client live { s.client c with named := true } rfl).nick w live cookie
  | user c username info => exact good.command fun a live => good.user w live username info
  | pong c cookie => exact good.anyPort fun a live => good.pong w live cookie
  | pass c password =>
    exact good.anyPort fun a live => good.client live { s.client c with passwd := password.take passwdLen } rfl
  | capStart c => exact good.anyPort fun a live => good.capStart live
  | capEnd c => exact good.anyPort fun a live => good.capEnd w live
  | webirc c authorized admitted hostname ip =>
    dsimp only
    split
    · rename_i port
      cases live : s.auth c with
      | none => exact good
      | some a => exact good.webirc_in w live port authorized admitted hostname ip
    · split
      · exact good.exit c
      · exact good
  | iauth c message =>
    dsimp only
    split
    · unfold iauthParse
      cases live : s.auth c with
      | none => exact good
      | some a =>
        dsimp only
        split
        · rename_i pending
          refine good.iauth w live message ?_
          rintro ip rfl
          simp only [Minded, live] at minded
          exact minded pending
        · exact good
    · exact good
  | iauthKill c =>
    dsimp only
    split
    · exact good.kill c
    · exact good
  | iauthSession connected required =>
    exact ⟨good.own, good.status, good.allocated,
      good.free.imp fun l free => ⟨free.chain, free.distinct, free.unused⟩, good.idle, good.queries, good.single,
      good.facts, good.webirc, good.unborn, good.gates, good.once, good.closed⟩
  | exit c =>
    dsimp only
    split
    · exact good.exit c
    · exact good

theorem Reachable.good [Inhabited κ] {w : World} (reachable : Reachable w (Minded w) s) : Good s := by
  induction reachable with
  | init => exact good_init
  | step event _ permitted minded good => exact good.step w event permitted minded

def openWorld : World where
  noDns := false
  loopback := fun _ => false
  serverName := []
  killIpMismatch := false
  hisWebirc := false
  findKill := fun _ => 0
  confCheck := fun _ => some []
  wantsIdent := fun _ => false
  sslOk := fun _ => true
  undernet := false

/-- No client is registered twice, and none before it has passed the gate. -/
theorem registration_gate [Inhabited κ] {w : World} {s : State σ κ} (reachable : Reachable w (Minded w) s) :
    (s.calls.map Call.client).Nodup ∧ ∀ call ∈ s.calls, Gate call :=
  ⟨reachable.good.once, reachable.good.gates⟩

theorem registration_gate_login :
    let s := run openWorld (State.init Nat Nat) [.start 0 0 .user noAddress ['h'] true .waiting, .nick 0 6,
      .user 0 ['a', 'b'] ['r'], .dnsReply 0 0 none, .identReply 0 ['a'], .pong 0 7]
    s.calls.length = 1 ∧ (s.calls.map Call.client).Nodup ∧ ∀ call ∈ s.calls, Gate call :=
  ⟨by decide +kernel, registration_gate (Reachable.init.run (by decide +kernel))⟩

def overriddenLogin : List (Event Nat Nat) :=
  [.iauthSession true false, .start 0 0 .user noAddress ['h'] true .failed, .nick 0 6, .user 0 ['a', 'b'] ['r'],
    .pong 0 7, .iauth 0 (.ipAddress (some noAddress)), .iauth 0 (.doneClient .unchanged)]

/-- The answer of the resolver then frees the request a second time. The next two clients share it, and the
nick of the one lets in the other. -/
def sharedRequest : List (Event Nat Nat) :=
  overriddenLogin ++ [.dnsReply 0 0 none, .start 1 1 .user noAddress ['h'] true .failed,
    .start 2 1 .user noAddress ['h'] true .failed, .nick 1 6, .user 2 ['a', 'b'] ['r'], .pong 2 7,
    .dnsReply 0 1 none, .iauth 2 (.doneClient .unchanged)]

theorem nameless_registration : ¬ ∀ (w : World) (s : State Nat Nat), Reachable w (fun _ _ => True) s →
    (s.calls.map Call.client).Nodup ∧ ∀ call ∈ s.calls, Gate call := by
  intro gated
  have reachable : Reachable openWorld (fun _ _ => True) (run openWorld (State.init Nat Nat) sharedRequest) :=
    Reachable.init.run (by decide +kernel)
  have nameless : ∃ call ∈ (run openWorld (State.init Nat Nat) sharedRequest).calls, call.past.nick = false := by
    decide +kernel
  generalize run openWorld (State.init Nat Nat) sharedRequest = s at reachable nameless
  obtain ⟨call, mem, nick⟩ := nameless
  rw [((gated _ s reachable).2 call mem).nick] at nick
  cases nick

/-- Each query of the resolver belongs to a request in use, of the client it was made for, that
waits for it. -/
theorem queries_owned [Inhabited κ] {w : World} {s : State σ κ} (reachable : Reachable w (Minded w) s) :
    ∀ q ∈ s.queries, s.auth q.2 = some q.1 ∧ (s.request q.1).client = q.2 ∧
      (s.request q.1).flags.dnsPending = true := by
  intro q mem
  have good := reachable.good
  obtain ⟨live, pending⟩ := good.queries q mem
  exact ⟨live, good.own q.2 q.1 live, pending⟩

theorem queries_owned_start :
    let s := run openWorld (State.init Nat Nat) [.start 3 0 .user noAddress ['h'] true .waiting]
    s.queries = [(0, 3)] ∧ ∀ q ∈ s.queries, s.auth q.2 = some q.1 ∧ (s.request q.1).client = q.2 ∧
      (s.request q.1).flags.dnsPending = true :=
  ⟨by decide +kernel, queries_owned (Reachable.init.run (by decide +kernel))⟩

/-- The client is registered and its request is freed, and the resolver is still to answer to it. -/
theorem stale_query : ¬ ∀ (w : World) (s : State Nat Nat), Reachable w (fun _ _ => True) s →
    ∀ q ∈ s.queries, s.auth q.2 = some q.1 ∧ (s.request q.1).client = q.2 ∧
      (s.request q.1).flags.dnsPending = true := by
  intro owned
  have reachable : Reachable openWorld (fun _ _ => True) (run openWorld (State.init Nat Nat) overriddenLogin) :=
    Reachable.init.run (by decide +kernel)
  have stale : (0, 0) ∈ (run openWorld (State.init Nat Nat) overriddenLogin).queries ∧
      (run openWorld (State.init Nat Nat) overriddenLogin).auth 0 = none := by
    decide +kernel
  generalize run openWorld (State.init Nat Nat) overriddenLogin = s at reachable stale
  have live := (owned _ s reachable (0, 0) stale.1).1
  rw [stale.2] at live
  cases live

end Ircd.Auth

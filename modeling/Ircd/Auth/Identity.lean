import Ircd.Auth.Held

/-! The identity that `find_kill` sees and the one a client is registered with. -/

set_option autoImplicit false

namespace Ircd.Auth
open Ircd.Library Ircd.Net

variable {σ κ : Type}

def registered (f : Flags) (x : Client) : Identity := { x.identity with username := finalUsername f x }

/-- A checked client has kept its identity. A name that iauth forces on a client is the one in
`cli_username`, and before the check `clean_username` has nothing to do on it. -/
structure Settled (w : World) (f : Flags) (x : Client) (p : Past) : Prop where
  checked : f.glineChecked = true →
    x.status = .userPort ∧ p.checked = some (registered f x) ∧ w.findKill (registered f x) = 0
  forced : f.iauthFUsername = true → f.iauthUsername = true ∧ x.gotId = true
  clean : f.iauthFUsername = true → f.glineChecked = false → cleanUsername x.username = x.username.take userLen

def Call.sure (w : World) (call : Call κ) : Prop :=
  call.past.checked = some call.identity ∧ w.findKill call.identity = 0

structure Sure (w : World) (s : State σ κ) : Prop where
  own : ∀ c a, s.auth c = some a → (s.request a).client = c
  settled : ∀ c a, s.auth c = some a → Settled w (s.request a).flags (s.client c) (s.past c)
  calls : ∀ call ∈ s.calls, call.sure w

variable {w : World}

variable {s : State σ κ}

theorem Sure.held (sure : Sure w s) : Held (Settled w) s := ⟨sure.own, sure.settled⟩

theorem Held.sure (held : Held (Settled w) s) (calls : ∀ call ∈ s.calls, call.sure w) : Sure w s :=
  ⟨held.owned, held.fact, calls⟩

theorem sure_init [Inhabited κ] : Sure w (State.init σ κ) := ⟨fun _ _ => nofun, fun _ _ => nofun, fun _ => nofun⟩

variable [DecidableEq σ] [DecidableEq κ]

variable {c : κ} {a : σ}

theorem Sure.update (sure : Sure w s) (live : s.auth c = some a) (r : Request σ κ) (x : Client) (p : Past)
    (queries : List (σ × κ)) (own : r.client = c) (settled : Settled w r.flags x p) :
    Sure w { s with
      request := Function.update s.request a r
      client := Function.update s.client c x
      past := Function.update s.past c p
      queries := queries } :=
  (sure.held.update live r x p queries own settled).sure sure.calls

theorem Sure.request (sure : Sure w s) (live : s.auth c = some a) (r : Request σ κ)
    (own : r.client = (s.request a).client) (settled : Settled w r.flags (s.client c) (s.past c)) :
    Sure w (s.setRequest a r) := by
  have updated := sure.update live r (s.client c) (s.past c) s.queries (own.trans (sure.own c a live)) settled
  simp only [Function.update_eq_self] at updated
  exact updated

theorem Sure.client (sure : Sure w s) (live : s.auth c = some a) (x : Client)
    (settled : Settled w (s.request a).flags x (s.past c)) : Sure w (s.setClient c x) := by
  have updated := sure.update live (s.request a) x (s.past c) s.queries (sure.own c a live) settled
  simp only [Function.update_eq_self] at updated
  exact updated

theorem Sure.record (sure : Sure w s) (live : s.auth c = some a) (p : Past)
    (checked : p.checked = (s.past c).checked) : Sure w (s.setPast c p) := by
  have settled := sure.settled c a live
  have updated := sure.update live (s.request a) (s.client c) p s.queries (sure.own c a live)
    ⟨fun done => by rw [checked]; exact settled.checked done, settled.forced, settled.clean⟩
  simp only [Function.update_eq_self] at updated
  exact updated

omit [DecidableEq σ] [DecidableEq κ] in
theorem Sure.unquery (sure : Sure w s) (queries : List (σ × κ)) :
    Sure w { s with queries := queries } :=
  ⟨sure.own, sure.settled, sure.calls⟩

theorem Sure.destroy (sure : Sure w s) (live : s.auth c = some a) :
    Sure w (destroyAuthRequest s a) := by
  obtain ⟨auth, request, client, past, calls⟩ := destroyAuthRequest_changes s a
  rw [sure.own c a live] at auth
  refine (sure.held.close live auth request (fun d _ => by rw [client]) (fun d _ => by rw [past])).sure ?_
  rw [calls]
  exact sure.calls

theorem Sure.leave {t : State σ κ} (sure : Sure w s) (live : s.auth c = some a) (auth : t.auth = s.auth)
    (own : (t.request a).client = c) (request : ∀ b, b ≠ a → t.request b = s.request b)
    (client : ∀ d, d ≠ c → t.client d = s.client d) (past : ∀ d, d ≠ c → t.past d = s.past d)
    (calls : t.calls = s.calls) : Sure w (exitClient t c) := by
  obtain ⟨auth', request', client', -, past', calls'⟩ := exitClient_changes ((congrFun auth c).trans live) own
  rw [auth] at auth'
  have closed : Held (Settled w) (exitClient t c) := sure.held.close live auth'
    (fun b other => (request' b other).trans (request b other))
    (fun d other => (client' d other).trans (client d other))
    fun d other => (congrFun past' d).trans (past d other)
  refine closed.sure ?_
  rw [calls', calls]
  exact sure.calls

theorem Sure.exit (sure : Sure w s) (c : κ) : Sure w (exitClient s c) := by
  cases live : s.auth c with
  | some a => exact sure.leave live rfl (sure.own c a live) (fun _ _ => rfl) (fun _ _ => rfl) (fun _ _ => rfl) rfl
  | none =>
    rw [exitClient_idle live]
    exact (sure.held.settle live _).sure sure.calls

theorem Sure.register (sure : Sure w s) (live : s.auth c = some a) (fits : (s.call a c).sure w) :
    Sure w (destroyAuthRequest (registerUser s a c) a) := by
  obtain ⟨auth, request, client, past, calls⟩ := destroyAuthRequest_changes (registerUser s a c) a
  have own : ((registerUser s a c).request a).client = c := sure.own c a live
  rw [own] at auth
  have closed : Held (Settled w) (destroyAuthRequest (registerUser s a c) a) :=
    sure.held.close live auth request (fun d other => (congrFun client d).trans (Function.update_of_ne other _ _))
      fun d _ => congrFun past d
  refine closed.sure fun call mem => ?_
  rw [calls] at mem
  rcases List.mem_cons.mp mem with rfl | mem
  · exact fits
  · exact sure.calls call mem

structure Vetted (w : World) (c : κ) (a : σ) (s : State σ κ) : Prop where
  sure : Sure w s
  live : s.auth c = some a
  checked : (s.client c).status = .userPort → (s.request a).flags.glineChecked = true

theorem finalUsername_checked {f : Flags} {x : Client} (forced : f.iauthFUsername = true → x.gotId = true)
    (clean : f.iauthFUsername = true → cleanUsername x.username = x.username.take userLen) :
    finalUsername f { x with userUsername := checkedUsername w x } = checkedUsername w x := by
  unfold finalUsername
  dsimp only
  split
  · rename_i fixed
    unfold checkedUsername
    rw [forced fixed, if_pos rfl, clean fixed]
  · split
    · rename_i known
      unfold checkedUsername
      rw [if_pos known]
    · rfl

theorem finalUsername_again (f : Flags) (x : Client) :
    finalUsername f { x with passwd := [], userUsername := finalUsername f x } = finalUsername f x := by
  unfold finalUsername
  dsimp only
  split
  · rfl
  · split <;> rfl

theorem killCheck_vetted (sure : Sure w s) (live : s.auth c = some a) :
    Ends (Sure w) (Vetted w c a) (killCheck w s a) := by
  have own := sure.own c a live
  have settled := sure.settled c a live
  unfold killCheck
  dsimp only
  rw [own]
  split
  · rename_i skipped
    refine ⟨sure, live, fun port => ?_⟩
    simpa [port] using skipped
  · rename_i first
    simp only [ne_eq, Bool.or_eq_true, decide_eq_true_eq, not_or, not_not] at first
    obtain ⟨port, unchecked⟩ := first
    split
    · exact sure
    · split
      · refine Sure.exit (sure.client live _ ?_) c
        exact ⟨fun checked => absurd checked unchecked, settled.forced, settled.clean⟩
      · rename_i x attached
        have shape := (preregisterUser_keeps attached).symm
        have unclean : (s.request a).flags.glineChecked = false := Bool.not_eq_true _ ▸ unchecked
        have named := finalUsername_checked (w := w) (f := (s.request a).flags) (x := x)
          (fun fixed => by rw [← shape]; exact (settled.forced fixed).2)
          fun fixed => by rw [← shape]; exact settled.clean fixed unclean
        split
        · refine sure.leave live rfl ?_ ?_ ?_ (fun _ _ => rfl) rfl
          · simp only [State.setFlags, State.setRequest, State.setClient, Function.update_self]
            exact own
          · exact fun b other => Function.update_of_ne other _ _
          · exact fun d other => Function.update_of_ne other _ _
        · rename_i spared
          have spared : w.findKill ({ x with userUsername := checkedUsername w x } : Client).identity = 0 :=
            Decidable.not_not.mp spared
          have kept : registered { (s.request a).flags with glineChecked := true }
              { x with userUsername := checkedUsername w x } =
                ({ x with userUsername := checkedUsername w x } : Client).identity :=
            congrArg (fun name => (⟨name, x.host, x.realhost, x.ip, x.info⟩ : Identity)) named
          have after : Settled w { (s.request a).flags with glineChecked := true }
              { x with userUsername := checkedUsername w x } { s.past c with
                checked := some ({ x with userUsername := checkedUsername w x } : Client).identity } := by
            refine ⟨fun _ => ⟨?_, ?_, ?_⟩, fun fixed => ?_, (by rintro - ⟨⟩)⟩
            · rw [← shape]
              exact port
            · rw [kept]
            · rw [kept]
              exact spared
            · rw [← shape]
              exact settled.forced fixed
          refine ⟨?_, live, fun _ => ?_⟩
          · exact sure.update live { s.request a with flags := { (s.request a).flags with glineChecked := true } } _ _
              s.queries own after
          · simp [State.setPast, State.setFlags, State.setRequest]

omit [DecidableEq σ] [DecidableEq κ] in
theorem scanFlags_vetted (vetted : Vetted w c a s) :
    Ends (Sure w) (Vetted w c a) (scanFlags s a) := by
  unfold scanFlags
  split
  · exact vetted.sure
  · exact vetted

theorem passwordCheck_vetted (vetted : Vetted w c a s) :
    Ends (Sure w) (Vetted w c a) (passwordCheck w s a) := by
  obtain ⟨sure, live, checked⟩ := vetted
  have settled := sure.settled c a live
  unfold passwordCheck
  dsimp only
  rw [sure.own c a live]
  split
  · exact ⟨sure, live, checked⟩
  · split
    · exact sure.exit c
    · refine ⟨?_, live, fun port => ?_⟩
      · refine Sure.record ?_ (by exact live) _ rfl
        exact sure.request live _ rfl ⟨settled.checked, settled.forced, settled.clean⟩
      · simp only [State.setPast, State.setFlags, State.setRequest, Function.update_self]
        exact checked port

theorem iauthCheck_vetted (vetted : Vetted w c a s) :
    Ends (Sure w) (fun passed => Vetted w c a passed.1 ∧ passed.2 = false) (iauthCheck s a) := by
  obtain ⟨sure, live, checked⟩ := vetted
  have settled := sure.settled c a live
  have hurried : Sure w (s.setFlags a { (s.request a).flags with iauthHurry := true }) :=
    sure.request live _ rfl ⟨settled.checked, settled.forced, settled.clean⟩
  unfold iauthCheck
  dsimp only
  split
  · exact hurried
  · rename_i answered
    refine ⟨⟨hurried, live, fun port => ?_⟩, ?_⟩
    · simp only [State.setFlags, State.setRequest, Function.update_self]
      exact checked port
    · show ((s.request a).flags.iauthPending && _) = false
      rw [(Bool.not_eq_true _).mp answered, Bool.false_and]

theorem finish_sure (vetted : Vetted w c a s) :
    Sure w (finish w s a false) := by
  obtain ⟨sure, live, checked⟩ := vetted
  have settled := sure.settled c a live
  unfold finish
  dsimp only
  rw [sure.own c a live]
  split
  · exact sure.destroy live
  · rename_i port
    have done := checked (Decidable.not_not.mp port)
    obtain ⟨-, recorded, spared⟩ := settled.checked done
    have named : Sure w (s.setClient c { s.client c with
        passwd := []
        userUsername := finalUsername (s.request a).flags (s.client c) }) := by
      refine sure.client live _ ⟨fun _ => ?_, settled.forced, settled.clean⟩
      have same : registered (s.request a).flags { s.client c with
          passwd := []
          userUsername := finalUsername (s.request a).flags (s.client c) } =
            registered (s.request a).flags (s.client c) :=
        congrArg (fun name => { (s.client c).identity with username := name }) (finalUsername_again ..)
      rw [same]
      exact ⟨Decidable.not_not.mp port, recorded, spared⟩
    split
    · exact named.exit c
    · refine named.register live ?_
      simp only [Call.sure, State.call, State.setClient, Function.update_self]
      exact ⟨recorded, spared⟩

theorem checkRest_sure (sure : Sure w s) (live : s.auth c = some a) :
    Sure w (checkRest w s a) := by
  apply checkRest_ends
  refine (killCheck_vetted sure live).bind fun s vetted => ?_
  refine (scanFlags_vetted vetted).bind fun s vetted => ?_
  refine (passwordCheck_vetted vetted).bind fun s vetted => ?_
  refine (iauthCheck_vetted vetted).bind fun passed vetted => ?_
  rw [vetted.2]
  exact finish_sure vetted.1

theorem Sure.check (sure : Sure w s) (live : s.auth c = some a) (bit : Bit) :
    Sure w (checkAuthFinished w s a bit) := by
  have settled := sure.settled c a live
  refine checkRest_sure (sure.request live _ rfl ?_) (by exact live)
  cases bit <;> exact ⟨settled.checked, settled.forced, settled.clean⟩

/-- A test on the request and the client of `c`, if there is one. -/
def State.live (s : State σ κ) (c : κ) (test : Flags → Client → Bool) : Bool :=
  match s.auth c with
  | some a => test (s.request a).flags (s.client c)
  | none => true

/-- Nothing comes in behind the check that changes the identity of a client, and no name is forced
on a client that `clean_username` would change. -/
def unchanging (s : State σ κ) : Event σ κ → Bool
  | .user c username info => s.live c fun f x =>
    !f.glineChecked || f.iauthHurry || (x.gotId || cleanUsername username = x.userUsername) &&
      info.take realLen = x.info && x.sockhost.take hostLen = x.host
  | .identReply a username =>
    let f := (s.request a).flags
    !f.glineChecked || f.iauthUsername || username = [] ||
      cleanUsername (username.take userLen) = finalUsername f (s.client (s.request a).client)
  | .iauth c (.usernameForced name) => s.live c fun f x =>
    !f.iauthPending || name = [] ||
      (if f.glineChecked then name.take userLen = finalUsername f x
        else cleanUsername (name.take userLen) = name.take userLen)
  | .iauth c (.usernameGood name) => s.live c fun f x =>
    !f.iauthPending || name = [] ||
      (if f.glineChecked && !f.iauthFUsername then cleanUsername (name.take userLen) = finalUsername f x
        else if f.glineChecked then name.take userLen = finalUsername f x
        else !f.iauthFUsername || cleanUsername (name.take userLen) = name.take userLen)
  | .iauth c (.usernameBad name) => s.live c fun f x =>
    !f.iauthPending || name = [] || !f.glineChecked || x.gotId || name.take userLen = x.userUsername
  | .iauth c (.hostname name) => s.live c fun f x =>
    !f.iauthPending || name = [] || !f.glineChecked || !f.iauthHurry ||
      name.take hostLen = x.host && name.take hostLen = x.realhost
  | .iauth c (.ipAddress (some ip)) => s.live c fun f x => !f.iauthPending || !f.glineChecked || ip = x.ip
  | _ => true

theorem Sure.change (sure : Sure w s) (live : s.auth c = some a) (f : Flags) (x : Client)
    (gline : f.glineChecked = (s.request a).flags.glineChecked) (status : x.status = (s.client c).status)
    (same : f.glineChecked = true → registered f x = registered (s.request a).flags (s.client c))
    (forced : f.iauthFUsername = true → f.iauthUsername = true ∧ x.gotId = true)
    (clean : f.iauthFUsername = true → f.glineChecked = false → cleanUsername x.username = x.username.take userLen) :
    Sure w ((s.setClient c x).setFlags a f) := by
  have settled := sure.settled c a live
  have updated := sure.update live { s.request a with flags := f } x (s.past c) s.queries (sure.own c a live)
    ⟨fun checked => ?_, forced, clean⟩
  · simp only [Function.update_eq_self] at updated
    exact updated
  · rw [same checked, status]
    exact settled.checked (gline ▸ checked)

theorem Sure.dnsReply (sure : Sure w s) (live : s.auth c = some a) (answer : Option (InAddr × List Char)) :
    Sure w (authDnsCallback w s a answer) := by
  have settled := sure.settled c a live
  have cleared : Sure w (s.setFlags a { (s.request a).flags with dnsPending := false }) :=
    sure.request live _ rfl ⟨settled.checked, settled.forced, settled.clean⟩
  have own := cleared.own c a live
  unfold authDnsCallback
  dsimp only
  rw [own]
  cases answer with
  | none => exact cleared.check live .dns
  | some answer =>
    obtain ⟨addr, name⟩ := answer
    dsimp only
    split
    · split
      · exact cleared.exit c
      · exact cleared.check live .dns
    · split
      · exact cleared.check live .dns
      · have settled' := cleared.settled c a live
        refine Sure.check ?_ (by exact live) .dns
        exact cleared.client live _ ⟨settled'.checked, settled'.forced, settled'.clean⟩

theorem Sure.identReply (sure : Sure w s) (live : s.auth c = some a) (username : List Char)
    (unchanged : unchanging s (.identReply a username) = true) :
    Sure w (readAuthReply w s a username) := by
  obtain rfl := sure.own c a live
  let x := s.client (s.request a).client
  let f := (s.request a).flags
  have settled : Settled w f x (s.past (s.request a).client) := sure.settled _ a live
  have closed : Sure w (s.setRequest a { s.request a with socket := false }) :=
    sure.request live { s.request a with socket := false } rfl settled
  have flags : ((s.setRequest a { s.request a with socket := false }).request a).flags = f := by
    simp only [State.setRequest, Function.update_self]
    rfl
  unfold readAuthReply
  dsimp only
  split
  · rename_i used
    simp only [ne_eq, Bool.and_eq_true, decide_eq_true_eq, Bool.not_eq_eq_eq_not, Bool.not_true] at used
    obtain ⟨nonempty, free⟩ := used
    have unforced : f.iauthFUsername = false := by
      by_contra forced
      have named := (settled.forced ((Bool.not_eq_false _).mp forced)).1
      exact absurd (named.symm.trans free) (by rintro ⟨⟩)
    refine Sure.check ?_ (by exact live) .auth
    refine closed.client live { x with username := username.take userLen, gotId := true } ?_
    rw [flags]
    refine ⟨fun checked => ?_, fun forced => absurd (forced.symm.trans unforced) (by rintro ⟨⟩),
      fun forced => absurd (forced.symm.trans unforced) (by rintro ⟨⟩)⟩
    have named : cleanUsername (username.take userLen) = finalUsername f x := by
      have either : f.glineChecked = false ∨ f.iauthUsername = true ∨ username = [] ∨
          cleanUsername (username.take userLen) = finalUsername f x := by
        simpa [unchanging, or_assoc] using unchanged
      rcases either with early | taken | empty | same
      · exact absurd (checked.symm.trans early) (by rintro ⟨⟩)
      · exact absurd (taken.symm.trans free) (by rintro ⟨⟩)
      · exact absurd empty nonempty
      · exact same
    have same : registered f { x with username := username.take userLen, gotId := true } = registered f x := by
      have final : finalUsername f { x with username := username.take userLen, gotId := true } =
          cleanUsername (username.take userLen) := by
        simp [finalUsername, unforced]
      exact congrArg (fun name => { x.identity with username := name }) (final.trans named)
    rw [same]
    exact settled.checked checked
  · exact closed.check live .auth

theorem Sure.authTimeout (sure : Sure w s) (live : s.auth c = some a) :
    Sure w (authTimeoutCallback w s a) := by
  have settled := sure.settled c a live
  have stopped : Sure w (s.setRequest a { s.request a with timeout := false }) :=
    sure.request live { s.request a with timeout := false } rfl settled
  unfold authTimeoutCallback
  dsimp only
  split
  · refine Sure.check (Sure.unquery ?_ _) (by exact live) .dns
    exact stopped.request live _ rfl ⟨settled.checked, settled.forced, settled.clean⟩
  · exact stopped.check live _

theorem Sure.pingTimeout (sure : Sure w s) (c : κ) : Sure w (authPingTimeout w s c) := by
  unfold authPingTimeout
  cases live : s.auth c with
  | none => exact sure.exit c
  | some a =>
    dsimp only
    split
    · exact sure.exit c
    · split
      · exact sure
      · split
        · exact sure.exit c
        · exact (sure.record live { s.past c with excused := true } rfl).check live .iauth

theorem Sure.nick (sure : Sure w s) (live : s.auth c = some a) (cookie : Nat) :
    Sure w (authSetNick w s c a cookie) := by
  have told := sure.record live { s.past c with nick := true } rfl
  have settled := told.settled c a live
  unfold authSetNick
  dsimp only
  refine Sure.check ?_ (c := c) ?_ .nick
  · split
    · exact told.request live _ rfl ⟨settled.checked, settled.forced, settled.clean⟩
    · exact told
  · split <;> exact live

omit [DecidableEq σ] [DecidableEq κ] in
theorem finalUsername_kept {f : Flags} {x y : Client} (username : y.username = x.username) (gotId : y.gotId = x.gotId)
    (either : x.gotId = true ∨ y.userUsername = x.userUsername) : finalUsername f y = finalUsername f x := by
  unfold finalUsername
  rw [username, gotId]
  split
  · rfl
  · split
    · rfl
    · rename_i unknown
      exact either.resolve_left unknown

theorem Sure.user (sure : Sure w s) (live : s.auth c = some a) (username info : List Char)
    (unchanged : unchanging s (.user c username info) = true) :
    Sure w (authSetUser w s c a username info) := by
  obtain rfl := sure.own c a live
  let x := s.client (s.request a).client
  let f := (s.request a).flags
  have told := sure.record live { s.past (s.request a).client with user := true } rfl
  have settled : Settled w f x { s.past (s.request a).client with user := true } := by
    simpa only [State.setPast, Function.update_self] using told.settled _ a live
  unfold authSetUser
  dsimp only
  split
  · exact told
  · rename_i early
    have claimed := told.record live { (s.setPast (s.request a).client { s.past (s.request a).client with
      user := true }).past (s.request a).client with claimed := cleanUsername username, renamed := false } rfl
    refine Sure.check ?_ (by exact live) .user
    refine claimed.client live
      { x with info := info.take realLen, userUsername := cleanUsername username, host := x.sockhost.take hostLen } ?_
    simp only [State.setPast, Function.update_self]
    refine ⟨fun checked => ?_, settled.forced, settled.clean⟩
    have kept : (x.gotId = true ∨ cleanUsername username = x.userUsername) ∧ info.take realLen = x.info ∧
        x.sockhost.take hostLen = x.host := by
      have either : f.glineChecked = false ∨ f.iauthHurry = true ∨ ((x.gotId = true ∨
          cleanUsername username = x.userUsername) ∧ info.take realLen = x.info ∧ x.sockhost.take hostLen = x.host) := by
        simpa [unchanging, State.live, live, or_assoc, and_assoc] using unchanged
      rcases either with never | hurry | kept
      · exact absurd (checked.symm.trans never) (by rintro ⟨⟩)
      · exact absurd hurry early
      · exact kept
    obtain ⟨name, realname, host⟩ := kept
    have same : registered f
        { x with info := info.take realLen, userUsername := cleanUsername username, host := x.sockhost.take hostLen } =
        registered f x := by
      have final : finalUsername f { x with
          info := info.take realLen
          userUsername := cleanUsername username
          host := x.sockhost.take hostLen } = finalUsername f x :=
        finalUsername_kept rfl rfl name
      simp only [registered, Client.identity, realname, host] at final ⊢
      rw [final]
    exact same ▸ settled.checked checked

theorem Sure.pong (sure : Sure w s) (live : s.auth c = some a) (cookie : Nat) :
    Sure w (authSetPong w s c a cookie) := by
  unfold authSetPong
  dsimp only
  split
  · exact sure
  · exact (sure.record live { s.past c with pong := true } rfl).check live .pong

theorem Sure.capStart (sure : Sure w s) (live : s.auth c = some a) :
    Sure w (authCapStart s c a) := by
  have told := sure.record live { s.past c with cap := true } rfl
  have settled := told.settled c a live
  exact told.request live _ rfl ⟨settled.checked, settled.forced, settled.clean⟩

theorem Sure.capEnd (sure : Sure w s) (live : s.auth c = some a) :
    Sure w (authCapDone w s c a) :=
  (sure.record live { s.past c with cap := false } rfl).check live .cap

theorem Sure.startIauth (sure : Sure w s) (live : s.auth c = some a) :
    Sure w (startIauthQuery s c a) := by
  have told := sure.record live { s.past c with handed := (s.past c).handed || s.iauthConnected } rfl
  have settled := told.settled c a live
  exact told.request live _ rfl ⟨settled.checked, settled.forced, settled.clean⟩

theorem Sure.webirc_in (sure : Sure w s) (live : s.auth c = some a) (port : (s.client c).status = .webircPort)
    (authorized admitted : Bool) (hostname : List Char) (ip : Option InAddr) :
    Sure w (webirc w s c a authorized admitted hostname ip) := by
  unfold webirc
  cases ip with
  | none => exact sure.exit c
  | some ip =>
    dsimp only
    split
    · exact sure.exit c
    · have settled := sure.settled c a live
      have unchecked : (s.request a).flags.glineChecked ≠ true := by
        intro checked
        exact absurd (port.symm.trans (settled.checked checked).1) nofun
      have admitted := sure.client live { s.client c with
        status := .userPort
        wline := true
        ip := ip
        sockhost := hostname.take hostLen
        doId := true } ⟨fun checked => absurd checked unchecked, settled.forced, settled.clean⟩
      exact (admitted.startIauth live).check live .unused

theorem Sure.done (sure : Sure w s) (live : s.auth c = some a) (attach : Attach) :
    Sure w (doneClient w s c a attach) := by
  have told := sure.record live { s.past c with answered := true } rfl
  have settled := told.settled c a live
  unfold doneClient
  cases attach with
  | unchanged => exact told.check live .iauth
  | attached =>
    have classed := told.client live { s.client c with conf := some [] }
      ⟨settled.checked, settled.forced, settled.clean⟩
    exact classed.check live .iauth
  | full => exact told.exit c

theorem Sure.name (sure : Sure w s) (live : s.auth c = some a) (name : List Char) (force : Bool) (final : (s.request a).flags.glineChecked = true →
      (if force || (s.request a).flags.iauthFUsername then name.take userLen else cleanUsername (name.take userLen)) =
        finalUsername (s.request a).flags (s.client c)) (clean : (s.request a).flags.glineChecked = false → force = true ∨ (s.request a).flags.iauthFUsername = true →
      cleanUsername (name.take userLen) = name.take userLen) :
    Sure w ((s.setClient c { s.client c with username := name.take userLen, gotId := true }).setFlags a
      { (s.request a).flags with
        iauthUsername := true
        iauthFUsername := force || (s.request a).flags.iauthFUsername }) := by
  refine sure.change live _ _ rfl rfl (fun checked => ?_) (fun _ => ⟨rfl, rfl⟩) fun forced unchecked => ?_
  · refine congrArg (fun name => { (s.client c).identity with username := name }) (Eq.trans ?_ (final checked))
    simp only [finalUsername, if_true, List.take_take, min_self]
  · rw [clean unchecked (by simpa using forced)]
    simp only [List.take_take, min_self]

theorem Sure.iauth (sure : Sure w s) (live : s.auth c = some a)
    (pending : (s.request a).flags.iauthPending = true) (message : Message)
    (unchanged : unchanging s (.iauth c message) = true) : Sure w (iauthCommand w s c a message) := by
  have settled := sure.settled c a live
  unfold iauthCommand
  cases message with
  | usernameForced name =>
    dsimp only
    split
    · exact sure.check live .auth
    · rename_i nonempty
      simp only [unchanging, State.live, live, pending, nonempty, Bool.not_true, decide_false, Bool.false_or] at unchanged
      have named := sure.name live name true ?_ ?_
      · exact named.check live .auth
      · intro checked
        simpa [checked] using unchanged
      · intro unchecked _
        simpa [unchecked] using unchanged
  | usernameGood name =>
    dsimp only
    split
    · exact sure.check live .auth
    · rename_i nonempty
      simp only [unchanging, State.live, live, pending, nonempty, Bool.not_true, decide_false, Bool.false_or] at unchanged
      have named := sure.name live name false ?_ ?_
      · exact named.check live .auth
      · intro checked
        cases forced : (s.request a).flags.iauthFUsername with
        | true => simpa [checked, forced] using unchanged
        | false => simpa [checked, forced] using unchanged
      · intro unchecked forced
        simpa [unchecked, forced.resolve_left nofun] using unchanged
  | usernameBad name =>
    dsimp only
    split
    · exact sure.check live .auth
    · rename_i nonempty
      have told := sure.record live { s.past c with renamed := true } rfl
      refine Sure.check ?_ (by exact live) .auth
      refine told.client live { s.client c with userUsername := name.take userLen } ?_
      simp only [State.setPast, Function.update_self]
      refine ⟨fun checked => ?_, settled.forced, settled.clean⟩
      have either : (s.client c).gotId = true ∨ name.take userLen = (s.client c).userUsername := by
        simpa [unchanging, State.live, live, pending, nonempty, checked] using unchanged
      have final : finalUsername (s.request a).flags { s.client c with userUsername := name.take userLen } =
          finalUsername (s.request a).flags (s.client c) :=
        finalUsername_kept rfl rfl either
      have same : registered (s.request a).flags { s.client c with userUsername := name.take userLen } =
          registered (s.request a).flags (s.client c) :=
        congrArg (fun name => { (s.client c).identity with username := name }) final
      exact same ▸ settled.checked checked
  | hostname name =>
    dsimp only
    split
    · exact sure
    · rename_i nonempty
      have queries : (if (s.request a).flags.dnsPending = true then deleteResolverQueries s a else s) =
          { s with queries := if (s.request a).flags.dnsPending = true then (deleteResolverQueries s a).queries
            else s.queries } := by
        split <;> rfl
      have unasked := sure.unquery
        (if (s.request a).flags.dnsPending = true then (deleteResolverQueries s a).queries else s.queries)
      let x : Client := { s.client c with sockhost := name.take hostLen }
      have named : Settled w (s.request a).flags
          (if (s.request a).flags.iauthHurry = true then { x with host := x.sockhost, realhost := x.sockhost } else x)
          (s.past c) := by
        split
        · rename_i hurry
          refine ⟨fun checked => ?_, settled.forced, settled.clean⟩
          obtain ⟨host, realhost⟩ : name.take hostLen = (s.client c).host ∧ name.take hostLen = (s.client c).realhost := by
            simpa [unchanging, State.live, live, pending, nonempty, checked, hurry] using unchanged
          have same : ({ x with host := x.sockhost, realhost := x.sockhost } : Client) = x := by
            simp only [x, realhost]
            rw [← realhost, host]
          rw [same]
          exact settled.checked checked
        · exact ⟨settled.checked, settled.forced, settled.clean⟩
      rw [queries]
      refine Sure.check ?_ (by exact live) .dns
      exact unasked.client live _ named
  | ipAddress ip =>
    cases ip with
    | none => exact sure
    | some ip =>
      refine Sure.check ?_ (by exact live) .dns
      have saved := sure.request live { s.request a with
        original := if (s.request a).original.valid then (s.request a).original else (s.client c).ip } rfl settled
      refine saved.client live { s.client c with ip := ip } ?_
      simp only [State.setRequest, Function.update_self]
      refine ⟨fun checked => ?_, settled.forced, settled.clean⟩
      have same : ip = (s.client c).ip := by
        simpa [unchanging, State.live, live, pending, checked] using unchanged
      subst same
      exact settled.checked checked
  | softDone =>
    exact (sure.request live { s.request a with flags := { (s.request a).flags with iauthSoftDone := true } } rfl
      ⟨settled.checked, settled.forced, settled.clean⟩).check live .softDone
  | doneClient attach => exact sure.done live attach
  | doneAccount account attach =>
    dsimp only
    split
    · exact sure.done live attach
    · exact sure

theorem Sure.kill (sure : Sure w s) (c : κ) : Sure w (iauthKill s c) := by
  unfold iauthKill
  cases live : s.auth c with
  | none => exact sure.exit c
  | some a =>
    have settled := sure.settled c a live
    exact (sure.request live { s.request a with flags := { (s.request a).flags with iauthPending := false } } rfl
      ⟨settled.checked, settled.forced, settled.clean⟩).exit c

theorem Sure.opened (sure : Sure w s) (unowned : ∀ d, s.auth d ≠ some a) (port : Port) (x : Client) :
    Sure w (newRequest s c a x port.flags) := by
  refine (sure.held.opened unowned ?_).sure sure.calls
  cases port <;> exact ⟨(by rintro ⟨⟩), (by rintro ⟨⟩), (by rintro ⟨⟩)⟩

theorem Sure.startDns (sure : Sure w s) (live : s.auth c = some a) :
    Sure w (startDnsQuery w s c a) := by
  have settled := sure.settled c a live
  unfold startDnsQuery
  split
  · exact sure
  · split
    · exact sure.client live _ ⟨settled.checked, settled.forced, settled.clean⟩
    · exact (sure.request live { s.request a with flags := { (s.request a).flags with dnsPending := true } } rfl
        ⟨settled.checked, settled.forced, settled.clean⟩).unquery _

theorem Sure.ident (sure : Sure w s) (live : s.auth c = some a) (socket pending : Bool) :
    Sure w (s.setRequest a { s.request a with
      socket := socket
      flags := { (s.request a).flags with authPending := pending } }) := by
  have settled := sure.settled c a live
  exact sure.request live _ rfl ⟨settled.checked, settled.forced, settled.clean⟩

theorem Sure.start (sure : Sure w s) {fresh : σ} (unowned : ∀ d, s.auth d ≠ some (s.freelist.getD fresh))
    (port : Port) (ip : InAddr) (text : List Char) (readable : Bool) (ident : Ident)
    (late : finishedEarly w port ip ident = false) :
    Sure w (startAuth w s c fresh port ip text readable ident) := by
  let a := s.freelist.getD fresh
  let x : Client := { Client.unborn with status := port.status, ip := ip, sockhost := text }
  have base : Sure w (newRequest s c a x port.flags) := sure.opened unowned port x
  have live : (newRequest s c a x port.flags).auth c = some a := Function.update_self ..
  cases readable with
  | false =>
    rw [startAuth_unreadable]
    exact (base.request live { (newRequest s c a x port.flags).request a with flags := .none } rfl
      ⟨(by rintro ⟨⟩), (by rintro ⟨⟩), (by rintro ⟨⟩)⟩).exit c
  | true =>
    rw [startAuth_started]
    cases port with
    | webirc => exact base.check live .unused
    | server =>
      have asked := base.startDns live
      obtain ⟨live', socket, pending, value⟩ := startedAuth_server w s c a text late
      rw [value]
      exact (asked.ident live' socket pending).check live' .unused
    | user =>
      have handed := base.startIauth live
      have asked := handed.startDns live
      obtain ⟨live', socket, pending, value⟩ := startedAuth_user w s c a text late
      rw [value]
      exact (asked.ident live' socket pending).check live' .unused

theorem Sure.command (sure : Sure w s) {act : σ → State σ κ} (acts : ∀ a, s.auth c = some a → Sure w (act a)) :
    Sure w (s.command c act) :=
  State.command_keeps sure (sure.exit c) acts

omit [DecidableEq σ] [DecidableEq κ] in
theorem Sure.anyPort (sure : Sure w s) {act : σ → State σ κ} (acts : ∀ a, s.auth c = some a → Sure w (act a)) :
    Sure w (s.anyPort c act) :=
  State.anyPort_keeps sure acts

theorem Sure.step (sure : Sure w s) (good : Good s) (event : Event σ κ) (permitted : Permitted s event)
    (minded : Minded w s event) (unchanged : unchanging s event = true) : Sure w (Auth.step w s event) := by
  unfold Auth.step
  cases event with
  | start c fresh port ip text readable ident =>
    exact sure.start (good.fresh_cell permitted.2) port ip text readable ident minded
  | dnsReply a c answer => exact (sure.unquery (s.queries.erase (a, c))).dnsReply (good.queries (a, c) permitted).1 answer
  | identReply a username =>
    obtain ⟨c, live⟩ := good.in_use (.inl permitted)
    exact sure.identReply live username unchanged
  | authTimeout a =>
    obtain ⟨c, live⟩ := good.in_use (.inr permitted)
    exact sure.authTimeout live
  | pingTimeout c =>
    dsimp only
    split
    · exact sure.pingTimeout c
    · exact sure
  | nick c cookie =>
    refine sure.command fun a live => ?_
    split
    · exact sure
    · have settled := sure.settled c a live
      exact (sure.client live { s.client c with named := true }
        ⟨settled.checked, settled.forced, settled.clean⟩).nick live cookie
  | user c username info => exact sure.command fun a live => sure.user live username info unchanged
  | pong c cookie => exact sure.anyPort fun a live => sure.pong live cookie
  | pass c password =>
    refine sure.anyPort fun a live => ?_
    have settled := sure.settled c a live
    exact sure.client live _ ⟨settled.checked, settled.forced, settled.clean⟩
  | capStart c => exact sure.anyPort fun a live => sure.capStart live
  | capEnd c => exact sure.anyPort fun a live => sure.capEnd live
  | webirc c authorized admitted hostname ip =>
    dsimp only
    split
    · rename_i port
      cases live : s.auth c with
      | none => exact sure
      | some a => exact sure.webirc_in live port authorized admitted hostname ip
    · split
      · exact sure.exit c
      · exact sure
  | iauth c message =>
    dsimp only
    split
    · unfold iauthParse
      cases live : s.auth c with
      | none => exact sure
      | some a =>
        dsimp only
        split
        · rename_i pending
          exact sure.iauth live pending message unchanged
        · exact sure
    · exact sure
  | iauthKill c =>
    dsimp only
    split
    · exact sure.kill c
    · exact sure
  | iauthSession connected required => exact ⟨sure.own, sure.settled, sure.calls⟩
  | exit c =>
    dsimp only
    split
    · exact sure.exit c
    · exact sure

theorem Reachable.sure [Inhabited κ]
    (reachable : Reachable w (fun s event => Minded w s event ∧ unchanging s event = true) s) :
    Good s ∧ Sure w s := by
  induction reachable with
  | init => exact ⟨good_init, sure_init⟩
  | step event _ permitted careful before =>
    obtain ⟨good, sure⟩ := before
    exact ⟨good.step w event permitted careful.1, sure.step good event permitted careful.1 careful.2⟩

/-- Whoever is registered has been looked up by `find_kill` with the very identity it is registered with,
and was let pass. -/
theorem registered_as_checked [Inhabited κ] {s : State σ κ}
    (reachable : Reachable w (fun s event => Minded w s event ∧ unchanging s event = true) s) :
    ∀ call ∈ s.calls, call.past.checked = some call.identity ∧ w.findKill call.identity = 0 :=
  reachable.sure.2.calls

theorem registered_as_checked_login :
    let s := run openWorld (State.init Nat Nat) [.iauthSession true false,
      .start 0 0 .user noAddress ['h'] true .waiting, .nick 0 6, .user 0 ['a', 'b'] ['r'], .user 0 ['b', 'c'] ['r'],
      .dnsReply 0 0 none, .iauth 0 (.usernameGood ['c', 'd']), .pong 0 7, .iauth 0 (.doneClient .unchanged)]
    s.calls.map (·.identity.username) = [['c', 'd']] ∧
      ∀ call ∈ s.calls, call.past.checked = some call.identity ∧ openWorld.findKill call.identity = 0 :=
  ⟨by decide +kernel, registered_as_checked (Reachable.init.run (by decide +kernel))⟩

/-- A server that does not want users by the name of `b`. -/
def guardedWorld : World := { openWorld with noDns := true, findKill := fun id => if id.username = ['b'] then -1 else 0 }

/-- `USER` comes in again between the check and the nick. -/
theorem unchecked_registration : ¬ ∀ (w : World) (s : State Nat Nat), Reachable w (fun _ _ => True) s →
    ∀ call ∈ s.calls, call.past.checked = some call.identity ∧ w.findKill call.identity = 0 := by
  intro checked
  let events : List (Event Nat Nat) := [.start 0 0 .user noAddress ['h'] true .failed, .user 0 ['a'] ['r'],
    .user 0 ['b'] ['r'], .nick 0 6, .pong 0 7]
  have reachable : Reachable guardedWorld (fun _ _ => True) (run guardedWorld (State.init Nat Nat) events) :=
    Reachable.init.run (by decide +kernel)
  have unwanted : ∃ call ∈ (run guardedWorld (State.init Nat Nat) events).calls,
      guardedWorld.findKill call.identity = -1 := by
    decide +kernel
  generalize run guardedWorld (State.init Nat Nat) events = s at reachable unwanted
  obtain ⟨call, mem, killed⟩ := unwanted
  rw [(checked _ s reachable call mem).2] at killed
  cases killed

end Ircd.Auth

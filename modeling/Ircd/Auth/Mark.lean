import Ircd.Auth.Identity

/-! The mark before the name of a client that neither the ident server nor iauth has confirmed. -/

set_option autoImplicit false

namespace Ircd.Auth
open Ircd.Library Ircd.Net

variable {σ κ : Type}

/-- The character that `check_auth_finished` puts before a name. -/
def mark (w : World) (x : Client) : Char := if x.wline && !w.hisWebirc then '^' else '~'

def HasMark (w : World) (x : Client) (p : Past) : Prop :=
  x.gotId = false → x.doId = true → p.renamed = false → x.userUsername = mark w x :: p.claimed.take (userLen - 1)

structure Marked (w : World) (f : Flags) (x : Client) (p : Past) : Prop where
  plain : f.glineChecked = false → f.needsUser = false → x.gotId = false → p.renamed = false →
    x.userUsername = p.claimed
  kept : f.glineChecked = true → HasMark w x p
  forced : f.iauthFUsername = true → x.gotId = true
  port : f.glineChecked = true → x.status = .userPort

structure Marks (w : World) (s : State σ κ) : Prop where
  own : ∀ c a, s.auth c = some a → (s.request a).client = c
  marked : ∀ c a, s.auth c = some a → Marked w (s.request a).flags (s.client c) (s.past c)
  coming : ∀ c a, s.auth c = some a → (s.client c).status ≠ .user
  registered : ∀ c, (s.client c).status = .user → HasMark w (s.client c) (s.past c)

variable {w : World}

variable {s : State σ κ}

theorem Marks.held (marks : Marks w s) :
    Held (fun f x p => Marked w f x p ∧ x.status ≠ .user) s :=
  ⟨marks.own, fun c a live => ⟨marks.marked c a live, marks.coming c a live⟩⟩

theorem Held.marks (held : Held (fun f x p => Marked w f x p ∧ x.status ≠ .user) s)
    (registered : ∀ c, (s.client c).status = .user → HasMark w (s.client c) (s.past c)) : Marks w s :=
  ⟨held.owned, fun c a live => (held.fact c a live).1, fun c a live => (held.fact c a live).2, registered⟩

theorem marks_init [Inhabited κ] : Marks w (State.init σ κ) :=
  ⟨fun _ _ => nofun, fun _ _ => nofun, fun _ _ => nofun, fun _ => nofun⟩

variable [DecidableEq σ] [DecidableEq κ]

variable {c : κ} {a : σ}

theorem Marks.update (marks : Marks w s) (live : s.auth c = some a) (r : Request σ κ) (x : Client) (p : Past)
    (queries : List (σ × κ)) (own : r.client = c) (coming : x.status ≠ .user) (marked : Marked w r.flags x p) :
    Marks w { s with
      request := Function.update s.request a r
      client := Function.update s.client c x
      past := Function.update s.past c p
      queries := queries } := by
  refine (marks.held.update live r x p queries own ⟨marked, coming⟩).marks fun c' done => ?_
  dsimp only at done ⊢
  by_cases same : c' = c
  · rw [same, Function.update_self] at done
    exact absurd done coming
  · rw [Function.update_of_ne same] at done
    rw [Function.update_of_ne same, Function.update_of_ne same]
    exact marks.registered c' done

theorem Marks.request (marks : Marks w s) (live : s.auth c = some a) (r : Request σ κ)
    (own : r.client = (s.request a).client) (marked : Marked w r.flags (s.client c) (s.past c)) :
    Marks w (s.setRequest a r) := by
  have updated := marks.update live r (s.client c) (s.past c) s.queries (own.trans (marks.own c a live))
    (marks.coming c a live) marked
  simp only [Function.update_eq_self] at updated
  exact updated

theorem Marks.client (marks : Marks w s) (live : s.auth c = some a) (x : Client) (coming : x.status ≠ .user)
    (marked : Marked w (s.request a).flags x (s.past c)) : Marks w (s.setClient c x) := by
  have updated := marks.update live (s.request a) x (s.past c) s.queries (marks.own c a live) coming marked
  simp only [Function.update_eq_self] at updated
  exact updated

theorem Marks.record (marks : Marks w s) (live : s.auth c = some a) (p : Past)
    (claimed : p.claimed = (s.past c).claimed) (renamed : p.renamed = (s.past c).renamed) :
    Marks w (s.setPast c p) := by
  have marked := marks.marked c a live
  have updated := marks.update live (s.request a) (s.client c) p s.queries (marks.own c a live)
    (marks.coming c a live) ⟨?_, ?_, marked.forced, marked.port⟩
  · simp only [Function.update_eq_self] at updated
    exact updated
  · rw [claimed, renamed]
    exact marked.plain
  · unfold HasMark
    rw [claimed, renamed]
    exact marked.kept

omit [DecidableEq σ] [DecidableEq κ] in
theorem Marks.unquery (marks : Marks w s) (queries : List (σ × κ)) :
    Marks w { s with queries := queries } :=
  ⟨marks.own, marks.marked, marks.coming, marks.registered⟩

omit [DecidableEq σ] in
theorem Marks.close {t : State σ κ} (marks : Marks w s) (live : s.auth c = some a)
    (auth : t.auth = Function.update s.auth c none) (request : ∀ b, b ≠ a → t.request b = s.request b)
    (client : ∀ d, d ≠ c → t.client d = s.client d) (past : ∀ d, d ≠ c → t.past d = s.past d)
    (done : (t.client c).status = .user → HasMark w (t.client c) (t.past c)) : Marks w t := by
  refine (marks.held.close live auth request client past).marks fun d user => ?_
  by_cases same : d = c
  · subst same
    exact done user
  · rw [client d same] at user ⊢
    rw [past d same]
    exact marks.registered d user

theorem Marks.leave {t : State σ κ} (marks : Marks w s) (live : s.auth c = some a) (auth : t.auth = s.auth)
    (own : (t.request a).client = c) (request : ∀ b, b ≠ a → t.request b = s.request b)
    (client : ∀ d, d ≠ c → t.client d = s.client d) (past : ∀ d, d ≠ c → t.past d = s.past d) :
    Marks w (exitClient t c) := by
  obtain ⟨auth', request', client', gone, past', -⟩ := exitClient_changes ((congrFun auth c).trans live) own
  rw [auth] at auth'
  refine marks.close live auth' (fun b other => (request' b other).trans (request b other))
    (fun d other => (client' d other).trans (client d other)) (fun d other => (congrFun past' d).trans (past d other)) ?_
  rw [gone]
  nofun

theorem Marks.exit (marks : Marks w s) (c : κ) : Marks w (exitClient s c) := by
  cases live : s.auth c with
  | some a => exact marks.leave live rfl (marks.own c a live) (fun _ _ => rfl) (fun _ _ => rfl) fun _ _ => rfl
  | none =>
    rw [exitClient_idle live]
    refine (marks.held.settle live _).marks fun d user => ?_
    by_cases same : d = c
    · simp only [same, State.setClient, Function.update_self] at user
      cases user
    · simp only [State.setClient, Function.update_of_ne same] at user ⊢
      exact marks.registered d user

theorem Marks.destroy (marks : Marks w s) (live : s.auth c = some a) :
    Marks w (destroyAuthRequest s a) := by
  obtain ⟨auth, request, client, past, -⟩ := destroyAuthRequest_changes s a
  rw [marks.own c a live] at auth
  refine marks.close live auth request (fun d _ => by rw [client]) (fun d _ => by rw [past]) ?_
  rw [client]
  exact fun user => absurd user (marks.coming c a live)

theorem Marks.register (marks : Marks w s) (live : s.auth c = some a) (fits : HasMark w (s.client c) (s.past c)) :
    Marks w (destroyAuthRequest (registerUser s a c) a) := by
  obtain ⟨auth, request, client, past, -⟩ := destroyAuthRequest_changes (registerUser s a c) a
  have own : ((registerUser s a c).request a).client = c := marks.own c a live
  rw [own] at auth
  refine marks.close live auth request ?_ (fun d _ => congrFun past d) ?_
  · intro d other
    rw [client]
    exact Function.update_of_ne other _ _
  · intro _
    rw [client, past]
    simp only [registerUser, State.setClient, Function.update_self]
    exact fits

structure Branded (w : World) (c : κ) (a : σ) (s : State σ κ) : Prop where
  marks : Marks w s
  live : s.auth c = some a
  checked : (s.client c).status = .userPort → (s.request a).flags.glineChecked = true

theorem checkedUsername_hasMark {x : Client} {p : Past}
    (plain : x.gotId = false → p.renamed = false → x.userUsername = p.claimed) :
    HasMark w { x with userUsername := checkedUsername w x } p := by
  intro unknown wants own
  have unknown : x.gotId = false := unknown
  have wants : x.doId = true := wants
  show checkedUsername w x = mark w x :: p.claimed.take (userLen - 1)
  rw [checkedUsername, unknown, wants, plain unknown own]
  rfl

theorem killCheck_branded (marks : Marks w s) (live : s.auth c = some a) :
    Ends (Marks w) (Branded w c a) (killCheck w s a) := by
  have own := marks.own c a live
  have marked := marks.marked c a live
  unfold killCheck
  dsimp only
  rw [own]
  split
  · rename_i skipped
    refine ⟨marks, live, fun port => ?_⟩
    simpa [port] using skipped
  · rename_i first
    simp only [ne_eq, Bool.or_eq_true, decide_eq_true_eq, not_or, not_not, Bool.not_eq_true] at first
    obtain ⟨port, unchecked⟩ := first
    split
    · exact marks
    · rename_i ready
      simp only [Bool.or_eq_true, not_or, Bool.not_eq_true] at ready
      split
      · refine Marks.exit (marks.client live _ ?_ ?_) c
        · exact marks.coming c a live
        · exact ⟨marked.plain, fun checked => absurd (checked.symm.trans unchecked) nofun, marked.forced, marked.port⟩
      · rename_i y attached
        have shape := preregisterUser_keeps attached
        have same : y.gotId = (s.client c).gotId ∧ y.userUsername = (s.client c).userUsername ∧
            y.status = (s.client c).status := by
          rw [shape]
          exact ⟨rfl, rfl, rfl⟩
        have after : Marked w { (s.request a).flags with glineChecked := true }
            { y with userUsername := checkedUsername w y } (s.past c) := by
          refine ⟨nofun, fun _ => checkedUsername_hasMark fun unknown kept => ?_, ?_, fun _ => same.2.2.trans port⟩
          · rw [same.1] at unknown
            exact same.2.1.trans (marked.plain unchecked ready.2 unknown kept)
          · rw [show ({ y with userUsername := checkedUsername w y } : Client).gotId = (s.client c).gotId from same.1]
            exact marked.forced
        have coming : y.status ≠ .user := same.2.2 ▸ marks.coming c a live
        split
        · refine marks.leave live rfl ?_ ?_ ?_ fun _ _ => rfl
          · simp only [State.setFlags, State.setRequest, State.setClient, Function.update_self]
            exact own
          · exact fun b other => Function.update_of_ne other _ _
          · exact fun d other => Function.update_of_ne other _ _
        · refine ⟨?_, live, fun _ => ?_⟩
          · exact marks.update live { s.request a with flags := { (s.request a).flags with glineChecked := true } } _ _
              s.queries own coming ⟨after.plain, after.kept, after.forced, after.port⟩
          · simp [State.setPast, State.setFlags, State.setRequest]

omit [DecidableEq σ] [DecidableEq κ] in
theorem scanFlags_branded (branded : Branded w c a s) :
    Ends (Marks w) (Branded w c a) (scanFlags s a) := by
  unfold scanFlags
  split
  · exact branded.marks
  · exact branded

theorem passwordCheck_branded (branded : Branded w c a s) :
    Ends (Marks w) (Branded w c a) (passwordCheck w s a) := by
  obtain ⟨marks, live, checked⟩ := branded
  have marked := marks.marked c a live
  unfold passwordCheck
  dsimp only
  rw [marks.own c a live]
  split
  · exact ⟨marks, live, checked⟩
  · split
    · exact marks.exit c
    · refine ⟨?_, live, fun port => ?_⟩
      · refine Marks.record ?_ (by exact live) _ rfl rfl
        exact marks.request live _ rfl ⟨marked.plain, marked.kept, marked.forced, marked.port⟩
      · simp only [State.setPast, State.setFlags, State.setRequest, Function.update_self]
        exact checked port

theorem iauthCheck_branded (branded : Branded w c a s) :
    Ends (Marks w) (fun passed => Branded w c a passed.1 ∧ passed.2 = false) (iauthCheck s a) := by
  obtain ⟨marks, live, checked⟩ := branded
  have marked := marks.marked c a live
  have hurried : Marks w (s.setFlags a { (s.request a).flags with iauthHurry := true }) :=
    marks.request live _ rfl ⟨marked.plain, marked.kept, marked.forced, marked.port⟩
  unfold iauthCheck
  dsimp only
  split
  · exact hurried
  · rename_i answered
    refine ⟨⟨hurried, live, fun port => ?_⟩, ?_⟩
    · simp only [State.setFlags, State.setRequest, Function.update_self]
      exact checked port
    · show ((s.request a).flags.iauthPending && _) = false
      rw [(Bool.not_eq_true _).mp answered, Bool.false_and]

/-- The name that a client is registered with is the one it has, unless it is confirmed. -/
theorem finalUsername_unconfirmed {f : Flags} {x : Client} (forced : f.iauthFUsername = true → x.gotId = true)
    (unknown : x.gotId = false) : finalUsername f x = x.userUsername := by
  unfold finalUsername
  split
  · rename_i fixed
    rw [forced fixed] at unknown
    cases unknown
  · rw [unknown]
    rfl

theorem finish_marks (branded : Branded w c a s) : Marks w (finish w s a false) := by
  obtain ⟨marks, live, checked⟩ := branded
  have marked := marks.marked c a live
  unfold finish
  dsimp only
  rw [marks.own c a live]
  split
  · exact marks.destroy live
  · rename_i port
    have done := checked (Decidable.not_not.mp port)
    have named : HasMark w { s.client c with
        passwd := []
        userUsername := finalUsername (s.request a).flags (s.client c) } (s.past c) := by
      intro unknown wants own
      exact (finalUsername_unconfirmed marked.forced unknown).trans (marked.kept done unknown wants own)
    have after : Marks w (s.setClient c { s.client c with
        passwd := []
        userUsername := finalUsername (s.request a).flags (s.client c) }) :=
      marks.client live _ (marks.coming c a live)
        ⟨fun unchecked => absurd (done.symm.trans unchecked) nofun, fun _ => named, marked.forced, marked.port⟩
    split
    · exact after.exit c
    · refine after.register live ?_
      simp only [State.setClient, Function.update_self]
      exact named

theorem checkRest_marks (marks : Marks w s) (live : s.auth c = some a) :
    Marks w (checkRest w s a) := by
  apply checkRest_ends
  refine (killCheck_branded marks live).bind fun s branded => ?_
  refine (scanFlags_branded branded).bind fun s branded => ?_
  refine (passwordCheck_branded branded).bind fun s branded => ?_
  refine (iauthCheck_branded branded).bind fun passed branded => ?_
  rw [branded.2]
  exact finish_marks branded.1

theorem Marks.check_user (marks : Marks w s) (live : s.auth c = some a)
    (plain : (s.client c).userUsername = (s.past c).claimed) : Marks w (checkAuthFinished w s a .user) := by
  have marked := marks.marked c a live
  refine checkRest_marks (marks.request live _ rfl ?_) (by exact live)
  exact ⟨fun _ _ _ _ => plain, marked.kept, marked.forced, marked.port⟩

theorem Marks.check (marks : Marks w s) (live : s.auth c = some a) (bit : Bit) (other : bit ≠ .user) :
    Marks w (checkAuthFinished w s a bit) := by
  have marked := marks.marked c a live
  refine checkRest_marks (marks.request live _ rfl ?_) (by exact live)
  cases bit with
  | user => exact absurd rfl other
  | _ => exact ⟨marked.plain, marked.kept, marked.forced, marked.port⟩

def keepsMark (s : State σ κ) : Event σ κ → Bool
  | .user c _ _ => s.live c fun f x => !f.glineChecked || f.iauthHurry || x.gotId || !x.doId
  | _ => true

theorem Marks.dnsReply (marks : Marks w s) (live : s.auth c = some a) (answer : Option (InAddr × List Char)) :
    Marks w (authDnsCallback w s a answer) := by
  have marked := marks.marked c a live
  have cleared : Marks w (s.setFlags a { (s.request a).flags with dnsPending := false }) :=
    marks.request live _ rfl ⟨marked.plain, marked.kept, marked.forced, marked.port⟩
  have after := cleared.marked c a live
  unfold authDnsCallback
  dsimp only
  rw [cleared.own c a live]
  cases answer with
  | none => exact cleared.check live .dns nofun
  | some answer =>
    dsimp only
    split
    · split
      · exact cleared.exit c
      · exact cleared.check live .dns nofun
    · split
      · exact cleared.check live .dns nofun
      · refine Marks.check ?_ (by exact live) .dns nofun
        exact cleared.client live _ (cleared.coming c a live) ⟨after.plain, after.kept, after.forced, after.port⟩

theorem Marks.identReply (marks : Marks w s) (live : s.auth c = some a) (username : List Char) :
    Marks w (readAuthReply w s a username) := by
  obtain rfl := marks.own c a live
  have marked := marks.marked _ a live
  have closed : Marks w (s.setRequest a { s.request a with socket := false }) :=
    marks.request live { s.request a with socket := false } rfl marked
  have flags : ((s.setRequest a { s.request a with socket := false }).request a).flags = (s.request a).flags := by
    simp only [State.setRequest, Function.update_self]
  unfold readAuthReply
  dsimp only
  split
  · refine Marks.check ?_ (by exact live) .auth (by rintro ⟨⟩)
    refine closed.client live { s.client (s.request a).client with username := username.take userLen, gotId := true }
      (marks.coming _ a live) ?_
    rw [flags]
    exact ⟨fun _ _ => (by rintro ⟨⟩), fun _ => (by rintro ⟨⟩), fun _ => rfl, marked.port⟩
  · exact closed.check live .auth (by rintro ⟨⟩)

theorem Marks.authTimeout (marks : Marks w s) (live : s.auth c = some a) :
    Marks w (authTimeoutCallback w s a) := by
  have marked := marks.marked c a live
  have stopped : Marks w (s.setRequest a { s.request a with timeout := false }) :=
    marks.request live { s.request a with timeout := false } rfl marked
  unfold authTimeoutCallback
  dsimp only
  split
  · refine Marks.check (Marks.unquery ?_ _) (by exact live) .dns nofun
    exact stopped.request live _ rfl ⟨marked.plain, marked.kept, marked.forced, marked.port⟩
  · refine stopped.check live _ ?_
    split
    · nofun
    · nofun

theorem Marks.pingTimeout (marks : Marks w s) (c : κ) : Marks w (authPingTimeout w s c) := by
  unfold authPingTimeout
  cases live : s.auth c with
  | none => exact marks.exit c
  | some a =>
    dsimp only
    split
    · exact marks.exit c
    · split
      · exact marks
      · split
        · exact marks.exit c
        · exact (marks.record live { s.past c with excused := true } rfl rfl).check live .iauth nofun

theorem Marks.nick (marks : Marks w s) (live : s.auth c = some a) (cookie : Nat) :
    Marks w (authSetNick w s c a cookie) := by
  have told := marks.record live { s.past c with nick := true } rfl rfl
  have marked := told.marked c a live
  unfold authSetNick
  dsimp only
  split
  · refine Marks.check ?_ (by exact live) .nick nofun
    exact told.request live _ rfl ⟨marked.plain, marked.kept, marked.forced, marked.port⟩
  · exact told.check live .nick nofun

theorem Marks.user (marks : Marks w s) (live : s.auth c = some a) (username info : List Char)
    (keeps : keepsMark s (.user c username info) = true) :
    Marks w (authSetUser w s c a username info) := by
  have marked := marks.marked c a live
  have own := marks.own c a live
  have told := marks.record live { s.past c with user := true } rfl rfl
  unfold authSetUser
  dsimp only
  split
  · exact told
  · rename_i early
    let x : Client := { s.client c with
      info := info.take realLen
      userUsername := cleanUsername username
      host := (s.client c).sockhost.take hostLen }
    let p : Past := { s.past c with user := true, claimed := cleanUsername username, renamed := false }
    have named : Marks w ({ s with
        request := Function.update s.request a (s.request a)
        client := Function.update s.client c x
        past := Function.update s.past c p
        queries := s.queries } : State σ κ) := by
      refine marks.update live (s.request a) x p s.queries own (marks.coming c a live) ?_
      refine ⟨fun _ _ _ _ => rfl, fun checked unknown wants _ => ?_, marked.forced, marked.port⟩
      -- a name behind the mark is one that `keepsMark` has excluded
      have unknown : (s.client c).gotId = false := unknown
      have wants : (s.client c).doId = true := wants
      simp only [keepsMark, State.live, live, checked, unknown, wants, Bool.not_true, Bool.or_false, Bool.false_or] at keeps
      exact absurd keeps early
    have plain : Function.update s.client c x c = x ∧ Function.update s.past c p c = p :=
      ⟨Function.update_self .., Function.update_self ..⟩
    have checked := named.check_user live (by dsimp only; rw [plain.1, plain.2])
    simp only [Function.update_eq_self] at checked
    simp only [State.setPast, State.setClient, Function.update_self, Function.update_idem, own]
    exact checked

theorem Marks.pong (marks : Marks w s) (live : s.auth c = some a) (cookie : Nat) :
    Marks w (authSetPong w s c a cookie) := by
  unfold authSetPong
  dsimp only
  split
  · exact marks
  · exact (marks.record live { s.past c with pong := true } rfl rfl).check live .pong nofun

theorem Marks.capStart (marks : Marks w s) (live : s.auth c = some a) :
    Marks w (authCapStart s c a) := by
  have told := marks.record live { s.past c with cap := true } rfl rfl
  have marked := told.marked c a live
  exact told.request live _ rfl ⟨marked.plain, marked.kept, marked.forced, marked.port⟩

theorem Marks.startIauth (marks : Marks w s) (live : s.auth c = some a) :
    Marks w (startIauthQuery s c a) := by
  have told := marks.record live { s.past c with handed := (s.past c).handed || s.iauthConnected } rfl rfl
  have marked := told.marked c a live
  exact told.request live _ rfl ⟨marked.plain, marked.kept, marked.forced, marked.port⟩

theorem Marks.webirc_in (marks : Marks w s) (live : s.auth c = some a) (port : (s.client c).status = .webircPort)
    (authorized admitted : Bool) (hostname : List Char) (ip : Option InAddr) :
    Marks w (webirc w s c a authorized admitted hostname ip) := by
  unfold webirc
  cases ip with
  | none => exact marks.exit c
  | some ip =>
    dsimp only
    split
    · exact marks.exit c
    · have marked := marks.marked c a live
      have unchecked : (s.request a).flags.glineChecked ≠ true := by
        intro checked
        exact absurd (port.symm.trans (marked.port checked)) nofun
      have admitted := marks.client live { s.client c with
        status := .userPort
        wline := true
        ip := ip
        sockhost := hostname.take hostLen
        doId := true } nofun
        ⟨marked.plain, fun checked => absurd checked unchecked, marked.forced, fun checked => absurd checked unchecked⟩
      exact (admitted.startIauth live).check live .unused nofun

theorem Marks.done (marks : Marks w s) (live : s.auth c = some a) (attach : Attach) :
    Marks w (doneClient w s c a attach) := by
  have told := marks.record live { s.past c with answered := true } rfl rfl
  have marked := told.marked c a live
  unfold doneClient
  cases attach with
  | unchanged => exact told.check live .iauth nofun
  | attached =>
    refine Marks.check ?_ (by exact live) .iauth nofun
    exact told.client live _ (told.coming c a live) ⟨marked.plain, marked.kept, marked.forced, marked.port⟩
  | full => exact told.exit c

theorem Marks.name (marks : Marks w s) (live : s.auth c = some a) (username : List Char) (f : Flags)
    (checked : f.glineChecked = (s.request a).flags.glineChecked) :
    Marks w ((s.setClient c { s.client c with username := username, gotId := true }).setFlags a f) := by
  have marked := marks.marked c a live
  have updated := marks.update live { s.request a with flags := f }
    { s.client c with username := username, gotId := true } (s.past c) s.queries (marks.own c a live)
    (marks.coming c a live) ⟨fun _ _ => nofun, fun _ => nofun, fun _ => rfl, fun done => marked.port (checked ▸ done)⟩
  simp only [Function.update_eq_self] at updated
  exact updated

theorem Marks.iauth (marks : Marks w s) (live : s.auth c = some a) (message : Message) :
    Marks w (iauthCommand w s c a message) := by
  have marked := marks.marked c a live
  unfold iauthCommand
  cases message with
  | usernameForced name =>
    dsimp only
    split
    · exact marks.check live .auth (by rintro ⟨⟩)
    · have named := marks.name live (name.take userLen)
        { (s.request a).flags with iauthUsername := true, iauthFUsername := true } rfl
      exact named.check live .auth (by rintro ⟨⟩)
  | usernameGood name =>
    dsimp only
    split
    · exact marks.check live .auth (by rintro ⟨⟩)
    · have named := marks.name live (name.take userLen) { (s.request a).flags with iauthUsername := true } rfl
      exact named.check live .auth (by rintro ⟨⟩)
  | usernameBad name =>
    dsimp only
    split
    · exact marks.check live .auth (by rintro ⟨⟩)
    · refine Marks.check ?_ (by exact live) .auth (by rintro ⟨⟩)
      have updated := marks.update live (s.request a) { s.client c with userUsername := name.take userLen }
        { s.past c with renamed := true } s.queries (marks.own c a live) (marks.coming c a live)
        ⟨fun _ _ _ => (by rintro ⟨⟩), fun _ _ _ => (by rintro ⟨⟩), marked.forced, marked.port⟩
      simp only [Function.update_eq_self] at updated
      exact updated
  | hostname name =>
    dsimp only
    split
    · exact marks
    · have queries : (if (s.request a).flags.dnsPending = true then deleteResolverQueries s a else s) =
          { s with queries := if (s.request a).flags.dnsPending = true then (deleteResolverQueries s a).queries
            else s.queries } := by
        split
        · rfl
        · rfl
      have unasked := marks.unquery
        (if (s.request a).flags.dnsPending = true then (deleteResolverQueries s a).queries else s.queries)
      let x : Client := { s.client c with sockhost := name.take hostLen }
      have named :
          let y := if (s.request a).flags.iauthHurry = true then { x with host := x.sockhost, realhost := x.sockhost } else x
          y.status ≠ .user ∧ Marked w (s.request a).flags y (s.past c) := by
        dsimp only
        split
        · exact ⟨marks.coming c a live, marked.plain, marked.kept, marked.forced, marked.port⟩
        · exact ⟨marks.coming c a live, marked.plain, marked.kept, marked.forced, marked.port⟩
      rw [queries]
      refine Marks.check ?_ (by exact live) .dns (by rintro ⟨⟩)
      exact unasked.client live _ named.1 named.2
  | ipAddress ip =>
    cases ip with
    | none => exact marks
    | some ip =>
      refine Marks.check ?_ (by exact live) .dns (by rintro ⟨⟩)
      have saved := marks.request live { s.request a with
        original := if (s.request a).original.valid then (s.request a).original else (s.client c).ip } rfl marked
      refine saved.client live { s.client c with ip := ip } (marks.coming c a live) ?_
      simp only [State.setRequest, Function.update_self]
      exact ⟨marked.plain, marked.kept, marked.forced, marked.port⟩
  | softDone =>
    exact (marks.request live { s.request a with flags := { (s.request a).flags with iauthSoftDone := true } } rfl
      ⟨marked.plain, marked.kept, marked.forced, marked.port⟩).check live .softDone (by rintro ⟨⟩)
  | doneClient attach => exact marks.done live attach
  | doneAccount account attach =>
    dsimp only
    split
    · exact marks.done live attach
    · exact marks

theorem Marks.kill (marks : Marks w s) (c : κ) : Marks w (iauthKill s c) := by
  unfold iauthKill
  cases live : s.auth c with
  | none => exact marks.exit c
  | some a =>
    have marked := marks.marked c a live
    exact (marks.request live { s.request a with flags := { (s.request a).flags with iauthPending := false } } rfl
      ⟨marked.plain, marked.kept, marked.forced, marked.port⟩).exit c

theorem Marks.opened (marks : Marks w s) (unowned : ∀ d, s.auth d ≠ some a) (blank : s.past c = .none)
    (port : Port) {x : Client} (status : x.status = port.status) (name : x.userUsername = []) :
    Marks w (newRequest s c a x port.flags) := by
  have coming : x.status ≠ .user := by
    rw [status]
    cases port <;> nofun
  have named : Marked w port.flags x (s.past c) := by
    rw [blank]
    refine ⟨fun _ _ _ _ => name, ?_, ?_, ?_⟩
    · cases port <;> nofun
    · cases port <;> nofun
    · cases port <;> nofun
  refine (marks.held.opened unowned ⟨named, coming⟩).marks fun d user => ?_
  by_cases same : d = c
  · simp only [same, newRequest, Function.update_self] at user
    exact absurd user coming
  · simp only [newRequest, Function.update_of_ne same] at user ⊢
    exact marks.registered d user

theorem Marks.startDns (marks : Marks w s) (live : s.auth c = some a) :
    Marks w (startDnsQuery w s c a) := by
  have marked := marks.marked c a live
  unfold startDnsQuery
  split
  · exact marks
  · split
    · exact marks.client live _ (marks.coming c a live) ⟨marked.plain, marked.kept, marked.forced, marked.port⟩
    · exact (marks.request live { s.request a with flags := { (s.request a).flags with dnsPending := true } } rfl
        ⟨marked.plain, marked.kept, marked.forced, marked.port⟩).unquery _

theorem Marks.ident (marks : Marks w s) (live : s.auth c = some a) (socket pending : Bool) :
    Marks w (s.setRequest a { s.request a with
      socket := socket
      flags := { (s.request a).flags with authPending := pending } }) := by
  have marked := marks.marked c a live
  exact marks.request live _ rfl ⟨marked.plain, marked.kept, marked.forced, marked.port⟩

theorem Marks.start (marks : Marks w s) {fresh : σ} (unowned : ∀ d, s.auth d ≠ some (s.freelist.getD fresh))
    (blank : s.past c = .none) (port : Port) (ip : InAddr) (text : List Char) (readable : Bool) (ident : Ident)
    (late : finishedEarly w port ip ident = false) :
    Marks w (startAuth w s c fresh port ip text readable ident) := by
  let a := s.freelist.getD fresh
  let x : Client := { Client.unborn with status := port.status, ip := ip, sockhost := text }
  have base : Marks w (newRequest s c a x port.flags) := marks.opened unowned blank port rfl rfl
  have live : (newRequest s c a x port.flags).auth c = some a := Function.update_self ..
  cases readable with
  | false =>
    rw [startAuth_unreadable]
    refine base.leave live rfl ?_ (fun b other => Function.update_of_ne other _ _) (fun _ _ => rfl) fun _ _ => rfl
    have emptied : ((newRequest s c a x port.flags).setFlags a Flags.none).request a =
        { (newRequest s c a x port.flags).request a with flags := Flags.none } := Function.update_self ..
    exact (congrArg Request.client emptied).trans (base.own c a live)
  | true =>
    rw [startAuth_started]
    cases port with
    | webirc => exact base.check live .unused nofun
    | server =>
      have asked := base.startDns live
      obtain ⟨live', socket, pending, value⟩ := startedAuth_server w s c a text late
      rw [value]
      exact (asked.ident live' socket pending).check live' .unused nofun
    | user =>
      have handed := base.startIauth live
      have asked := handed.startDns live
      obtain ⟨live', socket, pending, value⟩ := startedAuth_user w s c a text late
      rw [value]
      exact (asked.ident live' socket pending).check live' .unused nofun

theorem Marks.command (marks : Marks w s) {act : σ → State σ κ} (acts : ∀ a, s.auth c = some a → Marks w (act a)) :
    Marks w (s.command c act) :=
  State.command_keeps marks (marks.exit c) acts

omit [DecidableEq σ] [DecidableEq κ] in
theorem Marks.anyPort (marks : Marks w s) {act : σ → State σ κ} (acts : ∀ a, s.auth c = some a → Marks w (act a)) :
    Marks w (s.anyPort c act) :=
  State.anyPort_keeps marks acts

theorem Marks.step (marks : Marks w s) (good : Good s) (event : Event σ κ) (permitted : Permitted s event)
    (minded : Minded w s event) (keeps : keepsMark s event = true) : Marks w (Auth.step w s event) := by
  unfold Auth.step
  cases event with
  | start c fresh port ip text readable ident =>
    have blank := (good.unborn c permitted.1).2.1
    exact marks.start (good.fresh_cell permitted.2) blank port ip text readable ident minded
  | dnsReply a c answer =>
    exact (marks.unquery (s.queries.erase (a, c))).dnsReply (good.queries (a, c) permitted).1 answer
  | identReply a username =>
    obtain ⟨c, live⟩ := good.in_use (.inl permitted)
    exact marks.identReply live username
  | authTimeout a =>
    obtain ⟨c, live⟩ := good.in_use (.inr permitted)
    exact marks.authTimeout live
  | pingTimeout c =>
    dsimp only
    split
    · exact marks.pingTimeout c
    · exact marks
  | nick c cookie =>
    refine marks.command fun a live => ?_
    split
    · exact marks
    · have marked := marks.marked c a live
      exact (marks.client live { s.client c with named := true } (marks.coming c a live)
        ⟨marked.plain, marked.kept, marked.forced, marked.port⟩).nick live cookie
  | user c username info => exact marks.command fun a live => marks.user live username info keeps
  | pong c cookie => exact marks.anyPort fun a live => marks.pong live cookie
  | pass c password =>
    refine marks.anyPort fun a live => ?_
    have marked := marks.marked c a live
    exact marks.client live _ (marks.coming c a live) ⟨marked.plain, marked.kept, marked.forced, marked.port⟩
  | capStart c => exact marks.anyPort fun a live => marks.capStart live
  | capEnd c =>
    exact marks.anyPort fun a live => (marks.record live { s.past c with cap := false } rfl rfl).check live .cap nofun
  | webirc c authorized admitted hostname ip =>
    dsimp only
    split
    · rename_i port
      cases live : s.auth c with
      | none => exact marks
      | some a => exact marks.webirc_in live port authorized admitted hostname ip
    · split
      · exact marks.exit c
      · exact marks
  | iauth c message =>
    dsimp only
    split
    · unfold iauthParse
      cases live : s.auth c with
      | none => exact marks
      | some a =>
        dsimp only
        split
        · exact marks.iauth live message
        · exact marks
    · exact marks
  | iauthKill c =>
    dsimp only
    split
    · exact marks.kill c
    · exact marks
  | iauthSession connected required => exact ⟨marks.own, marks.marked, marks.coming, marks.registered⟩
  | exit c =>
    dsimp only
    split
    · exact marks.exit c
    · exact marks

theorem Reachable.marks [Inhabited κ]
    (reachable : Reachable w (fun s event => Minded w s event ∧ keepsMark s event = true) s) :
    Good s ∧ Marks w s := by
  induction reachable with
  | init => exact ⟨good_init, marks_init⟩
  | step event _ permitted careful before =>
    obtain ⟨good, marks⟩ := before
    exact ⟨good.step w event permitted careful.1, marks.step good event permitted careful.1 careful.2⟩

/-- Whoever is registered through a block that wants ident, with a name that neither the ident server nor iauth has
given, has the mark before the name of its last `USER`. -/
theorem unconfirmed_marked [Inhabited κ] {s : State σ κ}
    (reachable : Reachable w (fun s event => Minded w s event ∧ keepsMark s event = true) s) :
    ∀ c, (s.client c).status = .user → (s.client c).gotId = false → (s.client c).doId = true →
      (s.past c).renamed = false →
        (s.client c).userUsername = mark w (s.client c) :: (s.past c).claimed.take (userLen - 1) :=
  fun c user unknown wants own => reachable.marks.2.registered c user unknown wants own

def identWorld : World := { openWorld with noDns := true, wantsIdent := fun _ => true }

theorem unconfirmed_marked_login :
    let s := run identWorld (State.init Nat Nat) [.start 0 0 .user noAddress ['h'] true .waiting, .nick 0 6,
      .user 0 ['a', 'b'] ['r'], .user 0 ['c', 'd'] ['r'], .identReply 0 [], .pong 0 7]
    (s.client 0).status = .user ∧ (s.client 0).userUsername = ['~', 'c', 'd'] ∧
      (s.client 0).userUsername = mark identWorld (s.client 0) :: (s.past 0).claimed.take (userLen - 1) := by
  refine ⟨by decide +kernel, by decide +kernel, ?_⟩
  exact unconfirmed_marked (Reachable.init.run (by decide +kernel)) 0 (by decide +kernel) (by decide +kernel)
    (by decide +kernel) (by decide +kernel)

/-- `USER` comes in again between the mark and the nick. -/
theorem unmarked_registration : ¬ ∀ (w : World) (s : State Nat Nat), Reachable w (fun _ _ => True) s →
    ∀ c, (s.client c).status = .user → (s.client c).gotId = false → (s.client c).doId = true →
      (s.past c).renamed = false →
        (s.client c).userUsername = mark w (s.client c) :: (s.past c).claimed.take (userLen - 1) := by
  intro marked
  let events : List (Event Nat Nat) := [.start 0 0 .user noAddress ['h'] true .failed, .user 0 ['a'] ['r'],
    .user 0 ['b'] ['r'], .nick 0 6, .pong 0 7]
  have reachable : Reachable identWorld (fun _ _ => True) (run identWorld (State.init Nat Nat) events) :=
    Reachable.init.run (by decide +kernel)
  have unmarked : let s := run identWorld (State.init Nat Nat) events
      (s.client 0).status = .user ∧ (s.client 0).gotId = false ∧ (s.client 0).doId = true ∧
        (s.past 0).renamed = false ∧ (s.client 0).userUsername = ['b'] ∧ (s.past 0).claimed = ['b'] := by
    decide +kernel
  generalize run identWorld (State.init Nat Nat) events = s at reachable unmarked
  obtain ⟨user, unknown, wants, own, name, claimed⟩ := unmarked
  have shown := marked _ s reachable 0 user unknown wants own
  rw [name, claimed] at shown
  have longer : (mark identWorld (s.client 0) :: ['b'].take (userLen - 1)).length = 2 := rfl
  exact absurd ((congrArg List.length shown).trans longer) (by decide)

end Ircd.Auth

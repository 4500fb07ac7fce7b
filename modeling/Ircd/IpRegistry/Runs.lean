import Ircd.IpRegistry.Counting

/-! Runs of the registry: calls in any order, each accepted client leaving at most once. -/

set_option autoImplicit false

namespace Ircd.IpRegistry
open Ircd.Library Ircd.Net

/-- The registry, and the address of each client accepted and not yet gone. -/
structure State where
  reg : Registry := {}
  live : List InAddr := []

inductive Call where
  | checkLocal (env : Env) (addr : InAddr)
  | checkRemote (env : Env) (ip : InAddr) (is_burst : Bool)
  | connectFail (env : Env) (addr : InAddr) (leave : Bool)
  | disconnect (env : Env) (client : Client)
  | expire (env : Env)

def State.accept (s : State) (a : InAddr) (reg : Registry) (ok : Bool) : State :=
  ⟨reg, if ok then a :: s.live else s.live⟩

/-- What a call does; `none` when an assertion fails in it. -/
def step (s : State) : Call → Option State
  | .checkLocal env addr => some (s.accept addr (checkLocal env s.reg addr).1 (checkLocal env s.reg addr).2.1)
  | .checkRemote env ip is_burst =>
    some (s.accept ip (checkRemote env s.reg ip is_burst).1 (checkRemote env s.reg ip is_burst).2)
  | .connectFail env addr leave =>
    (connectFail env s.reg addr leave).map fun reg => ⟨reg, if leave then s.live.erase addr else s.live⟩
  | .disconnect env client => (disconnect env s.reg client).map fun reg => ⟨reg, s.live.erase client.ip⟩
  | .expire env => some { s with reg := expire env s.reg }

def Call.allowed (s : State) : Call → Prop
  | .connectFail _ addr true => addr ∈ s.live
  | .disconnect _ client => client.ip ∈ s.live
  | _ => True

/-- The clients of a canonical address. Those of `::` count for none: the registry takes
them for clients without an address. -/
def clientsAt (live : List InAddr) (k : InAddr) : Nat := live.countP fun a => a.valid && canonicalize a = k

/-- No remote client comes to an address whose counter is at its end, and no local client
comes from `::`. -/
def Call.countable (s : State) : Call → Prop
  | .checkLocal _ addr => addr.valid = true
  | .checkRemote _ ip _ => ip.valid = true → clientsAt s.live (canonicalize ip) < 65535
  | .connectFail _ addr leave => leave = true → addr.valid = true
  | _ => True

inductive Run (meets : State → Call → Prop) : State → Prop
  | init : Run meets {}
  | call {s s' : State} {c : Call} (run : Run meets s) (allowed : c.allowed s) (met : meets s c)
      (next : step s c = some s') : Run meets s'

/-- The counter of an entry is the number of its clients, and an address with clients has one. -/
structure Counted (s : State) : Prop where
  connected : ∀ a e, s.reg.find a = some e → e.connected.toNat = clientsAt s.live (canonicalize a)
  kept : ∀ a, s.reg.find a = none → clientsAt s.live (canonicalize a) = 0

theorem clientsAt_cons (a : InAddr) (live : List InAddr) (k : InAddr) (valid : a.valid = true) :
    clientsAt (a :: live) k = if k = canonicalize a then clientsAt live (canonicalize a) + 1 else clientsAt live k := by
  unfold clientsAt
  by_cases here : k = canonicalize a
  · rw [if_pos here, here, List.countP_cons_of_pos (by simp [valid])]
  · rw [if_neg here, List.countP_cons_of_neg (by simp [Ne.symm here])]

theorem clientsAt_erase {a : InAddr} {live : List InAddr} (k : InAddr) (valid : a.valid = true) (there : a ∈ live) :
    clientsAt (live.erase a) k =
      if k = canonicalize a then clientsAt live (canonicalize a) - 1 else clientsAt live k := by
  unfold clientsAt
  rw [List.countP_erase]
  by_cases here : k = canonicalize a
  · simp [here, there, valid]
  · simp [here, Ne.symm here]

theorem clientsAt_cons_invalid {a : InAddr} (live : List InAddr) (k : InAddr) (invalid : a.valid = false) :
    clientsAt (a :: live) k = clientsAt live k := by
  unfold clientsAt
  rw [List.countP_cons_of_neg (by simp [invalid])]

theorem clientsAt_erase_invalid {a : InAddr} (live : List InAddr) (k : InAddr) (invalid : a.valid = false) :
    clientsAt (live.erase a) k = clientsAt live k := by
  unfold clientsAt
  rw [List.countP_erase]
  simp [invalid]

theorem clientsAt_pos {a : InAddr} {live : List InAddr} (valid : a.valid = true) (there : a ∈ live) :
    0 < clientsAt live (canonicalize a) :=
  List.countP_pos_iff.mpr ⟨a, there, by simp [valid]⟩

structure Exact (s : State) : Prop where
  sound : Sound s.reg
  count : ∀ k, s.reg.connectedAt k = clientsAt s.live k

theorem Exact.counted {s : State} (exact : Exact s) : Counted s := by
  refine ⟨fun a e found => ?_, fun a absent => ?_⟩
  · rw [← exact.sound.connectedAt_some found, exact.count]
  · rw [← exact.sound.connectedAt_none absent, exact.count]

theorem exact_empty : Exact {} := by
  refine ⟨⟨chained_empty, by simp⟩, fun k => rfl⟩

theorem Exact.changes {s : State} {reg' : Registry} {live' : List InAddr} {a : InAddr} {n : Nat} (exact : Exact s)
    (changes : Changes s.reg reg' a n)
    (clients : ∀ k, clientsAt live' k = if k = canonicalize a then n else clientsAt s.live k) :
    Exact ⟨reg', live'⟩ := by
  refine ⟨changes.sound, fun k => ?_⟩
  rw [changes.count, clients, exact.count]

theorem clientsAt_same (live : List InAddr) (a k : InAddr) :
    clientsAt live k = if k = canonicalize a then clientsAt live (canonicalize a) else clientsAt live k := by
  by_cases here : k = canonicalize a
  · rw [if_pos here, here]
  · rw [if_neg here]

theorem step_exact {s : State} {c : Call} (exact : Exact s) (allowed : c.allowed s) (countable : c.countable s) :
    ∃ s', step s c = some s' ∧ Exact s' := by
  cases c with
  | checkLocal env addr =>
    refine ⟨s.accept addr _ _, rfl, exact.changes (checkLocal_spec env exact.sound addr) fun k => ?_⟩
    rw [exact.count]
    cases (checkLocal env s.reg addr).2.1 with
    | true => exact clientsAt_cons addr s.live k countable
    | false => exact clientsAt_same s.live addr k
  | checkRemote env ip is_burst =>
    cases valid : ip.valid with
    | true =>
      have room := countable valid
      rw [← exact.count] at room
      obtain ⟨accepted, changes⟩ := checkRemote_spec env exact.sound valid is_burst room
      refine ⟨s.accept ip _ _, rfl, exact.changes changes fun k => ?_⟩
      rw [accepted, if_pos rfl, exact.count, clientsAt_cons ip s.live k valid]
    | false =>
      have ignored := checkRemote_invalid env s.reg valid is_burst
      refine ⟨⟨s.reg, ip :: s.live⟩, by rw [step, ignored]; rfl, exact.sound, fun k => ?_⟩
      rw [clientsAt_cons_invalid s.live k valid]
      exact exact.count k
  | connectFail env addr leave =>
    have there : leave = true → 0 < s.reg.connectedAt (canonicalize addr) := by
      rintro rfl
      rw [exact.count]
      exact clientsAt_pos (countable rfl) allowed
    obtain ⟨reg', result, changes⟩ := connectFail_spec env exact.sound addr there
    refine ⟨_, by rw [step, result]; rfl, exact.changes changes fun k => ?_⟩
    rw [exact.count]
    cases leave with
    | true => exact clientsAt_erase k (countable rfl) allowed
    | false => exact clientsAt_same s.live addr k
  | disconnect env client =>
    cases valid : client.ip.valid with
    | true =>
      have there : 0 < s.reg.connectedAt (canonicalize client.ip) := by
        rw [exact.count]
        exact clientsAt_pos valid allowed
      obtain ⟨reg', result, changes⟩ := disconnect_spec env exact.sound valid there
      refine ⟨_, by rw [step, result]; rfl, exact.changes changes fun k => ?_⟩
      rw [exact.count, clientsAt_erase k valid allowed]
    | false =>
      have ignored : disconnect env s.reg client = some s.reg := by rw [disconnect, if_pos (by simp [valid])]
      refine ⟨⟨s.reg, s.live.erase client.ip⟩, by rw [step, ignored]; rfl, exact.sound, fun k => ?_⟩
      rw [clientsAt_erase_invalid s.live k valid]
      exact exact.count k
  | expire env =>
    obtain ⟨sound, count⟩ := expire_spec env exact.sound
    exact ⟨_, rfl, sound, fun k => (count k).trans (exact.count k)⟩

theorem run_exact {s : State} (run : Run Call.countable s) : Exact s := by
  induction run with
  | init => exact exact_empty
  | call run allowed met next ih =>
    obtain ⟨s', result, exact⟩ := step_exact ih allowed met
    rw [next] at result
    cases result
    exact exact

/-- In every run of countable calls each counter is the number of clients, an address with
clients keeps its entry, and no assertion fails in the next call. -/
theorem run_counts_clients {s : State} (run : Run Call.countable s) :
    Counted s ∧ ∀ c : Call, c.allowed s → c.countable s → (step s c).isSome := by
  have exact := run_exact run
  refine ⟨exact.counted, fun c allowed countable => ?_⟩
  obtain ⟨s', result, -⟩ := step_exact exact allowed countable
  rw [result]
  rfl

theorem Run.mono {meets meets' : State → Call → Prop} (weaker : ∀ s c, meets s c → meets' s c) {s : State}
    (run : Run meets s) : Run meets' s := by
  induction run with
  | init => exact .init
  | call run allowed met next ih => exact .call ih allowed (weaker _ _ met) next

def quiet : Env := ⟨0, 0, 3, 40, 50, 10, 600, true⟩

def loopback : InAddr := .mapped 0x7f00 0x0001

theorem exists_run {n : Nat} (fits : n ≤ 65535) :
    ∃ s, Run Call.countable s ∧ clientsAt s.live (canonicalize loopback) = n := by
  induction n with
  | zero => exact ⟨{}, .init, rfl⟩
  | succ n ih =>
    obtain ⟨s, run, count⟩ := ih (by omega)
    have room : clientsAt s.live (canonicalize loopback) < 65535 := by omega
    have exact := run_exact run
    have spec := checkRemote_spec quiet exact.sound (a := loopback) (by decide) true
      (by rw [exact.count]; exact room)
    refine ⟨s.accept loopback _ _, run.call (c := .checkRemote quiet loopback true) trivial (fun _ => room) rfl, ?_⟩
    rw [State.accept, spec.1, if_pos rfl, clientsAt_cons loopback s.live _ (by decide), if_pos rfl, count]

theorem run_counts_clients_loopback :
    ∃ s, Run Call.countable s ∧ clientsAt s.live (canonicalize loopback) = 2 ∧ Counted s := by
  obtain ⟨s, run, two⟩ := exists_run (n := 2) (by decide)
  exact ⟨s, run, two, (run_counts_clients run).1⟩

/-- With 65535 clients of one address a further remote client is refused, but the counter
has wrapped to zero. -/
theorem run_not_counts_clients : ¬ ∀ s, Run (fun _ _ => True) s → Counted s := by
  intro every
  obtain ⟨s, run, count⟩ := exists_run (Nat.le_refl 65535)
  have exact := run_exact run
  have valid : loopback.valid = true := by decide
  have ipv4 : loopback.isIpv4 = true := by decide
  cases found : s.reg.find loopback with
  | none =>
    have empty := exact.counted.kept loopback found
    omega
  | some e =>
    have full : e.connected = 65535 := by
      apply UInt16.toNat_inj.mp
      rw [exact.counted.connected loopback e found, count]
      rfl
    have refused : checkRemote quiet s.reg loopback true = (s.reg.set loopback { e with connected := 0 }, false) := by
      simp [checkRemote, valid, ipv4, found, full]
    have next : step s (.checkRemote quiet loopback true) =
        some ⟨s.reg.set loopback { e with connected := 0 }, s.live⟩ := by
      rw [step, refused]
      rfl
    have counted := every _ (.call (c := .checkRemote quiet loopback true) (run.mono fun _ _ _ => trivial)
      trivial trivial next)
    have wrapped : Changes s.reg (s.reg.set loopback { e with connected := 0 }) loopback 0 :=
      @Sound.set _ _ _ exact.sound found { e with connected := 0 } rfl 0 rfl
    have zero := wrapped.count (canonicalize loopback)
    rw [if_pos rfl] at zero
    cases found' : (s.reg.set loopback { e with connected := 0 }).find loopback with
    | none =>
      have empty := counted.kept loopback found'
      simp only at empty
      omega
    | some e' =>
      have clients := counted.connected loopback e' found'
      rw [← wrapped.sound.connectedAt_some found', zero, count] at clients
      exact absurd clients (by decide)

end Ircd.IpRegistry

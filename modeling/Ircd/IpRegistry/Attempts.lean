import Ircd.IpRegistry.Runs

/-! `ip_registry_connect_fail` takes one attempt back from the counters of an address.

The counters are lowered before they are looked at. One that stands at zero goes round to its largest
value, and a /48 entry that the call has to make starts at zero.
-/

set_option autoImplicit false

namespace Ircd.IpRegistry
open Ircd.Library Ircd.Net

def Registry.find48 (reg : Registry) (ip : InAddr) : Option IPRegistry48 :=
  (reg.hashTable48 (hash48 ip)).find? fun e => e.addr = block48 ip

def Registry.attemptsOf (reg : Registry) (a : InAddr) : Nat :=
  ((reg.find a).map fun e => e.attempts.toNat).getD 0

def Registry.attempts48 (reg : Registry) (a : InAddr) : Nat :=
  ((reg.find48 a).map fun e => e.attempts.toNat).getD 0

section
variable {reg : Registry} {a : InAddr}

variable {e : IPRegistryEntry}

theorem find_set {e' : IPRegistryEntry} (found : reg.find a = some e) (same : e'.addr = e.addr) :
    (reg.set a e').find a = some e' := by
  unfold Registry.find at found
  have picked : sameBlock (canonicalize a) e = true := List.find?_some found
  have here : sameBlock (canonicalize a) e' = true := by
    rw [sameBlock, same]
    exact picked
  unfold Registry.find Registry.set overwrite
  dsimp only
  rw [Function.update_self]
  exact find?_lookmap_pos found here

theorem attemptsOf_set {e' : IPRegistryEntry} (found : reg.find a = some e) (same : e'.addr = e.addr) :
    (reg.set a e').attemptsOf a = e'.attempts.toNat := by
  rw [Registry.attemptsOf, find_set found same]
  rfl

theorem attemptsOf_some (found : reg.find a = some e) :
    reg.attemptsOf a = e.attempts.toNat := by
  rw [Registry.attemptsOf, found]
  rfl

theorem attemptsOf_none (absent : reg.find a = none) : reg.attemptsOf a = 0 := by
  rw [Registry.attemptsOf, absent]
  rfl

theorem attempts48_of_table {reg' : Registry} (table : reg'.hashTable48 = reg.hashTable48) (b : InAddr) :
    reg'.attempts48 b = reg.attempts48 b := by
  rw [Registry.attempts48, Registry.attempts48, Registry.find48, Registry.find48, table]

/-- What `modify48` leaves for the block: the entry that was there or a new one, changed. -/
theorem find48_modify48 (env : Env) (reg : Registry) (a : InAddr) {f : IPRegistry48 → IPRegistry48}
    (keeps : ∀ e, (f e).addr = e.addr) : (reg.modify48 env a f).1.find48 a =
      some (f ((reg.find48 a).getD { last_connect := env.now, addr := block48 a })) := by
  unfold Registry.modify48 Registry.find48
  cases found : (reg.hashTable48 (hash48 a)).find? fun e => e.addr = block48 a with
  | some e =>
    have picked : decide (e.addr = block48 a) = true :=
      @List.find?_some _ (fun e : IPRegistry48 => decide (e.addr = block48 a)) _ _ found
    have here : decide ((f e).addr = block48 a) = true := by
      rw [keeps]
      exact picked
    dsimp only
    rw [overwrite, Function.update_self]
    exact find?_lookmap_pos found here
  | none =>
    dsimp only
    rw [pushFront, Function.update_self]
    exact List.find?_cons_of_pos (by rw [keeps]; exact decide_eq_true rfl)

theorem attempts48_modify48 (env : Env) (reg : Registry) (a : InAddr) (g : UInt16 → UInt16) :
    (reg.modify48 env a fun e => { e with attempts := g e.attempts }).1.attempts48 a =
      (g (UInt16.ofNat (reg.attempts48 a))).toNat := by
  have kept (e : IPRegistry48) : { e with attempts := g e.attempts }.addr = e.addr := rfl
  rw [Registry.attempts48, find48_modify48 env reg a kept, Registry.attempts48]
  cases reg.find48 a with
  | some e => exact congrArg (fun n => (g n).toNat) UInt16.ofNat_toNat.symm
  | none => rfl

theorem lower8_le_iff (n : UInt8) : (lower8 n).toNat ≤ n.toNat ↔ n ≠ 0 := by
  by_cases zero : n = 0
  · subst zero
    decide
  refine iff_of_true ?_ zero
  have bound := n.toNat_lt
  have positive : n.toNat ≠ 0 := fun none_left => zero (UInt8.toNat_inj.mp none_left)
  have below : (n - 1).toNat ≤ n.toNat := by
    rw [UInt8.toNat_sub]
    simp only [UInt8.reduceToNat]
    omega
  unfold lower8
  split
  · rw [UInt8.sub_add_cancel]
  · exact below

theorem lower16_le_iff (n : UInt16) : (lower16 n).toNat ≤ n.toNat ↔ n ≠ 0 := by
  by_cases zero : n = 0
  · subst zero
    decide
  refine iff_of_true ?_ zero
  have below := pred_toNat zero
  unfold lower16
  split
  · rw [UInt16.sub_add_cancel]
  · omega

theorem connectFail_counters {env : Env} {leave : Bool} {reg' : Registry}
    (goes : connectFail env reg a leave = some reg') :
    reg'.attemptsOf a = ((reg.find a).map fun e => (lower8 e.attempts).toNat).getD 0 ∧
      reg'.attempts48 a = if a.isIpv4 then reg.attempts48 a else
        (lower16 (UInt16.ofNat (reg.attempts48 a))).toNat := by
  unfold connectFail at goes
  extract_lets entry lowered at goes
  have table : lowered.hashTable = reg.hashTable := by
    unfold lowered
    split
    · rfl
    · exact hashTable_modify48 ..
  have block : lowered.attempts48 a = if a.isIpv4 then reg.attempts48 a else
      (lower16 (UInt16.ofNat (reg.attempts48 a))).toNat := by
    unfold lowered
    split
    · rfl
    · exact attempts48_modify48 env reg a lower16
  have same : lowered.find a = entry := find_of_table table a
  rw [← block]
  change _ = (entry.map _).getD 0 ∧ _
  cases found : entry with
  | none =>
    rw [found] at goes same
    obtain rfl := Option.some.inj goes
    exact ⟨attemptsOf_none same, rfl⟩
  | some e =>
    rw [found] at goes same
    dsimp only at goes
    split at goes
    · split at goes
      · cases goes
      · obtain rfl := Option.some.inj goes
        exact ⟨attemptsOf_set same rfl, rfl⟩
    · obtain rfl := Option.some.inj goes
      exact ⟨attemptsOf_set same rfl, rfl⟩

def Spares (reg reg' : Registry) (a : InAddr) : Prop :=
  reg'.attemptsOf a ≤ reg.attemptsOf a ∧ reg'.attempts48 a ≤ reg.attempts48 a

/-- There is an attempt to take back: the entry of the address has counted one, if there is an entry, and
so has that of the /48 block, for an address that has one. -/
def Attempted (reg : Registry) (a : InAddr) : Prop :=
  (∀ e ∈ reg.find a, e.attempts ≠ 0) ∧ (a.isIpv4 = false → reg.attempts48 a ≠ 0)

theorem connectFail_spares {env : Env} {leave : Bool} {reg' : Registry}
    (goes : connectFail env reg a leave = some reg') : Spares reg reg' a ↔ Attempted reg a := by
  obtain ⟨entry, block⟩ := connectFail_counters goes
  unfold Spares Attempted
  rw [entry, block]
  have own : ((reg.find a).map fun e => (lower8 e.attempts).toNat).getD 0 ≤ reg.attemptsOf a ↔
      ∀ e ∈ reg.find a, e.attempts ≠ 0 := by
    cases found : reg.find a with
    | none => simp
    | some e =>
      rw [attemptsOf_some found]
      simpa using lower8_le_iff e.attempts
  have block : (if a.isIpv4 then reg.attempts48 a else (lower16 (UInt16.ofNat (reg.attempts48 a))).toNat) ≤
      reg.attempts48 a ↔ (a.isIpv4 = false → reg.attempts48 a ≠ 0) := by
    cases a.isIpv4 with
    | true => simp
    | false =>
      rw [if_neg Bool.false_ne_true, forall_prop_of_true rfl, Registry.attempts48]
      cases reg.find48 a with
      | none => exact (lower16_le_iff 0).trans (not_congr (iff_of_true rfl rfl))
      | some e =>
        rw [Option.map_some, Option.getD_some, UInt16.ofNat_toNat, lower16_le_iff]
        exact UInt16.toNat_inj.not.symm
  exact and_congr own block

theorem bump8_ne_zero (n : UInt8) : bump8 n ≠ 0 := by
  unfold bump8
  split <;> rename_i full
  · rw [UInt8.add_sub_cancel]
    rintro rfl
    exact absurd full (by decide)
  · exact full

theorem bump16_ne_zero (n : UInt16) : bump16 n ≠ 0 := by
  unfold bump16
  split <;> rename_i full
  · rw [UInt16.add_sub_cancel]
    rintro rfl
    exact absurd full (by decide)
  · exact full

theorem checkEntry_attempts {env : Env} (found : reg.find a = some e)
    (accepted : (checkEntry env reg a e).2.1 = true) :
    ∃ e', (checkEntry env reg a e).1.find a = some e' ∧ e'.attempts ≠ 0 := by
  unfold checkEntry at accepted ⊢
  dsimp only at accepted ⊢
  split at accepted
  · cases accepted
  · rename_i more
    rw [if_neg more]
    generalize updated : updateFreeTargets env _ = r at accepted ⊢
    have addr : r.1.addr = e.addr := by rw [← updated, updateFreeTargets_addr]
    have set (n : Int) := @find_set reg a e { r.1 with last_connect := n, attempts := bump8 r.1.attempts } found addr
    split
    · exact ⟨_, set _, bump8_ne_zero _⟩
    · split
      · rename_i many refuse
        rw [if_neg many, if_pos refuse] at accepted
        cases accepted
      · exact ⟨_, set _, bump8_ne_zero _⟩

theorem checkEntry_hashTable48 (env : Env) (reg : Registry) (a : InAddr) (e : IPRegistryEntry) :
    (checkEntry env reg a e).1.hashTable48 = reg.hashTable48 := by
  unfold checkEntry
  dsimp only
  generalize updateFreeTargets env _ = r
  split
  · rfl
  · split
    · rfl
    · split
      · rfl
      · rfl

theorem ipmaskCheckFrom_self (words : List UInt16) (bits : Nat) : InAddr.ipmaskCheckFrom words words bits = true := by
  induction words generalizing bits with
  | nil => rfl
  | cons w words ih =>
    rw [InAddr.ipmaskCheckFrom]
    split
    · rw [UInt16.xor_self, UInt16.toNat_zero, Nat.zero_shiftRight]
      rfl
    · rw [if_neg (not_not_intro rfl), ih]
      exact ite_self true

theorem find_add (here : e.addr = canonicalize a) : (reg.add e).find a = some e := by
  unfold Registry.find Registry.add pushFront
  dsimp only
  rw [here, Function.update_self]
  refine List.find?_cons_of_pos ?_
  rw [sameBlock, here]
  exact ipmaskCheckFrom_self _ _

theorem checkLocal_attempted {env : Env} (accepted : (checkLocal env reg a).2.1 = true) :
    Attempted (checkLocal env reg a).1 a := by
  unfold checkLocal at accepted ⊢
  generalize counted : (if a.isIpv4 = true then (reg, false) else _ : Registry × Bool) = r at accepted ⊢
  have table : r.1.hashTable = reg.hashTable := by
    rw [← counted]
    split
    · rfl
    · exact hashTable_modify48 env reg a (attempt48 env)
  have block : a.isIpv4 = false → r.1.attempts48 a ≠ 0 := by
    intro other
    have kept (e : IPRegistry48) : (attempt48 env e).addr = e.addr := rfl
    rw [← counted, other, if_neg Bool.false_ne_true, Registry.attempts48, find48_modify48 env reg a kept]
    exact fun zero => bump16_ne_zero _ (UInt16.toNat_inj.mp zero)
  have same : r.1.find a = reg.find a := find_of_table table a
  obtain ⟨reg₁, tooMany⟩ := r
  dsimp only at accepted same block ⊢
  cases tooMany with
  | true =>
    rw [if_pos rfl] at accepted
    split at accepted
    · cases accepted
    · split at accepted <;> cases accepted
  | false =>
    rw [if_neg Bool.false_ne_true] at accepted ⊢
    cases found : reg.find a with
    | none =>
      refine ⟨fun e mem => ?_, block⟩
      obtain rfl : newEntry env a = e := Option.some.inj ((find_add rfl).symm.trans mem)
      exact (by decide : (1 : UInt8) ≠ 0)
    | some e =>
      rw [found] at accepted same
      obtain ⟨e', left, attempts⟩ := checkEntry_attempts same accepted
      refine ⟨fun x mem => ?_, fun other => ?_⟩
      · obtain rfl : e' = x := Option.some.inj (left.symm.trans mem)
        exact attempts
      · dsimp only
        rw [attempts48_of_table (checkEntry_hashTable48 ..)]
        exact block other

end

/-- A run: its calls, each with the state before and the state behind it. -/
def Call.trace : State → List Call → Option (List (State × Call × State))
  | _, [] => some []
  | s, c :: calls => do
    let next ← step s c
    let later ← Call.trace next calls
    some ((s, c, next) :: later)

/-- A `connect_fail` finds attempts to take back. -/
def Call.Undoes (s : State) : Call → Prop
  | .connectFail _ addr _ => Attempted s.reg addr
  | _ => True

/-- A `connect_fail` raises neither counter of its address. -/
def Call.Spared (s s' : State) : Call → Prop
  | .connectFail _ addr _ => Spares s.reg s'.reg addr
  | _ => True

theorem step_spared {s s' : State} {c : Call} (next : step s c = some s') : c.Spared s s' ↔ c.Undoes s := by
  cases c with
  | connectFail env addr leave =>
    obtain ⟨reg', goes, same⟩ := Option.map_eq_some_iff.mp next
    subst same
    exact connectFail_spares goes
  | _ => exact Iff.rfl

theorem trace_cons {s next : State} {c : Call} {calls : List Call} {later : List (State × Call × State)}
    (goes : step s c = some next) (rest : Call.trace next calls = some later) :
    Call.trace s (c :: calls) = some ((s, c, next) :: later) := by
  rw [Call.trace, goes, Option.bind_eq_bind, Option.bind_some, rest]
  rfl

theorem trace_step {s : State} {calls : List Call} {trace : List (State × Call × State)}
    (runs : Call.trace s calls = some trace) {s₁ s₂ : State} {c : Call} (mem : (s₁, c, s₂) ∈ trace) :
    step s₁ c = some s₂ := by
  induction calls generalizing s trace with
  | nil =>
    obtain rfl := Option.some.inj runs
    exact absurd mem List.not_mem_nil
  | cons first calls ih =>
    obtain ⟨next, goes, runs⟩ := Option.bind_eq_some_iff.mp runs
    obtain ⟨later, rest, same⟩ := Option.bind_eq_some_iff.mp runs
    obtain rfl := Option.some.inj same
    rcases List.mem_cons.mp mem with here | mem
    · cases here
      exact goes
    · exact ih rest mem

/-- In every run no `connect_fail` raises a counter of its address if and only if each finds counters that are
not zero. -/
theorem connect_fails_spare {calls : List Call} {trace : List (State × Call × State)}
    (runs : Call.trace {} calls = some trace) :
    (∀ turn ∈ trace, turn.2.1.Spared turn.1 turn.2.2) ↔ ∀ turn ∈ trace, turn.2.1.Undoes turn.1 := by
  refine forall₂_congr fun turn mem => ?_
  obtain ⟨s, c, s'⟩ := turn
  exact step_spared (trace_step runs mem)

def atTime (t : Int) : Env := { quiet with CurrentTime := t }

/-- A client connects to this server and is turned away a second later. -/
def rejected : List Call := [.checkLocal (atTime 0) loopback, .connectFail (atTime 1) loopback true]

def oneClient : State := ⟨(checkLocal (atTime 0) {} loopback).1, [loopback]⟩

theorem connect_fails_spare_rejected : ∃ trace, Call.trace {} rejected = some trace ∧
    ∀ turn ∈ trace, turn.2.1.Spared turn.1 turn.2.2 := by
  have goes : (step oneClient (.connectFail (atTime 1) loopback true)).isSome = true := by decide +kernel
  obtain ⟨left, goes⟩ := Option.isSome_iff_exists.mp goes
  have runs : Call.trace {} rejected = some [({}, .checkLocal (atTime 0) loopback, oneClient),
      (oneClient, .connectFail (atTime 1) loopback true, left)] :=
    trace_cons rfl (trace_cons goes rfl)
  refine ⟨_, runs, (connect_fails_spare runs).mpr ?_⟩
  have counted : Attempted oneClient.reg loopback := checkLocal_attempted rfl
  intro turn mem
  rcases List.mem_cons.mp mem with rfl | mem
  · trivial
  · rw [List.mem_singleton.mp mem]
    exact counted

/-- While the client waits a burst brings another one of its address, long after the first. -/
def burstBetween : List Call :=
  [.checkLocal (atTime 0) loopback, .checkRemote (atTime 100) loopback true, .connectFail (atTime 101) loopback true]

def twoClients : State :=
  oneClient.accept loopback (checkRemote (atTime 100) oneClient.reg loopback true).1
    (checkRemote (atTime 100) oneClient.reg loopback true).2

theorem connect_fail_wraps : ¬∀ trace, Call.trace {} burstBetween = some trace →
    ∀ turn ∈ trace, turn.2.1.Spared turn.1 turn.2.2 := by
  intro spared
  have goes : (step twoClients (.connectFail (atTime 101) loopback true)).isSome = true := by decide +kernel
  obtain ⟨left, goes⟩ := Option.isSome_iff_exists.mp goes
  have runs : Call.trace {} burstBetween = some [({}, .checkLocal (atTime 0) loopback, oneClient),
      (oneClient, .checkRemote (atTime 100) loopback true, twoClients),
      (twoClients, .connectFail (atTime 101) loopback true, left)] :=
    trace_cons rfl (trace_cons rfl (trace_cons goes rfl))
  have undone : Attempted twoClients.reg loopback := (step_spared goes).mp
    (spared _ runs _ (List.mem_cons_of_mem _ (List.mem_cons_of_mem _ List.mem_cons_self)))
  have zero : (twoClients.reg.find loopback).map (fun e => e.attempts) = some 0 := by decide +kernel
  obtain ⟨e, found, none_left⟩ := Option.map_eq_some_iff.mp zero
  exact undone.1 e found none_left

end Ircd.IpRegistry

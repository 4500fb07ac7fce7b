import Ircd.IpRegistry.Registry
import Mathlib.Data.List.Find

/-! The counters of the registry against the clients that are there.

A sound table has one entry for a canonical address; every call changes the count of the
entry of its own address only, by what it does to the clients.
-/

set_option autoImplicit false

namespace Ircd.IpRegistry
open Ircd.Library Ircd.Net

structure Sound (reg : Registry) : Prop where
  chained : Chained registryHash IPRegistryEntry.addr reg.hashTable
  canonical : ∀ i, ∀ e ∈ reg.hashTable i, ∃ a, e.addr = canonicalize a

def Registry.entry (reg : Registry) (k : InAddr) : Option IPRegistryEntry :=
  lookup registryHash IPRegistryEntry.addr reg.hashTable k

theorem canonicalize_words (a : InAddr) :
    ∃ w₀ w₁ w₂ w₃, canonicalize a = ⟨[w₀, w₁, w₂, w₃, 0, 0, 0, 0], rfl⟩ := by
  unfold canonicalize
  split
  · exact ⟨_, _, _, _, rfl⟩
  · exact ⟨_, _, _, _, rfl⟩

/-- The 48 bits that are compared for a 6to4 address decide within a chain, since the hash
covers the fourth word. -/
theorem sameBlock_iff {a b : InAddr} {e : IPRegistryEntry} (canonical : e.addr = canonicalize b)
    (chain : registryHash e.addr = registryHash (canonicalize a)) :
    sameBlock (canonicalize a) e = true ↔ e.addr = canonicalize a := by
  obtain ⟨w₀, w₁, w₂, w₃, shape⟩ := canonicalize_words a
  obtain ⟨v₀, v₁, v₂, v₃, shape'⟩ := canonicalize_words b
  rw [canonical, shape'] at chain ⊢
  rw [shape] at chain ⊢
  simp only [registryHash, InAddr.word, List.getD_cons_zero, List.getD_cons_succ] at chain
  unfold sameBlock
  rw [canonical, shape']
  simp only [InAddr.ipmaskCheck, InAddr.word, List.getD_cons_zero, InAddr.mk.injEq, List.cons.injEq, and_true]
  by_cases sixToFour : w₀ = 0x2002
  · rw [if_pos sixToFour]
    simp only [InAddr.ipmaskCheckFrom]
    constructor
    · intro same
      simp at same
      obtain ⟨rfl, rfl, rfl⟩ := same
      simpa using chain
    · rintro ⟨rfl, rfl, rfl, rfl⟩
      simp
  · rw [if_neg sixToFour]
    simp only [InAddr.ipmaskCheckFrom]
    constructor
    · intro same
      simp at same
      obtain ⟨rfl, rfl, rfl, rfl⟩ := same
      simp
    · rintro ⟨rfl, rfl, rfl, rfl⟩
      simp

section
variable {reg : Registry} (sound : Sound reg)
include sound

theorem Sound.sameBlock_eq {a : InAddr} {e : IPRegistryEntry}
    (mem_e : e ∈ reg.hashTable (registryHash (canonicalize a))) :
    sameBlock (canonicalize a) e = decide (e.addr = canonicalize a) := by
  obtain ⟨b, canonical⟩ := sound.canonical _ e mem_e
  have placed := sound.chained.placed _ e mem_e
  rw [Bool.eq_iff_iff, decide_eq_true_iff]
  exact sameBlock_iff canonical placed

theorem Sound.find_eq (a : InAddr) : reg.find a = reg.entry (canonicalize a) := by
  unfold Registry.find Registry.entry lookup
  apply List.find?_congr
  intro e mem_e
  exact sound.sameBlock_eq mem_e

theorem Sound.set_eq (a : InAddr) (e : IPRegistryEntry) :
    (reg.set a e).hashTable = overwrite reg.hashTable (registryHash (canonicalize a))
      (fun x => x.addr = canonicalize a) e := by
  unfold Registry.set overwrite
  simp only
  congr 1
  apply List.lookmap_congr
  intro x mem_x
  rw [sound.sameBlock_eq mem_x]

end

def Registry.connectedAt (reg : Registry) (k : InAddr) : Nat :=
  ((reg.entry k).map fun e => e.connected.toNat).getD 0

/-- From `reg` to `reg'` only the counter of the entry of `a` changes, to `n`. -/
structure Changes (reg reg' : Registry) (a : InAddr) (n : Nat) : Prop where
  sound : Sound reg'
  count : ∀ k, reg'.connectedAt k = if k = canonicalize a then n else reg.connectedAt k

section
variable {reg reg' : Registry} {a : InAddr} {e : IPRegistryEntry}

theorem Changes.same (sound : Sound reg) : Changes reg reg a (reg.connectedAt (canonicalize a)) := by
  refine ⟨sound, fun k => ?_⟩
  by_cases here : k = canonicalize a
  · rw [if_pos here, here]
  · rw [if_neg here]

theorem Sound.connectedAt_some (sound : Sound reg) (found : reg.find a = some e) :
    reg.connectedAt (canonicalize a) = e.connected.toNat := by
  rw [sound.find_eq] at found
  rw [Registry.connectedAt, found]
  rfl

theorem Sound.connectedAt_none (sound : Sound reg) (absent : reg.find a = none) :
    reg.connectedAt (canonicalize a) = 0 := by
  rw [sound.find_eq] at absent
  rw [Registry.connectedAt, absent]
  rfl

theorem Sound.addr_of_find (sound : Sound reg) (found : reg.find a = some e) : e.addr = canonicalize a := by
  rw [sound.find_eq] at found
  exact lookup_key found

theorem Sound.set (sound : Sound reg) (found : reg.find a = some e) {e' : IPRegistryEntry} (same : e'.addr = e.addr)
    {n : Nat} (count : e'.connected.toNat = n) : Changes reg (reg.set a e') a n := by
  subst count
  have at_a : e'.addr = canonicalize a := by rw [same, sound.addr_of_find found]
  have table := sound.set_eq a e'
  refine ⟨⟨?_, fun i x mem_x => ?_⟩, fun k => ?_⟩
  · rw [table]
    exact sound.chained.overwrite at_a
  · rw [table] at mem_x
    obtain ⟨y, mem_y, same_key⟩ := mem_overwrite_key at_a mem_x
    rw [← same_key]
    exact sound.canonical i y mem_y
  · rw [Registry.connectedAt, Registry.entry, table, lookup_overwrite at_a]
    by_cases here : k = canonicalize a
    · rw [if_pos here, if_pos here]
      rw [sound.find_eq, Registry.entry] at found
      rw [found]
      rfl
    · rw [if_neg here, if_neg here]
      rfl

theorem Sound.add (sound : Sound reg) (absent : reg.find a = none) (at_a : e.addr = canonicalize a) {n : Nat}
    (count : e.connected.toNat = n) : Changes reg (reg.add e) a n := by
  subst count
  rw [sound.find_eq] at absent
  refine ⟨⟨sound.chained.pushFront (by rw [at_a]; exact absent), fun i x mem_x => ?_⟩, fun k => ?_⟩
  · by_cases here : i = registryHash e.addr
    · subst here
      simp only [Registry.add, pushFront, Function.update_self, List.mem_cons] at mem_x
      rcases mem_x with rfl | old
      · exact ⟨a, at_a⟩
      · exact sound.canonical _ x old
    · simp only [Registry.add, pushFront, Function.update_of_ne here] at mem_x
      exact sound.canonical i x mem_x
  · simp only [Registry.connectedAt, Registry.entry, Registry.add]
    rw [lookup_pushFront, at_a]
    by_cases here : k = canonicalize a
    · rw [if_pos here, if_pos here]
      rfl
    · rw [if_neg here, if_neg here]

theorem Changes.of_table {n : Nat} (changes : Changes reg reg' a n) {reg₀ : Registry}
    (table : reg₀.hashTable = reg.hashTable) : Changes reg₀ reg' a n := by
  refine ⟨changes.sound, fun k => ?_⟩
  rw [changes.count, Registry.connectedAt, Registry.connectedAt, Registry.entry, Registry.entry, table]

theorem Sound.of_table (sound : Sound reg) (table : reg'.hashTable = reg.hashTable) : Sound reg' := by
  refine ⟨?_, ?_⟩
  · rw [table]
    exact sound.chained
  · rw [table]
    exact sound.canonical

theorem find_of_table (table : reg'.hashTable = reg.hashTable) (b : InAddr) : reg'.find b = reg.find b := by
  rw [Registry.find, Registry.find, table]

@[simp] theorem hashTable_modify48 (env : Env) (reg : Registry) (ip : InAddr) (f : IPRegistry48 → IPRegistry48) :
    (reg.modify48 env ip f).1.hashTable = reg.hashTable := by
  unfold Registry.modify48
  split
  · rfl
  · rfl

@[simp] theorem updateFreeTargets_addr (env : Env) (e : IPRegistryEntry) :
    (updateFreeTargets env e).1.addr = e.addr := by
  unfold updateFreeTargets
  split
  · rfl
  · rfl

@[simp] theorem updateFreeTargets_connected (env : Env) (e : IPRegistryEntry) :
    (updateFreeTargets env e).1.connected = e.connected := by
  unfold updateFreeTargets
  split
  · rfl
  · rfl

end

theorem succ_toNat {n : UInt16} (more : n + 1 ≠ 0) : (n + 1).toNat = n.toNat + 1 := by
  have bound := n.toNat_lt
  have zero : (n + 1).toNat ≠ 0 := fun h => more (UInt16.toNat_inj.mp h)
  rw [UInt16.toNat_add] at zero ⊢
  simp only [UInt16.reduceToNat] at zero ⊢
  omega

theorem pred_toNat {n : UInt16} (some_n : n ≠ 0) : (n - 1).toNat = n.toNat - 1 := by
  have bound := n.toNat_lt
  have positive : n.toNat ≠ 0 := fun h => some_n (UInt16.toNat_inj.mp h)
  rw [UInt16.toNat_sub]
  simp only [UInt16.reduceToNat]
  omega

section
variable (env : Env) {reg : Registry}

theorem checkEntry_spec (sound : Sound reg) {a : InAddr} {e : IPRegistryEntry} (found : reg.find a = some e) :
    Changes reg (checkEntry env reg a e).1 a
      (reg.connectedAt (canonicalize a) + if (checkEntry env reg a e).2.1 then 1 else 0) := by
  rw [sound.connectedAt_some found]
  unfold checkEntry
  simp only
  by_cases full : e.connected + 1 = 0
  · rw [if_pos full]
    apply sound.set found
    · exact rfl
    · simp only [UInt16.add_sub_cancel, Bool.false_eq_true, if_false, Nat.add_zero]
  · rw [if_neg full]
    have more := succ_toNat full
    generalize updated : updateFreeTargets env _ = r
    have addr : r.1.addr = e.addr := by rw [← updated, updateFreeTargets_addr]
    have connected : r.1.connected = e.connected + 1 := by rw [← updated, updateFreeTargets_connected]
    by_cases few : ((bump8 r.1.attempts).toNat : Int) < env.CLONE_LIMIT
    · rw [if_pos few]
      apply sound.set found
      · exact addr
      · simp only [connected, more, if_true]
    · rw [if_neg few]
      by_cases refuse : (env.throttle && !env.justBooted) = true
      · rw [if_pos refuse]
        apply sound.set found
        · exact addr
        · simp only [connected, UInt16.add_sub_cancel, Bool.false_eq_true, if_false, Nat.add_zero]
      · rw [if_neg refuse]
        apply sound.set found
        · exact addr
        · simp only [connected, more, if_true]

theorem checkLocal_spec (sound : Sound reg) (a : InAddr) :
    Changes reg (checkLocal env reg a).1 a
      (reg.connectedAt (canonicalize a) + if (checkLocal env reg a).2.1 then 1 else 0) := by
  unfold checkLocal
  generalize counted : (if a.isIpv4 = true then (reg, false) else _ : Registry × Bool) = r
  have table : r.1.hashTable = reg.hashTable := by
    rw [← counted]
    split
    · rfl
    · exact hashTable_modify48 env reg a (attempt48 env)
  have sound' := sound.of_table table
  have same := find_of_table table a
  simp only
  by_cases tooMany : r.2 = true
  · rw [if_pos tooMany]
    cases found : reg.find a with
    | none =>
      have unchanged := (Changes.same sound' (a := a)).of_table table.symm
      rw [sound'.connectedAt_none (same.trans found)] at unchanged
      simpa [sound.connectedAt_none found] using unchanged
    | some e =>
      simp only [ite_self]
      apply Changes.of_table _ table.symm
      apply sound'.set (same.trans found)
      · exact rfl
      · simp only [UInt16.add_sub_cancel, sound.connectedAt_some found, Bool.false_eq_true, if_false, Nat.add_zero]
  · rw [if_neg tooMany]
    cases found : reg.find a with
    | none =>
      apply Changes.of_table _ table.symm
      apply sound'.add (same.trans found)
      · exact rfl
      · simp only [sound.connectedAt_none found, if_true]
        rfl
    | some e =>
      have spec := checkEntry_spec env sound' (same.trans found)
      rw [sound'.connectedAt_some (same.trans found)] at spec
      rw [sound.connectedAt_some found]
      exact spec.of_table table.symm

theorem checkRemote_spec (sound : Sound reg) {a : InAddr} (valid : a.valid = true) (is_burst : Bool)
    (room : reg.connectedAt (canonicalize a) < 65535) :
    (checkRemote env reg a is_burst).2 = true ∧
      Changes reg (checkRemote env reg a is_burst).1 a (reg.connectedAt (canonicalize a) + 1) := by
  unfold checkRemote
  rw [if_neg (by simp [valid])]
  generalize counted : (if a.isIpv4 = true then reg else _ : Registry) = reg₁
  have table : reg₁.hashTable = reg.hashTable := by
    rw [← counted]
    split
    · rfl
    · exact hashTable_modify48 env reg a (attempt48 env)
  have sound₁ := sound.of_table table
  have same := find_of_table table a
  simp only [same]
  cases found : reg.find a with
  | none =>
    refine ⟨rfl, ?_⟩
    apply Changes.of_table _ table.symm
    apply sound₁.add (same.trans found)
    · split <;> rfl
    · rw [sound.connectedAt_none found]
      split <;> rfl
  | some e =>
    simp only
    rw [sound.connectedAt_some found] at room ⊢
    have more : e.connected + 1 ≠ 0 := by
      intro full
      have wrapped := congrArg UInt16.toNat full
      rw [UInt16.toNat_add] at wrapped
      simp only [UInt16.reduceToNat] at wrapped
      omega
    rw [if_neg more]
    have count := succ_toNat more
    split
    · refine ⟨rfl, ?_⟩
      apply Changes.of_table _ table.symm
      apply sound₁.set (same.trans found)
      · rfl
      · exact count
    · refine ⟨rfl, ?_⟩
      apply Changes.of_table _ table.symm
      apply sound₁.set (same.trans found)
      · simp only [updateFreeTargets_addr]
      · simp only [updateFreeTargets_connected, count]

variable (reg) in
theorem checkRemote_invalid {a : InAddr} (invalid : a.valid = false) (is_burst : Bool) :
    checkRemote env reg a is_burst = (reg, true) := by
  rw [checkRemote, if_pos (by simp [invalid])]

theorem connectFail_spec (sound : Sound reg) (a : InAddr) {leave : Bool}
    (there : leave = true → 0 < reg.connectedAt (canonicalize a)) :
    ∃ reg', connectFail env reg a leave = some reg' ∧
      Changes reg reg' a (reg.connectedAt (canonicalize a) - if leave then 1 else 0) := by
  unfold connectFail
  generalize counted : (if a.isIpv4 = true then reg else _ : Registry) = reg₁
  have table : reg₁.hashTable = reg.hashTable := by
    rw [← counted]
    split
    · rfl
    · exact hashTable_modify48 env reg a _
  have sound₁ := sound.of_table table
  have same := find_of_table table a
  simp only
  cases found : reg.find a with
  | none =>
    have unchanged := (Changes.same sound₁ (a := a)).of_table table.symm
    rw [sound₁.connectedAt_none (same.trans found)] at unchanged
    rw [sound.connectedAt_none found, Nat.zero_sub]
    exact ⟨reg₁, rfl, unchanged⟩
  | some e =>
    rw [sound.connectedAt_some found] at there ⊢
    simp only
    cases leave with
    | false =>
      refine ⟨_, rfl, Changes.of_table ?_ table.symm⟩
      apply sound₁.set (same.trans found)
      · rfl
      · simp only [Bool.false_eq_true, if_false, Nat.sub_zero]
    | true =>
      have some_left : e.connected ≠ 0 := fun zero => by
        have positive := there rfl
        rw [zero] at positive
        exact absurd positive (by decide)
      simp only [if_true, some_left, if_false]
      refine ⟨_, rfl, Changes.of_table ?_ table.symm⟩
      apply sound₁.set (same.trans found)
      · rfl
      · exact pred_toNat some_left

theorem disconnect_spec (sound : Sound reg) {client : Client} (valid : client.ip.valid = true)
    (there : 0 < reg.connectedAt (canonicalize client.ip)) :
    ∃ reg', disconnect env reg client = some reg' ∧
      Changes reg reg' client.ip (reg.connectedAt (canonicalize client.ip) - 1) := by
  unfold disconnect
  rw [if_neg (by simp [valid])]
  cases found : reg.find client.ip with
  | none =>
    rw [sound.connectedAt_none found] at there
    exact absurd there (Nat.lt_irrefl 0)
  | some e =>
    rw [sound.connectedAt_some found] at there ⊢
    have some_left : e.connected ≠ 0 := fun zero => by
      rw [zero] at there
      exact absurd there (by decide)
    simp only [some_left, if_false]
    generalize lowered : (if e.connected - 1 = 0 then _ else _ : IPRegistryEntry) = e₁
    have kept : e₁.addr = e.addr ∧ e₁.connected = e.connected - 1 := by
      rw [← lowered]
      split <;> simp only [updateFreeTargets_addr, updateFreeTargets_connected, and_self]
    refine ⟨_, rfl, ?_⟩
    apply sound.set found
    · split
      · exact kept.1
      · exact kept.1
    · rw [← pred_toNat some_left, ← kept.2]
      split
      · rfl
      · rfl

/-- An entry that is swept and stays is the entry of the same address, with the same clients. -/
theorem expired_keeps (e e' : IPRegistryEntry)
    (kept : (if e.connected = 0 then expireEntry env e else some e) = some e') :
    e'.addr = e.addr ∧ e'.connected = e.connected := by
  unfold expireEntry at kept
  split at kept
  · split at kept
    · cases kept
    · split at kept
      · cases kept
        exact ⟨rfl, rfl⟩
      · cases kept
        exact ⟨rfl, rfl⟩
  · cases kept
    exact ⟨rfl, rfl⟩

theorem expire_spec (sound : Sound reg) : Sound (expire env reg) ∧
    ∀ k, (expire env reg).connectedAt k = reg.connectedAt k := by
  have keeps := @expired_keeps env
  have same_key := fun e e' kept => (keeps e e' kept).1
  refine ⟨⟨sound.chained.sweep same_key, fun i x mem_x => ?_⟩, fun k => ?_⟩
  · obtain ⟨y, mem_y, from_y⟩ := List.mem_filterMap.mp mem_x
    rw [same_key y x from_y]
    exact sound.canonical i y mem_y
  · unfold Registry.connectedAt Registry.entry expire
    rw [lookup_sweep sound.chained same_key]
    cases lookup registryHash IPRegistryEntry.addr reg.hashTable k with
    | none => rfl
    | some e =>
      rw [Option.bind_some]
      cases kept : (if e.connected = 0 then expireEntry env e else some e) with
      | some e' => simp only [Option.map_some, (keeps e e' kept).2]
      | none =>
        by_cases zero : e.connected = 0
        · simp [zero]
        · rw [if_neg zero] at kept
          cases kept

end

end Ircd.IpRegistry

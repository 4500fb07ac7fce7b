import Ircd.IpRegistry.Links
import Ircd.IpRegistry.Runs

/-! The classes of addresses that `ip_registry_find` takes for one, and the entries that stand for them.

The test compares 48 bits of a 6to4 address, but the hash covers 64: two addresses of one class are in different
buckets when their fourth words differ.
-/

set_option autoImplicit false

namespace Ircd.IpRegistry
open Ircd.Library Ircd.Net

def width (canon : InAddr) : Nat := if canon.word 0 = 0x2002 then 48 else 64

def SameClass (a b : InAddr) : Prop := ∀ i < width a, a.bit i = b.bit i

theorem sameBlock_iff_class (canon : InAddr) (e : IPRegistryEntry) :
    sameBlock canon e = true ↔ SameClass canon e.addr :=
  InAddr.ipmaskCheck_iff canon e.addr _

theorem SameClass.word {a b : InAddr} (same : SameClass a b) {j : Nat} (front : j < 3) : a.word j = b.word j := by
  rw [InAddr.eq_of_wordBits]
  intro i less
  have inside : 16 * j + i < width a := by
    unfold width
    split <;> omega
  have place : (16 * j + i) / 16 = j ∧ (16 * j + i) % 16 = i := by omega
  have here := same (16 * j + i) inside
  rwa [InAddr.bit, InAddr.bit, place.1, place.2] at here

theorem SameClass.width_eq {a b : InAddr} (same : SameClass a b) : width a = width b := by
  rw [width, width, same.word (by decide : 0 < 3)]

theorem SameClass.refl (a : InAddr) : SameClass a a := fun _ _ => rfl

theorem SameClass.symm {a b : InAddr} (same : SameClass a b) : SameClass b a := by
  intro i less
  rw [← same.width_eq] at less
  exact (same i less).symm

theorem SameClass.trans {a b c : InAddr} (first : SameClass a b) (second : SameClass b c) : SameClass a c := by
  intro i less
  rw [first i less]
  exact second i (first.width_eq ▸ less)

namespace Links

def Listed (h : Links) (p : Nat) : Prop := ∃ i l, Chain h.next (h.hashTable i) l ∧ p ∈ l

def StandsFor (h : Links) (ip : InAddr) (p : Nat) : Prop :=
  h.Listed p ∧ SameClass (canonicalize ip) (h.entry p).addr

def OneEach (h : Links) : Prop := ∀ ip p q, h.StandsFor ip p → h.StandsFor ip q → p = q

/-- `ip_registry_find` gives the entry of the class if there is one. -/
def Finds (h : Links) (ip : InAddr) : Prop :=
  ∃ found, h.find ip = some found ∧ ∀ p, found = some p ↔ h.StandsFor ip p

/-- `ip_registry_remove` takes an entry out and leaves the others. -/
def RemovesOnly (h : Links) (p : Nat) : Prop :=
  ∃ h', h.remove p = some h' ∧ h'.entry = h.entry ∧ ∀ q, h'.Listed q ↔ h.Listed q ∧ q ≠ p

/-- No entry of the class of an address stands in another bucket than the address hashes to. -/
def Apart (h : Links) (ip : InAddr) : Prop :=
  ∀ p, h.StandsFor ip p → h.bucket p = registryHash (canonicalize ip)

theorem Linked.listed {h : Links} {chains : UInt16 → List Nat} {free : List Nat} (linked : Linked h chains free)
    (p : Nat) : h.Listed p ↔ ∃ i, p ∈ chains i := by
  constructor
  · rintro ⟨i, l, chain, mem⟩
    exact ⟨i, chain.unique (linked.chain i) ▸ mem⟩
  · rintro ⟨i, mem⟩
    exact ⟨i, chains i, linked.chain i, mem⟩

section
variable {h : Links} {chains : UInt16 → List Nat} {free : List Nat} (linked : Linked h chains free)
include linked

theorem Linked.mem_bucket {p : Nat} (listed : h.Listed p) : p ∈ chains (h.bucket p) := by
  obtain ⟨i, mem⟩ := (linked.listed p).mp listed
  rw [linked.placed i p mem]
  exact mem

theorem Linked.removesOnly {p : Nat} (listed : h.Listed p) : h.RemovesOnly p := by
  obtain ⟨front, back, shape⟩ := List.append_of_mem (linked.mem_bucket listed)
  obtain ⟨h', removed, entries, -, linked', outside⟩ := linked.remove shape
  refine ⟨h', removed, entries, fun q => ?_⟩
  rw [linked'.listed, linked.listed]
  constructor
  · rintro ⟨i, mem⟩
    refine ⟨⟨i, ?_⟩, fun same => outside.chains i (same ▸ mem)⟩
    by_cases here : i = h.bucket p
    · rw [here, Function.update_self] at mem
      rw [here, shape]
      exact (List.Sublist.append_left (List.sublist_cons_self p back) front).subset mem
    · rwa [Function.update_of_ne here] at mem
  · rintro ⟨⟨i, mem⟩, other⟩
    refine ⟨i, ?_⟩
    by_cases here : i = h.bucket p
    · rw [here, shape] at mem
      rw [here, Function.update_self]
      simpa [other] using mem
    · rwa [Function.update_of_ne here]

theorem Linked.find_some {ip : InAddr} {p : Nat} (found : h.find ip = some (some p)) :
    h.StandsFor ip p ∧ h.bucket p = registryHash (canonicalize ip) := by
  rw [linked.find] at found
  have first := Option.some.inj found
  have mem := List.mem_of_find?_eq_some first
  have taken := List.find?_some first
  exact ⟨⟨(linked.listed p).mpr ⟨_, mem⟩, (sameBlock_iff_class _ _).mp taken⟩, linked.placed _ p mem⟩

theorem Linked.find_none {ip : InAddr} (found : h.find ip = some none) {p : Nat} (stands : h.StandsFor ip p) :
    h.bucket p ≠ registryHash (canonicalize ip) := by
  intro here
  rw [linked.find] at found
  have mem := linked.mem_bucket stands.1
  rw [here] at mem
  have passed := List.find?_eq_none.mp (Option.some.inj found) p mem
  exact passed ((sameBlock_iff_class _ _).mpr stands.2)

/-- With one entry for each class the walk finds it if and only if it is not elsewhere. -/
theorem Linked.finds_iff (one : h.OneEach) (ip : InAddr) : h.Finds ip ↔ h.Apart ip := by
  constructor
  · rintro ⟨found, walked, all⟩ p stands
    rw [(all p).mpr stands] at walked
    exact (linked.find_some walked).2
  · intro apart
    refine ⟨_, linked.find ip, fun p => ?_⟩
    rw [← Option.some_inj, ← linked.find ip]
    constructor
    · exact fun found => (linked.find_some found).1
    · intro stands
      cases walked : h.find ip with
      | none =>
        rw [linked.find ip] at walked
        cases walked
      | some found =>
        cases found with
        | none => exact absurd (apart p stands) (linked.find_none walked stands)
        | some q => rw [one ip q p (linked.find_some walked).1 stands]

end

/-- What the calls do to the table: they look for an entry, or look for one and make it, or sweep. -/
inductive Op where
  | visit (ip : InAddr) (f : IPRegistryEntry → IPRegistryEntry)
  | enter (ip : InAddr) (f : IPRegistryEntry → IPRegistryEntry) (fresh : IPRegistryEntry)
  | expire (env : Env)

def Op.run (h : Links) : Op → Option Links
  | .visit ip f => h.visit ip f
  | .enter ip f fresh => h.enter ip f fresh
  | .expire env => h.expire env

inductive Reached (meets : Links → Op → Prop) : Links → Prop
  | init : Reached meets {}
  | op {h h' : Links} {op : Op} (reached : Reached meets h) (met : meets h op) (next : op.run h = some h') :
      Reached meets h'

/-- An address is entered only when no entry of its class stands in another bucket. -/
def Op.apart (h : Links) : Op → Prop
  | .enter ip _ _ => h.Apart ip
  | _ => True

theorem OneEach.same {h h' : Links} (one : h.OneEach)
    (fewer : ∀ p, h'.Listed p → h.Listed p ∧ (h'.entry p).addr = (h.entry p).addr) : h'.OneEach := by
  have stands (ip : InAddr) (p : Nat) (stands : h'.StandsFor ip p) : h.StandsFor ip p := by
    obtain ⟨listed, addr⟩ := fewer p stands.1
    exact ⟨listed, addr ▸ stands.2⟩
  exact fun ip p q left right => one ip p q (stands ip p left) (stands ip q right)

section
variable {h : Links} {chains : UInt16 → List Nat} {free : List Nat} (linked : Linked h chains free)
include linked

theorem Linked.write (f : IPRegistryEntry → IPRegistryEntry) (p : Nat) : Linked (h.write f p) chains free :=
  linked.put rfl

theorem Linked.write_oneEach (one : h.OneEach) (f : IPRegistryEntry → IPRegistryEntry) (p : Nat) :
    (h.write f p).OneEach := by
  apply OneEach.same one
  intro q listed
  refine ⟨(linked.listed q).mpr (((linked.write f p).listed q).mp listed), ?_⟩
  by_cases here : q = p
  · simp [here, Links.write, Links.put]
  · simp [here, Links.write, Links.put]

theorem Linked.make {ip : InAddr} (missed : h.find ip = some none) {fresh : IPRegistryEntry}
    (canonical : fresh.addr = canonicalize ip) :
    ∃ p free', (∀ i, p ∉ chains i) ∧ (h.make fresh).entry = Function.update h.entry p fresh ∧
      Linked (h.make fresh) (Function.update chains (registryHash (canonicalize ip))
        (p :: chains (registryHash (canonicalize ip)))) free' := by
  obtain ⟨free', linked', outside, entries⟩ := linked.newEntry fresh
  have entry : (h.newEntry fresh).1.entry (h.newEntry fresh).2 = fresh := by rw [entries, Function.update_self]
  have bucket : (h.newEntry fresh).1.bucket (h.newEntry fresh).2 = registryHash (canonicalize ip) := by
    rw [Links.bucket, entry, canonical]
  have added := linked'.add outside (entry ▸ canonical) fun q mem same => by
    rw [bucket] at mem
    have other : q ≠ (h.newEntry fresh).2 := fun here => outside.chains _ (here ▸ mem)
    have stands : h.StandsFor ip q := by
      refine ⟨(linked.listed q).mpr ⟨_, mem⟩, ?_⟩
      rw [entry, canonical, entries, Function.update_of_ne other] at same
      rw [same]
      exact .refl _
    exact linked.find_none missed stands (linked.placed _ q mem)
  rw [bucket] at added
  exact ⟨_, free', outside.chains, entries, added⟩

/-- Behind the new entry there is one for each class if and only if the class had none elsewhere. -/
theorem Linked.make_oneEach (one : h.OneEach) {ip : InAddr} (missed : h.find ip = some none) {fresh : IPRegistryEntry}
    (canonical : fresh.addr = canonicalize ip) : (h.make fresh).OneEach ↔ h.Apart ip := by
  obtain ⟨p, free', absent, entries, linked'⟩ := linked.make missed canonical
  have listed (q : Nat) : (h.make fresh).Listed q ↔ q = p ∨ h.Listed q := by
    rw [linked'.listed, linked.listed]
    constructor
    · rintro ⟨i, mem⟩
      by_cases here : i = registryHash (canonicalize ip)
      · rw [here, Function.update_self, List.mem_cons] at mem
        exact mem.imp_right fun old => ⟨_, old⟩
      · rw [Function.update_of_ne here] at mem
        exact .inr ⟨i, mem⟩
    · rintro (rfl | ⟨i, mem⟩)
      · exact ⟨registryHash (canonicalize ip), by simp⟩
      · refine ⟨i, ?_⟩
        by_cases here : i = registryHash (canonicalize ip)
        · rw [here, Function.update_self]
          exact List.mem_cons_of_mem p (here ▸ mem)
        · rwa [Function.update_of_ne here]
  have fresh_p : ¬ h.Listed p := by
    rw [linked.listed]
    rintro ⟨i, mem⟩
    exact absent i mem
  have stands_p (ip' : InAddr) : (h.make fresh).StandsFor ip' p ↔ SameClass (canonicalize ip') (canonicalize ip) := by
    rw [StandsFor, entries, Function.update_self, canonical]
    exact and_iff_right ((listed p).mpr (.inl rfl))
  have stands (ip' : InAddr) {q : Nat} (other : q ≠ p) : (h.make fresh).StandsFor ip' q ↔ h.StandsFor ip' q := by
    rw [StandsFor, StandsFor, entries, Function.update_of_ne other, listed, or_iff_right other]
  constructor
  · intro one' q old
    have other : q ≠ p := fun same => fresh_p (same ▸ old.1)
    exact absurd (one' ip q p ((stands ip other).mpr old) ((stands_p ip).mpr (.refl _))) other
  · intro apart
    -- No old entry is of the class of the new one.
    have none_old (ip' : InAddr) (class_p : (h.make fresh).StandsFor ip' p) (q : Nat) : ¬ h.StandsFor ip' q := by
      intro old
      have moved : h.StandsFor ip q := ⟨old.1, ((stands_p ip').mp class_p).symm.trans old.2⟩
      exact linked.find_none missed moved (apart q moved)
    intro ip' q r left right
    by_cases at_q : q = p
    · by_cases at_r : r = p
      · rw [at_q, at_r]
      · exact absurd ((stands ip' at_r).mp right) (none_old ip' (at_q ▸ left) r)
    · by_cases at_r : r = p
      · exact absurd ((stands ip' at_q).mp left) (none_old ip' (at_r ▸ right) q)
      · exact one ip' q r ((stands ip' at_q).mp left) ((stands ip' at_r).mp right)

/-- Entering an address keeps the table in order, and keeps one entry for each class if and only if the class of the
address is not elsewhere. -/
theorem Linked.enter (one : h.OneEach) (ip : InAddr) (f : IPRegistryEntry → IPRegistryEntry) (fresh : IPRegistryEntry) :
    ∃ h', h.enter ip f fresh = some h' ∧ (∃ chains' free', Linked h' chains' free') ∧ (h'.OneEach ↔ h.Apart ip) := by
  unfold Links.enter
  cases walked : h.find ip with
  | none =>
    rw [linked.find ip] at walked
    cases walked
  | some found =>
    cases found with
    | some p =>
      refine ⟨_, rfl, ⟨chains, free, linked.write f p⟩, ?_⟩
      obtain ⟨stands, here⟩ := linked.find_some walked
      exact iff_of_true (linked.write_oneEach one f p) fun q other => one ip p q stands other ▸ here
    | none =>
      have canonical : ({ fresh with addr := canonicalize ip } : IPRegistryEntry).addr = canonicalize ip := rfl
      obtain ⟨p, free', -, -, linked'⟩ := linked.make walked canonical
      exact ⟨_, rfl, ⟨_, free', linked'⟩, linked.make_oneEach one walked canonical⟩

theorem Linked.visit (one : h.OneEach) (ip : InAddr) (f : IPRegistryEntry → IPRegistryEntry) :
    ∃ h', h.visit ip f = some h' ∧ Linked h' chains free ∧ h'.OneEach := by
  unfold Links.visit
  rw [linked.find ip, Option.map_some]
  cases (chains (registryHash (canonicalize ip))).find? fun p => sameBlock (canonicalize ip) (h.entry p) with
  | none => exact ⟨h, rfl, linked, one⟩
  | some p => exact ⟨h.write f p, rfl, linked.write f p, linked.write_oneEach one f p⟩

theorem Linked.expire_oneEach (one : h.OneEach) (env : Env) :
    ∃ h', h.expire env = some h' ∧ (∃ chains' free', Linked h' chains' free') ∧ h'.OneEach := by
  obtain ⟨h', free', done, linked', entries⟩ := linked.expire env
  refine ⟨h', done, ⟨_, free', linked'⟩, OneEach.same one fun p listed => ?_⟩
  obtain ⟨i, mem⟩ := (linked'.listed p).mp listed
  refine ⟨(linked.listed p).mpr ⟨i, List.mem_of_mem_filter mem⟩, ?_⟩
  rw [entries i p mem, swept_addr]

end

theorem linked_empty : Linked {} (fun _ => []) [] := by
  constructor
  · exact fun i => rfl
  · exact fun i p mem => absurd mem List.not_mem_nil
  · exact fun i p mem => absurd mem List.not_mem_nil
  · exact fun i => List.nodup_nil
  · exact fun i p mem => absurd mem List.not_mem_nil
  · exact rfl
  · exact List.nodup_nil
  · exact fun p mem => absurd mem List.not_mem_nil
  · exact fun i p mem => absurd mem List.not_mem_nil

/-- Every operation ends on a table in order, and keeps one entry for each class under its condition. -/
theorem Linked.op {h : Links} {chains : UInt16 → List Nat} {free : List Nat} (linked : Linked h chains free)
    (one : h.OneEach) (op : Op) :
    ∃ h', op.run h = some h' ∧ (∃ chains' free', Linked h' chains' free') ∧ (op.apart h → h'.OneEach) := by
  cases op with
  | visit ip f =>
    obtain ⟨h', done, linked', one'⟩ := linked.visit one ip f
    exact ⟨h', done, ⟨chains, free, linked'⟩, fun _ => one'⟩
  | enter ip f fresh =>
    obtain ⟨h', done, linked', one'⟩ := linked.enter one ip f fresh
    exact ⟨h', done, linked', one'.mpr⟩
  | expire env =>
    obtain ⟨h', done, linked', one'⟩ := linked.expire_oneEach one env
    exact ⟨h', done, linked', fun _ => one'⟩

theorem Reached.in_order {h : Links} (reached : Reached Op.apart h) :
    (∃ chains free, Linked h chains free) ∧ h.OneEach := by
  induction reached with
  | init =>
    refine ⟨⟨_, _, linked_empty⟩, fun ip p q left => ?_⟩
    obtain ⟨i, mem⟩ := (linked_empty.listed p).mp left.1
    cases mem
  | op _ met next ih =>
    obtain ⟨⟨chains, free, linked⟩, one⟩ := ih
    obtain ⟨h', done, linked', one'⟩ := linked.op one _
    rw [next] at done
    cases done
    exact ⟨linked', one' met⟩

end Links

inductive Acts (reg reg' : Registry) : Prop
  | leaves (table : reg'.hashTable = reg.hashTable)
  | writes (ip : InAddr) {e e' : IPRegistryEntry} (found : reg.find ip = some e) (addr : e'.addr = e.addr)
      (table : reg'.hashTable = (reg.set ip e').hashTable)
  | makes (ip : InAddr) {e : IPRegistryEntry} (absent : reg.find ip = none) (addr : e.addr = canonicalize ip)
      (table : reg'.hashTable = (reg.add e).hashTable)
  | sweeps (env : Env) (table : reg'.hashTable = (expire env reg).hashTable)

theorem Acts.of_table {reg reg₁ reg' : Registry} (acts : Acts reg₁ reg') (table : reg₁.hashTable = reg.hashTable) :
    Acts reg reg' := by
  cases acts with
  | leaves same => exact .leaves (same.trans table)
  | writes ip found addr same =>
    refine .writes ip ((find_of_table table ip).symm.trans found) addr (same.trans ?_)
    rw [Registry.set, Registry.set, table]
  | makes ip absent addr same =>
    refine .makes ip ((find_of_table table ip).symm.trans absent) addr (same.trans ?_)
    rw [Registry.add, Registry.add, table]
  | sweeps env same =>
    refine .sweeps env (same.trans ?_)
    rw [expire, expire, table]

theorem Acts.set {reg : Registry} {ip : InAddr} {e e' : IPRegistryEntry} (found : reg.find ip = some e)
    (addr : e'.addr = e.addr) : Acts reg (reg.set ip e') := .writes ip found addr rfl

section
variable (env : Env) {reg : Registry}

theorem checkEntry_acts {a : InAddr} {e : IPRegistryEntry} (found : reg.find a = some e) :
    Acts reg (checkEntry env reg a e).1 := by
  unfold checkEntry
  simp only
  split_ifs
  all_goals exact .set found (by simp)

theorem checkLocal_acts (a : InAddr) : Acts reg (checkLocal env reg a).1 := by
  unfold checkLocal
  generalize counted : (if a.isIpv4 = true then (reg, false) else _ : Registry × Bool) = r
  have table : r.1.hashTable = reg.hashTable := by
    rw [← counted]
    split
    · rfl
    · exact hashTable_modify48 env reg a (attempt48 env)
  have same := find_of_table table a
  simp only
  apply Acts.of_table _ table
  by_cases tooMany : r.2 = true
  · rw [if_pos tooMany]
    cases found : reg.find a with
    | none => exact .leaves rfl
    | some e =>
      simp only [ite_self]
      exact .set (same.trans found) rfl
  · rw [if_neg tooMany]
    cases found : reg.find a with
    | none => exact .makes a (same.trans found) rfl rfl
    | some e => exact checkEntry_acts env (same.trans found)

theorem checkRemote_acts (a : InAddr) (is_burst : Bool) : Acts reg (checkRemote env reg a is_burst).1 := by
  unfold checkRemote
  by_cases valid : a.valid = true
  · rw [if_neg (by simp [valid])]
    generalize counted : (if a.isIpv4 = true then reg else _ : Registry) = reg₁
    have table : reg₁.hashTable = reg.hashTable := by
      rw [← counted]
      split
      · rfl
      · exact hashTable_modify48 env reg a (attempt48 env)
    have same := find_of_table table a
    simp only [same]
    apply Acts.of_table _ table
    cases found : reg.find a with
    | none =>
      refine .makes a (same.trans found) ?_ rfl
      split <;> rfl
    | some e =>
      simp only
      split_ifs
      all_goals exact .set (same.trans found) (by simp)
  · rw [if_pos (by simp [valid])]
    exact .leaves rfl

theorem connectFail_acts (a : InAddr) (leave : Bool) {reg' : Registry}
    (done : connectFail env reg a leave = some reg') : Acts reg reg' := by
  unfold connectFail at done
  generalize counted : (if a.isIpv4 = true then reg else _ : Registry) = reg₁ at done
  have table : reg₁.hashTable = reg.hashTable := by
    rw [← counted]
    split
    · rfl
    · exact hashTable_modify48 env reg a _
  have same := find_of_table table a
  simp only at done
  apply Acts.of_table _ table
  cases found : reg.find a with
  | none =>
    rw [found] at done
    cases done
    exact .leaves rfl
  | some e =>
    simp only [found] at done
    split_ifs at done
    · cases done
      exact .set (same.trans found) rfl
    · cases done
      exact .set (same.trans found) rfl

theorem disconnect_acts (client : Client) {reg' : Registry} (done : disconnect env reg client = some reg') :
    Acts reg reg' := by
  unfold disconnect at done
  by_cases valid : client.ip.valid = true
  · rw [if_neg (by simp [valid])] at done
    cases found : reg.find client.ip with
    | none =>
      rw [found] at done
      cases done
    | some e =>
      simp only [found] at done
      split_ifs at done
      all_goals
        cases done
        exact .set found (by simp [leaveTargets])
  · rw [if_pos (by simp [valid])] at done
    cases done
    exact .leaves rfl

end

/-- A call looks an address up, writes what it finds, makes what it misses, or sweeps the table; nothing else. -/
theorem step_acts {s s' : State} {c : Call} (next : step s c = some s') : Acts s.reg s'.reg := by
  cases c with
  | checkLocal env addr =>
    cases next
    exact checkLocal_acts env addr
  | checkRemote env ip is_burst =>
    cases next
    exact checkRemote_acts env ip is_burst
  | connectFail env addr leave =>
    obtain ⟨reg', done, rfl⟩ := Option.map_eq_some_iff.mp next
    exact connectFail_acts env addr leave done
  | disconnect env client =>
    obtain ⟨reg', done, rfl⟩ := Option.map_eq_some_iff.mp next
    exact disconnect_acts env client done
  | expire env =>
    cases next
    exact .sweeps env rfl

namespace Links

def Represents (h : Links) (reg : Registry) : Prop :=
  ∃ chains free, Linked h chains free ∧ ∀ i, reg.hashTable i = (chains i).map h.entry

theorem lookmap_map {entry : Nat → IPRegistryEntry} {stop : IPRegistryEntry → Bool} {l : List Nat} {p : Nat}
    (first : (l.find? fun q => stop (entry q)) = some p) (distinct : l.Nodup) (e : IPRegistryEntry) :
    ((l.map entry).lookmap fun x => if stop x then some e else none) = l.map (Function.update entry p e) := by
  induction l with
  | nil => cases first
  | cons q l ih =>
    obtain ⟨fresh, distinct⟩ := List.nodup_cons.mp distinct
    rw [List.map_cons, List.map_cons]
    by_cases here : stop (entry q) = true
    · rw [List.find?_cons_of_pos (p := fun q => stop (entry q)) here] at first
      cases first
      rw [List.lookmap_cons_some (fun x => if stop x then some e else none) _ (if_pos here), Function.update_self]
      refine congrArg (e :: ·) (List.map_congr_left fun r mem => ?_)
      exact (Function.update_of_ne (fun same : r = p => fresh (same ▸ mem)) _ _).symm
    · rw [List.find?_cons_of_neg (p := fun q => stop (entry q)) here] at first
      have other : q ≠ p := fun same => fresh (same ▸ List.mem_of_find?_eq_some first)
      rw [List.lookmap_cons_none (fun x => if stop x then some e else none) _ (if_neg here),
        Function.update_of_ne other, ih first distinct]

theorem sweep_map (env : Env) (h : Links) (l : List Nat) :
    (l.map h.entry).filterMap (visited env) = (l.filter (keeps env h)).map (swept env h) := by
  induction l with
  | nil => rfl
  | cons p l ih =>
    rw [List.map_cons, List.filter_cons]
    unfold keeps swept at ih ⊢
    cases kept : visited env (h.entry p) with
    | none => simpa [kept] using ih
    | some e => simpa [kept] using ih

section
variable {h : Links} {reg reg' : Registry}

theorem Linked.find_map {chains : UInt16 → List Nat} {free : List Nat} (linked : Linked h chains free)
    (tables : ∀ i, reg.hashTable i = (chains i).map h.entry) (ip : InAddr) :
    ∃ found, h.find ip = some found ∧ found.map h.entry = reg.find ip ∧
      found = (chains (registryHash (canonicalize ip))).find? fun p => sameBlock (canonicalize ip) (h.entry p) := by
  refine ⟨_, linked.find ip, ?_, rfl⟩
  rw [Registry.find, tables, List.find?_map]
  rfl

theorem Represents.acts (represents : h.Represents reg) (acts : Acts reg reg') :
    ∃ (op : Op) (h' : Links), op.run h = some h' ∧ h'.Represents reg' := by
  obtain ⟨chains, free, linked, tables⟩ := represents
  cases acts with
  | leaves table =>
    obtain ⟨found, walked, -, -⟩ := linked.find_map tables (.mapped 0 0)
    refine ⟨.visit (.mapped 0 0) id, h, ?_, chains, free, linked, fun i => by rw [table, tables]⟩
    rw [Op.run, Links.visit, walked, Option.map_some]
    cases found with
    | none => rfl
    | some p =>
      have same : h.write id p = h := by
        rw [Links.write, Links.put]
        exact congrArg (fun entry => { h with entry }) (Function.update_eq_self p h.entry)
      rw [Option.elim_some, same]
  | @writes ip e e' found addr table =>
    obtain ⟨place, walked, at_e, first⟩ := linked.find_map tables ip
    rw [found, Option.map_eq_some_iff] at at_e
    obtain ⟨p, rfl, entry⟩ := at_e
    have written : h.write (fun _ => e') p = h.put p e' := by
      rw [Links.write, entry, ← addr]
    refine ⟨.visit ip fun _ => e', h.put p e', ?_, chains, free, linked.put (by rw [addr, entry]), fun i => ?_⟩
    · rw [Op.run, Links.visit, walked, Option.map_some, Option.elim_some, written]
    · rw [table]
      by_cases here : i = registryHash (canonicalize ip)
      · simp only [here, Registry.set, overwrite, Function.update_self, tables]
        exact lookmap_map first.symm (linked.nodup _) e'
      · simp only [Registry.set, overwrite, Function.update_of_ne here, tables]
        refine List.map_congr_left fun q mem => ?_
        have listed := (linked.find_some walked).2
        have other : q ≠ p := fun same => here ((linked.placed i q mem).symm.trans (same ▸ listed))
        exact (Function.update_of_ne other _ _).symm
  | @makes ip e absent addr table =>
    obtain ⟨place, walked, at_e, -⟩ := linked.find_map tables ip
    rw [absent, Option.map_eq_none_iff] at at_e
    rw [at_e] at walked
    obtain ⟨p, free', fresh, entries, linked'⟩ := linked.make walked addr
    refine ⟨.enter ip id e, h.make e, ?_, _, free', linked', fun i => ?_⟩
    · rw [Op.run, Links.enter, walked, Option.map_some, Option.elim_none, ← addr]
    · have kept (j : UInt16) : (chains j).map (h.make e).entry = (chains j).map h.entry := by
        refine List.map_congr_left fun q mem => ?_
        rw [entries]
        exact Function.update_of_ne (fun same : q = p => fresh j (same ▸ mem)) _ _
      rw [table, Registry.add, addr]
      by_cases here : i = registryHash (canonicalize ip)
      · simp only [here, pushFront, Function.update_self, tables, List.map_cons, kept]
        rw [entries, Function.update_self]
      · simp only [pushFront, Function.update_of_ne here, tables, kept]
  | sweeps env table =>
    obtain ⟨h', free', done, linked', entries⟩ := linked.expire env
    refine ⟨.expire env, h', done, _, free', linked', fun i => ?_⟩
    rw [table, List.map_congr_left (entries i), ← sweep_map, ← tables]
    rfl

theorem represents_empty : ({} : Links).Represents {} := ⟨_, _, linked_empty, fun _ => rfl⟩

end

/-- In every run whose entered addresses have no entry of their class in another bucket: there is at most one entry
for each class, the walk finds it exactly for the addresses of which the same holds, an entry that is taken out is
the only one that goes, and every operation ends. Another entry for a class is made exactly when an address is entered
whose class has an entry elsewhere. -/
theorem registry_classes {h : Links} (reached : Reached Op.apart h) :
    h.OneEach ∧ (∀ ip, h.Finds ip ↔ h.Apart ip) ∧ (∀ p, h.Listed p → h.RemovesOnly p) ∧
      (∀ op : Op, (op.run h).isSome = true) ∧
        ∀ ip f fresh h', h.enter ip f fresh = some h' → (h'.OneEach ↔ h.Apart ip) := by
  obtain ⟨⟨chains, free, linked⟩, one⟩ := reached.in_order
  refine ⟨one, linked.finds_iff one, fun p => linked.removesOnly, fun op => ?_, fun ip f fresh h' done => ?_⟩
  · obtain ⟨h', done, -⟩ := linked.op one op
    rw [done]
    rfl
  · obtain ⟨h₁, entered, -, one'⟩ := linked.enter one ip f fresh
    rw [done] at entered
    cases entered
    exact one'

def docV4 : InAddr := .mapped 0xc000 0x0201

def docSixToFour : InAddr := ⟨[0x2002, 0xc000, 0x0201, 1, 0, 0, 0, 1], rfl⟩

def blank : IPRegistryEntry := { addr := canonicalize docV4, last_connect := 0 }

def oneEntry : Links := ({} : Links).make blank

theorem oneEntry_entered : ({} : Links).enter docV4 id blank = some oneEntry := rfl

theorem oneEntry_stands : oneEntry.StandsFor docV4 0 ∧ oneEntry.StandsFor docSixToFour 0 := by
  have listed : oneEntry.Listed 0 :=
    ⟨registryHash (canonicalize docV4), [0], ⟨rfl, rfl⟩, List.mem_cons_self⟩
  exact ⟨⟨listed, (sameBlock_iff_class _ _).mp (by decide)⟩, ⟨listed, (sameBlock_iff_class _ _).mp (by decide)⟩⟩

theorem empty_apart (ip : InAddr) : ({} : Links).Apart ip := by
  intro p stands
  obtain ⟨i, mem⟩ := (linked_empty.listed p).mp stands.1
  cases mem

theorem oneEntry_reached : Reached Op.apart oneEntry :=
  have next : Op.run {} (.enter docV4 id blank) = some oneEntry := oneEntry_entered
  have met : Op.apart {} (.enter docV4 id blank) := empty_apart docV4
  Reached.op .init met next

theorem oneEntry_classes : oneEntry.OneEach ∧ oneEntry.RemovesOnly 0 :=
  ⟨(registry_classes oneEntry_reached).1, (registry_classes oneEntry_reached).2.2.1 0 oneEntry_stands.1.1⟩

/-- The entry of the IPv4 address is of the class of the 6to4 address, which is looked for in another bucket. -/
theorem sixToFour_split :
    ¬ ∀ h : Links, Reached (fun _ _ => True) h →
      h.OneEach ∧ (∀ ip, h.Finds ip) ∧ ∀ p, h.Listed p → h.RemovesOnly p := by
  intro every
  have reached : Reached (fun _ _ => True) oneEntry :=
    Reached.op .init trivial (show Op.run {} (.enter docV4 id blank) = some oneEntry from oneEntry_entered)
  obtain ⟨⟨chains, free, linked⟩, one⟩ := oneEntry_reached.in_order
  have not_apart : ¬ oneEntry.Apart docSixToFour := fun apart => absurd (apart 0 oneEntry_stands.2) (by decide)
  -- The search misses the entry, and entering the address makes a second one.
  obtain ⟨h', entered, -, one'⟩ := linked.enter one docSixToFour id blank
  have next : Op.run oneEntry (.enter docSixToFour id blank) = some h' := entered
  exact not_apart (one'.mp (every h' (reached.op trivial next)).1)

end Links

end Ircd.IpRegistry

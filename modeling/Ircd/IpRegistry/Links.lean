import Ircd.IpRegistry.Counting
import Ircd.Library.Chain

/-! The registry of `IPcheck.c` with its links: buckets, `next` pointers and the free list.

An entry is known by the order in which `MyMalloc` gave it out; the source never gives one back. The walks have
a bound on their turns, one more than there are entries. `none` is a walk that did not end within it.
-/

set_option autoImplicit false

namespace Ircd.IpRegistry
open Ircd.Library Ircd.Net

structure Links where
  hashTable : UInt16 → Option Nat := fun _ => none
  next : Nat → Option Nat := fun _ => none
  entry : Nat → IPRegistryEntry := fun _ => { addr := .mapped 0 0, last_connect := 0 }
  freeList : Option Nat := none
  allocated : Nat := 0

namespace Links

def bucket (h : Links) (p : Nat) : UInt16 := registryHash (h.entry p).addr

def find (h : Links) (ip : InAddr) : Option (Option Nat) :=
  findCell h.next (fun p => sameBlock (canonicalize ip) (h.entry p)) (h.allocated + 1)
    (h.hashTable (registryHash (canonicalize ip)))

def add (h : Links) (p : Nat) : Links :=
  { h with
    next := Function.update h.next p (h.hashTable (h.bucket p))
    hashTable := Function.update h.hashTable (h.bucket p) (some p) }

def remove (h : Links) (p : Nat) : Option Links :=
  if h.hashTable (h.bucket p) = some p then
    some { h with hashTable := Function.update h.hashTable (h.bucket p) (h.next p) }
  else
    (findCell h.next (fun q => h.next q = some p) (h.allocated + 1) (h.hashTable (h.bucket p))).map fun found =>
      found.elim h fun prev => { h with next := Function.update h.next prev (h.next p) }

/-- Write the fields of an entry, `next` apart. -/
def put (h : Links) (p : Nat) (e : IPRegistryEntry) : Links := { h with entry := Function.update h.entry p e }

def reuse (h : Links) (e : IPRegistryEntry) (p : Nat) : Links :=
  { h with
    freeList := h.next p
    next := Function.update h.next p none
    entry := Function.update h.entry p e }

def allocate (h : Links) (e : IPRegistryEntry) : Links :=
  { h with
    allocated := h.allocated + 1
    next := Function.update h.next h.allocated none
    entry := Function.update h.entry h.allocated e }

/-- `ip_registry_new_entry`, with the entry as its caller fills it in. -/
def newEntry (h : Links) (e : IPRegistryEntry) : Links × Nat :=
  h.freeList.elim (h.allocate e, h.allocated) fun p => (h.reuse e p, p)

def deleteEntry (h : Links) (p : Nat) : Links :=
  { h with next := Function.update h.next p h.freeList, freeList := some p }

/-- `ip_registry_expire_entry`, called for an entry without clients. -/
def expireEntry (env : Env) (h : Links) (p : Nat) : Option Links :=
  match IpRegistry.expireEntry env (h.entry p) with
  | none => (h.remove p).map fun h => h.deleteEntry p
  | some e => some (h.put p e)

/-- The loop of `ip_registry_expire` over a bucket, from an entry on. -/
def expireChain (env : Env) : Nat → Links → Option Nat → Option Links
  | 0, _, _ => none
  | _ + 1, h, none => some h
  | turns + 1, h, some p =>
    let entry_next := h.next p
    let h := if (h.entry p).connected = 0 then h.expireEntry env p else some h
    h.bind fun h => expireChain env turns h entry_next

/-- `ip_registry_expire`, over the buckets from the first on. -/
def expire (env : Env) (h : Links) : Option Links :=
  (List.range 65536).foldlM (fun h i =>
    let bucket := UInt16.ofNat i
    expireChain env (h.allocated + 1) h (h.hashTable bucket)) h

def write (h : Links) (f : IPRegistryEntry → IPRegistryEntry) (p : Nat) : Links :=
  h.put p { f (h.entry p) with addr := (h.entry p).addr }

def make (h : Links) (e : IPRegistryEntry) : Links := (h.newEntry e).1.add (h.newEntry e).2

/-- What a call does that needs an entry and makes one where there is none. -/
def enter (h : Links) (ip : InAddr) (f : IPRegistryEntry → IPRegistryEntry) (fresh : IPRegistryEntry) : Option Links :=
  (h.find ip).map fun found => found.elim (h.make { fresh with addr := canonicalize ip }) (h.write f)

def visit (h : Links) (ip : InAddr) (f : IPRegistryEntry → IPRegistryEntry) : Option Links :=
  (h.find ip).map fun found => found.elim h (h.write f)

/-- The buckets hold `chains`, entries of canonical addresses each in the bucket of its hash and no two of one
canonical address; `free` is the free list. -/
structure Linked (h : Links) (chains : UInt16 → List Nat) (free : List Nat) : Prop where
  chain : ∀ i, Chain h.next (h.hashTable i) (chains i)
  placed : ∀ i, ∀ p ∈ chains i, h.bucket p = i
  canonical : ∀ i, ∀ p ∈ chains i, ∃ a, (h.entry p).addr = canonicalize a
  distinct : ∀ i, ((chains i).map fun p => (h.entry p).addr).Nodup
  below : ∀ i, ∀ p ∈ chains i, p < h.allocated
  free_chain : Chain h.next h.freeList free
  free_distinct : free.Nodup
  free_below : ∀ p ∈ free, p < h.allocated
  apart : ∀ i, ∀ p ∈ chains i, p ∉ free

section
variable {h : Links} {chains : UInt16 → List Nat} {free : List Nat} (linked : Linked h chains free)
include linked

theorem Linked.nodup (i : UInt16) : (chains i).Nodup := (linked.distinct i).of_map _

theorem Linked.short (i : UInt16) : (chains i).length < h.allocated + 1 := by
  apply Nat.lt_succ_of_le
  have inside : chains i ⊆ List.range h.allocated := fun p mem => List.mem_range.mpr (linked.below i p mem)
  simpa using (linked.nodup i).subperm inside |>.length_le

theorem Linked.same_bucket {i j : UInt16} {p : Nat} (mem_i : p ∈ chains i) (mem_j : p ∈ chains j) : i = j :=
  (linked.placed i p mem_i).symm.trans (linked.placed j p mem_j)

/-- The walk of `ip_registry_find` ends at the first entry of the bucket that the test takes. -/
theorem Linked.find (ip : InAddr) :
    h.find ip =
      some ((chains (registryHash (canonicalize ip))).find? fun p => sameBlock (canonicalize ip) (h.entry p)) :=
  (linked.chain _).findCell _ (linked.short _)

theorem Linked.put {p : Nat} {e : IPRegistryEntry} (same : e.addr = (h.entry p).addr) :
    Linked (h.put p e) chains free := by
  have addr (q : Nat) : ((h.put p e).entry q).addr = (h.entry q).addr := by
    by_cases here : q = p
    · simp [here, Links.put, same]
    · simp [Links.put, here]
  have places := linked.placed
  have canonical := linked.canonical
  have distinct := linked.distinct
  constructor
  · exact linked.chain
  · intro i q mem
    rw [Links.bucket, addr]
    exact places i q mem
  · intro i q mem
    rw [addr]
    exact canonical i q mem
  · intro i
    simp only [addr]
    exact distinct i
  · exact linked.below
  · exact linked.free_chain
  · exact linked.free_distinct
  · exact linked.free_below
  · exact linked.apart

structure Outside (h : Links) (chains : UInt16 → List Nat) (free : List Nat) (p : Nat) : Prop where
  below : p < h.allocated
  chains : ∀ i, p ∉ chains i
  free : p ∉ free

theorem Linked.outside {h' : Links} {free' : List Nat} (heads : h'.hashTable = h.hashTable)
    (links : ∀ i, ∀ p ∈ chains i, h'.next p = h.next p) (entries : ∀ i, ∀ p ∈ chains i, h'.entry p = h.entry p)
    (room : h.allocated ≤ h'.allocated) (free_chain : Chain h'.next h'.freeList free')
    (free_distinct : free'.Nodup) (free_below : ∀ p ∈ free', p < h'.allocated)
    (apart : ∀ i, ∀ p ∈ chains i, p ∉ free') : Linked h' chains free' := by
  constructor
  · intro i
    rw [heads]
    exact (linked.chain i).congr (links i)
  · intro i p mem
    rw [bucket, entries i p mem]
    exact linked.placed i p mem
  · intro i p mem
    rw [entries i p mem]
    exact linked.canonical i p mem
  · intro i
    have same : (chains i).map (fun p => (h'.entry p).addr) = (chains i).map fun p => (h.entry p).addr :=
      List.map_congr_left fun p mem => congrArg IPRegistryEntry.addr (entries i p mem)
    rw [same]
    exact linked.distinct i
  · exact fun i p mem => Nat.lt_of_lt_of_le (linked.below i p mem) room
  · exact free_chain
  · exact free_distinct
  · exact free_below
  · exact apart

theorem Linked.newEntry (e : IPRegistryEntry) :
    ∃ free', Linked (h.newEntry e).1 chains free' ∧ Outside (h.newEntry e).1 chains free' (h.newEntry e).2 ∧
      (h.newEntry e).1.entry = Function.update h.entry (h.newEntry e).2 e := by
  unfold Links.newEntry
  cases start : h.freeList with
  | some p =>
    have free_chain := linked.free_chain
    rw [start] at free_chain
    obtain ⟨rest, rfl, rest_chain⟩ := free_chain.exists_cons
    obtain ⟨fresh, distinct⟩ := List.nodup_cons.mp linked.free_distinct
    have absent (i : UInt16) : p ∉ chains i := fun mem => linked.apart i p mem List.mem_cons_self
    rw [Option.elim_some]
    have heads : (h.reuse e p).hashTable = h.hashTable := rfl
    refine ⟨rest, ?_, ⟨linked.free_below p List.mem_cons_self, absent, fresh⟩, rfl⟩
    apply linked.outside heads
    · exact fun i q mem => Function.update_of_ne (fun same : q = p => absent i (same ▸ mem)) _ _
    · exact fun i q mem => Function.update_of_ne (fun same : q = p => absent i (same ▸ mem)) _ _
    · exact Nat.le_refl _
    · exact rest_chain.congr fun q mem => Function.update_of_ne (fun same : q = p => fresh (same ▸ mem)) _ _
    · exact distinct
    · exact fun q mem => linked.free_below q (List.mem_cons_of_mem p mem)
    · exact fun i q mem mem_rest => linked.apart i q mem (List.mem_cons_of_mem p mem_rest)
  | none =>
    have absent (i : UInt16) : h.allocated ∉ chains i := fun mem => Nat.lt_irrefl _ (linked.below i _ mem)
    have fresh : h.allocated ∉ free := fun mem => Nat.lt_irrefl _ (linked.free_below _ mem)
    rw [Option.elim_none]
    have heads : (h.allocate e).hashTable = h.hashTable := rfl
    refine ⟨free, ?_, ⟨Nat.lt_succ_self _, absent, fresh⟩, rfl⟩
    apply linked.outside heads
    · exact fun i q mem => Function.update_of_ne (fun same : q = h.allocated => absent i (same ▸ mem)) _ _
    · exact fun i q mem => Function.update_of_ne (fun same : q = h.allocated => absent i (same ▸ mem)) _ _
    · exact Nat.le_succ _
    · exact linked.free_chain.congr fun q mem =>
        Function.update_of_ne (fun same : q = h.allocated => fresh (same ▸ mem)) _ _
    · exact linked.free_distinct
    · exact fun q mem => Nat.lt_succ_of_lt (linked.free_below q mem)
    · exact linked.apart

theorem Linked.add {p : Nat} (outside : Outside h chains free p) {a : InAddr}
    (canonical : (h.entry p).addr = canonicalize a)
    (absent : ∀ q ∈ chains (h.bucket p), (h.entry q).addr ≠ (h.entry p).addr) :
    Linked (h.add p) (Function.update chains (h.bucket p) (p :: chains (h.bucket p))) free := by
  have links (i : UInt16) : ∀ q ∈ chains i, (h.add p).next q = h.next q := fun q mem =>
    Function.update_of_ne (fun same : q = p => outside.chains i (same ▸ mem)) _ _
  constructor
  · intro i
    by_cases here : i = h.bucket p
    · rw [here, Function.update_self]
      simp only [Links.add, Function.update_self]
      exact (linked.chain _).push (outside.chains _)
    · rw [Function.update_of_ne here]
      simp only [Links.add, Function.update_of_ne here]
      exact (linked.chain i).congr (links i)
  · intro i q mem
    by_cases here : i = h.bucket p
    · rw [here, Function.update_self, List.mem_cons] at mem
      rcases mem with rfl | mem
      · exact here.symm
      · exact (linked.placed _ q mem).trans here.symm
    · rw [Function.update_of_ne here] at mem
      exact linked.placed i q mem
  · intro i q mem
    by_cases here : i = h.bucket p
    · rw [here, Function.update_self, List.mem_cons] at mem
      rcases mem with rfl | mem
      · exact ⟨a, canonical⟩
      · exact linked.canonical _ q mem
    · rw [Function.update_of_ne here] at mem
      exact linked.canonical i q mem
  · intro i
    by_cases here : i = h.bucket p
    · rw [here, Function.update_self, List.map_cons, List.nodup_cons]
      refine ⟨fun mem => ?_, linked.distinct _⟩
      obtain ⟨q, mem_q, same⟩ := List.mem_map.mp mem
      exact absent q mem_q same
    · rw [Function.update_of_ne here]
      exact linked.distinct i
  · intro i q mem
    by_cases here : i = h.bucket p
    · rw [here, Function.update_self, List.mem_cons] at mem
      rcases mem with rfl | mem
      · exact outside.below
      · exact linked.below _ q mem
    · rw [Function.update_of_ne here] at mem
      exact linked.below i q mem
  · exact linked.free_chain.congr fun q mem =>
      Function.update_of_ne (fun same : q = p => outside.free (same ▸ mem)) _ _
  · exact linked.free_distinct
  · exact linked.free_below
  · intro i q mem
    by_cases here : i = h.bucket p
    · rw [here, Function.update_self, List.mem_cons] at mem
      rcases mem with rfl | mem
      · exact outside.free
      · exact linked.apart _ q mem
    · rw [Function.update_of_ne here] at mem
      exact linked.apart i q mem

theorem Linked.drop {h' : Links} {b : UInt16} {p : Nat} {front back : List Nat} (shape : chains b = front ++ p :: back)
    (chain : Chain h'.next (h'.hashTable b) (front ++ back)) (heads : ∀ i, i ≠ b → h'.hashTable i = h.hashTable i)
    (links : ∀ q, h'.next q = h.next q ∨ q ∈ front) (entries : h'.entry = h.entry) (start : h'.freeList = h.freeList)
    (room : h'.allocated = h.allocated) :
    Linked h' (Function.update chains b (front ++ back)) free ∧
      Outside h' (Function.update chains b (front ++ back)) free p := by
  have distinct := linked.nodup b
  rw [shape, List.nodup_middle, List.nodup_cons] at distinct
  have mem_p : p ∈ chains b := by simp [shape]
  -- What is left of a chain was there before.
  have fewer (i : UInt16) : (Function.update chains b (front ++ back) i).Sublist (chains i) := by
    by_cases here : i = b
    · rw [here, Function.update_self, shape]
      exact List.Sublist.append_left (List.sublist_cons_self p back) front
    · rw [Function.update_of_ne here]
  have front_b (q : Nat) (mem : q ∈ front) : q ∈ chains b := by
    rw [shape]
    exact List.mem_append_left _ mem
  constructor
  · constructor
    · intro i
      by_cases here : i = b
      · rw [here, Function.update_self]
        exact chain
      · rw [Function.update_of_ne here, heads i here]
        refine (linked.chain i).congr fun q mem => (links q).resolve_right fun mem_front => ?_
        exact here (linked.same_bucket mem (front_b q mem_front))
    · intro i q mem
      rw [bucket, entries]
      exact linked.placed i q ((fewer i).subset mem)
    · intro i q mem
      rw [entries]
      exact linked.canonical i q ((fewer i).subset mem)
    · intro i
      rw [entries]
      exact (linked.distinct i).sublist ((fewer i).map _)
    · intro i q mem
      rw [room]
      exact linked.below i q ((fewer i).subset mem)
    · rw [start]
      refine linked.free_chain.congr fun q mem => (links q).resolve_right fun mem_front => ?_
      exact linked.apart b q (front_b q mem_front) mem
    · exact linked.free_distinct
    · intro q mem
      rw [room]
      exact linked.free_below q mem
    · exact fun i q mem => linked.apart i q ((fewer i).subset mem)
  · constructor
    · rw [room]
      exact linked.below b p mem_p
    · intro i mem
      by_cases here : i = b
      · rw [here, Function.update_self] at mem
        exact distinct.1 mem
      · rw [Function.update_of_ne here] at mem
        exact here (linked.same_bucket mem mem_p)
    · exact linked.apart b p mem_p

theorem Linked.remove {b : UInt16} {p : Nat} {front back : List Nat} (shape : chains b = front ++ p :: back) :
    ∃ h', h.remove p = some h' ∧ h'.entry = h.entry ∧ h'.allocated = h.allocated ∧
      Linked h' (Function.update chains b (front ++ back)) free ∧
        Outside h' (Function.update chains b (front ++ back)) free p := by
  have mem_p : p ∈ chains b := by simp [shape]
  have here : h.bucket p = b := linked.placed b p mem_p
  have chain := linked.chain b
  have distinct := linked.nodup b
  have short := linked.short b
  unfold Links.remove
  rw [here]
  rw [shape] at chain distinct short
  rcases List.eq_nil_or_concat front with rfl | ⟨before, prev, rfl⟩
  · -- The entry is the first of its bucket.
    have head : h.hashTable b = some p := chain.1
    rw [if_pos head]
    refine ⟨_, rfl, rfl, rfl, linked.drop shape ?_ (fun i other => Function.update_of_ne other _ _) (fun q => .inl rfl)
      rfl rfl rfl⟩
    simp only [Function.update_self]
    exact chain.2
  · rw [List.concat_eq_append, List.append_assoc, List.singleton_append] at chain distinct short shape ⊢
    have head : h.hashTable b ≠ some p := by
      intro first
      cases before with
      | nil =>
        have same : prev = p := Option.some.inj (chain.1.symm.trans first)
        rw [same] at distinct
        simp at distinct
      | cons c before =>
        have same : c = p := Option.some.inj (chain.1.symm.trans first)
        rw [same] at distinct
        simp at distinct
    rw [if_neg head, chain.findCell _ short, chain.find_before distinct, Option.map_some, Option.elim_some]
    refine ⟨_, rfl, rfl, rfl, ?_⟩
    have shape' : chains b = (before ++ [prev]) ++ p :: back := by simp [shape]
    have cut := chain.unlink distinct
    have back_chain : before ++ prev :: back = (before ++ [prev]) ++ back := by simp
    rw [back_chain] at cut ⊢
    refine linked.drop shape' cut (fun i other => rfl) (fun q => ?_) rfl rfl rfl
    by_cases at_prev : q = prev
    · exact .inr (by simp [at_prev])
    · exact .inl (Function.update_of_ne at_prev _ _)

theorem Linked.deleteEntry {p : Nat} (outside : Outside h chains free p) :
    Linked (h.deleteEntry p) chains (p :: free) := by
  have heads : (h.deleteEntry p).hashTable = h.hashTable := rfl
  apply linked.outside heads
  · exact fun i q mem => Function.update_of_ne (fun same : q = p => outside.chains i (same ▸ mem)) _ _
  · exact fun i q mem => rfl
  · exact Nat.le_refl _
  · exact linked.free_chain.push outside.free
  · exact List.nodup_cons.mpr ⟨outside.free, linked.free_distinct⟩
  · intro q mem
    rcases List.mem_cons.mp mem with rfl | mem
    · exact outside.below
    · exact linked.free_below q mem
  · intro i q mem mem_free
    rcases List.mem_cons.mp mem_free with rfl | mem_free
    · exact outside.chains i mem
    · exact linked.apart i q mem mem_free

end

def visited (env : Env) (e : IPRegistryEntry) : Option IPRegistryEntry :=
  if e.connected = 0 then IpRegistry.expireEntry env e else some e

theorem visited_addr {env : Env} {e e' : IPRegistryEntry} (kept : visited env e = some e') : e'.addr = e.addr := by
  unfold visited IpRegistry.expireEntry at kept
  split_ifs at kept
  · cases kept
    rfl
  · cases kept
    rfl
  · cases kept
    rfl

def keeps (env : Env) (h : Links) (p : Nat) : Bool := (visited env (h.entry p)).isSome

def swept (env : Env) (h : Links) (p : Nat) : IPRegistryEntry := (visited env (h.entry p)).getD (h.entry p)

theorem swept_addr (env : Env) (h : Links) (p : Nat) : (swept env h p).addr = (h.entry p).addr := by
  unfold swept
  cases kept : visited env (h.entry p) with
  | none => rfl
  | some e => exact visited_addr kept

theorem Linked.expireTurn {h : Links} {chains : UInt16 → List Nat} {free : List Nat} (linked : Linked h chains free)
    (env : Env) {b : UInt16} {p : Nat} {front back : List Nat} (shape : chains b = front ++ p :: back) :
    ∃ h' free', (if (h.entry p).connected = 0 then h.expireEntry env p else some h) = some h' ∧
      Linked h' (Function.update chains b (front ++ (if keeps env h p then [p] else []) ++ back)) free' ∧
        h'.entry = Function.update h.entry p (swept env h p) ∧ h'.allocated = h.allocated := by
  unfold keeps swept
  have chains_eq : Function.update chains b (front ++ p :: back) = chains := by rw [← shape, Function.update_eq_self]
  by_cases idle : (h.entry p).connected = 0
  · have seen : visited env (h.entry p) = IpRegistry.expireEntry env (h.entry p) := if_pos idle
    rw [if_pos idle, Links.expireEntry, seen]
    cases kept : IpRegistry.expireEntry env (h.entry p) with
    | none =>
      obtain ⟨h', removed, entries, room, linked', outside⟩ := linked.remove shape
      refine ⟨h'.deleteEntry p, p :: free, by rw [removed]; rfl, ?_, ?_, room⟩
      · simpa using linked'.deleteEntry outside
      · simp [Links.deleteEntry, entries]
    | some e =>
      have same : e.addr = (h.entry p).addr := visited_addr (seen.trans kept)
      refine ⟨h.put p e, free, rfl, ?_, rfl, rfl⟩
      simpa [chains_eq] using linked.put same
  · have seen : visited env (h.entry p) = some (h.entry p) := if_neg idle
    rw [if_neg idle, seen]
    refine ⟨h, free, rfl, ?_, by simp, rfl⟩
    simpa [chains_eq] using linked

theorem Linked.expireChain {h : Links} {chains : UInt16 → List Nat} {free : List Nat} (linked : Linked h chains free)
    (env : Env) {b : UInt16} {front rest : List Nat} (shape : chains b = front ++ rest) {turns : Nat}
    (enough : rest.length < turns) :
    ∃ h' free', Links.expireChain env turns h rest.head? = some h' ∧
      Linked h' (Function.update chains b (front ++ rest.filter (keeps env h))) free' ∧
        (∀ q, h'.entry q = if q ∈ rest then swept env h q else h.entry q) ∧ h'.allocated = h.allocated := by
  induction rest generalizing h chains free front turns with
  | nil =>
    obtain ⟨turns, rfl⟩ := Nat.exists_eq_succ_of_ne_zero (Nat.ne_zero_of_lt enough)
    have chains_eq : Function.update chains b (front ++ []) = chains := by rw [← shape, Function.update_eq_self]
    refine ⟨h, free, rfl, ?_, fun q => by simp, rfl⟩
    rw [List.filter_nil, chains_eq]
    exact linked
  | cons p back ih =>
    obtain ⟨turns, rfl⟩ := Nat.exists_eq_succ_of_ne_zero (Nat.ne_zero_of_lt enough)
    have fresh : p ∉ back := by
      have distinct := linked.nodup b
      rw [shape] at distinct
      exact (List.nodup_cons.mp (List.nodup_append.mp distinct).2.1).1
    have following : h.next p = back.head? := by
      have chain := linked.chain b
      rw [shape] at chain
      exact chain.next_middle
    obtain ⟨h₁, free₁, turn, linked₁, entries₁, room₁⟩ := linked.expireTurn env shape
    have later (q : Nat) (mem : q ∈ back) : h₁.entry q = h.entry q := by
      rw [entries₁]
      exact Function.update_of_ne (fun same : q = p => fresh (same ▸ mem)) _ _
    obtain ⟨h', free', rest_turns, linked', entries', room'⟩ :=
      ih linked₁ (by rw [Function.update_self]) (Nat.lt_of_succ_lt_succ enough)
    refine ⟨h', free', ?_, ?_, ?_, room'.trans room₁⟩
    · simp only [Links.expireChain, List.head?_cons, following]
      rw [turn, Option.bind_some]
      exact rest_turns
    · have kept : back.filter (keeps env h₁) = back.filter (keeps env h) :=
        List.filter_congr fun q mem => by rw [keeps, keeps, later q mem]
      rw [Function.update_idem, kept] at linked'
      rw [List.filter_cons]
      by_cases stays : keeps env h p = true
      · simpa [stays] using linked'
      · simpa [stays] using linked'
    · intro q
      rw [entries' q]
      by_cases mem : q ∈ back
      · rw [if_pos mem, if_pos (List.mem_cons_of_mem p mem), swept, swept, later q mem]
      · rw [if_neg mem, entries₁]
        by_cases here : q = p
        · rw [here, Function.update_self, if_pos List.mem_cons_self]
        · rw [Function.update_of_ne here, if_neg (by simp [here, mem])]

def sweptChains (env : Env) (h : Links) (chains : UInt16 → List Nat) (l : List Nat) (i : UInt16) : List Nat :=
  if i ∈ l.map UInt16.ofNat then (chains i).filter (keeps env h) else chains i

theorem Linked.expireBuckets {h : Links} {chains : UInt16 → List Nat} {free : List Nat} (linked : Linked h chains free)
    (env : Env) (l : List Nat) (distinct : (l.map UInt16.ofNat).Nodup) :
    ∃ h' free', l.foldlM (fun h i =>
        Links.expireChain env (h.allocated + 1) h (h.hashTable (UInt16.ofNat i))) h = some h' ∧
      Linked h' (sweptChains env h chains l) free' ∧
        ∀ i, ∀ p ∈ sweptChains env h chains l i,
          h'.entry p = if i ∈ l.map UInt16.ofNat then swept env h p else h.entry p := by
  induction l generalizing h chains free with
  | nil =>
    have untouched : sweptChains env h chains [] = chains := by
      funext i
      exact if_neg List.not_mem_nil
    exact ⟨h, free, rfl, untouched ▸ linked, by simp⟩
  | cons j l ih =>
    rw [List.map_cons, List.nodup_cons] at distinct
    obtain ⟨fresh, distinct⟩ := distinct
    have shape : chains (UInt16.ofNat j) = [] ++ chains (UInt16.ofNat j) := rfl
    obtain ⟨h₁, free₁, walked, linked₁, entries₁, -⟩ := linked.expireChain env shape (linked.short _)
    rw [← (linked.chain (UInt16.ofNat j)).head_eq] at walked
    rw [List.nil_append] at linked₁
    obtain ⟨h', free', rest_walked, linked', entries'⟩ := ih linked₁ distinct
    -- The entries of the other buckets are as they were.
    have other (i : UInt16) (differ : i ≠ UInt16.ofNat j) (p : Nat) (mem : p ∈ chains i) : h₁.entry p = h.entry p := by
      rw [entries₁, if_neg fun mem_j => differ (linked.same_bucket mem mem_j)]
    have chains_eq : sweptChains env h₁ (Function.update chains (UInt16.ofNat j)
        ((chains (UInt16.ofNat j)).filter (keeps env h))) l = sweptChains env h chains (j :: l) := by
      funext i
      unfold sweptChains
      rw [List.map_cons]
      by_cases here : i = UInt16.ofNat j
      · rw [here, Function.update_self, if_pos List.mem_cons_self, if_neg fresh]
      · rw [Function.update_of_ne here]
        by_cases mem : i ∈ l.map UInt16.ofNat
        · rw [if_pos mem, if_pos (List.mem_cons_of_mem _ mem)]
          exact List.filter_congr fun p mem_p => by rw [keeps, keeps, other i here p mem_p]
        · rw [if_neg mem, if_neg (by simp [here, mem])]
    rw [chains_eq] at linked' entries'
    refine ⟨h', free', ?_, linked', ?_⟩
    · rw [List.foldlM_cons, walked]
      exact rest_walked
    · intro i p mem_p
      have before : p ∈ chains i := by
        unfold sweptChains at mem_p
        split at mem_p
        · exact List.mem_of_mem_filter mem_p
        · exact mem_p
      rw [entries' i p mem_p, List.map_cons]
      by_cases here : i = UInt16.ofNat j
      · rw [here, if_neg fresh, if_pos List.mem_cons_self, entries₁, if_pos (here ▸ before)]
      · rw [swept, other i here p before, ← swept]
        by_cases mem : i ∈ l.map UInt16.ofNat
        · rw [if_pos mem, if_pos (List.mem_cons_of_mem _ mem)]
        · rw [if_neg mem, if_neg (by simp [here, mem])]

theorem Linked.expire {h : Links} {chains : UInt16 → List Nat} {free : List Nat} (linked : Linked h chains free)
    (env : Env) :
    ∃ h' free', h.expire env = some h' ∧ Linked h' (fun i => (chains i).filter (keeps env h)) free' ∧
      ∀ i, ∀ p ∈ (chains i).filter (keeps env h), h'.entry p = swept env h p := by
  have distinct : ((List.range 65536).map UInt16.ofNat).Nodup := by
    apply List.Nodup.map_on _ List.nodup_range
    intro i mem_i j mem_j same
    have values := congrArg UInt16.toNat same
    rw [List.mem_range] at mem_i mem_j
    rwa [UInt16.toNat_ofNat_of_lt' mem_i, UInt16.toNat_ofNat_of_lt' mem_j] at values
  have all (i : UInt16) : i ∈ (List.range 65536).map UInt16.ofNat :=
    List.mem_map.mpr ⟨i.toNat, List.mem_range.mpr i.toNat_lt, UInt16.ofNat_toNat⟩
  obtain ⟨h', free', walked, linked', entries'⟩ := linked.expireBuckets env (List.range 65536) distinct
  have chains_eq : sweptChains env h chains (List.range 65536) = fun i => (chains i).filter (keeps env h) := by
    funext i
    exact if_pos (all i)
  rw [chains_eq] at linked' entries'
  refine ⟨h', free', walked, linked', fun i p mem => ?_⟩
  rw [entries' i p mem, if_pos (all i)]

end Links

end Ircd.IpRegistry

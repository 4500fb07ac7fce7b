import Ircd.Buffers.Dbuf

/-! The receive buffer refines a byte FIFO.

`ls` are the blocks of this buffer in order, `fs` the free ones and `os` those of other
buffers. Every operation keeps the three apart, leaves `os` alone and does to `content`
what the FIFO does.
-/

set_option autoImplicit false

namespace Ircd.Buffers
open Ircd.Library Ircd.Text

def unread (mem : Mem) (a : Addr) : List Char := (mem.heap a).bytes.drop (mem.heap a).start

def content (mem : Mem) (ls : List Addr) : List Char := ls.flatMap (unread mem)

/-- A chain from `head` to `tail` without an empty block. -/
structure Linked (mem : Mem) (head tail : Option Addr) (ls : List Addr) : Prop where
  chain : Chain mem.next head ls
  last : tail = ls.getLast?
  live : ∀ a ∈ ls, (mem.heap a).start < (mem.heap a).bytes.length ∧ (mem.heap a).bytes.length ≤ DBUF_SIZE

structure Pool (mem : Mem) (ls fs os : List Addr) : Prop where
  free : Chain mem.next mem.dbufFreeList fs
  apart : (ls ++ (fs ++ os)).Nodup
  known : ∀ a ∈ ls ++ (fs ++ os), a < mem.DBufAllocCount
  small : mem.DBufAllocCount ≤ 2 ^ 20

structure Owned (mem : Mem) (dyn : DBuf) (ls fs os : List Addr) : Prop where
  linked : Linked mem dyn.head dyn.tail ls
  pool : Pool mem ls fs os
  length : dyn.length.toNat = (content mem ls).length

def Spares (mem mem' : Mem) (os : List Addr) : Prop := ∀ a ∈ os, mem'.heap a = mem.heap a

theorem Spares.trans {mem₁ mem₂ mem₃ : Mem} {os : List Addr} (first : Spares mem₁ mem₂ os)
    (second : Spares mem₂ mem₃ os) : Spares mem₁ mem₃ os := by
  intro a mem
  rw [second a mem, first a mem]

@[simp] theorem content_nil (mem : Mem) : content mem [] = [] := rfl

@[simp] theorem content_cons (mem : Mem) (a : Addr) (ls : List Addr) :
    content mem (a :: ls) = unread mem a ++ content mem ls := rfl

theorem content_congr {mem mem' : Mem} {ls : List Addr} (same : ∀ a ∈ ls, mem'.heap a = mem.heap a) :
    content mem' ls = content mem ls := by
  induction ls with
  | nil => rfl
  | cons a ls ih =>
    rw [content_cons, content_cons, ih fun b mem => same b (List.mem_cons_of_mem a mem), unread, unread,
      same a List.mem_cons_self]

theorem heap_modify_same (mem : Mem) (a : Addr) (f : Block → Block) : (mem.modify a f).heap a = f (mem.heap a) := by
  simp [Mem.modify]

theorem heap_modify_ne (mem : Mem) {a b : Addr} (f : Block → Block) (other : b ≠ a) :
    (mem.modify a f).heap b = mem.heap b := by
  simp [Mem.modify, other]

theorem heap_free_same (mem : Mem) (a : Addr) :
    (dbufFree mem a).heap a = { mem.heap a with next := mem.dbufFreeList } := by
  simp [dbufFree, Mem.modify]

theorem heap_free_ne (mem : Mem) {a b : Addr} (other : b ≠ a) : (dbufFree mem a).heap b = mem.heap b := by
  simp [dbufFree, Mem.modify, other]

theorem content_eq_nil {mem : Mem} {head tail : Option Addr} {ls : List Addr} (linked : Linked mem head tail ls) :
    content mem ls = [] ↔ ls = [] := by
  constructor
  · intro empty
    cases ls with
    | nil => rfl
    | cons a ls =>
      have live := linked.live a List.mem_cons_self
      rw [content_cons, List.append_eq_nil_iff, unread, List.drop_eq_nil_iff] at empty
      omega
  · rintro rfl
    rfl

theorem Linked.congr {mem mem' : Mem} {head tail : Option Addr} {ls : List Addr} (linked : Linked mem head tail ls)
    (same : ∀ a ∈ ls, mem'.heap a = mem.heap a) : Linked mem' head tail ls := by
  refine ⟨linked.chain.congr fun a mem => ?_, linked.last, fun a mem => ?_⟩
  · rw [Mem.next, Mem.next, same a mem]
  · rw [same a mem]
    exact linked.live a mem

theorem length_le_of_bounded {l : List Nat} {n : Nat} (distinct : l.Nodup) (below : ∀ a ∈ l, a < n) :
    l.length ≤ n := by
  have sub : l ⊆ List.range n := fun a mem => List.mem_range.mpr (below a mem)
  simpa using (List.subperm_of_subset distinct sub).length_le

theorem content_length_le {mem : Mem} {ls : List Addr} (room : ∀ a ∈ ls, (mem.heap a).bytes.length ≤ DBUF_SIZE) :
    (content mem ls).length ≤ DBUF_SIZE * ls.length := by
  induction ls with
  | nil => simp
  | cons a ls ih =>
    have rest := ih fun b mem => room b (List.mem_cons_of_mem a mem)
    have first := room a List.mem_cons_self
    have taken : (unread mem a).length ≤ (mem.heap a).bytes.length := by
      rw [unread, List.length_drop]
      omega
    rw [content_cons, List.length_append, List.length_cons, Nat.mul_succ]
    omega

theorem content_small {mem : Mem} {head tail : Option Addr} {ls fs os : List Addr}
    (linked : Linked mem head tail ls) (pool : Pool mem ls fs os) : (content mem ls).length ≤ 2 ^ 31 := by
  have blocks := length_le_of_bounded pool.apart.of_append_left fun a mem =>
    pool.known a (List.mem_append_left _ mem)
  have bytes := content_length_le fun a mem => (linked.live a mem).2
  have small := pool.small
  have total : DBUF_SIZE * ls.length ≤ DBUF_SIZE * 2 ^ 20 := Nat.mul_le_mul_left _ (blocks.trans small)
  exact bytes.trans total

theorem Pool.free_head {mem : Mem} {a : Addr} {ls fs os : List Addr} (pool : Pool mem (a :: ls) fs os) :
    Pool (dbufFree mem a) ls (a :: fs) os := by
  have apart := pool.apart
  have known := pool.known
  have moved : (ls ++ (a :: fs ++ os)).Perm (a :: ls ++ (fs ++ os)) := by
    simp
  refine ⟨⟨rfl, ?_⟩, moved.nodup_iff.mpr apart, fun b mem => known b (moved.mem_iff.mp mem), pool.small⟩
  have next : (dbufFree mem a).next a = mem.dbufFreeList := by rw [Mem.next, heap_free_same]
  rw [next]
  apply pool.free.congr
  intro b mem_fs
  have other : b ≠ a := by
    rintro rfl
    simp [mem_fs] at apart
  rw [Mem.next, Mem.next, heap_free_ne mem other]

theorem Pool.modify_own {mem : Mem} {a : Addr} {ls fs os : List Addr} (pool : Pool mem ls fs os) (own : a ∈ ls)
    (f : Block → Block) : Pool (mem.modify a f) ls fs os := by
  refine ⟨pool.free.congr fun b mem_fs => ?_, pool.apart, pool.known, pool.small⟩
  have other : b ≠ a := by
    rintro rfl
    exact List.disjoint_of_nodup_append pool.apart own (List.mem_append_left _ mem_fs)
  rw [Mem.next, Mem.next, heap_modify_ne mem f other]

theorem Pool.not_mem_other {mem : Mem} {a : Addr} {ls fs os : List Addr} (pool : Pool mem ls fs os) (own : a ∈ ls) :
    a ∉ os := fun mem_os => List.disjoint_of_nodup_append pool.apart own (List.mem_append_right _ mem_os)

/-- What an operation leaves behind: a sound buffer with these bytes. -/
def Leaves (mem : Mem) (os : List Addr) (q : List Char) (mem' : Mem) (dyn' : DBuf) : Prop :=
  ∃ ls fs, Owned mem' dyn' ls fs os ∧ content mem' ls = q ∧ Spares mem mem' os

/-- The chain from `head`, reached from `mem₀` without touching other buffers. -/
structure Core (mem₀ : Mem) (os : List Addr) (mem : Mem) (head : Option Addr) (ls fs : List Addr) : Prop where
  chain : Chain mem.next head ls
  live : ∀ a ∈ ls, (mem.heap a).start < (mem.heap a).bytes.length ∧ (mem.heap a).bytes.length ≤ DBUF_SIZE
  pool : Pool mem ls fs os
  spares : Spares mem₀ mem os

variable {dyn : DBuf}

theorem Owned.core {mem : Mem} {ls fs os : List Addr} (owned : Owned mem dyn ls fs os) :
    Core mem os mem dyn.head ls fs :=
  ⟨owned.linked.chain, owned.linked.live, owned.pool, fun _ _ => rfl⟩

theorem Core.owned {mem₀ mem : Mem} {os : List Addr} {ls fs : List Addr} (core : Core mem₀ os mem dyn.head ls fs)
    (last : dyn.tail = ls.getLast?) (length : dyn.length.toNat = (content mem ls).length) :
    Owned mem dyn ls fs os :=
  ⟨⟨core.chain, last, core.live⟩, core.pool, length⟩

theorem length_unread (mem : Mem) (a : Addr) :
    (unread mem a).length = (mem.heap a).bytes.length - (mem.heap a).start := List.length_drop

section
variable {mem₀ mem : Mem} {os ls fs : List Addr} {db : Addr} {head : Option Addr} {k : Nat}

theorem Core.not_mem_rest (core : Core mem₀ os mem head (db :: ls) fs) : db ∉ ls := by
  have apart := core.pool.apart.of_append_left
  exact (List.nodup_cons.mp apart).1

theorem Core.take_part (core : Core mem₀ os mem head (db :: ls) fs) (part : k < (unread mem db).length) :
    Core mem₀ os (mem.modify db fun b => { b with start := b.start + k }) head (db :: ls) fs ∧
      content (mem.modify db fun b => { b with start := b.start + k }) (db :: ls) = (content mem (db :: ls)).drop k := by
  have own : db ∈ db :: ls := List.mem_cons_self
  have others : ∀ a ≠ db, (mem.modify db fun b => { b with start := b.start + k }).heap a = mem.heap a :=
    fun a other => heap_modify_ne mem _ other
  rw [length_unread] at part
  refine ⟨⟨core.chain.congr fun a _ => ?_, fun a mem_ls => ?_, core.pool.modify_own own _, fun a mem_os => ?_⟩, ?_⟩
  · by_cases same : a = db
    · rw [same, Mem.next, heap_modify_same, Mem.next]
    · rw [Mem.next, others a same, Mem.next]
  · have live := core.live a mem_ls
    by_cases same : a = db
    · subst same
      rw [heap_modify_same]
      simp only
      omega
    · rwa [others a same]
  · rw [others a fun same => core.pool.not_mem_other own (same ▸ mem_os), core.spares a mem_os]
  · have rest : content (mem.modify db fun b => { b with start := b.start + k }) ls = content mem ls :=
      content_congr fun a mem_ls => others a fun same => core.not_mem_rest (same ▸ mem_ls)
    rw [content_cons, content_cons, rest, unread, heap_modify_same, List.drop_append_of_le_length, unread,
      List.drop_drop]
    rw [length_unread]
    omega

theorem Core.take_all (core : Core mem₀ os mem head (db :: ls) fs) (all : k = (unread mem db).length) :
    Core mem₀ os (dbufFree (mem.modify db fun b => { b with start := b.start + k }) db) (mem.next db) ls (db :: fs) ∧
      content (dbufFree (mem.modify db fun b => { b with start := b.start + k }) db) ls =
        (content mem (db :: ls)).drop k := by
  have own : db ∈ db :: ls := List.mem_cons_self
  have others : ∀ a ≠ db,
      (dbufFree (mem.modify db fun b => { b with start := b.start + k }) db).heap a = mem.heap a :=
    fun a other => by rw [heap_free_ne _ other, heap_modify_ne mem _ other]
  have rest : ∀ a ∈ ls,
      (dbufFree (mem.modify db fun b => { b with start := b.start + k }) db).heap a = mem.heap a :=
    fun a mem_ls => others a fun same => core.not_mem_rest (same ▸ mem_ls)
  refine ⟨⟨core.chain.2.congr fun a mem_ls => ?_, fun a mem_ls => ?_, (core.pool.modify_own own _).free_head,
    fun a mem_os => ?_⟩, ?_⟩
  · rw [Mem.next, rest a mem_ls, Mem.next]
  · rw [rest a mem_ls]
    exact core.live a (List.mem_cons_of_mem db mem_ls)
  · rw [others a fun same => core.pool.not_mem_other own (same ▸ mem_os), core.spares a mem_os]
  · rw [content_congr rest, content_cons, all, List.drop_left]

end

theorem sub_toNat {a : UInt32} {k m : Nat} (value : a.toNat = k + m) : (a - UInt32.ofNat k).toNat = m := by
  have small := a.toNat_lt
  rw [UInt32.toNat_sub, UInt32.toNat_ofNat']
  omega

/-- The loop of `dbuf_delete`, `left` of `n` bytes to go. The tail may lag behind an empty chain. -/
structure Deleting (mem₀ : Mem) (os : List Addr) (q : List Char) (n : Nat) (s : Mem × DBuf × Nat)
    (ls fs : List Addr) : Prop where
  core : Core mem₀ os s.1 s.2.1.head ls fs
  last : ls ≠ [] → s.2.1.tail = ls.getLast?
  length : s.2.1.length.toNat = (content s.1 ls).length
  bytes : content s.1 ls = q.drop (n - s.2.2)
  within : s.2.2 ≤ n

theorem deleteTurn_next {mem₀ mem : Mem} {os : List Addr} {q : List Char} {n left : Nat} {ls fs : List Addr}
    (del : Deleting mem₀ os q n (mem, dyn, left) ls fs) (some_left : left ≠ 0) {db : Addr}
    (head : dyn.head = some db) :
    ∃ s ls' fs', deleteTurn (mem, dyn, left) = some (.inl s) ∧ Deleting mem₀ os q n s ls' fs' ∧ s.2.2 < left := by
  obtain ⟨core, last, length, bytes, within⟩ := del
  simp only at core last length bytes within
  have chain := core.chain
  rw [head] at chain
  obtain ⟨rest, rfl, -⟩ := chain.exists_cons
  have live := core.live db List.mem_cons_self
  have length_db := length_unread mem db
  have tail := last (by simp)
  have split : (content mem (db :: rest)).length = (unread mem db).length + (content mem rest).length :=
    List.length_append
  -- The chunk is at least one byte, since no block is empty.
  obtain ⟨chunk, chunk_eq⟩ : ∃ chunk, chunk = min ((mem.heap db).bytes.length - (mem.heap db).start) left := ⟨_, rfl⟩
  have dropped : (content mem (db :: rest)).drop chunk = q.drop (n - (left - chunk)) := by
    have offset : n - left + chunk = n - (left - chunk) := by omega
    rw [bytes, List.drop_drop, offset]
  have counted : (dyn.length - UInt32.ofNat chunk).toNat = ((content mem (db :: rest)).drop chunk).length := by
    apply sub_toNat
    rw [length, List.length_drop]
    omega
  unfold deleteTurn
  simp only [some_left, if_false, head, ← chunk_eq]
  by_cases all : (mem.heap db).start + chunk = (mem.heap db).bytes.length
  · rw [if_pos all]
    obtain ⟨core', content'⟩ := core.take_all (k := chunk) (by omega)
    refine ⟨_, rest, db :: fs, rfl, ⟨core', fun some_rest => ?_, ?_, ?_, ?_⟩, ?_⟩
    · simp only
      rw [tail, List.getLast?_cons_of_ne_nil some_rest]
    · simp only
      rw [content', counted]
    · simp only
      rw [content', dropped]
    · simp only
      omega
    · simp only
      omega
  · rw [if_neg all]
    obtain ⟨core', content'⟩ := core.take_part (k := chunk) (by omega)
    rw [head] at core'
    refine ⟨_, db :: rest, fs, rfl, ⟨core', fun _ => tail, ?_, ?_, ?_⟩, ?_⟩
    · simp only
      rw [content', counted]
    · simp only
      rw [content', dropped]
    · simp only
      omega
    · simp only
      omega

theorem dbufDelete_spec {mem : Mem} {ls fs os : List Addr} (owned : Owned mem dyn ls fs os) (n : Nat) :
    ∃ mem' dyn', dbufDelete mem dyn n = some (mem', dyn') ∧ Leaves mem os ((content mem ls).drop n) mem' dyn' := by
  have whole : (content mem ls).drop (min n dyn.length.toNat) = (content mem ls).drop n := by
    rw [owned.length]
    rcases Nat.le_total n (content mem ls).length with le | ge
    · rw [Nat.min_eq_left le]
    · rw [Nat.min_eq_right ge, List.drop_length, List.drop_eq_nil_of_le ge]
  have turns : ∀ (k : Nat) (s : Mem × DBuf × Nat),
      (s.2.2 = k ∧ ∃ ls' fs', Deleting mem os (content mem ls) (min n dyn.length.toNat) s ls' fs') →
      (∃ s' k', deleteTurn s = some (.inl s') ∧
        (s'.2.2 = k' ∧ ∃ ls' fs', Deleting mem os (content mem ls) (min n dyn.length.toNat) s' ls' fs') ∧ k' < k) ∨
      ∃ r, deleteTurn s = some (.inr r) ∧ ∃ left ls' fs',
        Deleting mem os (content mem ls) (min n dyn.length.toNat) (r.1, r.2, left) ls' fs' ∧
          (left = 0 ∨ r.2.head = none) := by
    rintro k ⟨mem', dyn', left⟩ ⟨rfl, ls', fs', del⟩
    by_cases none_left : left = 0
    · exact .inr ⟨(mem', dyn'), by simp [deleteTurn, none_left], left, ls', fs', del, .inl none_left⟩
    · cases head : dyn'.head with
      | none => exact .inr ⟨(mem', dyn'), by simp [deleteTurn, head], left, ls', fs', del, .inr head⟩
      | some db =>
        obtain ⟨s, ls'', fs'', next, del', less⟩ := deleteTurn_next del none_left head
        exact .inl ⟨s, s.2.2, next, ⟨rfl, ls'', fs'', del'⟩, less⟩
  have start : Deleting mem os (content mem ls) (min n dyn.length.toNat) (mem, dyn, min n dyn.length.toNat) ls fs :=
    ⟨owned.core, fun _ => owned.linked.last, owned.length, by simp, by simp⟩
  obtain ⟨r, done, post⟩ := loop_ends _ _ turns ⟨rfl, ls, fs, start⟩ (Nat.lt_succ_self _)
  obtain ⟨mem', dyn'⟩ := r
  obtain ⟨left, ls', fs', del, stopped⟩ := post
  obtain ⟨core, last, length, bytes, within⟩ := del
  simp only at core last length bytes within stopped
  have result : content mem' ls' = (content mem ls).drop n := by
    rcases stopped with rfl | empty
    · rw [bytes, Nat.sub_zero, whole]
    · have chain := core.chain
      rw [empty, chain_none] at chain
      rw [chain, content_nil] at bytes ⊢
      have short := List.drop_eq_nil_iff.mp bytes.symm
      rw [← whole, List.drop_eq_nil_of_le (by omega)]
  unfold dbufDelete
  simp only [done, Option.map_some]
  refine ⟨mem', _, rfl, ls', fs', ?_, result, core.spares⟩
  by_cases empty : dyn'.head = none
  · have chain := core.chain
    rw [empty, chain_none] at chain
    subst chain
    rw [if_pos empty]
    exact ⟨⟨empty, rfl, core.live⟩, core.pool, rfl⟩
  · rw [if_neg empty]
    have some_ls : ls' ≠ [] := by
      rintro rfl
      exact empty core.chain
    exact core.owned (last some_ls) length

theorem Owned.length_eq_zero {mem : Mem} {ls fs os : List Addr} (owned : Owned mem dyn ls fs os) :
    dyn.length = 0 ↔ content mem ls = [] := by
  rw [← UInt32.toNat_inj, owned.length]
  simp

theorem Owned.exists_head {mem : Mem} {ls fs os : List Addr} (owned : Owned mem dyn ls fs os)
    (some_bytes : dyn.length ≠ 0) : ∃ db rest, ls = db :: rest ∧ dyn.head = some db := by
  cases ls with
  | nil => exact absurd (owned.length_eq_zero.mpr rfl) some_bytes
  | cons db rest => exact ⟨db, rest, rfl, owned.linked.chain.1⟩

def Getting (mem₀ : Mem) (os : List Addr) (q₀ : List Char) (n k : Nat) (s : Mem × DBuf × Nat × List Char) : Prop :=
  s.2.2.1 = k ∧ s.2.2.2.length + k = n ∧ ∃ q, Leaves mem₀ os q s.1 s.2.1 ∧ s.2.2.2 ++ q = q₀

theorem take_append_drop_length {α : Type} (l : List α) (n : Nat) : l.take n ++ l.drop (l.take n).length = l := by
  rcases Nat.le_total n l.length with le | ge
  · rw [List.length_take, Nat.min_eq_left le, List.take_append_drop]
  · rw [List.take_of_length_le ge, List.drop_length, List.append_nil]

theorem getTurn_spec {mem₀ : Mem} {os : List Addr} {q₀ : List Char} {n k : Nat} {s : Mem × DBuf × Nat × List Char}
    (getting : Getting mem₀ os q₀ n k s) :
    (∃ s' k', getTurn s = some (.inl s') ∧ Getting mem₀ os q₀ n k' s' ∧ k' < k) ∨
      ∃ r, getTurn s = some (.inr r) ∧ r.2.2 = q₀.take n ∧ Leaves mem₀ os (q₀.drop n) r.1 r.2.1 := by
  obtain ⟨mem, dyn, left, moved⟩ := s
  obtain ⟨rfl, total, q, leaves, split⟩ := getting
  simp only at total leaves split ⊢
  by_cases none_left : left = 0
  · refine .inr ⟨(mem, dyn, moved), by simp [getTurn, none_left], ?_⟩
    rw [← split, List.take_left' (by omega), List.drop_left' (by omega)]
    exact ⟨rfl, leaves⟩
  · obtain ⟨ls, fs, owned, bytes, spares⟩ := leaves
    by_cases empty : dyn.length = 0
    · have no_bytes := owned.length_eq_zero.mp empty
      rw [bytes] at no_bytes
      rw [no_bytes, List.append_nil] at split
      refine .inr ⟨(mem, dyn, moved), by simp [getTurn, none_left, dbufMap, empty], ?_⟩
      rw [← split, List.take_of_length_le (by omega), List.drop_eq_nil_of_le (by omega)]
      exact ⟨rfl, ls, fs, owned, bytes.trans no_bytes, spares⟩
    · obtain ⟨db, rest, rfl, head⟩ := owned.exists_head empty
      have live := owned.linked.live db List.mem_cons_self
      have length_db := length_unread mem db
      have chunk : ((unread mem db).take left).length = min left (unread mem db).length := List.length_take
      obtain ⟨mem', dyn', deleted, ls', fs', owned', bytes', spares'⟩ :=
        dbufDelete_spec owned ((unread mem db).take left).length
      refine .inl ⟨(mem', dyn', left - ((unread mem db).take left).length, moved ++ (unread mem db).take left), _, ?_,
        ⟨rfl, ?_, _, ⟨ls', fs', owned', rfl, spares.trans spares'⟩, ?_⟩, ?_⟩
      · simp only [getTurn, none_left, if_false, dbufMap, empty, head, Option.map_some]
        rw [← unread, deleted]
        rfl
      · simp only [List.length_append]
        omega
      · simp only
        rw [bytes', ← split, ← bytes, content_cons, List.append_assoc, List.drop_append_of_le_length (by omega),
          ← List.append_assoc ((unread mem db).take left), take_append_drop_length]
      · simp only
        omega

theorem dbufGet_spec {mem : Mem} {ls fs os : List Addr} (owned : Owned mem dyn ls fs os) (n : Nat) :
    ∃ mem' dyn', dbufGet mem dyn n = some (mem', dyn', (content mem ls).take n) ∧
      Leaves mem os ((content mem ls).drop n) mem' dyn' := by
  have start : Leaves mem os (content mem ls) mem dyn := ⟨ls, fs, owned, rfl, fun _ _ => rfl⟩
  have getting : Getting mem os (content mem ls) n n (mem, dyn, n, []) :=
    ⟨rfl, Nat.zero_add n, _, start, rfl⟩
  obtain ⟨⟨mem', dyn', moved⟩, done, moved_eq, leaves⟩ :=
    loop_ends _ _ (fun k s => getTurn_spec) getting (Nat.lt_succ_self n)
  simp only at moved_eq leaves
  exact ⟨mem', dyn', by rw [dbufGet, done, moved_eq], leaves⟩

/-- The loop of `dbuf_flush` at block `db`, `k` bytes left. -/
def Flushing (mem₀ : Mem) (os : List Addr) (q₀ : List Char) (k : Nat) (s : Mem × DBuf × Addr) : Prop :=
  s.2.1.head = some s.2.2 ∧ s.2.1.length.toNat = k ∧
    ∃ q, Leaves mem₀ os q s.1 s.2.1 ∧ q.dropWhile isEol = q₀.dropWhile isEol

theorem flushTurn_spec {mem₀ : Mem} {os : List Addr} {q₀ : List Char} {k : Nat} {s : Mem × DBuf × Addr}
    (flushing : Flushing mem₀ os q₀ k s) :
    (∃ s' k', flushTurn s = some (.inl s') ∧ Flushing mem₀ os q₀ k' s' ∧ k' < k) ∨
      ∃ r, flushTurn s = some (.inr r) ∧ Leaves mem₀ os (q₀.dropWhile isEol) r.1 r.2 := by
  obtain ⟨mem, dyn, db⟩ := s
  obtain ⟨head, rfl, q, ⟨ls, fs, owned, bytes, spares⟩, same⟩ := flushing
  simp only at head bytes same owned spares ⊢
  have chain := owned.linked.chain
  rw [head] at chain
  obtain ⟨rest, rfl, chain_rest⟩ := chain.exists_cons
  have live := owned.linked.live db List.mem_cons_self
  have length_db := length_unread mem db
  have length := owned.length
  have core : Core mem₀ os mem dyn.head (db :: rest) fs :=
    ⟨owned.linked.chain, owned.linked.live, owned.pool, spares⟩
  obtain ⟨c, first⟩ : ∃ c, (mem.heap db).bytes[(mem.heap db).start]? = some c :=
    ⟨_, List.getElem?_eq_getElem live.1⟩
  have shape : unread mem db = c :: (mem.heap db).bytes.drop ((mem.heap db).start + 1) := by
    rw [unread, List.drop_eq_getElem_cons live.1]
    rw [List.getElem?_eq_getElem live.1] at first
    rw [Option.some_inj.mp first]
  have total : (content mem (db :: rest)).length = (unread mem db).length + (content mem rest).length :=
    List.length_append
  unfold flushTurn
  simp only [first]
  by_cases eol : isEol c = true
  · rw [if_pos eol]
    -- One byte goes, and it is an end of line.
    have dropped : ((content mem (db :: rest)).drop 1).dropWhile isEol = q₀.dropWhile isEol := by
      rw [← same, ← bytes, content_cons, shape]
      simp [eol]
    have counted : (dyn.length - 1).toNat = ((content mem (db :: rest)).drop 1).length := by
      apply sub_toNat (k := 1)
      rw [length, List.length_drop]
      omega
    by_cases all : (mem.heap db).start + 1 = (mem.heap db).bytes.length
    · rw [if_pos all]
      obtain ⟨core', content'⟩ := core.take_all (k := 1) (by omega)
      cases next : (mem.heap db).next with
      | none =>
        rw [Mem.next, next, chain_none] at chain_rest
        subst chain_rest
        refine .inr ⟨_, rfl, [], db :: fs, ⟨⟨rfl, rfl, by simp⟩, core'.pool, rfl⟩, ?_, core'.spares⟩
        rw [content_nil] at content' ⊢
        rw [← dropped, ← content']
        rfl
      | some db' =>
        rw [Mem.next, next] at chain_rest core'
        obtain ⟨rest', rfl, -⟩ := chain_rest.exists_cons
        refine .inl ⟨_, _, rfl, ⟨rfl, rfl, _, ⟨db' :: rest', db :: fs, ?_, content', core'.spares⟩, dropped⟩, ?_⟩
        · refine ⟨⟨core'.chain, ?_, core'.live⟩, core'.pool, ?_⟩
          · simp only
            rw [owned.linked.last]
            rfl
          · simp only
            rw [content', counted]
        · simp only
          rw [counted, length, List.length_drop]
          omega
    · rw [if_neg all]
      obtain ⟨core', content'⟩ := core.take_part (k := 1) (by omega)
      refine .inl ⟨_, _, rfl, ⟨head, rfl, _, ⟨db :: rest, fs, ?_, content', core'.spares⟩, dropped⟩, ?_⟩
      · refine ⟨⟨core'.chain, owned.linked.last, core'.live⟩, core'.pool, ?_⟩
        simp only
        rw [content', counted]
      · simp only
        rw [counted, length, List.length_drop]
        omega
  · rw [if_neg eol]
    refine .inr ⟨_, rfl, db :: rest, fs, owned, ?_, spares⟩
    rw [← same, ← bytes, content_cons, shape, List.cons_append, List.dropWhile_cons_of_neg eol]

theorem dbufFlush_spec {mem : Mem} {ls fs os : List Addr} (owned : Owned mem dyn ls fs os) :
    ∃ mem' dyn', dbufFlush mem dyn = some (mem', dyn', dyn'.length) ∧
      Leaves mem os ((content mem ls).dropWhile isEol) mem' dyn' := by
  unfold dbufFlush
  cases head : dyn.head with
  | none =>
    have chain := owned.linked.chain
    rw [head, chain_none] at chain
    subst chain
    have zero := owned.length_eq_zero.mpr rfl
    exact ⟨mem, dyn, by rw [zero], [], fs, owned, rfl, fun _ _ => rfl⟩
  | some db =>
    have start : Flushing mem os (content mem ls) dyn.length.toNat (mem, dyn, db) :=
      ⟨head, rfl, _, ⟨ls, fs, owned, rfl, fun _ _ => rfl⟩, rfl⟩
    obtain ⟨⟨mem', dyn'⟩, done, leaves⟩ :=
      loop_ends _ _ (fun k s => flushTurn_spec) start (Nat.lt_succ_self _)
    exact ⟨mem', dyn', by simp [done], leaves⟩

/-- The line among the first `n` bytes, if its end is there too. -/
def lineOf (n : Nat) (q : List Char) : Option (List Char) :=
  let line := (q.take n).takeWhile fun c => !isEol c
  if line.length < (q.take n).length then some line else none

theorem lineOf_found {n : Nat} {u q : List Char}
    (found : ((u.take n).takeWhile fun c => !isEol c).length < (u.take n).length) :
    lineOf n (u ++ q) = some ((u.take n).takeWhile fun c => !isEol c) := by
  have line : ((u ++ q).take n).takeWhile (fun c => !isEol c) = (u.take n).takeWhile fun c => !isEol c := by
    rw [List.take_append, List.takeWhile_append, if_neg (by omega)]
  have longer : (u.take n).length ≤ ((u ++ q).take n).length := by
    rw [List.take_append, List.length_append]
    omega
  simp only [lineOf, line]
  rw [if_pos (by omega)]

theorem lineOf_later {n : Nat} {u q : List Char} (none_here : (u.take n).takeWhile (fun c => !isEol c) = u.take n) :
    lineOf n (u ++ q) = (lineOf (n - (u.take n).length) q).map (u.take n ++ ·) := by
  have offset : n - u.length = n - (u.take n).length := by
    rw [List.length_take]
    omega
  have line : ((u ++ q).take n).takeWhile (fun c => !isEol c) =
      u.take n ++ (q.take (n - (u.take n).length)).takeWhile fun c => !isEol c := by
    rw [List.take_append, offset, List.takeWhile_append, none_here, if_pos rfl]
  have seen : ((u ++ q).take n).length = (u.take n).length + (q.take (n - (u.take n).length)).length := by
    rw [List.take_append, offset, List.length_append]
  simp only [lineOf, line, seen, List.length_append]
  by_cases found : ((q.take (n - (u.take n).length)).takeWhile fun c => !isEol c).length <
      (q.take (n - (u.take n).length)).length
  · rw [if_pos (by omega), if_pos found, Option.map_some]
  · rw [if_neg (by omega), if_neg found, Option.map_none]

/-- The loop of `dbuf_getmsg` at block `db`, `k` bytes to go. -/
def Scanning (mem : Mem) (n : Nat) (q : List Char) (k : Nat) (s : Addr × Nat × List Char) : Prop :=
  s.2.1 = k ∧ ∃ rest, Chain mem.next (mem.next s.1) rest ∧
    (∀ a ∈ s.1 :: rest, (mem.heap a).start < (mem.heap a).bytes.length) ∧
    lineOf n q = (lineOf k (content mem (s.1 :: rest))).map (s.2.2 ++ ·)

theorem getmsgTurn_spec {mem : Mem} {n k : Nat} {q : List Char} {s : Addr × Nat × List Char}
    (scanning : Scanning mem n q k s) :
    (∃ s' k', getmsgTurn mem s = some (.inl s') ∧ Scanning mem n q k' s' ∧ k' < k) ∨
      ∃ r, getmsgTurn mem s = some (.inr r) ∧ r = lineOf n q := by
  obtain ⟨db, left, copied⟩ := s
  obtain ⟨rfl, rest, chain, live, found⟩ := scanning
  simp only at chain live found ⊢
  unfold getmsgTurn
  by_cases none_left : left = 0
  · refine .inr ⟨none, by simp [none_left], ?_⟩
    rw [found, none_left]
    simp [lineOf]
  · simp only [none_left, if_false]
    rw [← unread]
    by_cases here : (((unread mem db).take left).takeWhile fun c => !isEol c).length <
        ((unread mem db).take left).length
    · rw [if_pos here]
      refine .inr ⟨_, rfl, ?_⟩
      rw [found, content_cons, lineOf_found here, Option.map_some]
    · rw [if_neg here]
      have whole : ((unread mem db).take left).takeWhile (fun c => !isEol c) = (unread mem db).take left :=
        (List.takeWhile_prefix _).eq_of_length_le (by omega)
      rw [content_cons, lineOf_later whole] at found
      rw [whole]
      cases next : (mem.heap db).next with
      | none =>
        rw [Mem.next, next, chain_none] at chain
        subst chain
        refine .inr ⟨none, rfl, ?_⟩
        rw [found]
        simp [lineOf]
      | some db' =>
        rw [Mem.next, next] at chain
        obtain ⟨rest', rfl, chain'⟩ := chain.exists_cons
        refine .inl ⟨(db', left - ((unread mem db).take left).length, copied ++ (unread mem db).take left), _, rfl,
          ⟨rfl, rest', chain', fun a mem_rest => live a (List.mem_cons_of_mem db mem_rest), ?_⟩, ?_⟩
        · rw [found, Option.map_map]
          congr 1
          funext line
          simp
        · have some_bytes := live db List.mem_cons_self
          have length_db := length_unread mem db
          simp only [List.length_take]
          omega

/-- The FIFO's view of `dbuf_getmsg`: skip ends of lines, take a line if it is complete
within `n` bytes, skip again. -/
def fifoGetmsg (n : Nat) (q : List Char) : List Char × List Char :=
  match lineOf n (q.dropWhile isEol) with
  | none => ([], q.dropWhile isEol)
  | some line => (line, ((q.dropWhile isEol).drop line.length).dropWhile isEol)

theorem lineOf_min (n : Nat) (q : List Char) : lineOf (min n q.length) q = lineOf n q := by
  have same : q.take (min n q.length) = q.take n := by
    rcases Nat.le_total n q.length with le | ge
    · rw [Nat.min_eq_left le]
    · rw [Nat.min_eq_right ge, List.take_length, List.take_of_length_le ge]
  simp only [lineOf, same]

theorem Leaves.trans {mem mem' mem'' : Mem} {os : List Addr} {dyn'' : DBuf} {q : List Char}
    (spares : Spares mem mem' os) (leaves : Leaves mem' os q mem'' dyn'') : Leaves mem os q mem'' dyn'' := by
  obtain ⟨ls, fs, owned, bytes, spares'⟩ := leaves
  exact ⟨ls, fs, owned, bytes, spares.trans spares'⟩

theorem dbufGetmsg_spec {mem : Mem} {ls fs os : List Addr} (owned : Owned mem dyn ls fs os) (n : Nat) :
    ∃ mem' dyn', dbufGetmsg mem dyn n = some (mem', dyn', (fifoGetmsg n (content mem ls)).1) ∧
      Leaves mem os (fifoGetmsg n (content mem ls)).2 mem' dyn' := by
  obtain ⟨mem₁, dyn₁, flushed, ls₁, fs₁, owned₁, bytes₁, spares₁⟩ := dbufFlush_spec owned
  unfold dbufGetmsg fifoGetmsg
  simp only [flushed, ← bytes₁]
  by_cases empty : dyn₁.length = 0
  · have no_bytes := owned₁.length_eq_zero.mp empty
    refine ⟨mem₁, dyn₁, ?_, ?_⟩
    · simp [empty, no_bytes, lineOf]
    · simp only [no_bytes, lineOf, List.take_nil, List.takeWhile_nil, Nat.lt_irrefl, if_false]
      exact ⟨ls₁, fs₁, owned₁, no_bytes, spares₁⟩
  · obtain ⟨db, rest, rfl, head⟩ := owned₁.exists_head empty
    have start : Scanning mem₁ (min n dyn₁.length.toNat) (content mem₁ (db :: rest)) (min n dyn₁.length.toNat)
        (db, min n dyn₁.length.toNat, []) := by
      refine ⟨rfl, rest, owned₁.linked.chain.2, fun a mem_ls => (owned₁.linked.live a mem_ls).1, ?_⟩
      simp
    obtain ⟨r, scanned, result⟩ := loop_ends _ _ (fun k s => getmsgTurn_spec) start (Nat.lt_succ_self _)
    rw [owned₁.length, lineOf_min] at result
    simp only [empty, if_false, head]
    rw [scanned, result]
    cases found : lineOf n (content mem₁ (db :: rest)) with
    | none => exact ⟨mem₁, dyn₁, rfl, db :: rest, fs₁, owned₁, rfl, spares₁⟩
    | some line =>
      obtain ⟨mem₂, dyn₂, deleted, ls₂, fs₂, owned₂, bytes₂, spares₂⟩ := dbufDelete_spec owned₁ line.length
      obtain ⟨mem₃, dyn₃, flushed₃, leaves⟩ := dbufFlush_spec owned₂
      rw [bytes₂] at leaves
      refine ⟨mem₃, dyn₃, ?_, Leaves.trans (spares₁.trans spares₂) leaves⟩
      simp only [deleted, flushed₃, Option.map_some]

end Ircd.Buffers

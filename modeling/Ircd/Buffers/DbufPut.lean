import Ircd.Buffers.DbufFifo

/-! `dbuf_put` appends, as long as no flush it asks for breaks the connection of this buffer.

A flush takes blocks of other buffers; what those keep is `keptFrom os (allFreed flushes)`.
-/

set_option autoImplicit false

namespace Ircd.Buffers
open Ircd.Library Ircd.Text

variable {ls : List Addr}

theorem Pool.sublist {mem : Mem} {fs os os' : List Addr} (pool : Pool mem ls fs os) (fewer : os'.Sublist os) :
    Pool mem ls fs os' := by
  have sub : (ls ++ (fs ++ os')).Sublist (ls ++ (fs ++ os)) :=
    (List.Sublist.refl ls).append ((List.Sublist.refl fs).append fewer)
  exact ⟨pool.free, pool.apart.sublist sub, fun a mem => pool.known a (sub.subset mem), pool.small⟩

theorem dbufAlloc_spec {pool : Nat} (int : pool < 2 ^ 31) {mem : Mem} {fs os : List Addr}
    (pools : Pool mem ls fs os) :
    dbufAlloc pool mem = none ∨ ∃ db mem' fs', dbufAlloc pool mem = some (db, mem') ∧ mem'.heap = mem.heap ∧
      Pool mem' (ls ++ [db]) fs' os := by
  unfold dbufAlloc
  have apart := pools.apart
  have known := pools.known
  cases free : mem.dbufFreeList with
  | some db =>
    have chain := pools.free
    rw [free] at chain
    obtain ⟨fs', rfl, chain'⟩ := chain.exists_cons
    have same : ls ++ (db :: fs' ++ os) = ls ++ [db] ++ (fs' ++ os) := by simp
    rw [same] at apart known
    exact .inr ⟨db, _, fs', rfl, rfl, chain', apart, known, pools.small⟩
  | none =>
    by_cases room : mem.DBufAllocCount * DBUF_SIZE < pool
    · rw [if_pos room]
      have moved : (ls ++ [mem.DBufAllocCount] ++ (fs ++ os)).Perm (mem.DBufAllocCount :: (ls ++ (fs ++ os))) := by
        simp
      have fresh : mem.DBufAllocCount ∉ ls ++ (fs ++ os) := fun mem' => Nat.lt_irrefl _ (known _ mem')
      have chain := pools.free
      rw [free] at chain
      refine .inr ⟨_, _, fs, rfl, rfl, chain, ?_, fun a mem_a => ?_, ?_⟩
      · exact moved.nodup_iff.mpr (List.nodup_cons.mpr ⟨fresh, apart⟩)
      · rcases List.mem_cons.mp (moved.mem_iff.mp mem_a) with rfl | old
        · exact Nat.lt_succ_self _
        · exact Nat.lt_succ_of_lt (known a old)
      · simp only [DBUF_SIZE] at room ⊢
        omega
    · rw [if_neg room]
      exact .inl rfl

theorem Pool.free_other {mem : Mem} {a : Addr} {fs os : List Addr} (pool : Pool mem ls fs os) (other : a ∈ os) :
    Pool (dbufFree mem a) ls (a :: fs) (os.erase a) := by
  have apart := pool.apart
  have distinct : os.Nodup := apart.of_append_right.of_append_right
  have moved : (ls ++ (a :: fs ++ os.erase a)).Perm (ls ++ (fs ++ os)) := by
    apply List.Perm.append_left
    rw [List.cons_append]
    exact (List.perm_middle.symm.trans (List.Perm.append_left fs (List.perm_cons_erase other).symm))
  have not_free : a ∉ fs := fun mem_fs => List.disjoint_of_nodup_append apart.of_append_right mem_fs other
  refine ⟨⟨rfl, ?_⟩, moved.nodup_iff.mpr apart, fun b mem_b => pool.known b (moved.mem_iff.mp mem_b), pool.small⟩
  have next : (dbufFree mem a).next a = mem.dbufFreeList := by rw [Mem.next, heap_free_same]
  rw [next]
  apply pool.free.congr
  intro b mem_fs
  have differ : b ≠ a := fun same => not_free (same ▸ mem_fs)
  rw [Mem.next, Mem.next, heap_free_ne mem differ]

/-- What other buffers keep of `os` when the blocks `freed` go. -/
def keptFrom (os freed : List Addr) : List Addr := freed.foldl List.erase os

def allFreed (flushes : List Flush) : List Addr := flushes.flatMap Flush.freed

theorem keptFrom_append (os freed freed' : List Addr) :
    keptFrom os (freed ++ freed') = keptFrom (keptFrom os freed) freed' := List.foldl_append

theorem keptFrom_sublist (os freed : List Addr) : (keptFrom os freed).Sublist os := by
  induction freed generalizing os with
  | nil => exact List.Sublist.refl os
  | cons a freed ih => exact (ih (os.erase a)).trans List.erase_sublist

theorem freeAll_spec {mem : Mem} {fs os freed : List Addr} (pool : Pool mem ls fs os) (distinct : freed.Nodup)
    (others : ∀ a ∈ freed, a ∈ os) :
    ∃ fs', Pool (freed.foldl dbufFree mem) ls fs' (keptFrom os freed) ∧
      ∀ a ∈ ls ++ keptFrom os freed, (freed.foldl dbufFree mem).heap a = mem.heap a := by
  induction freed generalizing mem fs os with
  | nil => exact ⟨fs, pool, fun _ _ => rfl⟩
  | cons a freed ih =>
    obtain ⟨fresh, distinct⟩ := List.nodup_cons.mp distinct
    have other := others a List.mem_cons_self
    have remaining : ∀ b ∈ freed, b ∈ os.erase a := by
      intro b mem_b
      have differ : b ≠ a := fun same => fresh (same ▸ mem_b)
      exact (List.mem_erase_of_ne differ).mpr (others b (List.mem_cons_of_mem a mem_b))
    obtain ⟨fs', pool', same⟩ := ih (pool.free_other other) distinct remaining
    refine ⟨fs', pool', fun b mem_b => ?_⟩
    rw [List.foldl_cons, same b mem_b]
    apply heap_free_ne
    rintro rfl
    have distinct_os : os.Nodup := pool.apart.of_append_right.of_append_right
    rcases List.mem_append.mp mem_b with own | kept
    · exact pool.not_mem_other own other
    · exact (List.Nodup.mem_erase_iff distinct_os).mp ((keptFrom_sublist (os.erase b) freed).subset kept) |>.1 rfl

theorem mallocError_spec {mem : Mem} {dyn : DBuf} {fs os : List Addr} (chain : Chain mem.next dyn.head ls)
    (pool : Pool mem ls fs os) : ∃ mem', dbufMallocError mem dyn = some (mem', {}) ∧ Leaves mem os [] mem' {} := by
  have turns : ∀ (k : Nat) (s : Mem × Option Addr),
      (∃ ls fs, ls.length = k ∧ Chain s.1.next s.2 ls ∧ Pool s.1 ls fs os ∧ Spares mem s.1 os) →
      (∃ s' k', mallocErrorTurn s = some (.inl s') ∧
        (∃ ls fs, ls.length = k' ∧ Chain s'.1.next s'.2 ls ∧ Pool s'.1 ls fs os ∧ Spares mem s'.1 os) ∧ k' < k) ∨
      ∃ r, mallocErrorTurn s = some (.inr r) ∧ Leaves mem os [] r {} := by
    rintro k ⟨mem', p⟩ ⟨ls', fs', rfl, chain', pool', spares⟩
    simp only at chain' pool' spares
    cases p with
    | none =>
      rw [chain_none] at chain'
      subst chain'
      exact .inr ⟨mem', rfl, [], fs', ⟨⟨rfl, rfl, by simp⟩, pool', rfl⟩, rfl, spares⟩
    | some db =>
      obtain ⟨rest, rfl, chain_rest⟩ := chain'.exists_cons
      have own : db ∈ db :: rest := List.mem_cons_self
      have not_rest : db ∉ rest := (List.nodup_cons.mp pool'.apart.of_append_left).1
      refine .inl ⟨_, rest.length, rfl, ⟨rest, db :: fs', rfl, chain_rest.congr fun a mem_a => ?_, pool'.free_head,
        fun a mem_a => ?_⟩, Nat.lt_succ_self _⟩
      · have differ : a ≠ db := fun same => not_rest (same ▸ mem_a)
        rw [Mem.next, heap_free_ne mem' differ, Mem.next]
      · have differ : a ≠ db := fun same => pool'.not_mem_other own (same ▸ mem_a)
        rw [heap_free_ne mem' differ, spares a mem_a]
  have short : ls.length < mem.DBufAllocCount + 1 := Nat.lt_succ_of_le (length_le_of_bounded pool.apart.of_append_left
    fun a mem_a => pool.known a (List.mem_append_left _ mem_a))
  have start : ∃ ls' fs', ls'.length = ls.length ∧ Chain (mem, dyn.head).1.next (mem, dyn.head).2 ls' ∧
      Pool (mem, dyn.head).1 ls' fs' os ∧ Spares mem (mem, dyn.head).1 os :=
    ⟨ls, fs, rfl, chain, pool, fun _ _ => rfl⟩
  obtain ⟨mem', done, leaves⟩ := loop_ends _ _ turns start short
  exact ⟨mem', by rw [dbufMallocError, done]; rfl, leaves⟩

/-- The flushes still to come take distinct blocks of other buffers, and none breaks the
connection of this one. -/
structure Foreign (flushes : List Flush) (os : List Addr) : Prop where
  spared : ∀ f ∈ flushes, f.own = false
  distinct : (allFreed flushes).Nodup
  others : ∀ a ∈ allFreed flushes, a ∈ os

/-- What is certain of the memory during a `dbuf_put`: blocks of `ls` and those that other
buffers keep are as they were. -/
structure Keeps (mem mem' : Mem) (ls os : List Addr) : Prop where
  own : ∀ a ∈ ls, mem'.heap a = mem.heap a
  spares : Spares mem mem' os

theorem flush_spec {flushes : List Flush} {mem : Mem} (dyn : DBuf) {fs os : List Addr} (pool : Pool mem ls fs os)
    (foreign : Foreign flushes os) :
    ∃ mem' fs' os', flushConnections (flushes.headD ⟨[], false⟩) mem dyn = some (mem', dyn) ∧
      Pool mem' ls fs' os' ∧ Keeps mem mem' ls os' ∧ Foreign flushes.tail os' ∧ os'.Sublist os ∧
      keptFrom os' (allFreed flushes.tail) = keptFrom os (allFreed flushes) := by
  cases flushes with
  | nil =>
    exact ⟨mem, fs, os, rfl, pool, ⟨fun _ _ => rfl, fun _ _ => rfl⟩, foreign, List.Sublist.refl os, rfl⟩
  | cons f flushes =>
    obtain ⟨spared, distinct, others⟩ := foreign
    rw [allFreed, List.flatMap_cons] at distinct others
    have apart := List.disjoint_of_nodup_append distinct
    obtain ⟨fs', pool', same⟩ := freeAll_spec pool distinct.of_append_left fun a mem_a =>
      others a (List.mem_append_left _ mem_a)
    have own := spared f List.mem_cons_self
    refine ⟨f.freed.foldl dbufFree mem, fs', keptFrom os f.freed, ?_, pool', ⟨?_, ?_⟩, ⟨?_, ?_, ?_⟩, ?_, ?_⟩
    · simp [flushConnections, own]
    · exact fun a mem_a => same a (List.mem_append_left _ mem_a)
    · exact fun a mem_a => same a (List.mem_append_right _ mem_a)
    · exact fun g mem_g => spared g (List.mem_cons_of_mem f mem_g)
    · exact distinct.of_append_right
    · intro a mem_a
      have kept : ∀ (freed os : List Addr), a ∉ freed → a ∈ os → a ∈ keptFrom os freed := by
        intro freed
        induction freed with
        | nil => exact fun _ _ mem_os => mem_os
        | cons b freed ih =>
          intro os fresh mem_os
          have differ : a ≠ b := fun same => fresh (same ▸ List.mem_cons_self)
          exact ih _ (fun mem_b => fresh (List.mem_cons_of_mem b mem_b)) ((List.mem_erase_of_ne differ).mpr mem_os)
      exact kept f.freed os (fun mem_f => apart mem_f mem_a) (others a (List.mem_append_right _ mem_a))
    · exact keptFrom_sublist os f.freed
    · exact (keptFrom_append os f.freed (allFreed flushes)).symm

theorem putAlloc_spec (env : PutEnv) {flushes : List Flush} {mem : Mem} (dyn : DBuf) {fs os : List Addr}
    (pool : Pool mem ls fs os) (foreign : Foreign flushes os) :
    ∃ mem' flushes' fs' os', Keeps mem mem' ls os' ∧ Foreign flushes' os' ∧ os'.Sublist os ∧
      keptFrom os' (allFreed flushes') = keptFrom os (allFreed flushes) ∧
      ((putAlloc env mem dyn flushes = some (mem', dyn, flushes', none) ∧ Pool mem' ls fs' os') ∨
        ∃ db, putAlloc env mem dyn flushes = some (mem', dyn, flushes', some db) ∧ Pool mem' (ls ++ [db]) fs' os') := by
  unfold putAlloc
  rcases dbufAlloc_spec env.pool_int pool with failed | ⟨db, mem', fs', alloc, heap, pool'⟩
  · simp only [failed]
    cases env.flusher with
    | false =>
      exact ⟨mem, flushes, fs, os, ⟨fun _ _ => rfl, fun _ _ => rfl⟩, foreign, List.Sublist.refl os, rfl,
        .inl ⟨rfl, pool⟩⟩
    | true =>
      obtain ⟨mem₁, fs₁, os₁, flushed, pool₁, keeps, foreign₁, fewer, kept⟩ := flush_spec dyn pool foreign
      simp only [Bool.not_true, Bool.false_eq_true, if_false, flushed]
      rcases dbufAlloc_spec env.pool_int pool₁ with failed₁ | ⟨db, mem₂, fs₂, alloc, heap, pool₂⟩
      · simp only [failed₁]
        exact ⟨mem₁, _, fs₁, os₁, keeps, foreign₁, fewer, kept, .inl ⟨rfl, pool₁⟩⟩
      · simp only [alloc]
        refine ⟨mem₂, _, fs₂, os₁, ⟨?_, ?_⟩, foreign₁, fewer, kept, .inr ⟨db, rfl, pool₂⟩⟩
        · intro a mem_a
          rw [heap, keeps.own a mem_a]
        · intro a mem_a
          rw [heap, keeps.spares a mem_a]
  · simp only [alloc]
    refine ⟨mem', flushes, fs', os, ⟨?_, ?_⟩, foreign, List.Sublist.refl os, rfl, .inr ⟨db, rfl, pool'⟩⟩
    · exact fun a _ => by rw [heap]
    · exact fun a _ => by rw [heap]

theorem content_append (mem : Mem) (l l' : List Addr) : content mem (l ++ l') = content mem l ++ content mem l' :=
  List.flatMap_append

section
variable {mem₀ mem : Mem} {os l fs : List Addr} {db : Addr} {head : Option Addr}

theorem putCopy_spec {buf : List Char} (chain : Chain mem.next head (l ++ [db]))
    (live : ∀ a ∈ l, (mem.heap a).start < (mem.heap a).bytes.length ∧ (mem.heap a).bytes.length ≤ DBUF_SIZE)
    (sound : (mem.heap db).start ≤ (mem.heap db).bytes.length ∧ (mem.heap db).bytes.length ≤ DBUF_SIZE)
    (some_bytes : (mem.heap db).start < (mem.heap db).bytes.length ∨
      (mem.heap db).bytes.length < DBUF_SIZE ∧ buf ≠ [])
    (pool : Pool mem (l ++ [db]) fs os) (spares : Spares mem₀ mem os) :
    Core mem₀ os (putCopy db mem buf).1 head (l ++ [db]) fs ∧
      content (putCopy db mem buf).1 (l ++ [db]) ++ (putCopy db mem buf).2 = content mem (l ++ [db]) ++ buf := by
  obtain ⟨chunk, chunk_eq⟩ : ∃ chunk, chunk = min (DBUF_SIZE - (mem.heap db).bytes.length) buf.length := ⟨_, rfl⟩
  have own : db ∈ l ++ [db] := List.mem_append_right _ List.mem_cons_self
  have not_before : db ∉ l := fun mem_l =>
    List.disjoint_of_nodup_append pool.apart.of_append_left mem_l List.mem_cons_self
  have others : ∀ a ≠ db, (mem.modify db fun b => { b with bytes := b.bytes ++ buf.take chunk }).heap a = mem.heap a :=
    fun a differ => heap_modify_ne mem _ differ
  have before : ∀ a ∈ l, (mem.modify db fun b => { b with bytes := b.bytes ++ buf.take chunk }).heap a = mem.heap a :=
    fun a mem_l => others a fun same => not_before (same ▸ mem_l)
  unfold putCopy
  simp only [← chunk_eq]
  refine ⟨⟨chain.congr fun a _ => ?_, fun a mem_a => ?_, pool.modify_own own _, fun a mem_os => ?_⟩, ?_⟩
  · by_cases same : a = db
    · rw [same, Mem.next, heap_modify_same, Mem.next]
    · rw [Mem.next, others a same, Mem.next]
  · rcases List.mem_append.mp mem_a with earlier | last
    · rw [before a earlier]
      exact live a earlier
    · rw [List.mem_singleton.mp last, heap_modify_same]
      have length_chunk : (buf.take chunk).length = chunk := by
        rw [List.length_take]
        omega
      simp only [List.length_append, length_chunk]
      rcases some_bytes with bytes | ⟨room, some_buf⟩
      · omega
      · have pos := List.length_pos_of_ne_nil some_buf
        omega
  · rw [others a fun same => pool.not_mem_other own (same ▸ mem_os), spares a mem_os]
  · rw [content_append, content_append, content_congr before]
    simp only [content_cons, content_nil, List.append_nil, unread, heap_modify_same]
    rw [List.drop_append_of_le_length sound.1]
    simp

theorem putLink_spec {dyn : DBuf} {ls : List Addr} {h : Slot} (chain : Chain mem.next dyn.head ls)
    (live : ∀ a ∈ ls, (mem.heap a).start < (mem.heap a).bytes.length ∧ (mem.heap a).bytes.length ≤ DBUF_SIZE)
    (place : h = .head ∧ ls = [] ∨ ∃ a, h = .next a ∧ ls.getLast? = some a)
    (pool : Pool mem (ls ++ [db]) fs os) (spares : Spares mem₀ mem os) :
    Chain (putLink db mem dyn h).1.next (putLink db mem dyn h).2.head (ls ++ [db]) ∧
      (∀ a ∈ ls, ((putLink db mem dyn h).1.heap a).start < ((putLink db mem dyn h).1.heap a).bytes.length ∧
        ((putLink db mem dyn h).1.heap a).bytes.length ≤ DBUF_SIZE) ∧
      (putLink db mem dyn h).1.heap db = {} ∧ Pool (putLink db mem dyn h).1 (ls ++ [db]) fs os ∧
      Spares mem₀ (putLink db mem dyn h).1 os ∧
      content (putLink db mem dyn h).1 ls = content mem ls ∧
      (putLink db mem dyn h).2.tail = some db ∧ (putLink db mem dyn h).2.length = dyn.length := by
  have own : db ∈ ls ++ [db] := List.mem_append_right _ List.mem_cons_self
  have not_before : db ∉ ls := fun mem_l =>
    List.disjoint_of_nodup_append pool.apart.of_append_left mem_l List.mem_cons_self
  rcases place with ⟨rfl, rfl⟩ | ⟨a, rfl, last⟩
  · have new : (mem.modify db fun _ => {}).heap db = {} := heap_modify_same mem db _
    have link : putLink db mem dyn .head =
        (mem.modify db fun _ => {}, { dyn with head := some db, tail := some db }) := rfl
    have pool' : Pool (mem.modify db fun _ => {}) ([] ++ [db]) fs os := pool.modify_own own _
    rw [link]
    refine ⟨⟨rfl, ?_⟩, by simp, new, pool', fun b mem_os => ?_, rfl, rfl, rfl⟩
    · simp only [Mem.next]
      rw [new]
      rfl
    · have differ : b ≠ db := fun same => pool.not_mem_other own (same ▸ mem_os)
      rw [heap_modify_ne mem _ differ, spares b mem_os]
  · obtain ⟨l, rfl⟩ := List.getLast?_eq_some_iff.mp last
    have mem_last : a ∈ l ++ [a] := List.mem_append_right _ List.mem_cons_self
    have differ : a ≠ db := fun same => not_before (same ▸ mem_last)
    have not_l : a ∉ l := fun mem_l =>
      List.disjoint_of_nodup_append pool.apart.of_append_left.of_append_left mem_l List.mem_cons_self
    obtain ⟨mem', mem'_eq⟩ : ∃ mem', mem' = (mem.modify a fun b => { b with next := some db }).modify db fun _ => {} :=
      ⟨_, rfl⟩
    have new : mem'.heap db = {} := by rw [mem'_eq, heap_modify_same]
    have linked : mem'.heap a = { mem.heap a with next := some db } := by
      rw [mem'_eq, heap_modify_ne _ _ differ, heap_modify_same]
    have others : ∀ b, b ≠ a → b ≠ db → mem'.heap b = mem.heap b := by
      intro b first second
      rw [mem'_eq, heap_modify_ne _ _ second, heap_modify_ne _ _ first]
    have pool' : Pool mem' (l ++ [a] ++ [db]) fs os := by
      rw [mem'_eq]
      exact (pool.modify_own (List.mem_append_left _ mem_last) _).modify_own own _
    have link : putLink db mem dyn (.next a) = (mem', { dyn with tail := some db }) := by
      rw [mem'_eq]
      rfl
    rw [link]
    have unchanged : ∀ b ∈ l ++ [a], (mem'.heap b).start = (mem.heap b).start ∧
        (mem'.heap b).bytes = (mem.heap b).bytes := by
      intro b mem_b
      by_cases same : b = a
      · rw [same, linked]
        exact ⟨rfl, rfl⟩
      · rw [others b same fun eq => not_before (eq ▸ mem_b)]
        exact ⟨rfl, rfl⟩
    refine ⟨?_, fun b mem_b => ?_, new, pool', fun b mem_os => ?_, ?_, rfl, rfl⟩
    · rw [List.append_assoc]
      apply chain.snoc
      · intro c mem_c
        have first : c ≠ a := fun same => not_l (same ▸ mem_c)
        rw [Mem.next, others c first fun same => not_before (same ▸ List.mem_append_left _ mem_c), Mem.next]
      · rw [Mem.next, linked]
      · rw [Mem.next, new]
    · rw [(unchanged b mem_b).1, (unchanged b mem_b).2]
      exact live b mem_b
    · have first : b ≠ a := fun same => pool.not_mem_other (List.mem_append_left _ mem_last) (same ▸ mem_os)
      have second : b ≠ db := fun same => pool.not_mem_other own (same ▸ mem_os)
      rw [others b first second, spares b mem_os]
    · unfold content
      apply List.flatMap_congr
      intro b mem_b
      rw [unread, unread, (unchanged b mem_b).1, (unchanged b mem_b).2]

end

/-- The loop of `dbuf_put`: what is in the chain and what is still to be copied make `q`, and
once all flushes are made other buffers keep `kept`. -/
structure PutLoop (mem₀ : Mem) (kept : List Addr) (q : List Char) (length : UInt32) (s : Putting)
    (ls fs os : List Addr) : Prop where
  core : Core mem₀ os s.mem s.dyn.head ls fs
  last : s.dyn.tail = ls.getLast?
  bytes : content s.mem ls ++ s.buf = q
  length : s.dyn.length = length
  foreign : Foreign s.flushes os
  kept_eq : keptFrom os (allFreed s.flushes) = kept
  place : (s.h = .head ∧ ls = [] ∨ ∃ a, s.h = .next a ∧ ls.getLast? = some a) ∨ s.h = .tail ∧ ls ≠ []

def Putting.measure (s : Putting) : Nat := s.buf.length + if s.h = .tail then 1 else 0

def PutDone (mem₀ : Mem) (kept : List Addr) (q : List Char) (length : UInt32) (r : Bool × Mem × DBuf) : Prop :=
  ∃ ls fs os, Core mem₀ os r.2.1 r.2.2.head ls fs ∧ kept.Sublist os ∧
    (r.1 = true → r.2.2.tail = ls.getLast? ∧ content r.2.1 ls = q ∧ r.2.2.length = length)

theorem length_putCopy (db : Addr) (mem : Mem) (buf : List Char) :
    (putCopy db mem buf).2.length = buf.length - min (DBUF_SIZE - (mem.heap db).bytes.length) buf.length :=
  List.length_drop

theorem putTurn_spec {env : PutEnv} {mem₀ : Mem} {kept : List Addr} {q : List Char} {length : UInt32}
    {s : Putting} {fs os : List Addr} (inv : PutLoop mem₀ kept q length s ls fs os) :
    (∃ s', putTurn env s = some (.inl s') ∧ (∃ ls' fs' os', PutLoop mem₀ kept q length s' ls' fs' os') ∧
        s'.measure < s.measure) ∨
      ∃ r, putTurn env s = some (.inr r) ∧ PutDone mem₀ kept q length r := by
  obtain ⟨mem, dyn, h, buf, flushes⟩ := s
  obtain ⟨core, last, bytes, length_eq, foreign, rfl, place⟩ := inv
  simp only at core last bytes length_eq foreign place ⊢
  unfold putTurn
  by_cases done : buf = []
  · simp only [done, if_true]
    rw [done, List.append_nil] at bytes
    exact .inr ⟨_, rfl, ls, fs, os, core, keptFrom_sublist os _, fun _ => ⟨last, bytes, length_eq⟩⟩
  · simp only [done, if_false]
    have some_buf := List.length_pos_of_ne_nil done
    rcases place with place | ⟨rfl, some_ls⟩
    · -- The pointer is `NULL`: a block is taken from the pool and linked there.
      have null : h.read mem dyn = none := by
        rcases place with ⟨rfl, rfl⟩ | ⟨a, rfl, at_end⟩
        · exact core.chain
        · obtain ⟨l, rfl⟩ := List.getLast?_eq_some_iff.mp at_end
          exact core.chain.last_next
      simp only [null]
      obtain ⟨mem₁, flushes₁, fs₁, os₁, keeps, foreign₁, fewer₁, kept₁, outcome⟩ :=
        putAlloc_spec env dyn core.pool foreign
      have chain₁ : Chain mem₁.next dyn.head ls := core.chain.congr fun a mem_a => by
        rw [Mem.next, keeps.own a mem_a, Mem.next]
      have live₁ : ∀ a ∈ ls, (mem₁.heap a).start < (mem₁.heap a).bytes.length ∧
          (mem₁.heap a).bytes.length ≤ DBUF_SIZE := fun a mem_a => by
        rw [keeps.own a mem_a]
        exact core.live a mem_a
      have spares₁ : Spares mem₀ mem₁ os₁ := fun a mem_a => by
        rw [keeps.spares a mem_a, core.spares a (fewer₁.subset mem_a)]
      rcases outcome with ⟨failed, pool₁⟩ | ⟨db, alloc, pool₁⟩
      · simp only [failed]
        rw [← kept₁]
        exact .inr ⟨_, rfl, ls, fs₁, os₁, ⟨chain₁, live₁, pool₁, spares₁⟩, keptFrom_sublist os₁ _, by simp⟩
      · simp only [alloc]
        obtain ⟨chain₂, live₂, new, pool₂, spares₂, content₂, tail₂, length₂⟩ :=
          putLink_spec chain₁ live₁ place pool₁ spares₁
        have room : ((putLink db mem₁ dyn h).1.heap db).bytes.length < DBUF_SIZE := by
          rw [new]
          decide
        have sound : ((putLink db mem₁ dyn h).1.heap db).start ≤ ((putLink db mem₁ dyn h).1.heap db).bytes.length := by
          rw [new]
          exact Nat.zero_le _
        obtain ⟨core₃, content₃⟩ := putCopy_spec chain₂ live₂ ⟨sound, le_of_lt room⟩
          (.inr ⟨room, done⟩) pool₂ spares₂
        refine .inl ⟨_, rfl, ⟨ls ++ [db], fs₁, os₁, core₃, ?_, ?_, ?_, foreign₁, kept₁, ?_⟩, ?_⟩
        · simp only
          rw [tail₂]
          simp
        · simp only
          rw [content₃, content_append, content₂, content_congr keeps.own, content_cons, unread, new]
          simpa using bytes
        · simp only
          rw [length₂, length_eq]
        · exact .inl (.inr ⟨db, rfl, by simp⟩)
        · have copied := length_putCopy db (putLink db mem₁ dyn h).1 buf
          rw [new] at copied
          simp only [Putting.measure, copied, reduceCtorEq, if_false]
          simp only [DBUF_SIZE, List.length_nil]
          split <;> omega
    · -- The tail takes what it has room for, perhaps nothing.
      obtain ⟨l, db, rfl⟩ := List.eq_nil_or_concat ls |>.resolve_left some_ls
      rw [List.concat_eq_append] at *
      have tail : dyn.tail = some db := by rw [last]; simp
      have live := core.live db (List.mem_append_right _ List.mem_cons_self)
      obtain ⟨core₁, content₁⟩ := putCopy_spec core.chain
        (fun a mem_a => core.live a (List.mem_append_left _ mem_a)) ⟨le_of_lt live.1, live.2⟩ (.inl live.1) core.pool
        core.spares
      simp only [Slot.read, tail]
      refine .inl ⟨_, rfl, ⟨l ++ [db], fs, os, core₁, ?_, ?_, length_eq, foreign, rfl, ?_⟩, ?_⟩
      · exact last
      · simp only
        rw [content₁, bytes]
      · exact .inl (.inr ⟨db, rfl, by simp⟩)
      · have copied := length_putCopy db mem buf
        simp only [Putting.measure, copied, reduceCtorEq, if_false, if_true]
        omega

theorem Leaves.sublist {mem mem' : Mem} {os os' : List Addr} {q : List Char} {dyn' : DBuf}
    (leaves : Leaves mem os q mem' dyn') (fewer : os'.Sublist os) : Leaves mem os' q mem' dyn' := by
  obtain ⟨ls, fs, owned, bytes, spares⟩ := leaves
  exact ⟨ls, fs, ⟨owned.linked, owned.pool.sublist fewer, owned.length⟩, bytes,
    fun a mem_a => spares a (fewer.subset mem_a)⟩

theorem dbufPut_spec {env : PutEnv} {mem : Mem} {dyn : DBuf} {fs os : List Addr} {buf : List Char}
    (owned : Owned mem dyn ls fs os) (foreign : Foreign env.flushes os) :
    ∃ ok mem' dyn', dbufPut env mem dyn buf = some (ok, mem', dyn') ∧
      Leaves mem (keptFrom os (allFreed env.flushes)) (if ok then content mem ls ++ buf else []) mem' dyn' := by
  obtain ⟨kept, kept_eq⟩ : ∃ kept, keptFrom os (allFreed env.flushes) = kept := ⟨_, rfl⟩
  obtain ⟨h, h_eq⟩ : ∃ h : Slot, h = if dyn.length = 0 then .head else .tail := ⟨_, rfl⟩
  have start : PutLoop mem kept (content mem ls ++ buf) (dyn.length + UInt32.ofNat buf.length)
      ⟨mem, { dyn with length := dyn.length + UInt32.ofNat buf.length }, h, buf, env.flushes⟩ ls fs os := by
    refine ⟨owned.core, owned.linked.last, rfl, rfl, foreign, kept_eq, ?_⟩
    by_cases empty : dyn.length = 0
    · rw [if_pos empty] at h_eq
      have no_blocks := (content_eq_nil owned.linked).mp (owned.length_eq_zero.mp empty)
      exact .inl (.inl ⟨h_eq, no_blocks⟩)
    · rw [if_neg empty] at h_eq
      obtain ⟨db, rest, rfl, -⟩ := owned.exists_head empty
      exact .inr ⟨h_eq, by simp⟩
  have turns : ∀ (k : Nat) (s : Putting),
      (s.measure = k ∧ ∃ ls' fs' os',
        PutLoop mem kept (content mem ls ++ buf) (dyn.length + UInt32.ofNat buf.length) s ls' fs' os') →
      (∃ s' k', putTurn env s = some (.inl s') ∧ (s'.measure = k' ∧ ∃ ls' fs' os',
        PutLoop mem kept (content mem ls ++ buf) (dyn.length + UInt32.ofNat buf.length) s' ls' fs' os') ∧ k' < k) ∨
      ∃ r, putTurn env s = some (.inr r) ∧
        PutDone mem kept (content mem ls ++ buf) (dyn.length + UInt32.ofNat buf.length) r := by
    rintro k s ⟨rfl, ls', fs', os', inv⟩
    rcases putTurn_spec inv with ⟨s', next, keeps, less⟩ | done
    · exact .inl ⟨s', s'.measure, next, ⟨rfl, keeps⟩, less⟩
    · exact .inr done
  have short : Putting.measure
      ⟨mem, { dyn with length := dyn.length + UInt32.ofNat buf.length }, h, buf, env.flushes⟩ < buf.length + 2 := by
    simp only [Putting.measure]
    split <;> omega
  obtain ⟨⟨ok, mem', dyn'⟩, done, ls', fs', os', core, fewer, success⟩ :=
    loop_ends _ _ turns ⟨rfl, ls, fs, os, start⟩ short
  simp only at core success
  unfold dbufPut
  rw [kept_eq]
  simp only [← h_eq, done]
  cases ok with
  | true =>
    obtain ⟨last, bytes, length⟩ := success rfl
    have small := content_small ⟨core.chain, last, core.live⟩ core.pool
    refine ⟨true, mem', dyn', rfl, Leaves.sublist ⟨ls', fs', core.owned last ?_, bytes, core.spares⟩ fewer⟩
    rw [bytes, List.length_append] at small
    rw [length, bytes, List.length_append, ← owned.length, UInt32.toNat_add, UInt32.toNat_ofNat']
    rw [← owned.length] at small
    omega
  | false =>
    obtain ⟨mem'', failed, leaves⟩ := mallocError_spec core.chain core.pool
    exact ⟨false, mem'', {}, by simp [failed], (Leaves.trans core.spares leaves).sublist fewer⟩

end Ircd.Buffers

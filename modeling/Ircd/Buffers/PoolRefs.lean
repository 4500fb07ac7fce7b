import Ircd.Buffers.Pool

/-! What one call of `msgq.c` does to the reference counts, the free lists and the counters.

The references of a buffer are its maker's, those of the entries of the queues, and those of
the buffers it is behind. `msgq_clean` goes from a buffer to the one behind it: in between the
first one has no reference left and is on no free list yet.
-/

set_option autoImplicit false

namespace Ircd.Buffers.Pool

open Library

/-- A buffer in use that another one, `p`, is behind. -/
def isAlias (p q : Ptr) (b : MsgBuf) : Bool := decide (0 < b.ref ∧ b.real = some p ∧ q ≠ p)

def MQData.aliases (s : MQData) (p : Ptr) : Nat := s.bufs.count (isAlias p)

def isOf (power : SizeClass) (_ : Ptr) (b : MsgBuf) : Bool := b.power = power

def inUse (limbo : Finset Ptr) (power : SizeClass) (p : Ptr) (b : MsgBuf) : Bool :=
  decide (b.power = power ∧ (0 < b.ref ∨ p ∈ limbo))

def plus (outer : Ptr → Nat) (p : Ptr) : Ptr → Nat := fun q => outer q + if q = p then 1 else 0

/-- The counts and the lists are right, where `held` has a maker, `outer` are the references
from outside and `limbo` are buffers on their way to a free list. -/
structure Good (s : MQData) (held : Finset Ptr) (outer : Ptr → Nat) (limbo : Finset Ptr) : Prop where
  made : held ⊆ s.bufs.live
  inside : ∀ p, outer p ≠ 0 → p ∈ s.bufs.live
  refs : ∀ p ∈ s.bufs.live, (s.buf p).ref = (if p ∈ held then 1 else 0) + outer p + s.aliases p
  reals : ∀ p ∈ s.bufs.live, 0 < (s.buf p).ref → ∀ r, (s.buf p).real = some r → r ∈ s.bufs.live
  making : ∀ p ∈ held, s.aliases p = 0 ∧ ((s.buf p).real = none → outer p = 0)
  dying : ∀ p ∈ limbo, p ∈ s.bufs.live ∧ (s.buf p).ref = 0
  free : ∀ power, (s.msgBufs power).free.Nodup ∧ ∀ p, p ∈ (s.msgBufs power).free ↔
    p ∈ s.bufs.live ∧ (s.buf p).power = power ∧ (s.buf p).ref = 0 ∧ p ∉ limbo
  used : ∀ power, (s.msgBufs power).used = s.bufs.count (inUse limbo power)
  alloc : ∀ power, (s.msgBufs power).alloc = s.bufs.count (isOf power)
  total : s.totBufsize = s.bufs.sum fun _ b => bufsize b.power

namespace MQData

variable {s : MQData} {p q : Ptr} {b : MsgBuf}

@[simp] theorem buf_put : (s.put p b).buf p = b := Blocks.mem_write _ _ _

theorem buf_put_other (other : q ≠ p) : (s.put p b).buf q = s.buf q := Blocks.mem_write_other _ _ other

@[simp] theorem live_put : (s.put p b).bufs.live = s.bufs.live := rfl

@[simp] theorem msgBufs_put : (s.put p b).msgBufs = s.msgBufs := rfl

@[simp] theorem totBufsize_put : (s.put p b).totBufsize = s.totBufsize := rfl

theorem msgBufs_setClass (power k : SizeClass) (c : Class) :
    (s.setClass power c).msgBufs k = if k = power then c else s.msgBufs k := by
  by_cases here : k = power
  · rw [if_pos here, here]
    exact Function.update_self _ _ _
  · rw [if_neg here]
    exact Function.update_of_ne here _ _

theorem msgBufs_setClass_twice (power : SizeClass) (c c' : Class) :
    ((s.setClass power c).setClass power c').msgBufs = (s.setClass power c').msgBufs :=
  Function.update_idem _ _ _

theorem msgBufs_setClass_self (power : SizeClass) (c : Class) : (s.setClass power c).msgBufs power = c :=
  Function.update_self _ _ _

theorem aliases_put (inside : p ∈ s.bufs.live) (r : Ptr) :
    (s.put p b).aliases r + Blocks.unit (isAlias r) p (s.buf p) = s.aliases r + Blocks.unit (isAlias r) p b :=
  Blocks.count_write _ _ _ inside

theorem alloc_put (same : b.power = (s.buf p).power) (power : SizeClass) :
    (s.put p b).bufs.count (isOf power) = s.bufs.count (isOf power) := by
  refine Blocks.count_congr rfl fun q _ => ?_
  change isOf power q ((s.put p b).buf q) = isOf power q (s.buf q)
  by_cases here : q = p
  · subst here
    rw [buf_put, isOf, isOf, same]
  · rw [buf_put_other here]

theorem total_put (inside : p ∈ s.bufs.live) (same : b.power = (s.buf p).power) :
    (s.put p b).bufs.sum (fun _ b => bufsize b.power) = s.bufs.sum fun _ b => bufsize b.power := by
  have sums : (s.put p b).bufs.sum (fun _ b => bufsize b.power) + bufsize (s.buf p).power =
      s.bufs.sum (fun _ b => bufsize b.power) + bufsize b.power := Blocks.sum_write _ _ _ inside
  rw [same] at sums
  exact Nat.add_right_cancel sums

theorem used_put {limbo limbo' : Finset Ptr} (same : b.power = (s.buf p).power)
    (here : 0 < b.ref ∨ p ∈ limbo' ↔ 0 < (s.buf p).ref ∨ p ∈ limbo) (others : ∀ q, q ≠ p → (q ∈ limbo' ↔ q ∈ limbo))
    (power : SizeClass) : (s.put p b).bufs.count (inUse limbo' power) = s.bufs.count (inUse limbo power) := by
  refine Blocks.count_congr rfl fun q _ => ?_
  change inUse limbo' power q ((s.put p b).buf q) = inUse limbo power q (s.buf q)
  by_cases at_p : q = p
  · subst at_p
    rw [buf_put]
    exact decide_eq_decide.mpr (and_congr (by rw [same]) here)
  · rw [buf_put_other at_p]
    exact decide_eq_decide.mpr (and_congr_right fun _ => or_congr_right (others q at_p))

theorem aliases_put_same (inside : p ∈ s.bufs.live) (r : Ptr) (same : isAlias r p b = isAlias r p (s.buf p)) :
    (s.put p b).aliases r = s.aliases r := by
  have count := aliases_put (b := b) inside r
  rw [Blocks.unit, Blocks.unit, same] at count
  exact Nat.add_right_cancel count

end MQData

section
variable {s s' : MQData} {held limbo : Finset Ptr} {outer outer' : Ptr → Nat} {p q : Ptr}

theorem Good.of_eq (good : Good s held outer limbo) (bufs : s'.bufs = s.bufs) (classes : s'.msgBufs = s.msgBufs)
    (total : s'.totBufsize = s.totBufsize) : Good s' held outer limbo := by
  obtain ⟨_, _, _, _, _⟩ := s
  obtain ⟨_, _, _, _, _⟩ := s'
  subst bufs classes total
  exact ⟨good.made, good.inside, good.refs, good.reals, good.making, good.dying, good.free, good.used, good.alloc,
    good.total⟩

theorem Good.ref_pos (good : Good s held outer limbo) (inside : p ∈ s.bufs.live)
    (owned : p ∈ held ∨ outer p ≠ 0 ∨ s.aliases p ≠ 0) : 0 < (s.buf p).ref := by
  rw [good.refs p inside]
  split <;> rename_i mem
  · omega
  · rcases owned with maker | outside | behind
    · exact absurd maker mem
    · omega
    · omega

theorem Good.unowned (good : Good s held outer limbo) (inside : p ∈ s.bufs.live) (none_left : (s.buf p).ref = 0) :
    p ∉ held ∧ outer p = 0 ∧ s.aliases p = 0 := by
  have pos := good.ref_pos inside
  rw [none_left] at pos
  refine ⟨fun maker => absurd (pos (.inl maker)) (Nat.lt_irrefl _), ?_, ?_⟩
  · by_contra outside
    exact absurd (pos (.inr (.inl outside))) (Nat.lt_irrefl _)
  · by_contra behind
    exact absurd (pos (.inr (.inr behind))) (Nat.lt_irrefl _)

theorem Good.outside (good : Good s held outer limbo) (outside : p ∉ s.bufs.live) :
    p ∉ held ∧ outer p = 0 ∧ s.aliases p = 0 := by
  refine ⟨fun maker => outside (good.made maker), ?_, ?_⟩
  · by_contra pointed
    exact outside (good.inside p pointed)
  · refine Blocks.count_zero_iff.mpr fun q inside => decide_eq_false ?_
    rintro ⟨used, real, -⟩
    exact outside (good.reals q inside used p real)

/-- A buffer is written over, with another number of references, another buffer behind it or
another message. -/
theorem Good.put (good : Good s held outer limbo) (inside : p ∈ s.bufs.live) (b : MsgBuf)
    (same : b.power = (s.buf p).power) {held' limbo' : Finset Ptr} {outer' : Ptr → Nat} (made : held' ⊆ s.bufs.live)
    (pointed : ∀ q, outer' q ≠ 0 → q ∈ s.bufs.live)
    (refs : ∀ q ∈ s.bufs.live,
      ((s.put p b).buf q).ref = (if q ∈ held' then 1 else 0) + outer' q + (s.put p b).aliases q)
    (real : ∀ r, b.real = some r → 0 < b.ref → r ∈ s.bufs.live)
    (making : ∀ q ∈ held', (s.put p b).aliases q = 0 ∧ (((s.put p b).buf q).real = none → outer' q = 0))
    (dying : ∀ q ∈ limbo', q ∈ s.bufs.live ∧ ((s.put p b).buf q).ref = 0)
    (here : 0 < b.ref ∨ p ∈ limbo' ↔ 0 < (s.buf p).ref ∨ p ∈ limbo) (others : ∀ q, q ≠ p → (q ∈ limbo' ↔ q ∈ limbo)) :
    Good (s.put p b) held' outer' limbo' := by
  refine ⟨made, pointed, refs, ?_, making, dying, ?_, ?_, ?_, ?_⟩
  · intro q live used r behind
    by_cases at_p : q = p
    · subst at_p
      rw [MQData.buf_put] at used behind
      exact real r behind used
    · rw [MQData.buf_put_other at_p] at used behind
      exact good.reals q live used r behind
  · intro power
    refine ⟨(good.free power).1, fun q => ?_⟩
    rw [MQData.msgBufs_put, (good.free power).2 q, MQData.live_put]
    refine and_congr_right fun _ => ?_
    by_cases at_p : q = p
    · subst at_p
      rw [MQData.buf_put, same]
      refine and_congr_right fun _ => ?_
      have gone := not_congr here
      rw [not_or, not_or, Nat.not_lt, Nat.not_lt, Nat.le_zero, Nat.le_zero] at gone
      exact gone.symm
    · rw [MQData.buf_put_other at_p, others q at_p]
  · intro power
    rw [MQData.msgBufs_put, good.used power, MQData.used_put same here others]
  · intro power
    rw [MQData.msgBufs_put, good.alloc power, MQData.alloc_put same]
  · rw [MQData.totBufsize_put, good.total, MQData.total_put inside same]

theorem Good.not_dying (good : Good s held outer limbo) (used : 0 < (s.buf p).ref) : p ∉ limbo := fun dying =>
  absurd (good.dying p dying).2 (Nat.pos_iff_ne_zero.mp used)

theorem Good.dying_put (good : Good s held outer limbo) (used : 0 < (s.buf p).ref) (b : MsgBuf) :
    ∀ q ∈ limbo, q ∈ s.bufs.live ∧ ((s.put p b).buf q).ref = 0 := by
  intro q dying
  have other : q ≠ p := by
    rintro rfl
    exact good.not_dying used dying
  rw [MQData.buf_put_other other]
  exact good.dying q dying

theorem Good.setRef (good : Good s held outer limbo) (inside : p ∈ s.bufs.live) (used : 0 < (s.buf p).ref) {n : Nat}
    (some_left : 0 < n) (here : n + outer p = (s.buf p).ref + outer' p) (others : ∀ q, q ≠ p → outer' q = outer q)
    (ready : p ∈ held → (s.buf p).real = none → outer' p = 0) :
    Good (s.put p { s.buf p with ref := n }) held outer' limbo := by
  have aliases : ∀ r, (s.put p { s.buf p with ref := n }).aliases r = s.aliases r := fun r =>
    MQData.aliases_put_same inside r (by simp [isAlias, used, some_left])
  refine good.put inside { s.buf p with ref := n } rfl good.made ?_ ?_ ?_ ?_ (good.dying_put used _) ?_ fun _ _ => Iff.rfl
  · intro q pointed
    by_cases at_p : q = p
    · rwa [at_p]
    · exact good.inside q (others q at_p ▸ pointed)
  · intro q live
    rw [aliases]
    by_cases at_p : q = p
    · subst at_p
      have before := good.refs q live
      rw [MQData.buf_put]
      simp only
      omega
    · rw [MQData.buf_put_other at_p, others q at_p]
      exact good.refs q live
  · exact fun r behind _ => good.reals p inside used r behind
  · intro q maker
    rw [aliases]
    refine ⟨(good.making q maker).1, ?_⟩
    by_cases at_p : q = p
    · subst at_p
      rw [MQData.buf_put]
      exact ready maker
    · rw [MQData.buf_put_other at_p, others q at_p]
      exact (good.making q maker).2
  · simp [used, some_left]

/-- The buffer behind a message that its maker still has: the reference that was counted as
a maker's is the alias's. -/
theorem Good.attached {mb tmp : Ptr} (good : Good s (insert tmp held) outer limbo) (other : tmp ≠ mb) (spare : tmp ∉ held)
    (maker : mb ∈ held) (unattached : (s.buf mb).real = none) :
    Good (s.put mb { s.buf mb with real := some tmp }) held outer limbo := by
  have made := (Finset.insert_subset_iff.mp good.made)
  have inside := made.2 maker
  have used := good.ref_pos inside (.inl (Finset.mem_insert_of_mem maker))
  have aliases : ∀ r, (s.put mb { s.buf mb with real := some tmp }).aliases r =
      s.aliases r + if r = tmp then 1 else 0 := by
    intro r
    have count := MQData.aliases_put (b := { s.buf mb with real := some tmp }) inside r
    have before : isAlias r mb (s.buf mb) = false := by simp [isAlias, unattached]
    have after : isAlias r mb { s.buf mb with real := some tmp } = decide (r = tmp) := by
      by_cases at_tmp : r = tmp
      · subst at_tmp
        simp [isAlias, used, other.symm]
      · simp [isAlias, at_tmp, Ne.symm at_tmp]
    rw [Blocks.unit, before, Blocks.unit, after] at count
    simpa using count
  refine good.put inside { s.buf mb with real := some tmp } rfl made.2 good.inside ?_ ?_ ?_ (good.dying_put used _) (Iff.refl _) fun _ _ => Iff.rfl
  · intro q live
    have before := good.refs q live
    rw [aliases]
    have same_ref : ((s.put mb { s.buf mb with real := some tmp }).buf q).ref = (s.buf q).ref := by
      by_cases at_mb : q = mb
      · subst at_mb
        rw [MQData.buf_put]
      · rw [MQData.buf_put_other at_mb]
    rw [same_ref, before]
    by_cases at_tmp : q = tmp
    · subst at_tmp
      rw [if_pos (Finset.mem_insert_self _ _), if_neg spare, if_pos rfl]
      omega
    · simp only [Finset.mem_insert, at_tmp, false_or, if_false]
      omega
  · rintro r behind -
    exact Option.some.inj behind ▸ made.1
  · intro q maker'
    have at_tmp : q ≠ tmp := by
      rintro rfl
      exact spare maker'
    obtain ⟨no_alias, ready⟩ := good.making q (Finset.mem_insert_of_mem maker')
    rw [aliases, if_neg at_tmp]
    refine ⟨no_alias, ?_⟩
    by_cases at_mb : q = mb
    · subst at_mb
      rw [MQData.buf_put]
      intro none
      cases none
    · rw [MQData.buf_put_other at_mb]
      exact ready

theorem Good.self {mb : Ptr} (good : Good s held outer limbo) (maker : mb ∈ held) (unattached : (s.buf mb).real = none) :
    Good (s.put mb { s.buf mb with real := some mb }) held outer limbo := by
  have inside := good.made maker
  have used := good.ref_pos inside (.inl maker)
  have aliases : ∀ r, (s.put mb { s.buf mb with real := some mb }).aliases r = s.aliases r := fun r =>
    MQData.aliases_put_same inside r (by
      by_cases at_mb : mb = r <;> simp [isAlias, unattached, at_mb])
  refine good.put inside { s.buf mb with real := some mb } rfl good.made good.inside ?_ ?_ ?_ (good.dying_put used _) (Iff.refl _) fun _ _ => Iff.rfl
  · intro q live
    rw [aliases, ← good.refs q live]
    by_cases at_mb : q = mb
    · subst at_mb
      rw [MQData.buf_put]
    · rw [MQData.buf_put_other at_mb]
  · rintro r behind -
    exact Option.some.inj behind ▸ inside
  · intro q maker'
    obtain ⟨no_alias, ready⟩ := good.making q maker'
    rw [aliases]
    refine ⟨no_alias, ?_⟩
    by_cases at_mb : q = mb
    · subst at_mb
      rw [MQData.buf_put]
      intro none
      cases none
    · rw [MQData.buf_put_other at_mb]
      exact ready

theorem Good.addRef (good : Good s held outer limbo) (inside : p ∈ s.bufs.live) (used : 0 < (s.buf p).ref)
    (attached : p ∈ held → (s.buf p).real ≠ none) :
    Good (s.put p { s.buf p with ref := (s.buf p).ref + 1 }) held (plus outer p) limbo := by
  refine good.setRef inside used (Nat.succ_pos _) ?_ ?_ fun maker none => absurd none (attached maker)
  · rw [plus, if_pos rfl]
    omega
  · exact fun q other => by rw [plus, if_neg other, Nat.add_zero]

theorem Good.unhold (good : Good s held outer limbo) (maker : p ∈ held) : Good s (held.erase p) (plus outer p) limbo := by
  refine ⟨(Finset.erase_subset _ _).trans good.made, ?_, ?_, good.reals, ?_, good.dying, good.free, good.used, good.alloc,
    good.total⟩
  · intro q pointed
    by_cases at_p : q = p
    · exact at_p ▸ good.made maker
    · rw [plus, if_neg at_p] at pointed
      exact good.inside q pointed
  · intro q live
    rw [good.refs q live, plus]
    by_cases at_p : q = p
    · subst at_p
      rw [if_pos maker, if_neg (Finset.notMem_erase _ _), if_pos rfl]
      omega
    · simp only [Finset.mem_erase, at_p, ne_eq, not_false_eq_true, true_and, if_false]
      omega
  · intro q maker'
    have at_p := Finset.ne_of_mem_erase maker'
    rw [plus, if_neg at_p]
    exact good.making q (Finset.mem_of_mem_erase maker')

theorem Good.dropRef_shared (good : Good s held (plus outer p) limbo) (shared : (s.buf p).ref - 1 ≠ 0) :
    Good (dropRef s p) held outer limbo := by
  have pointed : plus outer p p ≠ 0 := by
    rw [plus, if_pos rfl]
    exact Nat.succ_ne_zero _
  have inside := good.inside p pointed
  have used := good.ref_pos inside (.inr (.inl pointed))
  have put : Good (s.put p { s.buf p with ref := (s.buf p).ref - 1 }) held outer limbo := by
    refine good.setRef inside used (Nat.pos_of_ne_zero shared) ?_ ?_ ?_
    · rw [plus, if_pos rfl]
      omega
    · exact fun q other => by rw [plus, if_neg other, Nat.add_zero]
    · intro maker none
      exact absurd ((good.making p maker).2 none) pointed
  refine put.of_eq (dropRef_bufs s p) ?_ ?_ <;> unfold dropRef <;> simp only <;> split <;> rfl

def behind (outer : Ptr → Nat) (p : Ptr) (b : MsgBuf) : Ptr → Nat :=
  fun q => outer q + if b.real = some q ∧ p ≠ q then 1 else 0

/-- The last reference is dropped: the buffer waits for its free list, and the reference to the
one behind it is one from outside. -/
theorem Good.dropRef_last (good : Good s held (plus outer p) limbo) (last : (s.buf p).ref - 1 = 0) :
    Good (dropRef s p) held (behind outer p (s.buf p)) (insert p limbo) := by
  have pointed : plus outer p p ≠ 0 := by
    rw [plus, if_pos rfl]
    exact Nat.succ_ne_zero _
  have inside := good.inside p pointed
  have used := good.ref_pos inside (.inr (.inl pointed))
  have count := good.refs p inside
  rw [plus, if_pos rfl] at count
  have no_maker : p ∉ held := by
    intro maker
    rw [if_pos maker] at count
    omega
  rw [if_neg no_maker] at count
  have aliases : ∀ r, (s.put p { s.buf p with ref := 0 }).aliases r + (if (s.buf p).real = some r ∧ p ≠ r then 1 else 0) =
      s.aliases r := by
    intro r
    have change := MQData.aliases_put (b := { s.buf p with ref := 0 }) inside r
    have before : isAlias r p (s.buf p) = decide ((s.buf p).real = some r ∧ p ≠ r) :=
      decide_eq_decide.mpr (and_iff_right used)
    have after : isAlias r p { s.buf p with ref := 0 } = false := by simp [isAlias]
    rw [Blocks.unit, before, Blocks.unit, after] at change
    simpa using change
  have others : ∀ q, q ≠ p → plus outer p q = outer q := fun q other => by rw [plus, if_neg other, Nat.add_zero]
  have put : Good (s.put p { s.buf p with ref := 0 }) held (behind outer p (s.buf p)) (insert p limbo) := by
    refine good.put inside { s.buf p with ref := 0 } rfl good.made ?_ ?_ ?_ ?_ ?_ ?_ ?_
    · intro q some_ref
      by_cases real : (s.buf p).real = some q ∧ p ≠ q
      · exact good.reals p inside used q real.1
      · rw [behind, if_neg real, Nat.add_zero] at some_ref
        exact good.inside q (by rw [plus]; omega)
    · intro q live
      have change := aliases q
      rw [behind]
      by_cases at_p : q = p
      · subst at_p
        rw [MQData.buf_put, if_neg no_maker]
        change 0 = _
        omega
      · have before := good.refs q live
        rw [others q at_p] at before
        rw [MQData.buf_put_other at_p]
        omega
    · exact fun _ _ used => absurd used (Nat.lt_irrefl _)
    · intro q maker
      have at_p : q ≠ p := by
        rintro rfl
        exact no_maker maker
      have change := aliases q
      obtain ⟨no_alias, ready⟩ := good.making q maker
      rw [others q at_p] at ready
      rw [MQData.buf_put_other at_p, behind]
      refine ⟨by omega, fun none => ?_⟩
      have := ready none
      omega
    · intro q dying
      by_cases at_p : q = p
      · subst at_p
        exact ⟨inside, by rw [MQData.buf_put]⟩
      · rw [MQData.buf_put_other at_p]
        exact good.dying q (Finset.mem_of_mem_insert_of_ne dying at_p)
    · exact iff_of_true (.inr (Finset.mem_insert_self _ _)) (.inl used)
    · exact fun q other => by rw [Finset.mem_insert, or_iff_right other]
  refine put.of_eq ?_ ?_ ?_
  · rw [dropRef_bufs, last]
    rfl
  all_goals unfold dropRef; simp only; split <;> rfl

theorem Good.freeBuf (good : Good s held outer (insert p limbo)) (waiting : p ∉ limbo) :
    Good (freeBuf s p) held outer limbo := by
  obtain ⟨inside, none_left⟩ := good.dying p (Finset.mem_insert_self _ _)
  have class_of : ∀ power, (Pool.freeBuf s p).msgBufs power =
      if power = (s.buf p).power then
        ⟨(s.msgBufs power).alloc, (s.msgBufs power).used - 1, p :: (s.msgBufs power).free⟩
      else s.msgBufs power := by
    intro power
    rw [Pool.freeBuf, MQData.msgBufs_setClass]
    split <;> rename_i here
    · rw [here]
    · rfl
  have mem_limbo : ∀ q, q ≠ p → (q ∈ insert p limbo ↔ q ∈ limbo) := fun q other => by
    rw [Finset.mem_insert, or_iff_right other]
  have counted : ∀ power, s.bufs.count (inUse (insert p limbo) power) =
      s.bufs.count (inUse limbo power) + if power = (s.buf p).power then 1 else 0 := by
    intro power
    have change : s.bufs.count (inUse limbo power) + Blocks.unit (inUse (insert p limbo) power) p (s.buf p) =
        s.bufs.count (inUse (insert p limbo) power) + Blocks.unit (inUse limbo power) p (s.buf p) :=
      Blocks.count_change _ _ rfl inside fun q other _ =>
        decide_eq_decide.mpr (and_congr_right fun _ => or_congr_right (mem_limbo q other).symm)
    have before : inUse (insert p limbo) power p (s.buf p) = decide (power = (s.buf p).power) := by
      simp [inUse, eq_comm]
    have after : inUse limbo power p (s.buf p) = false := by simp [inUse, none_left, waiting]
    rw [Blocks.unit, before, Blocks.unit, after] at change
    simpa using change.symm
  refine ⟨good.made, good.inside, good.refs, good.reals, good.making,
    fun q dying => good.dying q (Finset.mem_insert_of_mem dying), fun power => ?_, fun power => ?_, fun power => ?_,
    good.total⟩
  · obtain ⟨nodup, mem_free⟩ := good.free power
    rw [class_of]
    by_cases here : power = (s.buf p).power
    · rw [if_pos here]
      refine ⟨List.nodup_cons.mpr ⟨?_, nodup⟩, fun q => ?_⟩
      · rw [mem_free]
        exact fun free => free.2.2.2 (Finset.mem_insert_self _ _)
      · rw [List.mem_cons, mem_free]
        by_cases at_p : q = p
        · subst at_p
          exact iff_of_true (.inl rfl) ⟨inside, here.symm, none_left, waiting⟩
        · rw [or_iff_right at_p, mem_limbo q at_p]
          rfl
    · rw [if_neg here]
      refine ⟨nodup, fun q => ?_⟩
      rw [mem_free]
      refine and_congr_right fun _ => and_congr_right fun of_class => and_congr_right fun _ => not_congr ?_
      refine mem_limbo q ?_
      rintro rfl
      exact here of_class.symm
  · have count := counted power
    rw [← good.used power] at count
    rw [class_of]
    split <;> rename_i here
    · rw [if_pos here] at count
      simp only [count]
      rfl
    · rw [if_neg here] at count
      exact count
  · rw [class_of]
    split <;> exact good.alloc power

theorem behind_self {r : Ptr} {b : MsgBuf} (real : b.real = some r) (same : r = p) : behind outer p b = outer := by
  funext q
  rw [behind, if_neg, Nat.add_zero]
  rintro ⟨real', other⟩
  exact other (same.symm.trans (Option.some.inj (real.symm.trans real')))

theorem behind_none {b : MsgBuf} (real : b.real = none) : behind outer p b = outer := by
  funext q
  rw [behind, if_neg (by rw [real]; simp), Nat.add_zero]

theorem behind_some {r : Ptr} {b : MsgBuf} (real : b.real = some r) (other : r ≠ p) : behind outer p b = plus outer r := by
  funext q
  rw [behind, plus, real]
  by_cases at_r : q = r
  · rw [if_pos ⟨congrArg some at_r.symm, fun same => other (at_r ▸ same.symm)⟩, if_pos at_r]
  · rw [if_neg fun both => at_r (Option.some.inj both.1).symm, if_neg at_r]

/-- `msgq_clean` drops one reference from outside, and with the last one all that hang on it. -/
theorem Good.clean (good : Good s held (plus outer p) limbo) : Good (msgqClean s p) held outer limbo := by
  induction measure : s.refs using Nat.strongRecOn generalizing s p outer limbo with
  | _ n ih =>
  have pointed : plus outer p p ≠ 0 := by
    rw [plus, if_pos rfl]
    exact Nat.succ_ne_zero _
  have inside := good.inside p pointed
  have used := good.ref_pos inside (.inr (.inl pointed))
  have waiting := good.not_dying used
  rw [msgqClean, dif_pos ⟨inside, used⟩]
  by_cases last : (s.buf p).ref - 1 = 0
  · rw [if_pos last]
    have dropped := good.dropRef_last last
    cases real : (s.buf p).real with
    | none =>
      rw [behind_none real] at dropped
      exact dropped.freeBuf waiting
    | some r =>
      simp only
      by_cases same : r = p
      · rw [if_pos same]
        rw [behind_self real same] at dropped
        exact dropped.freeBuf waiting
      · rw [if_neg same]
        rw [behind_some real same] at dropped
        exact (ih _ (measure ▸ dropRef_refs inside used) dropped rfl).freeBuf waiting
  · rw [if_neg last]
    exact good.dropRef_shared last

theorem Good.revive (good : Good s held outer (insert p limbo)) (waiting : p ∉ limbo) :
    Good (s.put p { s.buf p with real := none, ref := 1 }) (insert p held) outer limbo := by
  obtain ⟨inside, none_left⟩ := good.dying p (Finset.mem_insert_self _ _)
  obtain ⟨no_maker, no_outer, no_alias⟩ := good.unowned inside none_left
  have aliases : ∀ r, (s.put p { s.buf p with real := none, ref := 1 }).aliases r = s.aliases r := fun r =>
    MQData.aliases_put_same inside r (by simp [isAlias, none_left])
  refine good.put inside { s.buf p with real := none, ref := 1 } rfl (Finset.insert_subset inside good.made) good.inside
    ?_ ?_ ?_ ?_ ?_ ?_
  · intro q live
    rw [aliases]
    by_cases at_p : q = p
    · subst at_p
      rw [MQData.buf_put, if_pos (Finset.mem_insert_self _ _), no_outer, no_alias]
    · rw [MQData.buf_put_other at_p, good.refs q live]
      simp only [Finset.mem_insert, at_p, false_or]
  · exact fun r real => absurd real (by simp)
  · intro q maker
    rw [aliases]
    by_cases at_p : q = p
    · subst at_p
      exact ⟨no_alias, fun _ => no_outer⟩
    · rw [MQData.buf_put_other at_p]
      exact good.making q (Finset.mem_of_mem_insert_of_ne maker at_p)
  · intro q dying
    have at_p : q ≠ p := by
      rintro rfl
      exact waiting dying
    rw [MQData.buf_put_other at_p]
    exact good.dying q (Finset.mem_insert_of_mem dying)
  · exact iff_of_true (.inl Nat.one_pos) (.inr (Finset.mem_insert_self _ _))
  · exact fun q other => by rw [Finset.mem_insert, or_iff_right other]

theorem Good.popped (good : Good s held outer limbo) {power : SizeClass} {rest : List Ptr}
    (popped : (s.msgBufs power).free = p :: rest) :
    Good (s.setClass power ⟨(s.msgBufs power).alloc, (s.msgBufs power).used + 1, rest⟩) held outer (insert p limbo) ∧
      p ∉ limbo := by
  obtain ⟨nodup, mem_free⟩ := good.free power
  rw [popped] at nodup mem_free
  obtain ⟨inside, of_class, none_left, waiting⟩ := (mem_free p).mp List.mem_cons_self
  refine ⟨⟨good.made, good.inside, good.refs, good.reals, good.making, ?_, fun k => ?_, fun k => ?_, fun k => ?_,
    good.total⟩, waiting⟩
  · intro q dying
    by_cases at_p : q = p
    · exact at_p ▸ ⟨inside, none_left⟩
    · exact good.dying q (Finset.mem_of_mem_insert_of_ne dying at_p)
  · rw [MQData.msgBufs_setClass]
    split <;> rename_i here
    · subst here
      refine ⟨(List.nodup_cons.mp nodup).2, fun q => ?_⟩
      by_cases at_p : q = p
      · subst at_p
        exact iff_of_false (List.nodup_cons.mp nodup).1 fun free => free.2.2.2 (Finset.mem_insert_self _ _)
      · have there : q ∈ rest ↔ q ∈ p :: rest := by rw [List.mem_cons, or_iff_right at_p]
        rw [there, mem_free, Finset.mem_insert, or_iff_right at_p]
        rfl
    · refine ⟨(good.free k).1, fun q => ?_⟩
      rw [(good.free k).2 q]
      refine and_congr_right fun _ => and_congr_right fun of_k => and_congr_right fun _ => not_congr ?_
      rw [Finset.mem_insert, or_iff_right]
      rintro rfl
      exact here (of_k.symm.trans of_class)
  · have change : s.bufs.count (inUse (insert p limbo) k) + Blocks.unit (inUse limbo k) p (s.buf p) =
        s.bufs.count (inUse limbo k) + Blocks.unit (inUse (insert p limbo) k) p (s.buf p) :=
      Blocks.count_change _ _ rfl inside fun q other _ =>
        decide_eq_decide.mpr (and_congr_right fun _ => or_congr_right (by rw [Finset.mem_insert, or_iff_right other]))
    have before : inUse limbo k p (s.buf p) = false := by simp [inUse, none_left, waiting]
    have after : inUse (insert p limbo) k p (s.buf p) = decide (k = power) := by simp [inUse, of_class, eq_comm]
    rw [Blocks.unit, before, Blocks.unit, after, ← good.used k] at change
    rw [MQData.msgBufs_setClass]
    split <;> rename_i here
    · subst here
      rw [decide_eq_true rfl] at change
      exact change.symm
    · rw [decide_eq_false here] at change
      exact change.symm
  · rw [MQData.msgBufs_setClass]
    split <;> rename_i here
    · exact here ▸ good.alloc k
    · exact good.alloc k

def newBuf (s : MQData) (power : SizeClass) (p : Ptr) : MQData :=
  { s.setClass power ⟨(s.msgBufs power).alloc + 1, (s.msgBufs power).used + 1, (s.msgBufs power).free⟩ with
    bufs := s.bufs.allocate p { power }
    totBufsize := s.totBufsize + bufsize power }

theorem buf_newBuf_other (power : SizeClass) (other : q ≠ p) : (newBuf s power p).buf q = s.buf q :=
  Blocks.mem_allocate_other _ _ other

@[simp] theorem buf_newBuf (s : MQData) (power : SizeClass) (p : Ptr) : (newBuf s power p).buf p = { power } :=
  Blocks.mem_allocate _ _ _

theorem Good.allocated (good : Good s held outer limbo) (power : SizeClass) (fresh : p ∉ s.bufs.live) :
    Good (newBuf s power p) held outer (insert p limbo) ∧ p ∉ limbo := by
  obtain ⟨no_maker, no_outer, no_alias⟩ := good.outside fresh
  have other : ∀ q ∈ s.bufs.live, q ≠ p := fun q live same => fresh (same ▸ live)
  have aliases : ∀ r, (newBuf s power p).aliases r = s.aliases r := by
    intro r
    have change : (newBuf s power p).aliases r = s.aliases r + Blocks.unit (isAlias r) p { power } :=
      Blocks.count_allocate _ _ _ fresh
    exact change
  have live_new : (newBuf s power p).bufs.live = insert p s.bufs.live := rfl
  have class_of : ∀ k, (newBuf s power p).msgBufs k =
      if k = power then ⟨(s.msgBufs k).alloc + 1, (s.msgBufs k).used + 1, (s.msgBufs k).free⟩ else s.msgBufs k := by
    intro k
    change (s.setClass power _).msgBufs k = _
    rw [MQData.msgBufs_setClass]
    split <;> rename_i here
    · rw [here]
    · rfl
  refine ⟨⟨good.made.trans (Finset.subset_insert _ _), fun q pointed => Finset.mem_insert_of_mem (good.inside q pointed),
    ?_, ?_, ?_, ?_, fun k => ?_, fun k => ?_, fun k => ?_, ?_⟩, fun dying => fresh (good.dying p dying).1⟩
  · intro q live
    rw [aliases]
    by_cases at_p : q = p
    · subst at_p
      rw [buf_newBuf, if_neg no_maker, no_outer, no_alias]
    · rw [buf_newBuf_other power at_p]
      exact good.refs q (Finset.mem_of_mem_insert_of_ne live at_p)
  · intro q live used r real
    by_cases at_p : q = p
    · subst at_p
      rw [buf_newBuf] at used
      exact absurd used (Nat.lt_irrefl _)
    · rw [buf_newBuf_other power at_p] at used real
      exact Finset.mem_insert_of_mem (good.reals q (Finset.mem_of_mem_insert_of_ne live at_p) used r real)
  · intro q maker
    rw [aliases, buf_newBuf_other power (other q (good.made maker))]
    exact good.making q maker
  · intro q dying
    by_cases at_p : q = p
    · subst at_p
      exact ⟨Finset.mem_insert_self _ _, by rw [buf_newBuf]⟩
    · rw [buf_newBuf_other power at_p]
      obtain ⟨live, none_left⟩ := good.dying q (Finset.mem_of_mem_insert_of_ne dying at_p)
      exact ⟨Finset.mem_insert_of_mem live, none_left⟩
  · have free_same : ((newBuf s power p).msgBufs k).free = (s.msgBufs k).free := by
      rw [class_of]
      split <;> rfl
    rw [free_same]
    refine ⟨(good.free k).1, fun q => ?_⟩
    rw [(good.free k).2 q, live_new]
    by_cases at_p : q = p
    · subst at_p
      exact iff_of_false (fun free => fresh free.1) fun free => free.2.2.2 (Finset.mem_insert_self _ _)
    · rw [buf_newBuf_other power at_p, Finset.mem_insert, or_iff_right at_p, Finset.mem_insert, or_iff_right at_p]
  · have change : (newBuf s power p).bufs.count (inUse (insert p limbo) k) =
        s.bufs.count (inUse (insert p limbo) k) + Blocks.unit (inUse (insert p limbo) k) p { power } :=
      Blocks.count_allocate _ _ _ fresh
    have before : s.bufs.count (inUse (insert p limbo) k) = s.bufs.count (inUse limbo k) :=
      Blocks.count_congr rfl fun q live => decide_eq_decide.mpr (and_congr_right fun _ => or_congr_right
        (by rw [Finset.mem_insert, or_iff_right (other q live)]))
    have here : inUse (insert p limbo) k p { power } = decide (k = power) := by simp [inUse, eq_comm]
    rw [change, before, ← good.used k, Blocks.unit, here, class_of]
    split <;> rename_i same
    · rw [decide_eq_true same]
      rfl
    · rw [decide_eq_false same]
      rfl
  · have change : (newBuf s power p).bufs.count (isOf k) = s.bufs.count (isOf k) + Blocks.unit (isOf k) p { power } :=
      Blocks.count_allocate _ _ _ fresh
    have here : isOf k p { power } = decide (k = power) := by simp [isOf, eq_comm]
    rw [change, ← good.alloc k, Blocks.unit, here, class_of]
    split <;> rename_i same
    · rw [decide_eq_true same]
      rfl
    · rw [decide_eq_false same]
      rfl
  · have change : (newBuf s power p).bufs.sum (fun _ b => bufsize b.power) =
        s.bufs.sum (fun _ b => bufsize b.power) + bufsize power := Blocks.sum_allocate _ _ _ fresh
    rw [change, ← good.total]
    rfl

def releaseBuf (s : MQData) (power : SizeClass) (p : Ptr) (rest : List Ptr) : MQData :=
  { s.setClass power { s.msgBufs power with alloc := (s.msgBufs power).alloc - 1, free := rest } with
    bufs := s.bufs.release p
    totBufsize := s.totBufsize - bufsize power }

theorem Good.released (good : Good s held outer limbo) {power : SizeClass} {rest : List Ptr}
    (first : (s.msgBufs power).free = p :: rest) : Good (releaseBuf s power p rest) held outer limbo := by
  obtain ⟨nodup, mem_free⟩ := good.free power
  rw [first] at nodup mem_free
  obtain ⟨inside, of_class, none_left, waiting⟩ := (mem_free p).mp List.mem_cons_self
  obtain ⟨no_maker, no_outer, no_alias⟩ := good.unowned inside none_left
  have buf_same : ∀ q, (releaseBuf s power p rest).buf q = s.buf q := fun _ => rfl
  have live_new : (releaseBuf s power p rest).bufs.live = s.bufs.live.erase p := rfl
  have aliases : ∀ r, (releaseBuf s power p rest).aliases r = s.aliases r := by
    intro r
    have change : (releaseBuf s power p rest).aliases r + Blocks.unit (isAlias r) p (s.buf p) = s.aliases r :=
      Blocks.count_release _ _ inside
    have here : isAlias r p (s.buf p) = false := by simp [isAlias, none_left]
    rw [Blocks.unit, here] at change
    exact change
  have class_of : ∀ k, (releaseBuf s power p rest).msgBufs k =
      if k = power then ⟨(s.msgBufs k).alloc - 1, (s.msgBufs k).used, rest⟩ else s.msgBufs k := by
    intro k
    change (s.setClass power _).msgBufs k = _
    rw [MQData.msgBufs_setClass]
    split <;> rename_i here
    · rw [here]
    · rfl
  refine ⟨?_, ?_, ?_, ?_, ?_, ?_, fun k => ?_, fun k => ?_, fun k => ?_, ?_⟩
  · exact fun q maker => Finset.mem_erase.mpr ⟨fun same => no_maker (same ▸ maker), good.made maker⟩
  · exact fun q pointed => Finset.mem_erase.mpr ⟨fun same => pointed (same ▸ no_outer), good.inside q pointed⟩
  · intro q live
    rw [aliases, buf_same]
    exact good.refs q (Finset.mem_of_mem_erase live)
  · intro q live used r real
    rw [buf_same] at used real
    have live' := Finset.mem_of_mem_erase live
    refine Finset.mem_erase.mpr ⟨?_, good.reals q live' used r real⟩
    -- The buffer freed is behind none.
    rintro rfl
    have pointing : isAlias r q (s.buf q) = true := decide_eq_true ⟨used, real, Finset.ne_of_mem_erase live⟩
    exact absurd no_alias (Nat.pos_iff_ne_zero.mp (Blocks.count_pos live' pointing))
  · intro q maker
    rw [aliases, buf_same]
    exact good.making q maker
  · intro q dying
    rw [buf_same]
    obtain ⟨live, none_left⟩ := good.dying q dying
    exact ⟨Finset.mem_erase.mpr ⟨fun same => waiting (same ▸ dying), live⟩, none_left⟩
  · rw [class_of, live_new]
    split <;> rename_i here
    · subst here
      refine ⟨(List.nodup_cons.mp nodup).2, fun q => ?_⟩
      by_cases at_p : q = p
      · subst at_p
        exact iff_of_false (List.nodup_cons.mp nodup).1 fun free => Finset.notMem_erase _ _ free.1
      · have there : q ∈ rest ↔ q ∈ p :: rest := by rw [List.mem_cons, or_iff_right at_p]
        rw [there, mem_free, Finset.mem_erase, and_iff_right at_p, buf_same]
    · refine ⟨(good.free k).1, fun q => ?_⟩
      rw [(good.free k).2 q, Finset.mem_erase, buf_same]
      by_cases at_p : q = p
      · subst at_p
        exact iff_of_false (fun free => here (free.2.1.symm.trans of_class)) fun free => free.1.1 rfl
      · rw [and_iff_right at_p]
  · have change : (releaseBuf s power p rest).bufs.count (inUse limbo k) + Blocks.unit (inUse limbo k) p (s.buf p) =
        s.bufs.count (inUse limbo k) := Blocks.count_release _ _ inside
    have here : inUse limbo k p (s.buf p) = false := by simp [inUse, none_left, waiting]
    rw [Blocks.unit, here, ← good.used k] at change
    have used_same : ((releaseBuf s power p rest).msgBufs k).used = (s.msgBufs k).used := by
      rw [class_of]
      split <;> rfl
    rw [used_same]
    exact change.symm
  · have change : (releaseBuf s power p rest).bufs.count (isOf k) + Blocks.unit (isOf k) p (s.buf p) =
        s.bufs.count (isOf k) := Blocks.count_release _ _ inside
    have here : isOf k p (s.buf p) = decide (k = power) := by simp [isOf, of_class, eq_comm]
    rw [Blocks.unit, here, ← good.alloc k] at change
    rw [class_of]
    split <;> rename_i same
    · rw [decide_eq_true same] at change
      exact Nat.sub_eq_of_eq_add change.symm
    · rw [decide_eq_false same] at change
      exact change.symm
  · have change : (releaseBuf s power p rest).bufs.sum (fun _ b => bufsize b.power) + bufsize (s.buf p).power =
        s.bufs.sum fun _ b => bufsize b.power := Blocks.sum_release _ _ inside
    rw [of_class, ← good.total] at change
    exact Nat.sub_eq_of_eq_add change.symm

end

end Ircd.Buffers.Pool

import Ircd.Buffers.PoolRefs

/-! Runs of `msgq.c`: every reference count is the number of those that point at the buffer,
and the lists and counters say what there is. -/

set_option autoImplicit false

namespace Ircd.Buffers.Pool

open Library

section
variable {s s' : MQData} {held limbo : Finset Ptr} {outer : Ptr → Nat} {mb : Ptr}

theorem Good.setMsg (good : Good s held outer limbo) (inside : mb ∈ s.bufs.live) (msg : List Byte) :
    Good (s.put mb { s.buf mb with msg }) held outer limbo := by
  have same : ∀ q, ((s.put mb { s.buf mb with msg }).buf q).ref = (s.buf q).ref ∧
      ((s.put mb { s.buf mb with msg }).buf q).real = (s.buf q).real := by
    intro q
    by_cases at_mb : q = mb
    · subst at_mb
      rw [MQData.buf_put]
      exact ⟨rfl, rfl⟩
    · rw [MQData.buf_put_other at_mb]
      exact ⟨rfl, rfl⟩
  have aliases : ∀ r, (s.put mb { s.buf mb with msg }).aliases r = s.aliases r := fun r =>
    MQData.aliases_put_same inside r rfl
  refine good.put inside { s.buf mb with msg } rfl good.made good.inside ?_ ?_ ?_ ?_ (Iff.refl _) fun _ _ => Iff.rfl
  · intro q live
    rw [aliases, (same q).1]
    exact good.refs q live
  · exact fun r real used => good.reals mb inside used r real
  · intro q maker
    rw [aliases, (same q).2]
    exact good.making q maker
  · intro q dying
    rw [(same q).1]
    exact good.dying q dying

/-- A buffer that `takeBuf` gives was in nobody's use. -/
structure Taken (s s' : MQData) (held : Finset Ptr) (outer : Ptr → Nat) (limbo : Finset Ptr) (power : SizeClass)
    (mb : Ptr) : Prop where
  good : Good s' (insert mb held) outer limbo
  spare : mb ∉ held
  unattached : (s'.buf mb).real = none
  others : ∀ q, q ≠ mb → s'.buf q = s.buf q

variable {memory : Memory}

theorem Good.taken (good : Good s held outer limbo) (fresh : memory.fresh ∉ s.bufs.live) {power : SizeClass}
    (taken : takeBuf s memory power = some (s', mb)) :
    Taken s (useBuf s' power mb) held outer limbo power mb := by
  unfold takeBuf at taken
  split at taken
  · rename_i p rest popped
    obtain ⟨rfl, rfl⟩ := Prod.mk.inj (Option.some.inj taken)
    obtain ⟨waits, waiting⟩ := good.popped popped
    have spare := (waits.unowned (waits.dying p (Finset.mem_insert_self _ _)).1
      (waits.dying p (Finset.mem_insert_self _ _)).2).1
    refine ⟨(waits.revive waiting).of_eq rfl ?_ rfl, spare, ?_, fun q other => ?_⟩
    · rw [useBuf, MQData.msgBufs_put, MQData.msgBufs_setClass_twice, MQData.msgBufs_setClass_self]
      rfl
    · rw [useBuf, MQData.buf_put]
    · exact MQData.buf_put_other other
  · rename_i empty
    split at taken
    · obtain ⟨rfl, rfl⟩ := Prod.mk.inj (Option.some.inj taken)
      obtain ⟨waits, waiting⟩ := good.allocated power fresh
      refine ⟨(waits.revive waiting).of_eq rfl ?_ rfl, (good.outside fresh).1, ?_, fun q other => ?_⟩
      · rw [useBuf, MQData.msgBufs_put, MQData.msgBufs_setClass_twice, MQData.msgBufs_setClass_self]
        rfl
      · rw [useBuf, MQData.buf_put]
      · exact (MQData.buf_put_other other).trans (Blocks.mem_allocate_other _ _ other)
    · cases taken

theorem Good.make (good : Good s held outer limbo) (fresh : memory.fresh ∉ s.bufs.live) {text : List Byte}
    (made : msgqMake s memory text = some (s', mb)) : Good s' (insert mb held) outer limbo := by
  unfold msgqMake msgqAlloc at made
  simp only at made
  cases taken : takeBuf s memory (sizeClass 512) with
  | none =>
    rw [taken] at made
    cases made
  | some r =>
    rw [taken] at made
    obtain ⟨rfl, rfl⟩ := Prod.mk.inj (Option.some.inj made)
    have used := good.taken fresh taken
    exact (used.good.setMsg (used.good.made (Finset.mem_insert_self _ _)) _).of_eq rfl rfl rfl

theorem Good.append (good : Good s held outer limbo) (maker : mb ∈ held) (text : List Byte) :
    Good (msgqAppend s mb text) held outer limbo :=
  good.setMsg (good.made maker) _

theorem Good.real_ready (good : Good s held outer limbo) (maker : mb ∈ held) {r : Ptr} (real : (s.buf mb).real = some r) :
    r ∈ s.bufs.live ∧ 0 < (s.buf r).ref ∧ (r ∈ held → (s.buf r).real ≠ none) := by
  have inside := good.made maker
  have used := good.ref_pos inside (.inl maker)
  by_cases same : r = mb
  · subst same
    exact ⟨inside, used, fun _ none => by rw [none] at real; cases real⟩
  · have live := good.reals mb inside used r real
    have pointing : isAlias r mb (s.buf mb) = true := decide_eq_true ⟨used, real, Ne.symm same⟩
    have some_alias := Nat.pos_iff_ne_zero.mp (Blocks.count_pos inside pointing)
    exact ⟨live, good.ref_pos live (.inr (.inr some_alias)), fun maker' => absurd (good.making r maker').1 some_alias⟩

/-- `msgq_alloc` for a message: there is a buffer behind it now, itself where none fits better. -/
theorem Good.alloc_in (good : Good s held outer limbo) (fresh : memory.fresh ∉ s.bufs.live) (maker : mb ∈ held)
    (unattached : (s.buf mb).real = none) (length : Nat) :
    ∃ s' tmp, msgqAlloc s memory (some mb) length = (s', some tmp) ∧ Good s' held outer limbo ∧
      (s'.buf mb).real = some tmp := by
  have itself := good.self maker unattached
  unfold msgqAlloc
  simp only
  by_cases fits : (s.buf mb).power = sizeClass length
  · rw [if_pos fits]
    exact ⟨_, mb, rfl, itself, by rw [MQData.buf_put]⟩
  · rw [if_neg fits]
    cases taken : takeBuf s memory (sizeClass length) with
    | none => exact ⟨_, mb, rfl, itself, by rw [MQData.buf_put]⟩
    | some r =>
      obtain ⟨s', tmp⟩ := r
      have used := good.taken fresh taken
      have other : tmp ≠ mb := by
        rintro rfl
        exact used.spare maker
      have same := used.others mb other.symm
      have attached := used.good.attached other used.spare maker (by rw [same]; exact unattached)
      exact ⟨_, tmp, rfl, attached, by rw [MQData.buf_put]⟩

theorem Good.attach (good : Good s held outer limbo) (fresh : memory.fresh ∉ s.bufs.live) (maker : mb ∈ held) :
    Good (attach s memory mb) held outer limbo ∧ ∃ r, ((Pool.attach s memory mb).buf mb).real = some r := by
  unfold Pool.attach
  split
  · rename_i r real
    exact ⟨good, r, real⟩
  · rename_i unattached
    obtain ⟨s', tmp, result, good', real⟩ := good.alloc_in fresh maker unattached (s.buf mb).msg.length
    simp only [result]
    split
    · exact ⟨good', tmp, real⟩
    · rename_i other
      have copied := good'.setMsg (good'.real_ready maker real).1 (s'.buf mb).msg
      refine ⟨copied.of_eq rfl rfl rfl, tmp, ?_⟩
      rw [← real]
      exact congrArg MsgBuf.real (MQData.buf_put_other (Ne.symm other))

def MsgQ.entries (mq : MsgQ) (p : Ptr) : Nat :=
  mq.queue.countP (fun m => p = m.msg) + mq.prio.countP (fun m => p = m.msg)

theorem MsgQ.entries_list (mq : MsgQ) (prio : Bool) (p : Ptr) :
    mq.entries p = (mq.list prio).countP (fun m => p = m.msg) + (mq.list !prio).countP (fun m => p = m.msg) := by
  cases prio with
  | false => rfl
  | true => exact Nat.add_comm _ _

theorem MsgQ.entries_replace (mq : MsgQ) (prio : Bool) (l : List Msg) (length count : UInt32) (p : Ptr) :
    (mq.replace prio l length count).entries p =
      l.countP (fun m => p = m.msg) + (mq.list !prio).countP (fun m => p = m.msg) := by
  rw [MsgQ.entries_list _ prio, MsgQ.list_replace, MsgQ.list_replace_not]

def withQueue (others : Ptr → Nat) (mq : MsgQ) : Ptr → Nat := fun p => others p + mq.entries p

variable {others : Ptr → Nat} {mq : MsgQ}

theorem Good.add (good : Good s held (withQueue others mq) limbo) (fresh : memory.fresh ∉ s.bufs.live)
    (maker : mb ∈ held) (prio : Bool) :
    Good (msgqAdd s mq memory mb prio).1 held (withQueue others (msgqAdd s mq memory mb prio).2) limbo := by
  have started : Good (useMsg s) held (withQueue others mq) limbo := good.of_eq rfl rfl rfl
  obtain ⟨attached, r, real⟩ := started.attach fresh maker
  obtain ⟨live, used, ready⟩ := attached.real_ready maker real
  have added := attached.addRef live used ready
  have same : plus (withQueue others mq) r = withQueue others (msgqAdd s mq memory mb prio).2 := by
    funext p
    unfold msgqAdd
    simp only [real, Option.getD_some]
    rw [plus, withQueue, withQueue, MsgQ.entries_replace, MsgQ.entries_list mq prio, List.countP_append]
    simp only [List.countP_singleton, decide_eq_true_eq]
    omega
  rw [← same]
  unfold msgqAdd
  simp only [real, Option.getD_some]
  exact added

theorem dropRef_msgs (s : MQData) (p : Ptr) : (dropRef s p).msgs = s.msgs := by
  unfold dropRef
  simp only
  split <;> rfl

theorem msgqClean_msgs (s : MQData) (p : Ptr) : (msgqClean s p).msgs = s.msgs := by
  induction measure : s.refs using Nat.strongRecOn generalizing s p with
  | _ n ih =>
  rw [msgqClean]
  split
  · rename_i asserted
    split
    · split
      · rename_i r _
        split
        · exact dropRef_msgs s p
        · exact (ih _ (measure ▸ dropRef_refs asserted.1 asserted.2) _ r rfl).trans (dropRef_msgs s p)
      · exact dropRef_msgs s p
    · exact dropRef_msgs s p
  · rfl

theorem Good.delmsg (good : Good s held (withQueue others mq) limbo) {prio : Bool} (next : nextList mq = some prio)
    (length : Nat) : Good (msgqDelmsg s mq prio length).1 held (withQueue others (msgqDelmsg s mq prio length).2.1) limbo := by
  obtain ⟨m, rest, shape⟩ := nextList_some next
  unfold msgqDelmsg
  simp only [shape]
  split
  · have fewer : withQueue others mq = plus (withQueue others (mq.replace prio rest
        (mq.length - UInt32.ofNat ((s.buf m.msg).msg.length - m.sent)) (mq.count - 1))) m.msg := by
      funext p
      rw [plus, withQueue, withQueue, MsgQ.entries_replace, MsgQ.entries_list mq prio, shape, List.countP_cons]
      simp only [decide_eq_true_eq]
      omega
    rw [fewer] at good
    exact good.clean.of_eq rfl rfl rfl
  · have same : withQueue others mq = withQueue others (mq.replace prio (⟨m.msg, m.sent + length⟩ :: rest)
        (mq.length - UInt32.ofNat length) mq.count) := by
      funext p
      rw [withQueue, withQueue, MsgQ.entries_replace, MsgQ.entries_list mq prio, shape, List.countP_cons, List.countP_cons]
    rw [same] at good
    exact good

theorem Good.delete (good : Good s held (withQueue others mq) limbo) (length : Nat) :
    Good (msgqDelete s mq length).1 held (withQueue others (msgqDelete s mq length).2) limbo := by
  induction measure : mq.messages + length using Nat.strongRecOn generalizing s mq length with
  | _ n ih =>
  rw [msgqDelete]
  split
  · exact good
  · rename_i some_length
    split
    · exact good
    · rename_i prio next
      exact ih _ (measure ▸ msgqDelmsg_progress s some_length next) (good.delmsg next length) _ rfl

theorem Good.clearFree (good : Good s held outer limbo) {power : SizeClass} {free : List Ptr}
    (all : (s.msgBufs power).free = free) : Good (clearFree s power free) held outer limbo := by
  induction free generalizing s with
  | nil => exact good
  | cons p rest ih => exact ih (good.released all) (by
      change ((s.setClass power _).msgBufs power).free = rest
      rw [MQData.msgBufs_setClass_self])

theorem Good.clearFreembs (good : Good s held outer limbo) : Good (msgqClearFreembs s) held outer limbo := by
  unfold msgqClearFreembs
  generalize List.finRange 5 = classes
  induction classes generalizing s with
  | nil => exact good
  | cons power classes ih => exact ih (good.clearFree rfl)

/-- As many are in use as there are messages, and the others are free. -/
def Msgs.Right (m : Msgs) (total : Nat) : Prop := m.used = total ∧ m.alloc = m.used + m.free

theorem takeBuf_msgs {power : SizeClass} (taken : takeBuf s memory power = some (s', mb)) :
    s'.msgs = s.msgs := by
  unfold takeBuf at taken
  split at taken
  · obtain ⟨rfl, -⟩ := Prod.mk.inj (Option.some.inj taken)
    rfl
  · split at taken
    · obtain ⟨rfl, -⟩ := Prod.mk.inj (Option.some.inj taken)
      rfl
    · cases taken

theorem msgqMake_msgs {text : List Byte} (made : msgqMake s memory text = some (s', mb)) :
    s'.msgs = s.msgs := by
  unfold msgqMake msgqAlloc at made
  simp only at made
  cases taken : takeBuf s memory (sizeClass 512) with
  | none =>
    rw [taken] at made
    cases made
  | some r =>
    rw [taken] at made
    obtain ⟨rfl, rfl⟩ := Prod.mk.inj (Option.some.inj made)
    have same : r.1.msgs = s.msgs := takeBuf_msgs taken
    exact same

theorem clearFreembs_msgs (s : MQData) : (msgqClearFreembs s).msgs = s.msgs := by
  have one : ∀ (power : SizeClass) (free : List Ptr) (s : MQData), (clearFree s power free).msgs = s.msgs := by
    intro power free
    induction free with
    | nil => exact fun _ => rfl
    | cons p rest ih => exact fun s => ih _
  unfold msgqClearFreembs
  generalize List.finRange 5 = classes
  induction classes generalizing s with
  | nil => rfl
  | cons power classes ih => exact (ih _).trans (one power _ s)

theorem attach_msgs (s : MQData) (memory : Memory) (mb : Ptr) : (attach s memory mb).msgs = s.msgs := by
  have allocated : (msgqAlloc s memory (some mb) (s.buf mb).msg.length).1.msgs = s.msgs := by
    unfold msgqAlloc
    simp only
    split
    · rfl
    · cases result : takeBuf s memory (sizeClass (s.buf mb).msg.length) with
      | none => rfl
      | some r =>
        have same : r.1.msgs = s.msgs := takeBuf_msgs result
        exact same
  unfold attach
  split
  · rfl
  · split <;> rename_i result
    · rw [result] at allocated
      split <;> exact allocated
    · rw [result] at allocated
      exact allocated

theorem Msgs.Right.add {total : Nat} (right : s.msgs.Right total) (mq : MsgQ) (memory : Memory) (mb : Ptr) (prio : Bool) :
    (msgqAdd s mq memory mb prio).1.msgs.Right (total + 1) := by
  have same : (msgqAdd s mq memory mb prio).1.msgs = (useMsg s).msgs := attach_msgs (useMsg s) memory mb
  obtain ⟨used, alloc⟩ := right
  rw [same, useMsg]
  simp only
  split
  · exact ⟨by rw [used], by simp only; omega⟩
  · exact ⟨by rw [used], by simp only; omega⟩

theorem messages_add (mq : MsgQ) (memory : Memory) (mb : Ptr) (prio : Bool) :
    (msgqAdd s mq memory mb prio).2.messages = mq.messages + 1 := by
  unfold msgqAdd
  simp only
  rw [MsgQ.messages_list _ prio, MsgQ.list_replace, MsgQ.list_replace_not, MsgQ.messages_list mq prio, List.length_append,
    List.length_singleton]
  omega

theorem Msgs.Right.delmsg {rest : Nat} (right : s.msgs.Right (rest + mq.messages)) {prio : Bool}
    (next : nextList mq = some prio) (length : Nat) :
    (msgqDelmsg s mq prio length).1.msgs.Right (rest + (msgqDelmsg s mq prio length).2.1.messages) := by
  obtain ⟨m, l, shape⟩ := nextList_some next
  obtain ⟨used, alloc⟩ := right
  rw [MsgQ.messages_list mq prio, shape, List.length_cons] at used
  unfold msgqDelmsg
  simp only [shape]
  split
  · rw [MsgQ.messages_list _ prio, MsgQ.list_replace, MsgQ.list_replace_not, Msgs.Right, msgqClean_msgs]
    simp only
    omega
  · rw [MsgQ.messages_list _ prio, MsgQ.list_replace, MsgQ.list_replace_not, List.length_cons]
    exact ⟨used, alloc⟩

theorem Msgs.Right.delete {rest : Nat} (right : s.msgs.Right (rest + mq.messages)) (length : Nat) :
    (msgqDelete s mq length).1.msgs.Right (rest + (msgqDelete s mq length).2.messages) := by
  induction measure : mq.messages + length using Nat.strongRecOn generalizing s mq length with
  | _ n ih =>
  rw [msgqDelete]
  split
  · exact right
  · rename_i some_length
    split
    · exact right
    · rename_i prio next
      exact ih _ (measure ▸ msgqDelmsg_progress s some_length next) (right.delmsg next length) _ rfl

end

section
variable {Conn : Type} [DecidableEq Conn] {σ : System Conn}

theorem setQueue_self (σ : System Conn) (conn : Conn) : σ.setQueue conn (σ.data, σ.queues conn) = σ := by
  unfold System.setQueue
  rw [Function.update_eq_self]

variable [Fintype Conn]

def System.entries (σ : System Conn) (p : Ptr) : Nat := ∑ conn, (σ.queues conn).entries p

def System.messages (σ : System Conn) : Nat := ∑ conn, (σ.queues conn).messages

/-- The references of a buffer are its maker's, those of the queues and those of the buffers it
is behind; the free list of a size has the buffers of that size without references once each,
and no others; the counters are the numbers of buffers, of bytes and of messages that there are. -/
structure Accounted (σ : System Conn) : Prop where
  refs : ∀ p ∈ σ.data.bufs.live,
    (σ.data.buf p).ref = (if p ∈ σ.held then 1 else 0) + σ.entries p + σ.data.aliases p
  pointed : ∀ p, p ∈ σ.held ∨ σ.entries p ≠ 0 ∨ σ.data.aliases p ≠ 0 → p ∈ σ.data.bufs.live
  free : ∀ power p, (σ.data.msgBufs power).free.count p =
    if p ∈ σ.data.bufs.live ∧ (σ.data.buf p).power = power ∧ (σ.data.buf p).ref = 0 then 1 else 0
  used : ∀ power, (σ.data.msgBufs power).used =
    (σ.data.bufs.live.filter fun p => (σ.data.buf p).power = power ∧ 0 < (σ.data.buf p).ref).card
  alloc : ∀ power, (σ.data.msgBufs power).alloc =
    (σ.data.bufs.live.filter fun p => (σ.data.buf p).power = power).card
  total : σ.data.totBufsize = ∑ p ∈ σ.data.bufs.live, bufsize (σ.data.buf p).power
  msgs : σ.data.msgs.used = σ.messages ∧ σ.data.msgs.alloc = σ.messages + σ.data.msgs.free

theorem sum_queue (part : MsgQ → Nat) (queues : Conn → MsgQ) (conn : Conn) (mq : MsgQ) :
    ∑ c, part (Function.update queues conn mq c) = (∑ c ∈ Finset.univ.erase conn, part (queues c)) + part mq := by
  have others : ∑ c ∈ Finset.univ.erase conn, part (Function.update queues conn mq c) =
      ∑ c ∈ Finset.univ.erase conn, part (queues c) :=
    Finset.sum_congr rfl fun c mem => by rw [Function.update_of_ne (Finset.ne_of_mem_erase mem)]
  rw [← Finset.sum_erase_add _ _ (Finset.mem_univ conn), others, Function.update_self]

theorem entries_setQueue (σ : System Conn) (conn : Conn) (r : MQData × MsgQ) :
    (σ.setQueue conn r).entries =
      withQueue (fun p => ∑ c ∈ Finset.univ.erase conn, (σ.queues c).entries p) r.2 := by
  funext p
  exact sum_queue (fun mq => mq.entries p) σ.queues conn r.2

theorem messages_setQueue (σ : System Conn) (conn : Conn) (r : MQData × MsgQ) :
    (σ.setQueue conn r).messages = (∑ c ∈ Finset.univ.erase conn, (σ.queues c).messages) + r.2.messages :=
  sum_queue MsgQ.messages σ.queues conn r.2

structure Inv (σ : System Conn) : Prop where
  good : Good σ.data σ.held σ.entries ∅
  msgs : σ.data.msgs.Right σ.messages

theorem Inv.onQueue (inv : Inv σ) (conn : Conn) {r : MQData × MsgQ}
    (good : ∀ others, Good σ.data σ.held (withQueue others (σ.queues conn)) ∅ → Good r.1 σ.held (withQueue others r.2) ∅)
    (msgs : ∀ rest, σ.data.msgs.Right (rest + (σ.queues conn).messages) → r.1.msgs.Right (rest + r.2.messages)) :
    Inv (σ.setQueue conn r) := by
  have before := inv.good
  have before_msgs := inv.msgs
  rw [← setQueue_self σ conn] at before before_msgs
  rw [entries_setQueue] at before
  rw [messages_setQueue] at before_msgs
  refine ⟨?_, ?_⟩
  · rw [entries_setQueue]
    exact good _ before
  · rw [messages_setQueue]
    exact msgs _ before_msgs

theorem Inv.call (inv : Inv σ) (c : Call Conn) (allowed : σ.Allowed c) : Inv (σ.call c) := by
  cases c with
  | make memory text =>
    rw [System.call]
    split
    · rename_i s mb made
      exact ⟨inv.good.make allowed made, (msgqMake_msgs made).symm ▸ inv.msgs⟩
    · exact inv
  | append mb text => exact ⟨inv.good.append allowed.1 text, inv.msgs⟩
  | add conn memory mb prio =>
    refine inv.onQueue conn (fun others good => good.add allowed.2 allowed.1 prio) fun rest right => ?_
    rw [messages_add]
    exact right.add _ memory mb prio
  | clean mb =>
    exact ⟨(inv.good.unhold allowed).clean, (msgqClean_msgs σ.data mb).symm ▸ inv.msgs⟩
  | delete conn length =>
    exact inv.onQueue conn (fun others good => good.delete _) fun rest right => right.delete _
  | clear conn =>
    exact inv.onQueue conn (fun others good => good.delete _) fun rest right => right.delete _
  | clearFreembs => exact ⟨inv.good.clearFreembs, (clearFreembs_msgs σ.data).symm ▸ inv.msgs⟩

omit [DecidableEq Conn] in
theorem inv_init : Inv ({} : System Conn) := by
  have empty : ({} : System Conn).entries = fun _ => 0 := funext fun p => Finset.sum_eq_zero fun _ _ => rfl
  refine ⟨⟨Finset.empty_subset _, ?_, ?_, ?_, ?_, ?_, fun power => ⟨List.nodup_nil, fun p => ?_⟩, fun _ => rfl, fun _ => rfl,
    rfl⟩, (Finset.sum_eq_zero fun _ _ => rfl).symm, rfl⟩
  · exact fun p pointed => absurd (congrFun empty p) pointed
  · exact fun p mem => absurd mem (Finset.notMem_empty p)
  · exact fun p mem => absurd mem (Finset.notMem_empty p)
  · exact fun p mem => absurd mem (Finset.notMem_empty p)
  · exact fun p mem => absurd mem (Finset.notMem_empty p)
  · exact iff_of_false List.not_mem_nil fun free => Finset.notMem_empty p free.1

theorem Run.inv (run : Run σ) : Inv σ := by
  induction run with
  | init => exact inv_init
  | call c _ allowed inv => exact inv.call c allowed

/-- In every run the counts, the free lists and the counters are right. -/
theorem run_accounted (run : Run σ) : Accounted σ := by
  obtain ⟨good, msgs⟩ := run.inv
  refine ⟨good.refs, fun p some_ref => ?_, fun power p => ?_, fun power => ?_, fun power => ?_, good.total, ?_⟩
  · by_contra outside
    obtain ⟨no_maker, no_entry, no_alias⟩ := good.outside outside
    rcases some_ref with maker | entry | pointing
    · exact no_maker maker
    · exact entry no_entry
    · exact pointing no_alias
  · obtain ⟨nodup, mem_free⟩ := good.free power
    have mem_iff := (mem_free p).trans (and_congr_right fun _ => and_congr_right fun _ =>
      and_iff_left (Finset.notMem_empty p))
    split <;> rename_i here
    · exact List.count_eq_one_of_mem nodup (mem_iff.mpr here)
    · exact List.count_eq_zero_of_not_mem fun mem => here (mem_iff.mp mem)
  · rw [good.used power]
    refine congrArg Finset.card (Finset.filter_congr fun p _ => decide_eq_true_iff.trans ?_)
    exact and_congr_right fun _ => or_iff_left (Finset.notMem_empty p)
  · rw [good.alloc power]
    exact congrArg Finset.card (Finset.filter_congr fun p _ => decide_eq_true_iff)
  · exact ⟨msgs.1, msgs.1 ▸ msgs.2⟩

def sharedRun : System Bool :=
  ((({} : System Bool).call (.make ⟨2048, 7⟩ [80])).call (.add false ⟨2048, 8⟩ 7 false)).call (.add true ⟨2048, 9⟩ 7 true)

theorem run_sharedRun : Run sharedRun :=
  .call (.add true ⟨2048, 9⟩ 7 true) (.call (.add false ⟨2048, 8⟩ 7 false) (.call (.make ⟨2048, 7⟩ [80]) .init
    (by decide)) (by decide)) (by decide)

theorem run_accounted_shared : (sharedRun.data.buf 8).ref = 3 ∧
    (sharedRun.data.buf 8).ref = 0 + sharedRun.entries 8 + sharedRun.data.aliases 8 ∧
    (sharedRun.data.msgBufs 0).used =
      (sharedRun.data.bufs.live.filter fun p => (sharedRun.data.buf p).power = 0 ∧ 0 < (sharedRun.data.buf p).ref).card :=
  ⟨by decide, (run_accounted run_sharedRun).refs 8 (by decide), (run_accounted run_sharedRun).used 0⟩

end

end Ircd.Buffers.Pool

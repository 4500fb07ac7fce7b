import Ircd.Buffers.MsgQueue
import Ircd.Library.Blocks

/-! `msgq.c`: message buffers in memory, and the queues of all connections that share them.

A message is made in a buffer of the largest size. The first queue it is put on gives it a
buffer that fits, and from then on every queue points at that one: the first buffer stays an
alias of it, through `real`, until its maker cleans it. Buffers nobody points at go to the
free list of their size. The counts are far below their 32 bits, since each entry they count
takes memory of its own.
-/

set_option autoImplicit false

namespace Ircd.Buffers.Pool

open Library

abbrev Ptr := Nat

/-- The sizes from `MB_BASE_SHIFT` to `MB_MAX_SHIFT`. -/
abbrev SizeClass := Fin 5

def bufsize (power : SizeClass) : Nat := 2 ^ (power.val + 5)

/-- `struct MsgBuf`. The links of the list of all messages are kept as that list. -/
structure MsgBuf where
  real : Option Ptr := none
  ref : Nat := 0
  power : SizeClass := 0
  msg : List Byte := []

structure Class where
  alloc : Nat := 0
  used : Nat := 0
  free : List Ptr := []

/-- The counters of the `Msg` structures; all free ones are alike. -/
structure Msgs where
  alloc : Nat := 0
  used : Nat := 0
  free : Nat := 0

structure MQData where
  bufs : Blocks Ptr MsgBuf := ⟨∅, fun _ => {}⟩
  msglist : List Ptr := []
  msgs : Msgs := {}
  totBufsize : Nat := 0
  msgBufs : SizeClass → Class := fun _ => {}

namespace MQData

def buf (s : MQData) (mb : Ptr) : MsgBuf := s.bufs.mem mb

def put (s : MQData) (mb : Ptr) (buf : MsgBuf) : MQData := { s with bufs := s.bufs.write mb buf }

def setClass (s : MQData) (power : SizeClass) (c : Class) : MQData :=
  { s with msgBufs := Function.update s.msgBufs power c }

end MQData

/-- What `msgq_alloc` is started with: `FEAT_BUFFERPOOL`, and where `MyMalloc` finds memory. -/
structure Memory where
  bufferpool : Nat
  fresh : Ptr

def sizeClass (length : Nat) : SizeClass :=
  ((List.finRange 5).find? fun power => (length - 1) >>> (power.val + 5) = 0).getD (Fin.last 4)

def takeBuf (s : MQData) (memory : Memory) (power : SizeClass) : Option (MQData × Ptr) :=
  match (s.msgBufs power).free with
  | mb :: rest => some (s.setClass power { s.msgBufs power with free := rest }, mb)
  | [] =>
    if s.totBufsize < memory.bufferpool then
      let s := { s with
        bufs := s.bufs.allocate memory.fresh { power }
        totBufsize := s.totBufsize + bufsize power }
      some (s.setClass power { s.msgBufs power with alloc := (s.msgBufs power).alloc + 1 }, memory.fresh)
    else none

def useBuf (s : MQData) (power : SizeClass) (mb : Ptr) : MQData :=
  (s.setClass power { s.msgBufs power with used := (s.msgBufs power).used + 1 }).put mb
    { s.buf mb with real := none, ref := 1 }

/-- `msgq_alloc`; without a buffer to give, nothing has changed. -/
def msgqAlloc (s : MQData) (memory : Memory) (inMb : Option Ptr) (length : Nat) : MQData × Option Ptr :=
  let power := sizeClass length
  let allocate : MQData × Option Ptr :=
    match takeBuf s memory power, inMb with
    | some (s, mb), none => (useBuf s power mb, some mb)
    | some (s, mb), some inMb =>
      let s := useBuf s power mb
      (s.put inMb { s.buf inMb with real := some mb }, some mb)
    | none, some inMb => (s.put inMb { s.buf inMb with real := some inMb }, some inMb)
    | none, none => (s, none)
  match inMb with
  | some mb => if (s.buf mb).power = power then (s.put mb { s.buf mb with real := some mb }, some mb) else allocate
  | none => allocate

def ended (power : SizeClass) (text : List Byte) : List Byte := text.take (bufsize power - 2) ++ [13, 10]

/-- `msgq_vmake`, one attempt: where it fails the function flushes or closes connections and
clears the free lists before the next one. -/
def msgqMake (s : MQData) (memory : Memory) (text : List Byte) : Option (MQData × Ptr) :=
  match msgqAlloc s memory none 512 with
  | (s, some mb) =>
    let s := s.put mb { s.buf mb with msg := ended (s.buf mb).power text }
    some ({ s with msglist := mb :: s.msglist }, mb)
  | (_, none) => none

/-- `msgq_append`: in place of the end of the message. -/
def msgqAppend (s : MQData) (mb : Ptr) (text : List Byte) : MQData :=
  let b := s.buf mb
  s.put mb { b with msg := ended b.power (b.msg.take (b.msg.length - 2) ++ text) }

/-- The loop of `msgq_clear_freembs` over the free list of a size. -/
def clearFree (s : MQData) (power : SizeClass) : List Ptr → MQData
  | [] => s
  | mb :: rest =>
    let c := s.msgBufs power
    let s := s.setClass power { c with alloc := c.alloc - 1, free := rest }
    clearFree { s with bufs := s.bufs.release mb, totBufsize := s.totBufsize - bufsize power } power rest

def msgqClearFreembs (s : MQData) : MQData :=
  (List.finRange 5).foldl (fun s power => clearFree s power (s.msgBufs power).free) s

def MQData.refs (s : MQData) : Nat := s.bufs.sum fun _ b => b.ref

def dropRef (s : MQData) (mb : Ptr) : MQData :=
  let s := s.put mb { s.buf mb with ref := (s.buf mb).ref - 1 }
  if (s.buf mb).ref = 0 then { s with msglist := s.msglist.erase mb } else s

def freeBuf (s : MQData) (mb : Ptr) : MQData :=
  let power := (s.buf mb).power
  let c := s.msgBufs power
  s.setClass power { c with used := c.used - 1, free := mb :: c.free }

theorem dropRef_bufs (s : MQData) (mb : Ptr) :
    (dropRef s mb).bufs = s.bufs.write mb { s.buf mb with ref := (s.buf mb).ref - 1 } := by
  unfold dropRef
  simp only
  split <;> rfl

theorem dropRef_refs {s : MQData} {mb : Ptr} (inside : mb ∈ s.bufs.live) (some_refs : 0 < (s.buf mb).ref) :
    (dropRef s mb).refs < s.refs := by
  have sums : (dropRef s mb).refs + (s.buf mb).ref = s.refs + ((s.buf mb).ref - 1) := by
    rw [MQData.refs, dropRef_bufs]
    exact s.bufs.sum_write _ _ inside
  omega

/-- `msgq_clean`; the first test is the assertion of the source. -/
def msgqClean (s : MQData) (mb : Ptr) : MQData :=
  if _asserted : mb ∈ s.bufs.live ∧ 0 < (s.buf mb).ref then
    if (s.buf mb).ref - 1 = 0 then
      match (s.buf mb).real with
      | some real => if real = mb then freeBuf (dropRef s mb) mb else freeBuf (msgqClean (dropRef s mb) real) mb
      | none => freeBuf (dropRef s mb) mb
    else dropRef s mb
  else s
termination_by s.refs
decreasing_by exact dropRef_refs _asserted.1 _asserted.2

structure Msg where
  msg : Ptr
  sent : Nat

structure MsgQ where
  length : UInt32 := 0
  count : UInt32 := 0
  queue : List Msg := []
  prio : List Msg := []

namespace MsgQ

def list (mq : MsgQ) : Bool → List Msg
  | false => mq.queue
  | true => mq.prio

def replace (mq : MsgQ) (prio : Bool) (l : List Msg) (length count : UInt32) : MsgQ :=
  match prio with
  | false => { mq with queue := l, length, count }
  | true => { mq with prio := l, length, count }

end MsgQ

def headSent : List Msg → Bool
  | m :: _ => 0 < m.sent
  | [] => false

def nextList (mq : MsgQ) : Option Bool :=
  if headSent mq.queue then some false
  else if mq.prio ≠ [] then some true
  else if mq.queue ≠ [] then some false
  else none

def useMsg (s : MQData) : MQData :=
  { s with msgs :=
    if s.msgs.free = 0 then { s.msgs with alloc := s.msgs.alloc + 1, used := s.msgs.used + 1 }
    else { s.msgs with free := s.msgs.free - 1, used := s.msgs.used + 1 } }

def copyMsg (s : MQData) (mb tmp : Ptr) : MQData :=
  { s.put tmp { s.buf tmp with msg := (s.buf mb).msg } with
    msglist := s.msglist.map fun p => if p = mb then tmp else p }

def attach (s : MQData) (memory : Memory) (mb : Ptr) : MQData :=
  match (s.buf mb).real with
  | some _ => s
  | none =>
    match msgqAlloc s memory (some mb) (s.buf mb).msg.length with
    | (s, some tmp) => if tmp = mb then s else copyMsg s mb tmp
    | (s, none) => s

def msgqAdd (s : MQData) (mq : MsgQ) (memory : Memory) (mb : Ptr) (prio : Bool) : MQData × MsgQ :=
  let s := attach (useMsg s) memory mb
  let mb := (s.buf mb).real.getD mb
  let s := s.put mb { s.buf mb with ref := (s.buf mb).ref + 1 }
  (s, mq.replace prio (mq.list prio ++ [⟨mb, 0⟩]) (mq.length + UInt32.ofNat (s.buf mb).msg.length) (mq.count + 1))

/-- `msgq_delmsg`, with what is left of `*length_p`. -/
def msgqDelmsg (s : MQData) (mq : MsgQ) (prio : Bool) (length : Nat) : MQData × MsgQ × Nat :=
  match mq.list prio with
  | [] => (s, mq, length)
  | m :: rest =>
    let msglen := (s.buf m.msg).msg.length - m.sent
    if length ≥ msglen then
      let s := msgqClean s m.msg
      ({ s with msgs := { s.msgs with used := s.msgs.used - 1, free := s.msgs.free + 1 } },
        mq.replace prio rest (mq.length - UInt32.ofNat msglen) (mq.count - 1), length - msglen)
    else (s, mq.replace prio (⟨m.msg, m.sent + length⟩ :: rest) (mq.length - UInt32.ofNat length) mq.count, 0)

def MsgQ.messages (mq : MsgQ) : Nat := mq.queue.length + mq.prio.length

@[simp] theorem MsgQ.list_replace (mq : MsgQ) (prio : Bool) (l : List Msg) (length count : UInt32) :
    (mq.replace prio l length count).list prio = l := by
  cases prio <;> rfl

@[simp] theorem MsgQ.list_replace_not (mq : MsgQ) (prio : Bool) (l : List Msg) (length count : UInt32) :
    (mq.replace prio l length count).list (!prio) = mq.list (!prio) := by
  cases prio <;> rfl

theorem MsgQ.messages_list (mq : MsgQ) (prio : Bool) :
    mq.messages = (mq.list prio).length + (mq.list !prio).length := by
  cases prio with
  | false => rfl
  | true => exact Nat.add_comm _ _

theorem nextList_some {mq : MsgQ} {prio : Bool} (next : nextList mq = some prio) :
    ∃ m rest, mq.list prio = m :: rest := by
  unfold nextList at next
  split at next
  · rename_i partly
    cases next
    match queue : mq.queue, partly with
    | m :: rest, _ => exact ⟨m, rest, queue⟩
  · split at next
    · rename_i some_prio
      cases next
      exact List.exists_cons_of_ne_nil some_prio
    · split at next
      · rename_i some_queue
        cases next
        exact List.exists_cons_of_ne_nil some_queue
      · cases next

theorem msgqDelmsg_progress (s : MQData) {mq : MsgQ} {prio : Bool} {length : Nat} (some_length : length ≠ 0)
    (next : nextList mq = some prio) :
    (msgqDelmsg s mq prio length).2.1.messages + (msgqDelmsg s mq prio length).2.2 < mq.messages + length := by
  obtain ⟨m, rest, shape⟩ := nextList_some next
  rw [MsgQ.messages_list mq prio, MsgQ.messages_list _ prio]
  unfold msgqDelmsg
  simp only [shape]
  split <;> simp only [MsgQ.list_replace, MsgQ.list_replace_not, List.length_cons] <;> omega

def msgqDelete (s : MQData) (mq : MsgQ) (length : Nat) : MQData × MsgQ :=
  if _some : length = 0 then (s, mq)
  else
    match _next : nextList mq with
    | none => (s, mq)
    | some prio =>
      let r := msgqDelmsg s mq prio length
      msgqDelete r.1 r.2.1 r.2.2
termination_by mq.messages + length
decreasing_by exact msgqDelmsg_progress s _some _next

/-- The buffers, the queues of all connections, and the buffers whose maker has not cleaned them. -/
structure System (Conn : Type) where
  data : MQData := {}
  queues : Conn → MsgQ := fun _ => {}
  held : Finset Ptr := ∅

inductive Call (Conn : Type) where
  | make (memory : Memory) (text : List Byte)
  | append (mb : Ptr) (text : List Byte)
  | add (conn : Conn) (memory : Memory) (mb : Ptr) (prio : Bool)
  | clean (mb : Ptr)
  | delete (conn : Conn) (length : UInt32)
  | clear (conn : Conn)
  | clearFreembs

section
variable {Conn : Type} [DecidableEq Conn]

/-- What the callers keep to: a buffer is used and cleaned by its maker, text is added before
the first queue has it, and `MyMalloc` gives memory that is not in use. -/
def System.Allowed (σ : System Conn) : Call Conn → Prop
  | .make memory _ => memory.fresh ∉ σ.data.bufs.live
  | .append mb _ => mb ∈ σ.held ∧ (σ.data.buf mb).real = none
  | .add _ memory mb _ => mb ∈ σ.held ∧ memory.fresh ∉ σ.data.bufs.live
  | .clean mb => mb ∈ σ.held
  | .delete _ _ | .clear _ | .clearFreembs => True

instance (σ : System Conn) (c : Call Conn) : Decidable (σ.Allowed c) :=
  match c with
  | .make memory _ => inferInstanceAs (Decidable (memory.fresh ∉ σ.data.bufs.live))
  | .append mb _ => inferInstanceAs (Decidable (mb ∈ σ.held ∧ (σ.data.buf mb).real = none))
  | .add _ memory mb _ => inferInstanceAs (Decidable (mb ∈ σ.held ∧ memory.fresh ∉ σ.data.bufs.live))
  | .clean mb => inferInstanceAs (Decidable (mb ∈ σ.held))
  | .delete _ _ | .clear _ | .clearFreembs => inferInstanceAs (Decidable True)

def System.setQueue (σ : System Conn) (conn : Conn) (r : MQData × MsgQ) : System Conn :=
  { σ with data := r.1, queues := Function.update σ.queues conn r.2 }

def System.call (σ : System Conn) : Call Conn → System Conn
  | .make memory text =>
    match msgqMake σ.data memory text with
    | some (s, mb) => { σ with data := s, held := insert mb σ.held }
    | none => σ
  | .append mb text => { σ with data := msgqAppend σ.data mb text }
  | .add conn memory mb prio => σ.setQueue conn (msgqAdd σ.data (σ.queues conn) memory mb prio)
  | .clean mb => { σ with data := msgqClean σ.data mb, held := σ.held.erase mb }
  | .delete conn length => σ.setQueue conn (msgqDelete σ.data (σ.queues conn) length.toNat)
  -- `MsgQClear`
  | .clear conn => σ.setQueue conn (msgqDelete σ.data (σ.queues conn) (σ.queues conn).length.toNat)
  | .clearFreembs => { σ with data := msgqClearFreembs σ.data }

inductive Run : System Conn → Prop where
  | init : Run {}
  | call {σ : System Conn} (c : Call Conn) : Run σ → σ.Allowed c → Run (σ.call c)

end

end Ircd.Buffers.Pool

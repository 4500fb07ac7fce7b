import Mathlib.Data.List.Basic
import Mathlib.Data.List.Infix
import Mathlib.Data.UInt
import Mathlib.Tactic.Common

/-! `msgq.c`: the two queues of outgoing messages of a connection.

A message of the normal queue may be half sent when a priority message arrives; it is
finished first. The counters are 32-bit; message bodies are shared in the source and
never written once queued, so a queue entry holds the body itself.
-/

set_option autoImplicit false

namespace Ircd.Buffers

abbrev Byte := UInt8

/-- `struct MsgBuf`: a message as `msgq_vmake` leaves it, at most `BUFSIZE` bytes. -/
structure MsgBuf where
  bytes : List Byte
  some_bytes : 0 < bytes.length
  short : bytes.length ≤ 512

/-- `struct Msg`: an entry of a queue, not sent to its end. -/
structure Msg where
  sent : Nat
  msg : MsgBuf
  unfinished : sent < msg.bytes.length

structure MsgQ where
  length : UInt32 := 0
  count : UInt32 := 0
  queue : List Msg := []
  prio : List Msg := []

namespace MsgQ

/-- One of the two lists; `true` is the priority list. -/
def list (mq : MsgQ) : Bool → List Msg
  | false => mq.queue
  | true => mq.prio

def replace (mq : MsgQ) (prio : Bool) (l : List Msg) (length count : UInt32) : MsgQ :=
  match prio with
  | false => { mq with queue := l, length, count }
  | true => { mq with prio := l, length, count }

section
variable (mq : MsgQ) (prio : Bool) (l : List Msg) (length count : UInt32)

@[simp] theorem list_replace : (mq.replace prio l length count).list prio = l := by cases prio <;> rfl

@[simp] theorem list_replace_not : (mq.replace prio l length count).list (!prio) = mq.list (!prio) := by
  cases prio <;> rfl

@[simp] theorem length_replace : (mq.replace prio l length count).length = length := by cases prio <;> rfl

@[simp] theorem count_replace : (mq.replace prio l length count).count = count := by cases prio <;> rfl

end

end MsgQ

def headSent : List Msg → Bool
  | m :: _ => 0 < m.sent
  | [] => false

/-- `msgq_delmsg`: the queue, what is left of `*length_p`, and the bytes that went. -/
def msgqDelmsg (mq : MsgQ) (prio : Bool) (length : Nat) : MsgQ × Nat × List Byte :=
  match mq.list prio with
  | [] => (mq, length, [])
  | m :: rest =>
    let msglen := m.msg.bytes.length - m.sent
    if _all : length ≥ msglen then
      (mq.replace prio rest (mq.length - UInt32.ofNat msglen) (mq.count - 1), length - msglen,
        m.msg.bytes.drop m.sent)
    else
      let m' : Msg := ⟨m.sent + length, m.msg, by omega⟩
      (mq.replace prio (m' :: rest) (mq.length - UInt32.ofNat length) mq.count, 0,
        (m.msg.bytes.drop m.sent).take length)

def nextList (mq : MsgQ) : Option Bool :=
  if headSent mq.queue then some false
  else if mq.prio ≠ [] then some true
  else if mq.queue ≠ [] then some false
  else none

theorem nextList_some {mq : MsgQ} {prio : Bool} (h : nextList mq = some prio) :
    ∃ m rest, mq.list prio = m :: rest := by
  unfold nextList at h
  split at h
  · rename_i partly
    cases h
    match queue : mq.queue, partly with
    | m :: rest, _ => exact ⟨m, rest, queue⟩
  · split at h
    · rename_i some_prio
      cases h
      exact List.exists_cons_of_ne_nil some_prio
    · split at h
      · rename_i some_queue
        cases h
        exact List.exists_cons_of_ne_nil some_queue
      · cases h

def MsgQ.messages (mq : MsgQ) : Nat := mq.queue.length + mq.prio.length

theorem messages_list (mq : MsgQ) (prio : Bool) :
    mq.messages = (mq.list prio).length + (mq.list !prio).length := by
  cases prio with
  | false => rfl
  | true => exact Nat.add_comm _ _

theorem msgqDelmsg_progress {mq : MsgQ} {prio : Bool} {length : Nat} (some_length : length ≠ 0)
    (next : nextList mq = some prio) :
    (msgqDelmsg mq prio length).1.messages + (msgqDelmsg mq prio length).2.1 < mq.messages + length := by
  obtain ⟨m, rest, shape⟩ := nextList_some next
  have unfinished := m.unfinished
  rw [messages_list mq prio, messages_list _ prio]
  unfold msgqDelmsg
  simp only [shape]
  split <;> simp only [MsgQ.list_replace, MsgQ.list_replace_not, List.length_cons] <;> omega

def msgqDelete (mq : MsgQ) (length : Nat) : MsgQ × List Byte :=
  if _some : length = 0 then (mq, [])
  else
    match _next : nextList mq with
    | none => (mq, [])
    | some prio =>
      let rest := msgqDelete (msgqDelmsg mq prio length).1 (msgqDelmsg mq prio length).2.1
      (rest.1, (msgqDelmsg mq prio length).2.2 ++ rest.2)
termination_by mq.messages + length
decreasing_by exact msgqDelmsg_progress _some _next

def msgqAdd (mq : MsgQ) (mb : MsgBuf) (prio : Bool) : MsgQ :=
  let msg : Msg := ⟨0, mb, mb.some_bytes⟩
  mq.replace prio (mq.list prio ++ [msg]) (mq.length + UInt32.ofNat mb.bytes.length) (mq.count + 1)

/-- A queue with its history: the messages added, with their class, the bytes removed and
how many bytes the deletions were asked to remove. -/
structure Trace where
  mq : MsgQ := {}
  added : List (Bool × MsgBuf) := []
  removed : List Byte := []
  asked : Nat := 0

/-- Any order of `msgq_add` and of `msgq_delete` with at most `MsgQLength` bytes. -/
inductive Run : Trace → Prop where
  | init : Run {}
  | add {t : Trace} (mb : MsgBuf) (prio : Bool) : Run t →
      Run { t with mq := msgqAdd t.mq mb prio, added := t.added ++ [(prio, mb)] }
  | delete {t : Trace} (n : UInt32) : Run t → n ≤ t.mq.length →
      Run { t with
        mq := (msgqDelete t.mq n.toNat).1
        removed := t.removed ++ (msgqDelete t.mq n.toNat).2
        asked := t.asked + n.toNat }

def ofClass (prio : Bool) (l : List (Bool × MsgBuf)) : List MsgBuf :=
  (l.filter fun entry => entry.1 = prio).map Prod.snd

def sentPart : List Msg → List Byte
  | m :: _ => m.msg.bytes.take m.sent
  | [] => []

def leftBytes (l : List Msg) : Nat := (l.map fun m => m.msg.bytes.length - m.sent).sum

def MsgQ.remaining (mq : MsgQ) : Nat := leftBytes mq.queue + leftBytes mq.prio

/-- What the queue keeps: the bytes removed are the bytes of the messages `done` and the sent
part of a head; each class has its messages done in the order they were added, and the rest
still queued; at most one head is half sent and nothing behind a head is; the counters are
the bytes and the messages left, in 32 bits. -/
structure Integrity (t : Trace) : Prop where
  stream : ∃ done : List (Bool × MsgBuf),
    t.removed = done.flatMap (fun entry => entry.2.bytes) ++ (sentPart t.mq.queue ++ sentPart t.mq.prio) ∧
    ∀ prio, ofClass prio t.added = ofClass prio done ++ (t.mq.list prio).map Msg.msg
  heads : ¬ (headSent t.mq.queue = true ∧ headSent t.mq.prio = true)
  tails : ∀ prio, ∀ m ∈ (t.mq.list prio).tail, m.sent = 0
  length : t.mq.length = UInt32.ofNat t.mq.remaining
  count : t.mq.count = UInt32.ofNat t.mq.messages

theorem remaining_list (mq : MsgQ) (prio : Bool) :
    mq.remaining = leftBytes (mq.list prio) + leftBytes (mq.list !prio) := by
  cases prio with
  | false => rfl
  | true => exact Nat.add_comm _ _

theorem sentPart_of_unsent {l : List Msg} (unsent : headSent l = false) : sentPart l = [] := by
  cases l with
  | nil => rfl
  | cons m l =>
    have none_sent : m.sent = 0 := by simpa [headSent] using unsent
    simp [sentPart, none_sent]

theorem headSent_of_tails {l : List Msg} (tails : ∀ m ∈ l, m.sent = 0) : headSent l = false := by
  cases l with
  | nil => rfl
  | cons m l => simp [headSent, tails m List.mem_cons_self]

theorem sentPart_list {mq : MsgQ} {prio : Bool} (other : headSent (mq.list !prio) = false) :
    sentPart mq.queue ++ sentPart mq.prio = sentPart (mq.list prio) := by
  have none_sent := sentPart_of_unsent other
  cases prio with
  | false =>
    change sentPart mq.prio = [] at none_sent
    rw [none_sent, List.append_nil]
    rfl
  | true =>
    change sentPart mq.queue = [] at none_sent
    rw [none_sent, List.nil_append]
    rfl

theorem heads_of_other {mq : MsgQ} {prio : Bool} (other : headSent (mq.list !prio) = false) :
    ¬ (headSent mq.queue = true ∧ headSent mq.prio = true) := by
  rintro ⟨first, second⟩
  cases prio with
  | false =>
    change headSent mq.prio = false at other
    rw [second] at other
    cases other
  | true =>
    change headSent mq.queue = false at other
    rw [first] at other
    cases other

theorem nextList_other {mq : MsgQ} {prio : Bool}
    (heads : ¬ (headSent mq.queue = true ∧ headSent mq.prio = true)) (next : nextList mq = some prio) :
    headSent (mq.list !prio) = false := by
  unfold nextList at next
  split at next
  · rename_i partly
    cases next
    change headSent mq.prio = false
    by_contra second
    exact heads ⟨partly, by simpa using second⟩
  · rename_i whole
    split at next
    · cases next
      change headSent mq.queue = false
      simpa using whole
    · rename_i no_prio
      split at next
      · cases next
        have empty : mq.prio = [] := by simpa using no_prio
        change headSent mq.prio = false
        rw [empty]
        rfl
      · cases next

theorem ofClass_append (prio : Bool) (l l' : List (Bool × MsgBuf)) :
    ofClass prio (l ++ l') = ofClass prio l ++ ofClass prio l' := by
  simp [ofClass]

theorem ofClass_self (prio : Bool) (mb : MsgBuf) : ofClass prio [(prio, mb)] = [mb] := by simp [ofClass]

theorem ofClass_other (prio : Bool) (mb : MsgBuf) : ofClass (!prio) [(prio, mb)] = [] := by
  cases prio <;> simp [ofClass]

theorem forall_class {P : Bool → Prop} (prio : Bool) (touched : P prio) (other : P (!prio)) : ∀ b, P b := by
  intro b
  cases b <;> cases prio <;> assumption

theorem leftBytes_cons (m : Msg) (l : List Msg) :
    leftBytes (m :: l) = (m.msg.bytes.length - m.sent) + leftBytes l := by
  simp [leftBytes]

theorem ofNat_sub_eq {a b c : Nat} (sum : a = b + c) : UInt32.ofNat a - UInt32.ofNat b = UInt32.ofNat c := by
  rw [sum, UInt32.ofNat_add, UInt32.add_comm, UInt32.add_sub_cancel]

theorem remaining_replace (mq : MsgQ) (prio : Bool) (l : List Msg) (length count : UInt32) :
    (mq.replace prio l length count).remaining = leftBytes l + leftBytes (mq.list !prio) := by
  rw [remaining_list _ prio, MsgQ.list_replace, MsgQ.list_replace_not]

theorem messages_replace (mq : MsgQ) (prio : Bool) (l : List Msg) (length count : UInt32) :
    (mq.replace prio l length count).messages = l.length + (mq.list !prio).length := by
  rw [messages_list _ prio, MsgQ.list_replace, MsgQ.list_replace_not]

theorem Integrity.replace {t : Trace} {prio : Bool} {l : List Msg} {length count : UInt32} {bytes : List Byte}
    (done : List (Bool × MsgBuf)) (ok : Integrity t) (other : headSent (t.mq.list !prio) = false)
    (removed : t.removed ++ bytes = done.flatMap (fun entry => entry.2.bytes) ++ sentPart l)
    (mine : ofClass prio t.added = ofClass prio done ++ l.map Msg.msg)
    (theirs : ofClass (!prio) t.added = ofClass (!prio) done ++ (t.mq.list !prio).map Msg.msg)
    (tails : ∀ m ∈ l.tail, m.sent = 0)
    (length_eq : length = UInt32.ofNat (leftBytes l + leftBytes (t.mq.list !prio)))
    (count_eq : count = UInt32.ofNat (l.length + (t.mq.list !prio).length)) :
    Integrity ⟨t.mq.replace prio l length count, t.added, t.removed ++ bytes, t.asked⟩ := by
  have other' : headSent ((t.mq.replace prio l length count).list !prio) = false := by simpa using other
  refine ⟨⟨done, ?_, ?_⟩, heads_of_other other', ?_, ?_, ?_⟩
  · rw [removed, sentPart_list other', MsgQ.list_replace]
  · exact forall_class prio (by simpa using mine) (by simpa using theirs)
  · exact forall_class prio (by simpa using tails) (by simpa using ok.tails (!prio))
  · rw [MsgQ.length_replace, remaining_replace, length_eq]
  · rw [MsgQ.count_replace, messages_replace, count_eq]

theorem delmsg_integrity {t : Trace} {prio : Bool} {n : Nat} (ok : Integrity t)
    (next : nextList t.mq = some prio) :
    Integrity ⟨(msgqDelmsg t.mq prio n).1, t.added, t.removed ++ (msgqDelmsg t.mq prio n).2.2, t.asked⟩ := by
  obtain ⟨m, rest, shape⟩ := nextList_some next
  have other := nextList_other ok.heads next
  obtain ⟨done, removed, classes⟩ := ok.stream
  have mine := classes prio
  have theirs := classes (!prio)
  have tails := ok.tails prio
  have left := remaining_list t.mq prio
  have messages := messages_list t.mq prio
  rw [sentPart_list other] at removed
  rw [shape] at removed mine left messages tails
  rw [leftBytes_cons] at left
  rw [List.length_cons] at messages
  have unfinished := m.unfinished
  unfold msgqDelmsg
  simp only [shape]
  split
  · -- The message is complete: it joins those that are done, and the next one is untouched.
    apply Integrity.replace (done ++ [(prio, m.msg)]) ok other
    · rw [List.tail_cons] at tails
      rw [removed, sentPart_of_unsent (headSent_of_tails tails), sentPart]
      simp
    · rw [mine, ofClass_append, ofClass_self]
      simp
    · rw [theirs, ofClass_append, ofClass_other, List.append_nil]
    · exact fun m' mem => tails m' (List.mem_of_mem_tail mem)
    · rw [ok.length]
      exact ofNat_sub_eq (by rw [left]; omega)
    · rw [ok.count]
      exact ofNat_sub_eq (b := 1) (by rw [messages]; omega)
  · refine Integrity.replace _ ok other ?_ mine theirs tails ?_ ?_
    · rw [removed, sentPart, sentPart, List.append_assoc, ← List.take_add]
    · rw [ok.length, leftBytes_cons]
      apply ofNat_sub_eq
      rw [left]
      simp only
      omega
    · rw [ok.count, messages, List.length_cons]

theorem add_integrity {t : Trace} (ok : Integrity t) (mb : MsgBuf) (prio : Bool) :
    Integrity { t with mq := msgqAdd t.mq mb prio, added := t.added ++ [(prio, mb)] } := by
  have head : ∀ l : List Msg, headSent (l ++ [⟨0, mb, mb.some_bytes⟩]) = headSent l ∧
      sentPart (l ++ [⟨0, mb, mb.some_bytes⟩]) = sentPart l := by
    intro l
    cases l <;> simp [headSent, sentPart]
  obtain ⟨done, removed, classes⟩ := ok.stream
  have mine := classes prio
  have theirs := classes (!prio)
  unfold msgqAdd
  refine ⟨⟨done, ?_, forall_class prio ?_ ?_⟩, ?_, forall_class prio ?_ ?_, ?_, ?_⟩
  · rw [removed]
    cases prio <;> simp [MsgQ.replace, MsgQ.list, head]
  · rw [ofClass_append, mine, ofClass_self, MsgQ.list_replace]
    simp
  · rw [ofClass_append, theirs, ofClass_other, MsgQ.list_replace_not, List.append_nil]
  · have heads := ok.heads
    cases prio <;> simpa [MsgQ.replace, MsgQ.list, head] using heads
  · intro m mem
    simp only [MsgQ.list_replace] at mem
    have tails := ok.tails prio
    cases list : t.mq.list prio with
    | nil => simp [list] at mem
    | cons first rest =>
      rw [list] at mem tails
      rcases List.mem_append.mp mem with old | new
      · exact tails m old
      · rw [List.mem_singleton.mp new]
  · simpa using ok.tails (!prio)
  · have left := remaining_list t.mq prio
    rw [MsgQ.length_replace, remaining_replace, ok.length, ← UInt32.ofNat_add]
    congr 1
    simp only [leftBytes, List.map_append, List.sum_append, List.map_singleton, List.sum_singleton] at left ⊢
    omega
  · have messages := messages_list t.mq prio
    rw [MsgQ.count_replace, messages_replace, ok.count, List.length_append, List.length_singleton]
    change UInt32.ofNat t.mq.messages + UInt32.ofNat 1 = _
    rw [← UInt32.ofNat_add]
    congr 1
    omega

theorem msgqDelete_zero (mq : MsgQ) : msgqDelete mq 0 = (mq, []) := by
  rw [msgqDelete, dif_pos rfl]

theorem msgqDelete_none {mq : MsgQ} {n : Nat} (next : nextList mq = none) : msgqDelete mq n = (mq, []) := by
  rw [msgqDelete]
  split
  · rfl
  · split
    · rfl
    · rename_i found
      rw [next] at found
      cases found

theorem msgqDelete_some {mq : MsgQ} {n : Nat} {prio : Bool} (some_n : n ≠ 0) (next : nextList mq = some prio) :
    msgqDelete mq n =
      ((msgqDelete (msgqDelmsg mq prio n).1 (msgqDelmsg mq prio n).2.1).1,
        (msgqDelmsg mq prio n).2.2 ++ (msgqDelete (msgqDelmsg mq prio n).1 (msgqDelmsg mq prio n).2.1).2) := by
  rw [msgqDelete, dif_neg some_n]
  split
  · rename_i found
    rw [next] at found
    cases found
  · rename_i found
    rw [next] at found
    cases found
    rfl

theorem delete_integrity {t : Trace} {n : Nat} (ok : Integrity t) :
    Integrity ⟨(msgqDelete t.mq n).1, t.added, t.removed ++ (msgqDelete t.mq n).2, t.asked⟩ := by
  induction measure : t.mq.messages + n using Nat.strongRecOn generalizing t n with
  | _ k ih =>
  by_cases none_left : n = 0
  · rw [none_left, msgqDelete_zero, List.append_nil]
    exact ok
  · cases next : nextList t.mq with
    | none =>
      rw [msgqDelete_none next, List.append_nil]
      exact ok
    | some prio =>
      have progress := msgqDelmsg_progress none_left next
      rw [measure] at progress
      have rest := ih _ progress (delmsg_integrity (n := n) ok next) rfl
      rw [msgqDelete_some none_left next, ← List.append_assoc]
      exact rest

theorem remaining_of_nextList {mq : MsgQ} (next : nextList mq = none) : mq.remaining = 0 := by
  unfold nextList at next
  split at next
  · cases next
  · split at next
    · cases next
    · rename_i no_prio
      split at next
      · cases next
      · rename_i no_queue
        have empty : mq.queue = [] ∧ mq.prio = [] := by simpa using And.intro no_queue no_prio
        simp [MsgQ.remaining, empty.1, empty.2, leftBytes]

theorem delmsg_balance {mq : MsgQ} {prio : Bool} {n : Nat} (next : nextList mq = some prio) :
    (msgqDelmsg mq prio n).2.2.length + (msgqDelmsg mq prio n).2.1 = n ∧
      (msgqDelmsg mq prio n).1.remaining + (msgqDelmsg mq prio n).2.2.length = mq.remaining := by
  obtain ⟨m, rest, shape⟩ := nextList_some next
  have left := remaining_list mq prio
  rw [shape, leftBytes_cons] at left
  have unfinished := m.unfinished
  unfold msgqDelmsg
  simp only [shape]
  split
  · rw [remaining_replace, left, List.length_drop]
    simp only
    omega
  · rw [remaining_replace, left, leftBytes_cons, List.length_take, List.length_drop]
    simp only
    omega

theorem length_msgqDelete {mq : MsgQ} {n : Nat} (enough : n ≤ mq.remaining) : (msgqDelete mq n).2.length = n := by
  induction measure : mq.messages + n using Nat.strongRecOn generalizing mq n with
  | _ k ih =>
  by_cases none_left : n = 0
  · rw [none_left, msgqDelete_zero]
    rfl
  · cases next : nextList mq with
    | none =>
      rw [remaining_of_nextList next] at enough
      omega
    | some prio =>
      have progress := msgqDelmsg_progress none_left next
      have balance := delmsg_balance (n := n) next
      have rest : (msgqDelete (msgqDelmsg mq prio n).1 (msgqDelmsg mq prio n).2.1).2.length = (msgqDelmsg mq prio n).2.1 :=
        ih _ (by omega) (by omega) rfl
      rw [msgqDelete_some none_left next, List.length_append, rest]
      exact balance.1

theorem run_integrity {t : Trace} (run : Run t) : Integrity t ∧ t.removed.length = t.asked := by
  induction run with
  | init =>
    refine ⟨⟨⟨[], rfl, fun prio => by cases prio <;> rfl⟩, by simp [headSent], ?_, rfl, rfl⟩, rfl⟩
    intro prio
    cases prio <;> simp [MsgQ.list]
  | add mb prio _ ok => exact ⟨add_integrity ok.1 mb prio, ok.2⟩
  | @delete t n _ within ok =>
    obtain ⟨stream, heads, tails, length, count⟩ := delete_integrity (n := n.toNat) ok.1
    refine ⟨⟨stream, heads, tails, length, count⟩, ?_⟩
    have enough : n.toNat ≤ t.mq.remaining := by
      have le := UInt32.le_iff_toNat_le.mp within
      rw [ok.1.length, UInt32.toNat_ofNat'] at le
      exact le.trans (Nat.mod_le _ _)
    rw [List.length_append, length_msgqDelete enough, ok.2]

/-- In every run the queue keeps the stream, the deletions remove as many bytes as they are
asked to, and the counters are exact as long as 32 bits hold them. -/
theorem stream_integrity {t : Trace} (run : Run t) :
    Integrity t ∧ t.removed.length = t.asked ∧
      (t.mq.remaining < 2 ^ 32 → t.mq.length.toNat = t.mq.remaining) ∧
      (t.mq.messages < 2 ^ 32 → t.mq.count.toNat = t.mq.messages) := by
  obtain ⟨ok, asked⟩ := run_integrity run
  refine ⟨ok, asked, fun fits => ?_, fun fits => ?_⟩
  · rw [ok.length, UInt32.toNat_ofNat', Nat.mod_eq_of_lt fits]
  · rw [ok.count, UInt32.toNat_ofNat', Nat.mod_eq_of_lt fits]

/-- A normal message of which one byte is sent, and a priority message behind it. -/
def halfSent : Trace where
  mq := msgqAdd (msgqDelete (msgqAdd {} ⟨[72, 13, 10], by decide, by decide⟩ false) 1).1
    ⟨[80, 13, 10], by decide, by decide⟩ true
  added := [(false, ⟨[72, 13, 10], by decide, by decide⟩), (true, ⟨[80, 13, 10], by decide, by decide⟩)]
  removed := (msgqDelete (msgqAdd {} ⟨[72, 13, 10], by decide, by decide⟩ false) 1).2
  asked := 1

theorem run_halfSent : Run halfSent :=
  .add ⟨[80, 13, 10], by decide, by decide⟩ true
    (.delete 1 (.add ⟨[72, 13, 10], by decide, by decide⟩ false .init) (by decide))

theorem stream_integrity_halfSent :
    Run halfSent ∧ Integrity halfSent ∧ halfSent.removed.length = halfSent.asked :=
  ⟨run_halfSent, (stream_integrity run_halfSent).1, (stream_integrity run_halfSent).2.1⟩

end Ircd.Buffers

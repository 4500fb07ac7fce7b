import Ircd.Buffers.MsgQueue
import Ircd.Library.EarlyReturn

/-! `msgq.c`: what `msgq_mapiov` shows to a write, and what `msgq_delete` takes after it.

The two walk the lists with code of their own. Both give the half-sent head of the normal
queue first, then the priority list, then the rest of the normal queue.
-/

set_option autoImplicit false

namespace Ircd.Buffers

open Library

/-- The elements of the vector that are filled, each as the bytes it points at, how many more
may be, and `*len`. -/
structure Mapping where
  iov : List (List Byte)
  count : Int
  len : UInt32

def Mapping.fill (s : Mapping) (bytes : List Byte) : Except Mapping Mapping :=
  let s' : Mapping := ⟨s.iov ++ [bytes], s.count - 1, s.len + UInt32.ofNat bytes.length⟩
  if s'.count = 0 then .error s' else .ok s'

def mapHead : List Msg → Mapping → Except Mapping (List Msg × Mapping)
  | [], s => .ok ([], s)
  | m :: rest, s =>
    if 0 < m.sent then do
      let s ← s.fill (m.msg.bytes.drop m.sent)
      return (rest, s)
    else .ok (m :: rest, s)

def mapLoop : List Msg → Mapping → Except Mapping Mapping
  | [], s => .ok s
  | m :: rest, s => do
    let s ← s.fill m.msg.bytes
    mapLoop rest s

def mapLists (mq : MsgQ) (s : Mapping) : Except Mapping Mapping := do
  let (queue, s) ← mapHead mq.queue s
  let (prio, s) ← mapHead mq.prio s
  let s ← mapLoop prio s
  mapLoop queue s

/-- `msgq_mapiov`: with a count that is not positive no element is the last one. -/
def msgqMapiov (mq : MsgQ) (count : Int) (len : UInt32) : Mapping :=
  let start : Mapping := ⟨[], count, len⟩
  if mq.length = 0 then start
  else
    match mapLists mq start with
    | .error s => s
    | .ok s => s

def mapped (mq : MsgQ) (count : Int) : List Byte := (msgqMapiov mq count 0).iov.flatten

/-- The bytes that `msgq_delete` goes through. -/
def MsgQ.stream (mq : MsgQ) : List Byte := (msgqDelete mq mq.remaining).2

/-- The queues that the functions build: any order of `msgq_add` and `msgq_delete`. -/
inductive Built : MsgQ → Prop where
  | init : Built {}
  | add {mq : MsgQ} (mb : MsgBuf) (prio : Bool) : Built mq → Built (msgqAdd mq mb prio)
  | delete {mq : MsgQ} (n : Nat) : Built mq → Built (msgqDelete mq n).1

def MsgQ.TailsWhole (mq : MsgQ) : Prop := ∀ prio, ∀ m ∈ (mq.list prio).tail, m.sent = 0

def pending (l : List Msg) : List (List Byte) := l.map fun m => m.msg.bytes.drop m.sent

def splitHead (l : List Msg) : List Msg × List Msg := if headSent l then (l.take 1, l.tail) else ([], l)

def MsgQ.ordered (mq : MsgQ) : List (List Byte) :=
  pending (splitHead mq.queue).1 ++ (pending mq.prio ++ pending (splitHead mq.queue).2)

@[simp] theorem pending_nil : pending [] = [] := rfl

@[simp] theorem pending_cons (m : Msg) (l : List Msg) : pending (m :: l) = m.msg.bytes.drop m.sent :: pending l := rfl

theorem length_pending (l : List Msg) : (pending l).flatten.length = leftBytes l := by
  induction l with
  | nil => rfl
  | cons m l ih =>
    rw [pending_cons, List.flatten_cons, List.length_append, List.length_drop, ih, leftBytes_cons]

theorem pending_whole {l : List Msg} (whole : ∀ m ∈ l, m.sent = 0) : pending l = l.map fun m => m.msg.bytes := by
  refine List.map_congr_left fun m mem => ?_
  rw [whole m mem, List.drop_zero]

theorem pending_splitHead (l : List Msg) : pending (splitHead l).1 ++ pending (splitHead l).2 = pending l := by
  unfold splitHead
  split
  · rw [pending, pending, pending, ← List.map_append]
    cases l <;> rfl
  · rfl

theorem length_ordered (mq : MsgQ) : mq.ordered.flatten.length = mq.remaining := by
  have queue := congrArg (fun l => l.flatten.length) (pending_splitHead mq.queue)
  simp only [List.flatten_append, List.length_append, length_pending] at queue
  simp only [MsgQ.ordered, List.flatten_append, List.length_append, length_pending, MsgQ.remaining]
  omega

theorem splitHead_unsent {l : List Msg} (unsent : headSent l = false) : splitHead l = ([], l) := by
  rw [splitHead, unsent]
  rfl

theorem splitHead_sent {m : Msg} (rest : List Msg) (sent : 0 < m.sent) : splitHead (m :: rest) = ([m], rest) :=
  if_pos (decide_eq_true sent)

theorem splitHead_whole {l : List Msg} (tails : ∀ m ∈ l.tail, m.sent = 0) :
    ∀ m ∈ (splitHead l).2, m.sent = 0 := by
  unfold splitHead
  split
  · exact tails
  · rename_i whole
    cases l with
    | nil => exact fun _ mem => absurd mem List.not_mem_nil
    | cons m rest =>
      intro other mem
      rcases List.mem_cons.mp mem with rfl | behind
      · simpa [headSent] using whole
      · exact tails other behind

def MsgQ.behind (mq : MsgQ) (rest : List Msg) : Bool → List (List Byte)
  | false => pending mq.prio ++ pending rest
  | true => pending rest ++ pending mq.queue

theorem ordered_next {mq : MsgQ} {prio : Bool} {m : Msg} {rest : List Msg} (next : nextList mq = some prio)
    (shape : mq.list prio = m :: rest) : mq.ordered = m.msg.bytes.drop m.sent :: mq.behind rest prio := by
  unfold nextList at next
  rw [MsgQ.ordered]
  split at next
  · rename_i partly
    cases next
    change mq.queue = m :: rest at shape
    rw [shape] at partly ⊢
    rw [splitHead_sent rest (of_decide_eq_true partly)]
    rfl
  · rename_i whole
    rw [splitHead_unsent (Bool.eq_false_iff.mpr whole)]
    split at next
    · cases next
      change mq.prio = m :: rest at shape
      rw [shape]
      rfl
    · rename_i no_prio
      split at next
      · cases next
        change mq.queue = m :: rest at shape
        have empty : mq.prio = [] := not_not.mp no_prio
        rw [MsgQ.behind, shape, empty]
        rfl
      · cases next

theorem ordered_replace {mq : MsgQ} {prio : Bool} (next : nextList mq = some prio) (l : List Msg)
    (length count : UInt32) :
    (headSent l = false → (mq.replace prio l length count).ordered = mq.behind l prio) ∧
      ∀ m rest, l = m :: rest → 0 < m.sent →
        (mq.replace prio l length count).ordered = m.msg.bytes.drop m.sent :: mq.behind rest prio := by
  cases prio with
  | false =>
    constructor
    · intro unsent
      rw [MsgQ.ordered, MsgQ.replace, splitHead_unsent unsent]
      rfl
    · rintro m rest rfl sent
      rw [MsgQ.ordered, MsgQ.replace, splitHead_sent rest sent]
      rfl
  | true =>
    have unsent : headSent mq.queue = false := by
      unfold nextList at next
      split at next
      · cases next
      · rename_i whole
        exact Bool.eq_false_iff.mpr whole
    have ordered : (mq.replace true l length count).ordered = pending l ++ pending mq.queue := by
      rw [MsgQ.ordered, MsgQ.replace, splitHead_unsent unsent]
      rfl
    constructor
    · exact fun _ => ordered
    · rintro m rest rfl -
      exact ordered

theorem delmsg_ordered {mq : MsgQ} {prio : Bool} {n : Nat} (tails : mq.TailsWhole) (some_bytes : n ≠ 0)
    (next : nextList mq = some prio) :
    (msgqDelmsg mq prio n).2.2 ++ (msgqDelmsg mq prio n).1.ordered.flatten = mq.ordered.flatten ∧
      (msgqDelmsg mq prio n).1.TailsWhole := by
  obtain ⟨m, rest, shape⟩ := nextList_some next
  have mine := tails prio
  rw [shape, List.tail_cons] at mine
  rw [ordered_next next shape, List.flatten_cons]
  unfold msgqDelmsg
  simp only [shape]
  split
  · rename_i all
    rw [(ordered_replace next _ _ _).1 (headSent_of_tails mine)]
    refine ⟨rfl, forall_class prio ?_ ?_⟩
    · rw [MsgQ.list_replace]
      exact fun other mem => mine other (List.mem_of_mem_tail mem)
    · rw [MsgQ.list_replace_not]
      exact tails _
  · rename_i part
    rw [(ordered_replace next _ _ _).2 _ _ rfl (by simp only; omega)]
    refine ⟨?_, forall_class prio ?_ ?_⟩
    · rw [List.flatten_cons, ← List.append_assoc]
      simp only [← List.drop_drop, List.take_append_drop]
    · rw [MsgQ.list_replace]
      exact mine
    · rw [MsgQ.list_replace_not]
      exact tails _

theorem delete_ordered {mq : MsgQ} (tails : mq.TailsWhole) (n : Nat) :
    (msgqDelete mq n).2 ++ (msgqDelete mq n).1.ordered.flatten = mq.ordered.flatten ∧
      (msgqDelete mq n).1.TailsWhole := by
  induction measure : mq.messages + n using Nat.strongRecOn generalizing mq n with
  | _ k ih =>
  by_cases none_left : n = 0
  · rw [none_left, msgqDelete_zero]
    exact ⟨rfl, tails⟩
  · cases next : nextList mq with
    | none =>
      rw [msgqDelete_none next]
      exact ⟨rfl, tails⟩
    | some prio =>
      obtain ⟨step, step_tails⟩ := delmsg_ordered tails none_left next
      have progress := msgqDelmsg_progress none_left next
      rw [measure] at progress
      obtain ⟨rest, rest_tails⟩ := ih _ progress step_tails _ rfl
      rw [msgqDelete_some none_left next]
      exact ⟨by rw [List.append_assoc, rest, step], rest_tails⟩

theorem Built.tails {mq : MsgQ} (built : Built mq) : mq.TailsWhole := by
  induction built with
  | init => exact fun prio => by cases prio <;> simp [MsgQ.list]
  | @add mq mb prio _ tails =>
    unfold msgqAdd
    refine forall_class prio ?_ ?_
    · intro m mem
      have mine := tails prio
      rw [MsgQ.list_replace] at mem
      cases list : mq.list prio with
      | nil => simp [list] at mem
      | cons first rest =>
        rw [list] at mem mine
        rcases List.mem_append.mp mem with old | new
        · exact mine m old
        · rw [List.mem_singleton.mp new]
    · rw [MsgQ.list_replace_not]
      exact tails _
  | delete n _ tails => exact (delete_ordered tails n).2

theorem delete_front {mq : MsgQ} (tails : mq.TailsWhole) {n : Nat} (enough : n ≤ mq.remaining) :
    (msgqDelete mq n).2 = mq.ordered.flatten.take n ∧
      (msgqDelete mq n).1.ordered.flatten = mq.ordered.flatten.drop n := by
  have whole := (delete_ordered tails n).1
  have length := length_msgqDelete enough
  rw [← whole]
  exact ⟨(List.take_left' length).symm, (List.drop_left' length).symm⟩

theorem stream_ordered {mq : MsgQ} (tails : mq.TailsWhole) : mq.stream = mq.ordered.flatten := by
  rw [MsgQ.stream, (delete_front tails (Nat.le_refl _)).1]
  exact List.take_of_length_le (Nat.le_of_eq (length_ordered mq))

/-- The elements filled, after which at least `room` more may be. -/
structure Filled (count : Int) (len : UInt32) (pieces : List (List Byte)) (room : Int) (s : Mapping) :
    Prop where
  iov : s.iov = pieces
  count_left : s.count = count - pieces.length
  room_left : 0 < count → room ≤ s.count
  len_sum : s.len = len + UInt32.ofNat pieces.flatten.length

section
variable {count : Int} {len : UInt32}

theorem Filled.fill {pieces : List (List Byte)} {s : Mapping} (filled : Filled count len pieces 1 s)
    (bytes : List Byte) :
    Ends (Filled count len (pieces ++ [bytes]) 0) (Filled count len (pieces ++ [bytes]) 1) (s.fill bytes) := by
  have next : ∀ room : Int, (0 < count → room ≤ s.count - 1) →
      Filled count len (pieces ++ [bytes]) room ⟨s.iov ++ [bytes], s.count - 1, s.len + UInt32.ofNat bytes.length⟩ := by
    intro room left
    refine ⟨by rw [filled.iov], ?_, left, ?_⟩
    · rw [filled.count_left, List.length_append, List.length_singleton]
      push_cast
      omega
    · rw [filled.len_sum, List.flatten_append, List.length_append, UInt32.ofNat_add, UInt32.add_assoc]
      simp
  have room := filled.room_left
  unfold Mapping.fill
  simp only
  split
  · exact next 0 fun positive => by have := room positive; omega
  · exact next 1 fun positive => by have := room positive; omega

def Returned (count : Int) (len : UInt32) (all : List (List Byte)) (s : Mapping) : Prop :=
  ∃ pieces, pieces <+: all ∧ Filled count len pieces 0 s

theorem mapHead_ends {before : List (List Byte)} {s : Mapping} (filled : Filled count len before 1 s)
    (l : List Msg) (after : List (List Byte)) :
    Ends (Returned count len (before ++ (pending (splitHead l).1 ++ after)))
      (fun r => r.1 = (splitHead l).2 ∧ Filled count len (before ++ pending (splitHead l).1) 1 r.2)
      (mapHead l s) := by
  cases l with
  | nil => exact ⟨rfl, by rw [splitHead_unsent rfl, pending_nil, List.append_nil]; exact filled⟩
  | cons m rest =>
    rw [mapHead]
    split
    · rename_i sent
      rw [splitHead_sent rest sent]
      have first := filled.fill (m.msg.bytes.drop m.sent)
      cases fill : s.fill (m.msg.bytes.drop m.sent) with
      | error s' =>
        rw [fill] at first
        refine ⟨_, ?_, first⟩
        rw [pending_cons, pending_nil, ← List.append_assoc]
        exact List.prefix_append _ _
      | ok s' =>
        rw [fill] at first
        exact ⟨rfl, first⟩
    · rename_i unsent
      have whole : headSent (m :: rest) = false := decide_eq_false unsent
      rw [splitHead_unsent whole]
      exact ⟨rfl, by rw [pending_nil, List.append_nil]; exact filled⟩

theorem mapLoop_ends {before : List (List Byte)} {s : Mapping} (filled : Filled count len before 1 s)
    (l : List Msg) (after : List (List Byte)) :
    Ends (Returned count len (before ++ (l.map (fun m => m.msg.bytes) ++ after)))
      (Filled count len (before ++ l.map fun m => m.msg.bytes) 1) (mapLoop l s) := by
  induction l generalizing before s with
  | nil =>
    rw [List.map_nil, List.append_nil]
    exact filled
  | cons m rest ih =>
    rw [mapLoop]
    have first := filled.fill m.msg.bytes
    cases fill : s.fill m.msg.bytes with
    | error s' =>
      rw [fill] at first
      refine ⟨_, ?_, first⟩
      exact ⟨rest.map (fun m => m.msg.bytes) ++ after, by simp⟩
    | ok s' =>
      rw [fill] at first
      have behind := ih first
      simp only [List.append_assoc, List.singleton_append] at behind
      exact behind

theorem mapLists_ends {mq : MsgQ} (tails : mq.TailsWhole) :
    Ends (Returned count len mq.ordered) (Filled count len mq.ordered 1) (mapLists mq ⟨[], count, len⟩) := by
  have start : Filled count len [] 1 ⟨[], count, len⟩ :=
    ⟨rfl, by simp, fun positive => positive, (UInt32.add_zero len).symm⟩
  have ordered : mq.ordered = pending (splitHead mq.queue).1 ++ (pending (splitHead mq.prio).1 ++
      (pending (splitHead mq.prio).2 ++ pending (splitHead mq.queue).2)) := by
    rw [MsgQ.ordered, ← pending_splitHead mq.prio, List.append_assoc]
  have behind_queue := pending_whole (splitHead_whole (tails false))
  have behind_prio := pending_whole (splitHead_whole (tails true))
  change pending (splitHead mq.queue).2 = _ at behind_queue
  change pending (splitHead mq.prio).2 = _ at behind_prio
  rw [ordered]
  unfold mapLists
  refine (mapHead_ends start mq.queue _).bind ?_
  rintro ⟨queue, s⟩ ⟨rfl, queue_head⟩
  refine (mapHead_ends queue_head mq.prio _).bind ?_
  rintro ⟨prio, s⟩ ⟨rfl, prio_head⟩
  rw [behind_prio, behind_queue]
  have prio_loop := mapLoop_ends prio_head (splitHead mq.prio).2 ((splitHead mq.queue).2.map fun m => m.msg.bytes)
  simp only [List.nil_append, List.append_assoc] at prio_loop
  refine prio_loop.bind fun s behind => ?_
  have queue_loop := mapLoop_ends behind (splitHead mq.queue).2 []
  simp only [List.append_nil, List.append_assoc] at queue_loop
  exact queue_loop

/-- What `msgq_mapiov` fills in: the first of the messages, no more than there are elements. -/
theorem msgqMapiov_returned {mq : MsgQ} (tails : mq.TailsWhole) (count : Int) (len : UInt32) :
    Returned count len mq.ordered (msgqMapiov mq count len) := by
  unfold msgqMapiov
  simp only
  split
  · exact ⟨[], List.nil_prefix, rfl, by simp, fun positive => Int.le_of_lt positive, (UInt32.add_zero len).symm⟩
  · have ends : Ends (Returned count len mq.ordered) _ _ := mapLists_ends tails
    cases result : mapLists mq ⟨[], count, len⟩ with
    | error s =>
      rw [result] at ends
      exact ends
    | ok s =>
      rw [result] at ends
      obtain ⟨iov, count_left, room_left, len_sum⟩ : Filled count len mq.ordered 1 s := ends
      exact ⟨_, List.prefix_rfl, iov, count_left, fun positive => Int.le_of_lt (room_left positive), len_sum⟩

end

/-- The vector shows the first bytes that a deletion goes through, and a deletion of as many as
were written leaves the others. -/
theorem mapiov_delete {mq : MsgQ} (built : Built mq) (count : Int) {n : Nat}
    (within : n ≤ (mapped mq count).length) :
    mapped mq count <+: mq.stream ∧
      (0 < count → ((msgqMapiov mq count 0).iov.length : Int) ≤ count) ∧
      (msgqMapiov mq count 0).len = UInt32.ofNat (mapped mq count).length ∧
      (msgqDelete mq n).2 = (mapped mq count).take n ∧
      (msgqDelete mq n).1.stream = mq.stream.drop n := by
  obtain ⟨pieces, shown, filled⟩ := msgqMapiov_returned built.tails count 0
  have bytes : mapped mq count = pieces.flatten := by rw [mapped, filled.iov]
  have front : mapped mq count <+: mq.ordered.flatten := by
    obtain ⟨others, whole⟩ := shown
    rw [bytes, ← whole, List.flatten_append]
    exact List.prefix_append _ _
  have enough : n ≤ mq.remaining := by
    rw [← length_ordered mq]
    exact within.trans front.length_le
  obtain ⟨taken, left⟩ := delete_front built.tails enough
  rw [stream_ordered built.tails, stream_ordered (Built.delete n built).tails, taken, left]
  refine ⟨front, fun positive => ?_, ?_, ?_, rfl⟩
  · have room := filled.room_left positive
    rw [filled.count_left] at room
    rw [filled.iov]
    omega
  · rw [filled.len_sum, bytes, UInt32.zero_add]
  · obtain ⟨others, whole⟩ := front
    rw [← whole, List.take_append_of_le_length within]

def twoQueued : MsgQ :=
  msgqAdd (msgqAdd {} ⟨[74, 13, 10], by decide, by decide⟩ false) ⟨[82, 13, 10], by decide, by decide⟩ true

theorem built_twoQueued : Built twoQueued :=
  .add ⟨[82, 13, 10], by decide, by decide⟩ true (.add ⟨[74, 13, 10], by decide, by decide⟩ false .init)

theorem mapiov_delete_twoQueued :
    mapped twoQueued 1 = [82, 13, 10] ∧ (msgqDelete twoQueued 2).2 = [82, 13] ∧
      (msgqDelete twoQueued 2).1.stream = twoQueued.stream.drop 2 := by
  have result := mapiov_delete built_twoQueued 1 (n := 2) (by decide)
  exact ⟨by decide, result.2.2.2.1, result.2.2.2.2⟩

end Ircd.Buffers

import Ircd.Events.Timers
import Mathlib.Data.List.TakeWhile

/-! What holds of the timer queue in every run. -/

set_option autoImplicit false

namespace Ircd.Events
open Ircd.Library

variable {τ : Type} [DecidableEq τ]

def Before (s : State τ) (a b : τ) : Prop :=
  s.expire a < s.expire b ∨ s.expire a = s.expire b ∧ s.stamp a < s.stamp b

/-- The queue holds the timers of `l` in this order. -/
structure Queue (s : State τ) (l : List τ) : Prop where
  cells : s.links.From (.head ()) l
  distinct : l.Nodup
  off : ∀ t, t ∉ l → s.links.next t = none ∧ s.links.prevnextp t = none
  sorted : l.Pairwise (Before s)
  stamps : ∀ t ∈ l, s.stamp t < s.enqueued

variable {s s' : State τ} {l : List τ}

omit [DecidableEq τ] in
theorem Queue.congr (queue : Queue s l) (links : s'.links = s.links) (expire : ∀ t ∈ l, s'.expire t = s.expire t)
    (stamp : s'.stamp = s.stamp) (enqueued : s'.enqueued = s.enqueued) :
    Queue s' l := by
  refine ⟨links ▸ queue.cells, queue.distinct, links ▸ queue.off, ?_, ?_⟩
  · apply queue.sorted.imp_of_mem
    intro a b mem_a mem_b before
    unfold Before at before ⊢
    rwa [expire a mem_a, expire b mem_b, stamp]
  · rw [stamp, enqueued]
    exact queue.stamps

def entered (s : State τ) (t : τ) (l : List τ) : List τ :=
  (l.takeWhile fun other => s.expire other ≤ s.expire t) ++ t :: l.dropWhile fun other => s.expire other ≤ s.expire t

variable {t : τ}

theorem mem_entered {other : τ} :
    other ∈ entered s t l ↔ other = t ∨ other ∈ l := by
  have parts : other ∈ l ↔ other ∈ (l.takeWhile fun other => decide (s.expire other ≤ s.expire t)) ∨
      other ∈ l.dropWhile fun other => decide (s.expire other ≤ s.expire t) := by
    rw [← List.mem_append, List.takeWhile_append_dropWhile]
  rw [parts, entered, List.mem_append, List.mem_cons]
  tauto

omit [DecidableEq τ] in
theorem expire_dropWhile (sorted : l.Pairwise (Before s)) (time : Int) :
    ∀ other ∈ l.dropWhile (fun other => s.expire other ≤ time), time < s.expire other := by
  induction l with
  | nil => exact fun _ => nofun
  | cons a l ih =>
    obtain ⟨first, rest⟩ := List.pairwise_cons.mp sorted
    by_cases early : s.expire a ≤ time
    · rw [List.dropWhile_cons_of_pos (by simpa using early)]
      exact ih rest
    · rw [List.dropWhile_cons_of_neg (by simpa using early)]
      intro other mem
      rcases List.mem_cons.mp mem with rfl | later
      · omega
      · have before := first other later
        unfold Before at before
        omega

omit [DecidableEq τ] in
theorem sorted_entered (queue : Queue s l) (fresh : t ∉ l)
    (expire : ∀ other ∈ l, s'.expire other = s.expire other) (stamp : ∀ other ∈ l, s'.stamp other = s.stamp other)
    (last : s'.stamp t = s.enqueued) : (entered s' t l).Pairwise (Before s') := by
  have sorted : l.Pairwise (Before s') := by
    apply queue.sorted.imp_of_mem
    intro a b mem_a mem_b before
    unfold Before at before ⊢
    rwa [expire a mem_a, expire b mem_b, stamp a mem_a, stamp b mem_b]
  have split := List.takeWhile_append_dropWhile (p := fun other => decide (s'.expire other ≤ s'.expire t)) (l := l)
  have pairs := sorted
  rw [← split] at pairs
  obtain ⟨front, back, across⟩ := List.pairwise_append.mp pairs
  have later := expire_dropWhile sorted (s'.expire t)
  refine List.pairwise_append.mpr ⟨front, List.pairwise_cons.mpr ⟨fun b mem => .inl (later b mem), back⟩, ?_⟩
  intro a mem_a b mem_b
  rcases List.mem_cons.mp mem_b with rfl | mem_b
  · have upto : s'.expire a ≤ s'.expire b := by simpa using List.mem_takeWhile_imp mem_a
    have in_l : a ∈ l := (List.takeWhile_sublist _).subset mem_a
    have older := queue.stamps a in_l
    unfold Before
    rw [last, stamp a in_l]
    omega
  · exact across a mem_a b mem_b

theorem Queue.enqueue (queue : Queue s l) (fresh : t ∉ l) {fuel : Nat} (ends : timerEnqueue fuel s t = some s') :
    (∃ slot, s' = linkIn (setExpire s t) t slot) ∧ Queue s' (entered (setExpire s t) t l) := by
  obtain ⟨slot, found, rfl⟩ := Option.map_eq_some_iff.mp ends
  refine ⟨⟨slot, rfl⟩, ?_⟩
  have others : ∀ other ∈ l, other ≠ t := fun other mem same => fresh (same ▸ mem)
  have expire_eq : ∀ other ∈ l, (setExpire s t).expire other = s.expire other := fun other mem =>
    Function.update_of_ne (others other mem) _ _
  have stamp_eq : ∀ other ∈ l, (linkIn (setExpire s t) t slot).stamp other = s.stamp other := fun other mem =>
    Function.update_of_ne (others other mem) _ _
  have last : (linkIn (setExpire s t) t slot).stamp t = s.enqueued := Function.update_self ..
  -- The walk stops behind the timers that do not expire later.
  have place : slot = endRef (.head ()) (l.takeWhile fun other =>
      decide ((setExpire s t).expire other ≤ (setExpire s t).expire t)) := by
    have more := Links.seek_mono found (Nat.le_max_left fuel (l.length + 1))
    have walk := queue.cells.seek (fun other => decide ((setExpire s t).expire t < (setExpire s t).expire other))
      (Nat.lt_of_lt_of_le (Nat.lt_succ_self l.length) (Nat.le_max_right fuel (l.length + 1)))
    have same : some slot = some _ := more.symm.trans walk
    rw [Option.some.inj same]
    congr 2
    funext other
    simp only [← decide_not, Int.not_lt]
  have cells := queue.cells
  have distinct := queue.distinct
  have fresh_parts := fresh
  rw [← List.takeWhile_append_dropWhile (p := fun other =>
    decide ((setExpire s t).expire other ≤ (setExpire s t).expire t)) (l := l)] at cells distinct fresh_parts
  subst place
  refine ⟨cells.insert distinct fresh_parts nofun (fun _ _ => nofun), ?_, ?_, ?_, ?_⟩
  · exact List.nodup_middle.mpr (List.nodup_cons.mpr ⟨fresh_parts, distinct⟩)
  · intro other outside
    have untouched := cells.insert_outside outside nofun
    have off := queue.off other fun mem => outside (mem_entered.mpr (.inr mem))
    exact ⟨untouched.1.trans off.1, untouched.2.trans off.2⟩
  · exact sorted_entered queue fresh expire_eq stamp_eq last
  · intro other mem
    rcases mem_entered.mp mem with rfl | mem
    · rw [last]
      exact Nat.lt_succ_self _
    · rw [stamp_eq other mem]
      exact Nat.lt_succ_of_lt (queue.stamps other mem)

theorem Queue.enqueue_ends (queue : Queue s l) (t : τ) :
    ∃ fuel s', timerEnqueue fuel s t = some s' := by
  have walk := queue.cells.seek (fun other => decide ((setExpire s t).expire t < (setExpire s t).expire other))
    (Nat.lt_succ_self l.length)
  exact ⟨l.length + 1, _, Option.map_eq_some_iff.mpr ⟨_, walk, rfl⟩⟩

theorem Queue.dequeue (queue : Queue s l) (there : t ∈ l) :
    Queue (genDequeue s t) (l.erase t) := by
  obtain ⟨before, after, rfl⟩ := List.append_of_mem there
  have fresh := (List.nodup_cons.mp (List.nodup_middle.mp queue.distinct)).1
  have gone : (before ++ t :: after).erase t = before ++ after := by
    rw [List.erase_append_right _ (fun mem => fresh (List.mem_append_left after mem)), List.erase_cons_head]
  rw [gone]
  refine ⟨queue.cells.clip queue.distinct, ?_, ?_, ?_, ?_⟩
  · exact (List.nodup_cons.mp (List.nodup_middle.mp queue.distinct)).2
  · intro other outside
    by_cases self : other = t
    · subst self
      exact Links.clip_self s.links other
    · have outside : other ∉ before ++ t :: after := by
        rw [List.mem_append, List.mem_cons]
        rw [List.mem_append] at outside
        tauto
      have untouched := queue.cells.clip_outside queue.distinct outside
      have off := queue.off other outside
      exact ⟨untouched.1.trans off.1, untouched.2.trans off.2⟩
  · exact queue.sorted.sublist ((List.sublist_cons_self t after).append_left before)
  · intro other mem
    apply queue.stamps other
    rw [List.mem_append] at mem
    rw [List.mem_append, List.mem_cons]
    tauto

theorem Queue.onQueue_iff (queue : Queue s l) (t : τ) : s.onQueue t = true ↔ t ∈ l := by
  constructor
  · intro linked
    by_contra outside
    rw [State.onQueue, (queue.off t outside).2] at linked
    cases linked
  · intro there
    obtain ⟨before, after, rfl⟩ := List.append_of_mem there
    rw [State.onQueue, queue.cells.prev_endRef]
    rfl

structure Good (s : State τ) (l : List τ) : Prop where
  queue : Queue s l
  member : ∀ t, t ∈ l ↔ s.active t = true ∧ s.marked t = false
  marked_active : ∀ t, s.marked t = true → s.active t = true
  firing : ∀ t, s.marked t = true ↔ .expire t ∈ s.stack
  single : ∀ t, s.stack.count (.expire t) ≤ 1

theorem good_init (currentTime : Int) : Good (State.init currentTime : State τ) [] where
  queue := ⟨⟨rfl, trivial⟩, List.nodup_nil, fun _ _ => ⟨rfl, rfl⟩, .nil, fun _ => nofun⟩
  member := fun t => by simp [State.init]
  marked_active := fun _ => nofun
  firing := fun t => by simp [State.init]
  single := fun t => by simp [State.init]

theorem Good.active_iff (good : Good s l) (quiet : s.marked t = false) :
    s.active t = true ↔ t ∈ l := by
  rw [good.member t]
  simp [quiet]

theorem Good.congr (good : Good s l) (queue : Queue s' l) (active : s'.active = s.active)
    (marked : s'.marked = s.marked) (stack : ∀ t, s'.stack.count (.expire t) = s.stack.count (.expire t)) :
    Good s' l := by
  refine ⟨queue, ?_, ?_, ?_, ?_⟩
  · rw [active, marked]
    exact good.member
  · rw [active, marked]
    exact good.marked_active
  · intro t
    rw [marked, good.firing t, ← List.count_pos_iff, ← List.count_pos_iff, stack t]
  · intro t
    rw [stack t]
    exact good.single t

/-- A step about a timer that does not fire any more; `there` says whether it is on the queue then. -/
theorem Good.settled {l' : List τ} (there : Bool) (good : Good s l) (queue : Queue s' l')
    (self : t ∈ l' ↔ there = true) (others : ∀ other ≠ t, other ∈ l' ↔ other ∈ l)
    (active : s'.active = Function.update s.active t there)
    (marked : s'.marked = Function.update s.marked t false) (returned : .expire t ∉ s'.stack)
    (stack : ∀ other ≠ t, .expire other ∈ s'.stack ↔ .expire other ∈ s.stack)
    (single : ∀ other, s'.stack.count (.expire other) ≤ 1) : Good s' l' := by
  refine ⟨queue, ?_, ?_, ?_, single⟩
  · intro other
    rw [active, marked]
    by_cases same : other = t
    · simp [same, self]
    · simp [same, others other same, good.member other]
  · intro other
    rw [active, marked]
    by_cases same : other = t
    · simp [same]
    · simpa [same] using good.marked_active other
  · intro other
    rw [marked]
    by_cases same : other = t
    · simp [same, returned]
    · rw [stack other same, ← good.firing other]
      simp [same]

theorem Good.enqueued {ready : State τ} {fuel : Nat} (good : Good s l) (queue : Queue ready (l.erase t))
    (active : ready.active = Function.update s.active t true)
    (marked : ready.marked = Function.update s.marked t false) (returned : .expire t ∉ ready.stack)
    (stack : ∀ other ≠ t, .expire other ∈ ready.stack ↔ .expire other ∈ s.stack)
    (single : ∀ other, ready.stack.count (.expire other) ≤ 1) (ends : timerEnqueue fuel ready t = some s') :
    ∃ l', Good s' l' := by
  obtain ⟨⟨slot, rfl⟩, queued⟩ := queue.enqueue good.queue.distinct.not_mem_erase ends
  refine ⟨_, good.settled true queued ?_ ?_ active marked returned stack single⟩
  · simp [mem_entered]
  · intro other differs
    rw [mem_entered, good.queue.distinct.mem_erase_iff]
    simp [differs]

theorem update_same {α β : Type} [DecidableEq α] {f : α → β} {a : α} {b : β} (same : f a = b) :
    Function.update f a b = f := by
  rw [← same]
  exact Function.update_eq_self a f

theorem update_outside {α β : Type} [DecidableEq α] (f : α → β) {a : α} (b : β) {l : List α} (outside : a ∉ l) :
    ∀ other ∈ l, Function.update f a b other = f other := by
  intro other mem
  have differs : other ≠ a := fun same => outside (same ▸ mem)
  exact Function.update_of_ne differs _ _

theorem count_destroy (u t : τ) (stack : List (Frame τ)) :
    (Frame.destroy u :: stack).count (.expire t) = stack.count (.expire t) :=
  List.count_cons_of_ne (by simp)

theorem count_loop (t : τ) (stack : List (Frame τ)) :
    (Frame.loop :: stack).count (.expire t) = stack.count (.expire t) :=
  List.count_cons_of_ne (by simp)

theorem Good.quiet (good : Good s l) (quiet : s.marked t = false) :
    .expire t ∉ s.stack := by
  rw [← good.firing t, quiet]
  exact Bool.false_ne_true

theorem Good.add {type : TimerType} {value : Int} {fuel : Nat} (good : Good s l) (off : ¬ s.onQueue t = true)
    (ends : timerAdd fuel s t type value = some s') : ∃ l', Good s' l' := by
  rw [good.queue.onQueue_iff] at off
  have times := update_outside s.expire 0 off
  have queue : Queue (setTimer { s with
      active := Function.update s.active t true
      readd := Function.update s.readd t (s.readd t || s.marked t) } t type value) l :=
    good.queue.congr rfl times rfl rfl
  cases firing : s.marked t with
  | true =>
    simp only [timerAdd, setTimer, firing, if_true, Option.some.injEq] at ends queue
    subst ends
    exact ⟨l, good.congr queue (update_same (good.marked_active t firing)) rfl fun _ => rfl⟩
  | false =>
    simp only [timerAdd, setTimer, firing, Bool.false_eq_true, if_false] at ends queue
    rw [← List.erase_of_not_mem off] at queue
    exact good.enqueued queue rfl (update_same firing).symm (good.quiet firing) (fun _ _ => Iff.rfl) good.single ends

theorem Good.del (good : Good s l) (active : s.active t = true) :
    ∃ l', Good (timerDel s t) l' := by
  cases firing : s.marked t with
  | true =>
    simp only [timerDel, firing, if_true]
    exact ⟨l, good.congr (good.queue.congr rfl (fun _ _ => rfl) rfl rfl) rfl rfl fun _ => rfl⟩
  | false =>
    simp only [timerDel, firing, Bool.false_eq_true, if_false, generateDestroy, genDequeue]
    have left := good.queue.dequeue ((good.active_iff firing).mp active)
    refine ⟨l.erase t, good.settled false (left.congr rfl (fun _ _ => rfl) rfl rfl) ?_ ?_ rfl
      (update_same firing).symm ?_ ?_ ?_⟩
    · simp [good.queue.distinct.not_mem_erase]
    · intro other differs
      rw [good.queue.distinct.mem_erase_iff]
      simp [differs]
    · simpa using good.quiet firing
    · intro other _
      simp
    · intro other
      exact (count_destroy t other s.stack).trans_le (good.single other)

theorem Good.chg {type : TimerType} {value : Int} {fuel : Nat} (good : Good s l) (active : s.active t = true)
    (ends : timerChg fuel s t type value = some s') : ∃ l', Good s' l' := by
  cases firing : s.marked t with
  | true =>
    have off : t ∉ l := by simp [good.member t, firing]
    have times := update_outside s.expire 0 off
    simp only [timerChg, setTimer, firing, if_true, Option.some.injEq] at ends
    subst ends
    exact ⟨l, good.congr (good.queue.congr rfl times rfl rfl) rfl rfl fun _ => rfl⟩
  | false =>
    have quiet : (setTimer s t type value).marked t = false := firing
    simp only [timerChg, quiet, Bool.false_eq_true, if_false] at ends
    have left := good.queue.dequeue ((good.active_iff firing).mp active)
    have times := update_outside s.expire 0 (good.queue.distinct.not_mem_erase : t ∉ l.erase t)
    have queue : Queue (genDequeue (setTimer s t type value) t) (l.erase t) := left.congr rfl times rfl rfl
    exact good.enqueued queue (update_same active).symm (update_same firing).symm (good.quiet firing)
      (fun _ _ => Iff.rfl) good.single ends

theorem Good.pop {frame : Frame τ} {rest : List (Frame τ)} (good : Good s l) (top : s.stack = frame :: rest)
    (other : ∀ t, frame ≠ .expire t) : Good { s with stack := rest } l := by
  refine good.congr (good.queue.congr rfl (fun _ _ => rfl) rfl rfl) rfl rfl fun t => ?_
  rw [top, List.count_cons_of_ne (other t)]

theorem Good.push (good : Good s l) : Good { s with stack := .loop :: s.stack } l := by
  exact good.congr (good.queue.congr rfl (fun _ _ => rfl) rfl rfl) rfl rfl fun t => count_loop t s.stack

/-- A turn of `timer_run` ends the loop, or the first timer has expired and its callback starts. -/
theorem timerRunTurn_cases (queue : Queue s l) (rest : List (Frame τ)) :
    timerRunTurn s rest = { s with stack := rest } ∨
      ∃ t after, l = t :: after ∧ s.expire t ≤ s.currentTime ∧
        timerRunTurn s rest = { genDequeue s t with
          marked := Function.update s.marked t true
          readd := Function.update s.readd t (s.readd t || s.type t = .periodic)
          stack := .expire t :: s.stack } := by
  have first : s.links.head () = l.head? := queue.cells.chain.head_eq
  unfold timerRunTurn
  rw [first]
  cases l with
  | nil => exact .inl rfl
  | cons t after =>
    by_cases early : s.currentTime < s.expire t
    · exact .inl (if_pos early)
    · exact .inr ⟨t, after, rfl, Int.not_lt.mp early, if_neg early⟩

theorem Good.turn {rest : List (Frame τ)} (good : Good s l) (top : s.stack = .loop :: rest) :
    ∃ l', Good (timerRunTurn s rest) l' := by
  rcases timerRunTurn_cases good.queue rest with ends | ⟨t, after, rfl, _, fires⟩
  · rw [ends]
    exact ⟨l, good.pop top fun _ => nofun⟩
  · have there : t ∈ t :: after := List.mem_cons_self
    obtain ⟨active, quiet⟩ := (good.member t).mp there
    have left := good.queue.dequeue there
    rw [fires]
    refine ⟨_, left.congr rfl (fun _ _ => rfl) rfl rfl, ?_, ?_, ?_, ?_⟩
    · intro other
      change _ ↔ s.active other = true ∧ Function.update s.marked t true other = false
      rw [good.queue.distinct.mem_erase_iff, good.member other]
      by_cases same : other = t <;> simp [same]
    · intro other
      change Function.update s.marked t true other = true → s.active other = true
      by_cases same : other = t
      · simp [same, active]
      · simpa [same] using good.marked_active other
    · intro other
      change Function.update s.marked t true other = true ↔ .expire other ∈ .expire t :: s.stack
      by_cases same : other = t
      · simp [same]
      · simp [same, good.firing other]
    · intro other
      change (.expire t :: s.stack).count (.expire other) ≤ 1
      by_cases same : other = t
      · rw [same, List.count_cons_self, List.count_eq_zero_of_not_mem (good.quiet quiet)]
      · rw [List.count_cons_of_ne fun equal => same (Frame.expire.inj equal).symm]
        exact good.single other

theorem Good.return {rest : List (Frame τ)} {fuel : Nat} (good : Good s l) (top : s.stack = .expire t :: rest)
    (ends : timerRunReturn fuel s t rest = some s') : ∃ l', Good s' l' := by
  have marked : s.marked t = true := by simp [good.firing t, top]
  have off : t ∉ l := by simp [good.member t, marked]
  have returned : .expire t ∉ rest := by
    have once := good.single t
    rw [top, List.count_cons_self] at once
    exact List.count_eq_zero.mp (by omega)
  have stack : ∀ other ≠ t, .expire other ∈ rest ↔ .expire other ∈ s.stack := by
    intro other differs
    simp [top, differs]
  have single : ∀ other, rest.count (.expire other) ≤ 1 := by
    intro other
    have once := good.single other
    rw [top] at once
    exact (List.count_le_count_cons ..).trans once
  have queue : Queue { s with marked := Function.update s.marked t false, stack := rest } (l.erase t) := by
    rw [List.erase_of_not_mem off]
    exact good.queue.congr rfl (fun _ _ => rfl) rfl rfl
  cases again : s.readd t with
  | true =>
    simp only [timerRunReturn, again, if_true] at ends
    obtain ⟨queued, enqueue, rfl⟩ := Option.map_eq_some_iff.mp ends
    obtain ⟨l', good'⟩ := good.enqueued queue (update_same (good.marked_active t marked)).symm rfl returned stack single
      enqueue
    exact ⟨l', good'.congr (good'.queue.congr rfl (fun _ _ => rfl) rfl rfl) rfl rfl fun _ => rfl⟩
  | false =>
    simp only [timerRunReturn, again, Bool.false_eq_true, if_false, Option.some.injEq, generateDestroy] at ends
    subst ends
    refine ⟨l.erase t, good.settled false (queue.congr rfl (fun _ _ => rfl) rfl rfl) ?_ ?_ rfl rfl ?_ ?_ ?_⟩
    · simp [good.queue.distinct.not_mem_erase]
    · intro other differs
      rw [good.queue.distinct.mem_erase_iff]
      simp [differs]
    · simpa using returned
    · intro other differs
      simpa using stack other differs
    · intro other
      exact (count_destroy t other rest).trans_le (single other)

theorem Good.step {op : Op τ} (good : Good s l) (steps : Step s op s') :
    ∃ l', Good s' l' := by
  obtain ⟨permitted, fuel, ends⟩ := steps
  cases op with
  | add t type value => exact good.add permitted.2 ends
  | del t =>
    cases ends
    exact good.del permitted.2
  | chg t type value => exact good.chg permitted.2 ends
  | run =>
    cases ends
    exact ⟨l, good.push⟩
  | clock time =>
    cases ends
    exact ⟨l, good.congr (good.queue.congr rfl (fun _ _ => rfl) rfl rfl) rfl rfl fun _ => rfl⟩
  | resume =>
    unfold Events.step at ends
    match top : s.stack with
    | [] => exact absurd top permitted
    | .loop :: rest =>
      simp only [top, Option.some.injEq] at ends
      exact ends ▸ good.turn top
    | .expire t :: rest =>
      simp only [top] at ends
      exact good.return top ends
    | .destroy t :: rest =>
      simp only [top, Option.some.injEq] at ends
      exact ⟨l, ends ▸ good.pop top fun _ => nofun⟩

theorem Reachable.good (reachable : Reachable s) : ∃ l, Good s l := by
  induction reachable with
  | init currentTime => exact ⟨[], good_init currentTime⟩
  | step _ steps ih =>
    obtain ⟨l, good⟩ := ih
    exact good.step steps

theorem Good.count (good : Good s l) (t : τ) :
    l.count t = if s.active t = true ∧ .expire t ∉ s.stack then 1 else 0 := by
  have there : t ∈ l ↔ s.active t = true ∧ .expire t ∉ s.stack := by
    rw [good.member t, ← good.firing t, Bool.not_eq_true]
  by_cases mem : t ∈ l
  · rw [List.count_eq_one_of_mem good.queue.distinct mem, if_pos (there.mp mem)]
  · rw [List.count_eq_zero_of_not_mem mem, if_neg (fun both => mem (there.mpr both))]

theorem stack_enqueue {fuel : Nat} (ends : timerEnqueue fuel s t = some s') :
    s'.stack = s.stack := by
  obtain ⟨slot, _, rfl⟩ := Option.map_eq_some_iff.mp ends
  rfl

/-- Only a turn of `timer_run` starts the callback for an expiry, and only for a timer that has
expired. -/
theorem Good.delivers {op : Op τ} (good : Good s l) (steps : Step s op s')
    (starts : s'.stack = .expire t :: s.stack) : s.expire t ≤ s.currentTime := by
  obtain ⟨permitted, fuel, ends⟩ := steps
  have longer := congrArg List.length starts
  rw [List.length_cons] at longer
  cases op with
  | add u type value =>
    unfold Events.step timerAdd at ends
    dsimp only at ends
    split at ends
    · cases ends
      simp [setTimer] at longer
    · rw [stack_enqueue ends] at longer
      simp [setTimer] at longer
  | del u =>
    simp only [Events.step, Option.some.injEq, timerDel] at ends
    subst ends
    split at starts
    · simp at starts
    · simp [generateDestroy] at starts
  | chg u type value =>
    unfold Events.step timerChg at ends
    dsimp only at ends
    split at ends
    · cases ends
      simp [setTimer] at longer
    · rw [stack_enqueue ends] at longer
      simp [setTimer, genDequeue] at longer
  | run =>
    cases ends
    simp at starts
  | clock time =>
    cases ends
    simp at longer
  | resume =>
    unfold Events.step at ends
    match top : s.stack with
    | [] => exact absurd top permitted
    | .loop :: rest =>
      simp only [top, Option.some.injEq] at ends
      rcases timerRunTurn_cases good.queue rest with stops | ⟨u, after, _, expired, fires⟩
      · rw [← ends, stops, top] at longer
        simp only [List.length_cons] at longer
        omega
      · rw [← ends, fires] at starts
        cases starts
        exact expired
    | .expire u :: rest =>
      simp only [top, timerRunReturn] at ends
      split at ends
      · obtain ⟨queued, enqueue, rfl⟩ := Option.map_eq_some_iff.mp ends
        rw [top] at longer
        change queued.stack.length = _ at longer
        rw [stack_enqueue enqueue] at longer
        simp only [List.length_cons] at longer
        omega
      · cases ends
        simp [generateDestroy] at starts
    | .destroy u :: rest =>
      simp only [top, Option.some.injEq] at ends
      rw [← ends, top] at longer
      simp only [List.length_cons] at longer
      omega

theorem Good.ends (good : Good s l) {op : Op τ} (permitted : Permitted s op) :
    ∃ s', Step s op s' := by
  suffices ∃ fuel s', Events.step fuel s op = some s' by
    obtain ⟨fuel, s', ends⟩ := this
    exact ⟨s', permitted, fuel, ends⟩
  cases op with
  | add t type value =>
    have off : t ∉ l := by
      rw [← good.queue.onQueue_iff]
      exact permitted.2
    unfold Events.step timerAdd
    dsimp only
    split
    · exact ⟨0, _, rfl⟩
    · refine Queue.enqueue_ends (l := l) ?_ t
      exact good.queue.congr rfl (update_outside s.expire 0 off) rfl rfl
  | del t => exact ⟨0, _, rfl⟩
  | chg t type value =>
    unfold Events.step timerChg
    dsimp only
    split
    · exact ⟨0, _, rfl⟩
    · rename_i quiet
      have quiet : s.marked t = false := Bool.not_eq_true _ ▸ quiet
      have left := good.queue.dequeue ((good.active_iff quiet).mp permitted.2)
      have times := update_outside s.expire 0 (good.queue.distinct.not_mem_erase : t ∉ l.erase t)
      refine Queue.enqueue_ends (l := l.erase t) ?_ t
      exact left.congr rfl times rfl rfl
  | run => exact ⟨0, _, rfl⟩
  | clock time => exact ⟨0, _, rfl⟩
  | resume =>
    unfold Events.step
    match top : s.stack with
    | [] => exact absurd top permitted
    | .loop :: rest => exact ⟨0, _, rfl⟩
    | .expire t :: rest =>
      dsimp only [timerRunReturn]
      split
      · have queue : Queue { s with marked := Function.update s.marked t false, stack := rest } l :=
          good.queue.congr rfl (fun _ _ => rfl) rfl rfl
        obtain ⟨fuel, queued, enqueue⟩ := queue.enqueue_ends t
        exact ⟨fuel, _, Option.map_eq_some_iff.mpr ⟨queued, enqueue, rfl⟩⟩
      · exact ⟨0, _, rfl⟩
    | .destroy t :: rest => exact ⟨0, _, rfl⟩

/-- In every run, also while callbacks run: the queue is a list with consistent back pointers, in
the order of expiry and then of insertion; each active timer is on it exactly once, but for
those whose expiry callback is running; an expiry is delivered only to a timer that has expired;
and every permitted call returns. -/
theorem timer_queue_kept {s : State τ} (reachable : Reachable s) :
    ∃ l : List τ, Chain s.links.next (s.links.head ()) l ∧ Back s.links.prevnextp (.head ()) l ∧
      l.Pairwise (Before s) ∧
      (∀ t, l.count t = if s.active t = true ∧ .expire t ∉ s.stack then 1 else 0) ∧
      (∀ op s' t, Step s op s' → s'.stack = .expire t :: s.stack → s.expire t ≤ s.currentTime) ∧
      ∀ op, Permitted s op → ∃ s', Step s op s' := by
  obtain ⟨l, good⟩ := reachable.good
  exact ⟨l, good.queue.cells.chain, good.queue.cells.back, good.queue.sorted, good.count,
    fun _ _ _ steps starts => good.delivers steps starts, fun _ permitted => good.ends permitted⟩

/-- A timer is added from outside. -/
theorem timer_queue_kept_one :
    ∃ s : State Nat, Reachable s ∧ s.active 7 = true ∧ s.stack = [] ∧ ∃ l : List Nat, l.count 7 = 1 := by
  have steps : Step (State.init 0 : State Nat) (.add 7 .absolute 5)
      (linkIn (setExpire (setTimer { State.init 0 with
        active := Function.update (State.init 0 : State Nat).active 7 true
        readd := Function.update (State.init 0 : State Nat).readd 7 false } 7 .absolute 5) 7) 7 (.head ())) :=
    ⟨⟨rfl, nofun⟩, 1, rfl⟩
  have reachable := Reachable.step (.init 0) steps
  obtain ⟨l, _, _, _, once, _⟩ := timer_queue_kept reachable
  refine ⟨_, reachable, rfl, rfl, l, ?_⟩
  rw [once 7]
  rfl

end Ircd.Events

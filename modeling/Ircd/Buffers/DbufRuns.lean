import Ircd.Buffers.DbufPut

/-! Runs of a receive buffer: any sequence of `dbuf_put`, `dbuf_get`, `dbuf_delete` and
`dbuf_getmsg`, with whatever the other buffers do to the pool in between.
-/

set_option autoImplicit false

namespace Ircd.Buffers
open Ircd.Library Ircd.Text

inductive Event where
  | put (env : PutEnv) (buf : List Char) (ok : Bool)
  | get (n : Nat) (out : List Char)
  | delete (n : Nat)
  | getmsg (n : Nat) (line : List Char)

/-- The byte FIFO: `none` when the call cannot give this result. -/
def fifoStep (q : List Char) : Event → Option (List Char)
  | .put _ buf ok => some (if ok then q ++ buf else [])
  | .get n out => if out = q.take n then some (q.drop n) else none
  | .delete n => some (q.drop n)
  | .getmsg n line => if line = (fifoGetmsg n q).1 then some (fifoGetmsg n q).2 else none

def fifo (trace : List Event) : Option (List Char) := trace.foldlM fifoStep []

/-- The calls made so far, the blocks that other buffers have now, and the state reached. -/
inductive DBufRun : Mem → DBuf → List Addr → List Event → Prop
  | init {mem : Mem} {fs others : List Addr} (pool : Pool mem [] fs others) : DBufRun mem {} others []
  -- Other buffers take and give back blocks, and write to their own.
  | interfere {mem mem' : Mem} {dyn : DBuf} {others others' : List Addr} {trace : List Event}
      (run : DBufRun mem dyn others trace)
      (apart : ∀ ls, Chain mem.next dyn.head ls →
        (∀ a ∈ ls, mem'.heap a = mem.heap a) ∧ ∃ fs, Pool mem' ls fs others') : DBufRun mem' dyn others' trace
  | put {mem mem' : Mem} {dyn dyn' : DBuf} {others : List Addr} {trace : List Event}
      (run : DBufRun mem dyn others trace) {env : PutEnv} {buf : List Char} {ok : Bool}
      (unsigned : buf.length < 2 ^ 32) (distinct : (allFreed env.flushes).Nodup)
      (theirs : ∀ a ∈ allFreed env.flushes, a ∈ others) (call : dbufPut env mem dyn buf = some (ok, mem', dyn')) :
      DBufRun mem' dyn' (keptFrom others (allFreed env.flushes)) (trace ++ [.put env buf ok])
  | get {mem mem' : Mem} {dyn dyn' : DBuf} {others : List Addr} {trace : List Event}
      (run : DBufRun mem dyn others trace) {n : Nat} {out : List Char}
      (call : dbufGet mem dyn n = some (mem', dyn', out)) : DBufRun mem' dyn' others (trace ++ [.get n out])
  | delete {mem mem' : Mem} {dyn dyn' : DBuf} {others : List Addr} {trace : List Event}
      (run : DBufRun mem dyn others trace) {n : Nat}
      (call : dbufDelete mem dyn n = some (mem', dyn')) : DBufRun mem' dyn' others (trace ++ [.delete n])
  | getmsg {mem mem' : Mem} {dyn dyn' : DBuf} {others : List Addr} {trace : List Event}
      (run : DBufRun mem dyn others trace) {n : Nat} {line : List Char}
      (call : dbufGetmsg mem dyn n = some (mem', dyn', line)) : DBufRun mem' dyn' others (trace ++ [.getmsg n line])

structure Refines (mem : Mem) (dyn : DBuf) (trace : List Event) (ls : List Addr) : Prop where
  chain : Chain mem.next dyn.head ls
  last : dyn.tail = ls.getLast?
  live : ∀ a ∈ ls, (mem.heap a).start < (mem.heap a).bytes.length
  length : dyn.length.toNat = (ls.map fun a => (mem.heap a).bytes.length - (mem.heap a).start).sum
  bytes : fifo trace = some (content mem ls)

/-- No flush that the call asks for breaks the connection of this buffer. -/
def Event.unbroken : Event → Prop
  | .put env _ _ => ∀ f ∈ env.flushes, f.own = false
  | _ => True

theorem fifo_snoc (trace : List Event) (e : Event) : fifo (trace ++ [e]) = (fifo trace).bind (fifoStep · e) := by
  simp only [fifo, List.foldlM_append, List.foldlM_cons, List.foldlM_nil]
  cases trace.foldlM fifoStep [] with
  | none => rfl
  | some q => cases step : fifoStep q e <;> simp [step]

def Holds (mem : Mem) (dyn : DBuf) (others : List Addr) (trace : List Event) : Prop :=
  ∃ ls fs, Owned mem dyn ls fs others ∧ fifo trace = some (content mem ls)

theorem Holds.step {mem mem' : Mem} {dyn' : DBuf} {ls others' : List Addr} {trace : List Event} {e : Event}
    {q : List Char} (bytes : fifo trace = some (content mem ls)) (leaves : Leaves mem others' q mem' dyn')
    (abstract : fifoStep (content mem ls) e = some q) : Holds mem' dyn' others' (trace ++ [e]) := by
  obtain ⟨ls', fs', owned', bytes', -⟩ := leaves
  refine ⟨ls', fs', owned', ?_⟩
  rw [fifo_snoc, bytes, Option.bind_some, abstract, bytes']

theorem run_holds {mem : Mem} {dyn : DBuf} {others : List Addr} {trace : List Event}
    (run : DBufRun mem dyn others trace) (unbroken : ∀ e ∈ trace, e.unbroken) : Holds mem dyn others trace := by
  induction run with
  | @init mem fs others pool => exact ⟨[], fs, ⟨⟨rfl, rfl, by simp⟩, pool, rfl⟩, rfl⟩
  | interfere run apart ih =>
    obtain ⟨ls, fs, owned, bytes⟩ := ih unbroken
    obtain ⟨same, fs', pool'⟩ := apart ls owned.linked.chain
    have content' := content_congr same
    exact ⟨ls, fs', ⟨owned.linked.congr same, pool', by rw [content', owned.length]⟩, by rw [content', bytes]⟩
  | put run unsigned distinct theirs call ih =>
    obtain ⟨ls, fs, owned, bytes⟩ := ih fun e mem_e => unbroken e (List.mem_append_left _ mem_e)
    have spared := unbroken _ (List.mem_append_right _ List.mem_cons_self)
    obtain ⟨ok', mem₁, dyn₁, result, leaves⟩ := dbufPut_spec owned ⟨spared, distinct, theirs⟩
    rw [call] at result
    cases result
    exact Holds.step bytes leaves rfl
  | get run call ih =>
    obtain ⟨ls, fs, owned, bytes⟩ := ih fun e mem_e => unbroken e (List.mem_append_left _ mem_e)
    obtain ⟨mem₁, dyn₁, result, leaves⟩ := dbufGet_spec owned _
    rw [call] at result
    cases result
    exact Holds.step bytes leaves (if_pos rfl)
  | delete run call ih =>
    obtain ⟨ls, fs, owned, bytes⟩ := ih fun e mem_e => unbroken e (List.mem_append_left _ mem_e)
    obtain ⟨mem₁, dyn₁, result, leaves⟩ := dbufDelete_spec owned _
    rw [call] at result
    cases result
    exact Holds.step bytes leaves rfl
  | getmsg run call ih =>
    obtain ⟨ls, fs, owned, bytes⟩ := ih fun e mem_e => unbroken e (List.mem_append_left _ mem_e)
    obtain ⟨mem₁, dyn₁, result, leaves⟩ := dbufGetmsg_spec owned _
    rw [call] at result
    cases result
    exact Holds.step bytes leaves (if_pos rfl)

theorem sum_unread (mem : Mem) (ls : List Addr) :
    (content mem ls).length = (ls.map fun a => (mem.heap a).bytes.length - (mem.heap a).start).sum := by
  induction ls with
  | nil => rfl
  | cons a ls ih => rw [content_cons, List.length_append, ih, length_unread, List.map_cons, List.sum_cons]

/-- In a run in which no flush breaks the connection of the buffer, the buffer is a byte
FIFO after every call, and the next call returns. -/
theorem run_refines_fifo {mem : Mem} {dyn : DBuf} {others : List Addr} {trace : List Event}
    (run : DBufRun mem dyn others trace) (unbroken : ∀ e ∈ trace, e.unbroken) :
    (∃ ls, Refines mem dyn trace ls) ∧
      (∀ n, (dbufGet mem dyn n).isSome ∧ (dbufDelete mem dyn n).isSome ∧ (dbufGetmsg mem dyn n).isSome) ∧
      ∀ env buf, Foreign env.flushes others → (dbufPut env mem dyn buf).isSome := by
  obtain ⟨ls, fs, owned, bytes⟩ := run_holds run unbroken
  refine ⟨⟨ls, owned.linked.chain, owned.linked.last, fun a mem_a => (owned.linked.live a mem_a).1, ?_, bytes⟩,
    fun n => ⟨?_, ?_, ?_⟩, fun env buf foreign => ?_⟩
  · rw [owned.length, sum_unread]
  · obtain ⟨mem', dyn', result, -⟩ := dbufGet_spec owned n
    rw [result]
    rfl
  · obtain ⟨mem', dyn', result, -⟩ := dbufDelete_spec owned n
    rw [result]
    rfl
  · obtain ⟨mem', dyn', result, -⟩ := dbufGetmsg_spec owned n
    rw [result]
    rfl
  · obtain ⟨ok, mem', dyn', result, -⟩ := dbufPut_spec owned foreign
    rw [result]
    rfl

def crowded : Mem := ⟨fun _ => { bytes := ['x'] }, none, 1⟩

/-- The flush breaks that connection, and this one if `own`. -/
def flushing (own : Bool) : PutEnv := ⟨2048, by decide, true, [⟨[0], own⟩], by simp⟩

theorem pool_crowded : Pool crowded [] [] [0] := ⟨rfl, by simp, by simp [crowded], by decide⟩

theorem run_crowded {own ok : Bool} {mem' : Mem} {dyn' : DBuf}
    (call : dbufPut (flushing own) crowded {} ['a'] = some (ok, mem', dyn')) :
    DBufRun mem' dyn' [] [.put (flushing own) ['a'] ok] :=
  .put (.init pool_crowded) (by decide) (by simp [allFreed, flushing]) (by simp [allFreed, flushing]) call

theorem run_refines_fifo_crowded :
    ∃ mem' dyn', DBufRun mem' dyn' [] [.put (flushing false) ['a'] true] ∧
      ∃ ls, Refines mem' dyn' [.put (flushing false) ['a'] true] ls := by
  obtain ⟨⟨ok, mem', dyn'⟩, call, accepted⟩ :
      ∃ r, dbufPut (flushing false) crowded {} ['a'] = some r ∧ r.1 = true := ⟨_, rfl, rfl⟩
  cases accepted
  have run := run_crowded call
  exact ⟨mem', dyn', run, (run_refines_fifo run (by simp [Event.unbroken, flushing])).1⟩

/-- When the flush breaks this very connection, the byte that was put goes into a block of
a buffer whose length is zero. -/
theorem run_not_refines_fifo :
    ¬ ∀ (mem : Mem) (dyn : DBuf) (others : List Addr) (trace : List Event), DBufRun mem dyn others trace →
      ∃ ls, Refines mem dyn trace ls := by
  intro every
  obtain ⟨⟨ok, mem', dyn'⟩, call, empty⟩ :
      ∃ r, dbufPut (flushing true) crowded {} ['a'] = some r ∧ r.1 = true ∧ r.2.2.length = 0 := ⟨_, rfl, rfl, rfl⟩
  simp only at empty
  obtain ⟨ls, refines⟩ := every mem' dyn' [] _ (run_crowded call)
  have held := refines.bytes
  rw [empty.1] at held
  have bytes : content mem' ls = ['a'] := (Option.some_inj.mp held).symm
  have length := refines.length
  rw [← sum_unread, bytes, empty.2] at length
  exact absurd length (by decide)

end Ircd.Buffers

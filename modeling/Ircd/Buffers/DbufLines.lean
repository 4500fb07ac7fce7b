import Ircd.Buffers.DbufRuns
import Mathlib.Data.List.TakeWhile

/-! Lines from a receive buffer: `dbuf_getmsg` sees the bytes that were put and not the blocks
they are in.
-/

set_option autoImplicit false

namespace Ircd.Buffers
open Ircd.Library Ircd.Text

/-- A line of at most `n` bytes is taken from the bytes `q`, which leaves `rest`. -/
structure TakesLine (n : Nat) (q line rest : List Char) : Prop where
  found : ∀ p c, (q.dropWhile isEol)[p]? = some c → isEol c = true → (∀ d ∈ (q.dropWhile isEol).take p, isEol d = false) →
    p < n → line = (q.dropWhile isEol).take p ∧ rest = ((q.dropWhile isEol).drop p).dropWhile isEol
  missing : (∀ d ∈ (q.dropWhile isEol).take n, isEol d = false) → line = [] ∧ rest = q.dropWhile isEol

/-- The bytes of the calls of `dbuf_put`, one after the other. -/
def putBytes (trace : List Event) : List Char :=
  trace.flatMap fun e => match e with
    | .put _ buf _ => buf
    | _ => []

def AllPut (trace : List Event) : Prop := ∀ e ∈ trace, ∃ env buf, e = .put env buf true

theorem fifo_putBytes {trace : List Event} (puts : AllPut trace) : fifo trace = some (putBytes trace) := by
  have step (q : List Char) : trace.foldlM fifoStep q = some (q ++ putBytes trace) := by
    induction trace generalizing q with
    | nil => rw [putBytes, List.flatMap_nil, List.append_nil]; rfl
    | cons e trace ih =>
      obtain ⟨env, buf, rfl⟩ := puts e List.mem_cons_self
      have rest := ih (fun e mem => puts e (List.mem_cons_of_mem _ mem)) (q ++ buf)
      rw [List.append_assoc] at rest
      exact rest
  exact step []

theorem lineOf_append {n : Nat} {c : Char} {line : List Char} (rest : List Char) (before : ∀ d ∈ line, isEol d = false)
    (ends : isEol c = true) (inside : line.length < n) : lineOf n (line ++ c :: rest) = some line := by
  obtain ⟨k, left⟩ : ∃ k, n - line.length = k + 1 := ⟨n - line.length - 1, by omega⟩
  have seen : (line ++ c :: rest).take n = line ++ c :: rest.take k := by
    rw [List.take_append, List.take_of_length_le (Nat.le_of_lt inside), left, List.take_succ_cons]
  have scanned : (line ++ c :: rest.take k).takeWhile (fun c => !isEol c) = line := by
    rw [List.takeWhile_append_of_pos fun d mem => by rw [before d mem]; rfl, List.takeWhile_cons_of_neg (by rw [ends]; decide),
      List.append_nil]
  rw [lineOf, seen, scanned]
  exact if_pos (by rw [List.length_append, List.length_cons]; omega)

theorem lineOf_first {n p : Nat} {c : Char} {q : List Char} (here : q[p]? = some c) (ends : isEol c = true)
    (before : ∀ d ∈ q.take p, isEol d = false) (inside : p < n) : lineOf n q = some (q.take p) := by
  obtain ⟨short, at_p⟩ := List.getElem?_eq_some_iff.mp here
  have cut : q.take p ++ c :: q.drop (p + 1) = q := by rw [← at_p, List.cons_getElem_drop_succ, List.take_append_drop]
  have line := lineOf_append (q.drop (p + 1)) before ends (by
    rw [List.length_take]
    exact Nat.lt_of_le_of_lt (Nat.min_le_left p _) inside)
  rwa [cut] at line

theorem lineOf_none {n : Nat} {q : List Char} (no_end : ∀ d ∈ q.take n, isEol d = false) : lineOf n q = none := by
  have whole : (q.take n).takeWhile (fun c => !isEol c) = q.take n :=
    List.takeWhile_eq_self_iff.mpr fun d mem => by rw [no_end d mem]; rfl
  rw [lineOf, whole]
  exact if_neg (Nat.lt_irrefl _)

theorem fifoGetmsg_takes (n : Nat) (q : List Char) : TakesLine n q (fifoGetmsg n q).1 (fifoGetmsg n q).2 := by
  constructor
  · intro p c here ends before inside
    have short : p < (q.dropWhile isEol).length := (List.getElem?_eq_some_iff.mp here).1
    have length : ((q.dropWhile isEol).take p).length = p := by
      rw [List.length_take, Nat.min_eq_left (Nat.le_of_lt short)]
    rw [fifoGetmsg, lineOf_first here ends before inside]
    dsimp only
    rw [length]
    exact ⟨rfl, rfl⟩
  · intro no_end
    rw [fifoGetmsg, lineOf_none no_end]
    exact ⟨rfl, rfl⟩

/-- In a run in which no flush breaks the connection of the buffer, `dbuf_getmsg` takes a line from the bytes
that are in it, however they were put there. -/
theorem getmsg_takes_line {mem : Mem} {dyn : DBuf} {others : List Addr} {trace : List Event}
    (run : DBufRun mem dyn others trace) (unbroken : ∀ e ∈ trace, e.unbroken) (n : Nat) :
    ∃ q mem' dyn' line rest, fifo trace = some q ∧ (AllPut trace → q = putBytes trace) ∧
      dbufGetmsg mem dyn n = some (mem', dyn', line) ∧ TakesLine n q line rest ∧
      ∃ ls, Refines mem' dyn' (trace ++ [.getmsg n line]) ls ∧ content mem' ls = rest := by
  obtain ⟨ls, fs, owned, bytes⟩ := run_holds run unbroken
  obtain ⟨mem', dyn', call, -⟩ := dbufGetmsg_spec owned n
  have spared : ∀ e ∈ trace ++ [.getmsg n (fifoGetmsg n (content mem ls)).1], e.unbroken := by
    intro e mem_e
    rcases List.mem_append.mp mem_e with earlier | last
    · exact unbroken e earlier
    · rw [List.mem_singleton.mp last]
      trivial
  obtain ⟨⟨ls', refines⟩, -⟩ := run_refines_fifo (run.getmsg call) spared
  refine ⟨content mem ls, mem', dyn', _, _, bytes, fun puts => ?_, call, fifoGetmsg_takes n _, ls', refines, ?_⟩
  · exact Option.some.inj (bytes.symm.trans (fifo_putBytes puts))
  · have after := refines.bytes
    rw [fifo_snoc, bytes, Option.bind_some, fifoStep, if_pos rfl] at after
    exact (Option.some.inj after).symm

theorem getmsg_takes_line_crowded :
    ∃ mem' dyn', DBufRun mem' dyn' [] [.put (flushing false) ['a'] true] ∧
      ∃ q mem'' dyn'' line rest, fifo [.put (flushing false) ['a'] true] = some q ∧
        (AllPut [.put (flushing false) ['a'] true] → q = putBytes [.put (flushing false) ['a'] true]) ∧
        dbufGetmsg mem' dyn' 512 = some (mem'', dyn'', line) ∧ TakesLine 512 q line rest ∧
        ∃ ls, Refines mem'' dyn'' ([.put (flushing false) ['a'] true] ++ [.getmsg 512 line]) ls ∧ content mem'' ls = rest := by
  obtain ⟨⟨ok, mem', dyn'⟩, call, accepted⟩ :
      ∃ r, dbufPut (flushing false) crowded {} ['a'] = some r ∧ r.1 = true := ⟨_, rfl, rfl⟩
  cases accepted
  have run := run_crowded call
  exact ⟨mem', dyn', run, getmsg_takes_line run (by simp [Event.unbroken, flushing]) 512⟩

/-- When the flush breaks this very connection, no line is found in the bytes that were put. -/
theorem getmsg_misses_line :
    ¬ ∀ (mem : Mem) (dyn : DBuf) (others : List Addr) (trace : List Event), DBufRun mem dyn others trace → AllPut trace →
      ∃ mem' dyn' line rest, dbufGetmsg mem dyn 512 = some (mem', dyn', line) ∧ TakesLine 512 (putBytes trace) line rest := by
  intro every
  obtain ⟨⟨ok, mem', dyn'⟩, call, accepted, missed⟩ :
      ∃ r, dbufPut (flushing true) crowded {} ['a', '\n'] = some r ∧ r.1 = true ∧
        (dbufGetmsg r.2.1 r.2.2 512).map (fun s => s.2.2) = some [] := ⟨_, rfl, rfl, rfl⟩
  cases accepted
  have run : DBufRun mem' dyn' [] [.put (flushing true) ['a', '\n'] true] :=
    .put (.init pool_crowded) (by decide) (by simp [allFreed, flushing]) (by simp [allFreed, flushing]) call
  obtain ⟨mem'', dyn'', line, rest, result, takes⟩ := every mem' dyn' [] _ run fun e mem =>
    ⟨_, _, List.mem_singleton.mp mem⟩
  simp only at missed
  rw [result] at missed
  have empty : line = [] := Option.some.inj missed
  have found := takes.found 1 '\n' rfl rfl (by decide) (by decide)
  rw [empty] at found
  exact absurd found.1 (by decide)

end Ircd.Buffers

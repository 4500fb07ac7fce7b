import Ircd.Buffers.Packet

/-! The lines of a stream, and where their bytes are written.

What is collected is the bytes since the last end of line, cut at `BUFSIZE`. The loop of
`server_dopacket` is the one of `connect_dopacket` with the same handler twice.
-/

set_option autoImplicit false

namespace Ircd.Buffers
open Ircd.Text

/-- The bytes since the last end of line, after `u`. -/
def pendingAfter (u : List Char) : List Char → List Char
  | [] => u
  | c :: src => if isEol c then pendingAfter [] src else pendingAfter (u ++ [c]) src

/-- The complete lines of a stream, in front of which `u` was received. -/
def linesFrom (u : List Char) : List Char → List (List Char)
  | [] => []
  | c :: src =>
    if isEol c then (if u = [] then [] else [u.take BUFSIZE]) ++ linesFrom [] src else linesFrom (u ++ [c]) src

/-- A stream split at its ends of line: the empty pieces are skipped, the last one is not complete. -/
def streamLines (stream : List Char) : List (List Char) :=
  ((stream.splitOnP isEol).dropLast.filter (· ≠ [])).map (List.take BUFSIZE)

theorem linesFrom_append (u a b : List Char) : linesFrom u (a ++ b) = linesFrom u a ++ linesFrom (pendingAfter u a) b := by
  induction a generalizing u with
  | nil => rfl
  | cons c a ih =>
    rw [List.cons_append, linesFrom, linesFrom, pendingAfter]
    split
    · rw [ih, List.append_assoc]
    · rw [ih]

theorem linesFrom_eq (stream : List Char) : linesFrom [] stream = streamLines stream := by
  have pieces (u : List Char) : linesFrom u stream =
      ((List.splitOnPPrepend isEol stream u.reverse).dropLast.filter (· ≠ [])).map (List.take BUFSIZE) := by
    induction stream generalizing u with
    | nil => rfl
    | cons c stream ih =>
      rw [linesFrom]
      by_cases ends : isEol c = true
      · have rest := ih []
        rw [List.reverse_nil, List.splitOnPPrepend_nil_right] at rest
        rw [if_pos ends, List.splitOnPPrepend_cons_pos ends, List.reverse_reverse,
          List.dropLast_cons_of_ne_nil (List.splitOnP_ne_nil _ _), List.filter_cons, rest]
        by_cases empty : u = []
        · simp [empty]
        · simp [empty]
      · have next := ih (u ++ [c])
        rw [Bool.not_eq_true] at ends
        rw [List.reverse_append, List.reverse_singleton, List.singleton_append] at next
        rw [List.splitOnPPrepend_cons_neg ends, ends, if_neg Bool.false_ne_true]
        exact next
  exact pieces []

section
variable {σ : Type}

/-- The bytes `u` since the last end of line, as far as there is room, are in the buffer. -/
def Collects (u : List Char) (s : Receiver σ) : Prop := s.line = u.take BUFSIZE

variable {u : List Char}

theorem Collects.endp {s : Receiver σ} (collects : Collects u s) : s.endp = min BUFSIZE u.length := by
  have length := congrArg List.length collects
  rwa [Receiver.line, List.length_map, List.length_range, List.length_take] at length

theorem line_store (s : Receiver σ) (c : Char) : (s.store c).line = s.line := by
  refine List.map_congr_left fun i mem => ?_
  exact Function.update_of_ne (Nat.ne_of_lt (List.mem_range.mp mem)) _ _

theorem store_endp (s : Receiver σ) (c : Char) : (s.store c).buffer (s.store c).endp = c := Function.update_self _ _ _

theorem take_eol {s : Receiver σ} (collects : Collects u s) {c : Char} (ends : isEol c = true) :
    ∃ s', s.take c = (s', decide (u ≠ [])) ∧ Collects u s' ∧ s'.lines = s.lines ∧
      (∀ i, i ∈ s'.writes ↔ i ∈ s.writes ∨ i = s.endp) := by
  have endp := collects.endp
  unfold Receiver.take
  simp only [store_endp, ends, if_true]
  by_cases empty : u = []
  · have at_start : (s.store c).endp = 0 := by
      rw [empty, List.length_nil, Nat.min_zero] at endp
      exact endp
    rw [if_pos at_start]
    refine ⟨s.store c, by simp [empty], ?_, rfl, fun i => by simp [Receiver.store]⟩
    exact (line_store s c).trans collects
  · have past : ¬ (s.store c).endp = 0 := by
      have length := List.length_pos_iff.mpr empty
      have same : (s.store c).endp = s.endp := rfl
      rw [same, endp, BUFSIZE]
      omega
    rw [if_neg past]
    refine ⟨(s.store c).store nul, by simp [empty], ?_, rfl, fun i => by simp [Receiver.store]⟩
    exact (line_store _ nul).trans ((line_store s c).trans collects)

theorem take_byte {s : Receiver σ} (collects : Collects u s) {c : Char} (other : isEol c = false) :
    ∃ s', s.take c = (s', false) ∧ Collects (u ++ [c]) s' ∧ s'.lines = s.lines ∧
      (∀ i, i ∈ s'.writes ↔ i ∈ s.writes ∨ i = s.endp) := by
  have endp := collects.endp
  unfold Receiver.take
  simp only [store_endp, other, Bool.false_eq_true, if_false]
  have same : (s.store c).endp = s.endp := rfl
  by_cases room : (s.store c).endp < BUFSIZE
  · rw [if_pos room]
    rw [same, endp] at room
    have short : s.endp = u.length := by omega
    refine ⟨_, rfl, ?_, rfl, fun i => by simp [Receiver.store]⟩
    have front : ((s.store c).line) = u.take BUFSIZE := (line_store s c).trans collects
    have last : (s.store c).buffer s.endp = c := store_endp s c
    rw [Receiver.line, same] at front
    rw [Collects, Receiver.line]
    simp only [same]
    rw [List.range_succ, List.map_append, front, List.map_singleton, last, List.take_of_length_le (by omega),
      List.take_of_length_le (by rw [List.length_append, List.length_singleton]; omega)]
  · rw [if_neg room]
    rw [same, endp] at room
    refine ⟨_, rfl, ?_, rfl, fun i => by simp [Receiver.store]⟩
    have kept : (s.store c).line = u.take BUFSIZE := (line_store s c).trans collects
    rw [Collects, kept, List.take_append_of_le_length (by omega)]

theorem collects_start (s : Receiver σ) : Collects [] { s with endp := 0 } := rfl

theorem serverLoop_eq (parse : Handler σ) (src : List Char) (s : Receiver σ) :
    serverLoop parse src s = connectLoop parse parse src s := by
  induction src generalizing s with
  | nil => rfl
  | cons c src ih =>
    rw [serverLoop, connectLoop]
    rcases s.take c with ⟨s, _ | _⟩
    · exact ih s
    · dsimp only
      rcases s.hand parse with ⟨parsed, s⟩
      cases parsed with
      | killed => rfl
      | dead => rfl
      | server => rfl
      | unregistered => exact ih _

theorem connectLoop_lines (parseClient parseServer : Handler σ) {src : List Char} {s : Receiver σ}
    (collects : Collects u s) (runs : (connectLoop parseClient parseServer src s).1.isSome = true) :
    (connectLoop parseClient parseServer src s).1 = some (connectLoop parseClient parseServer src s).2.endp ∧
      Collects (pendingAfter u src) (connectLoop parseClient parseServer src s).2 ∧
      (connectLoop parseClient parseServer src s).2.lines = s.lines ++ linesFrom u src := by
  induction src generalizing u s parseClient with
  | nil => exact ⟨rfl, collects, (List.append_nil _).symm⟩
  | cons c src ih =>
    rw [connectLoop] at runs ⊢
    rw [pendingAfter, linesFrom]
    by_cases ends : isEol c = true
    · obtain ⟨s', taken, collects', same, -⟩ := take_eol collects ends
      rw [if_pos ends, if_pos ends]
      rw [taken] at runs ⊢
      by_cases empty : u = []
      · subst empty
        have rest := ih parseClient collects' runs
        rw [same] at rest
        exact rest
      · have complete : decide (u ≠ []) = true := decide_eq_true empty
        have handed : (s'.hand parseClient).2.lines = s.lines ++ [u.take BUFSIZE] := by
          rw [← same, ← collects']
          rfl
        have line : (if u = [] then [] else [u.take BUFSIZE]) = [u.take BUFSIZE] := if_neg empty
        rw [complete] at runs ⊢
        dsimp only at runs ⊢
        rw [line, ← List.append_assoc, ← handed]
        generalize s'.hand parseClient = answer at runs
        obtain ⟨parsed, s''⟩ := answer
        cases parsed with
        | killed => cases runs
        | dead => cases runs
        | server =>
          simp only [serverLoop_eq] at runs ⊢
          exact ih parseServer (collects_start s'') runs
        | unregistered => exact ih parseClient (collects_start s'') runs
    · rw [Bool.not_eq_true] at ends
      obtain ⟨s', taken, collects', same, -⟩ := take_byte collects ends
      rw [ends, if_neg Bool.false_ne_true, if_neg Bool.false_ne_true]
      rw [taken] at runs ⊢
      have rest := ih parseClient collects' runs
      rw [same] at rest
      exact rest

variable {peer : Peer σ}

theorem serverDopacket_lines (parseServer : Handler σ) {chunk : List Char} {k : Nat} (alive : peer.count = some k)
    (collects : Collects u { peer.receiver with endp := k })
    (runs : (serverDopacket parseServer peer chunk).count.isSome = true) :
    ∃ k', (serverDopacket parseServer peer chunk).count = some k' ∧
      Collects (pendingAfter u chunk) { (serverDopacket parseServer peer chunk).receiver with endp := k' } ∧
      (serverDopacket parseServer peer chunk).receiver.lines = peer.receiver.lines ++ linesFrom u chunk := by
  unfold serverDopacket at runs ⊢
  rw [alive] at runs ⊢
  dsimp only at runs ⊢
  rw [serverLoop_eq] at runs ⊢
  obtain ⟨count, after, lines⟩ := connectLoop_lines parseServer parseServer collects runs
  exact ⟨_, count, after, lines⟩

theorem serverDopacket_gone (parseServer : Handler σ) (gone : peer.count = none) (chunks : List (List Char)) :
    chunks.foldl (serverDopacket parseServer) peer = peer := by
  induction chunks with
  | nil => rfl
  | cons chunk chunks ih =>
    have same : serverDopacket parseServer peer chunk = peer := by
      unfold serverDopacket
      rw [gone]
    rw [List.foldl_cons, same, ih]

theorem serverCalls_lines (parseServer : Handler σ) (chunks : List (List Char)) {k : Nat}
    (alive : peer.count = some k) (collects : Collects u { peer.receiver with endp := k })
    (runs : (chunks.foldl (serverDopacket parseServer) peer).count.isSome = true) :
    (chunks.foldl (serverDopacket parseServer) peer).receiver.lines = peer.receiver.lines ++ linesFrom u chunks.flatten := by
  induction chunks generalizing u peer k with
  | nil => exact (List.append_nil _).symm
  | cons chunk chunks ih =>
    rw [List.foldl_cons] at runs ⊢
    rw [List.flatten_cons, linesFrom_append]
    cases open_still : (serverDopacket parseServer peer chunk).count with
    | none =>
      rw [serverDopacket_gone parseServer open_still, open_still] at runs
      cases runs
    | some k' =>
      obtain ⟨k'', count, after, lines⟩ := serverDopacket_lines parseServer alive collects (by rw [open_still]; rfl)
      rw [ih count after runs, lines, List.append_assoc]

/-- However the stream of a server is cut, its lines are those of the stream, unless a handler ends the connection. -/
theorem server_lines (parseServer : Handler σ) {peer : Peer σ} (start : peer.count = some 0) (chunks : List (List Char))
    (runs : (chunks.foldl (serverDopacket parseServer) peer).count.isSome = true) :
    (chunks.foldl (serverDopacket parseServer) peer).receiver.lines = peer.receiver.lines ++ streamLines chunks.flatten := by
  rw [serverCalls_lines parseServer chunks start (collects_start _) runs, linesFrom_eq]

def wiping : Handler Unit := fun _ _ _ => (.server, (), fun _ => nul)

theorem server_lines_wiping :
    ([['a', 'b'], ['c', '\r', '\n', 'd', '\n', 'e']].foldl (serverDopacket wiping) (.fresh () fun _ => nul)).receiver.lines =
      [] ++ streamLines [['a', 'b'], ['c', '\r', '\n', 'd', '\n', 'e']].flatten :=
  server_lines wiping rfl [['a', 'b'], ['c', '\r', '\n', 'd', '\n', 'e']] rfl

/-- No line of the stream has `BUFSIZE` bytes, `n` bytes of the first one having been received. -/
def shortLines : Nat → List Char → Bool
  | _, [] => true
  | n, c :: src => if isEol c then shortLines 0 src else n + 1 < BUFSIZE && shortLines (n + 1) src

/-- Every write was inside `con_buffer`, and the count that is kept is the index of a byte of it. -/
def Peer.Inside (peer : Peer σ) : Prop :=
  (∀ i ∈ peer.receiver.writes, i < BUFSIZE) ∧ ∀ k, peer.count = some k → k < BUFSIZE

theorem connectLoop_inside (parseClient parseServer : Handler σ) {src : List Char} {s : Receiver σ}
    (collects : Collects u s) (room : u.length < BUFSIZE) (inside : ∀ i ∈ s.writes, i < BUFSIZE)
    (short : shortLines u.length src = true) :
    Peer.Inside ⟨(connectLoop parseClient parseServer src s).1, (connectLoop parseClient parseServer src s).2⟩ := by
  induction src generalizing u s parseClient with
  | nil =>
    refine ⟨inside, fun k kept => ?_⟩
    have endp := collects.endp
    obtain rfl := Option.some.inj kept
    omega
  | cons c src ih =>
    have endp : s.endp < BUFSIZE := by
      rw [collects.endp]
      omega
    rw [shortLines] at short
    rw [connectLoop]
    by_cases ends : isEol c = true
    · obtain ⟨s', taken, collects', -, writes⟩ := take_eol collects ends
      rw [if_pos ends] at short
      have inside' : ∀ i ∈ s'.writes, i < BUFSIZE := by
        intro i mem
        rcases (writes i).mp mem with earlier | here
        · exact inside i earlier
        · rwa [here]
      rw [taken]
      by_cases empty : u = []
      · subst empty
        exact ih parseClient collects' room inside' short
      · have complete : decide (u ≠ []) = true := decide_eq_true empty
        have handed : ∀ i ∈ (s'.hand parseClient).2.writes, i < BUFSIZE := inside'
        rw [complete]
        dsimp only
        generalize s'.hand parseClient = answer at handed
        obtain ⟨parsed, s''⟩ := answer
        cases parsed with
        | killed => exact ⟨handed, nofun⟩
        | dead => exact ⟨handed, nofun⟩
        | server =>
          simp only [serverLoop_eq]
          exact ih parseServer (collects_start s'') (by decide) handed short
        | unregistered => exact ih parseClient (collects_start s'') (by decide) handed short
    · rw [Bool.not_eq_true] at ends
      obtain ⟨s', taken, collects', -, writes⟩ := take_byte collects ends
      rw [ends, if_neg Bool.false_ne_true, Bool.and_eq_true, decide_eq_true_iff] at short
      rw [taken]
      have length : (u ++ [c]).length = u.length + 1 := List.length_append
      refine ih parseClient collects' (by omega) ?_ (by rw [length]; exact short.2)
      intro i mem
      rcases (writes i).mp mem with earlier | here
      · exact inside i earlier
      · rwa [here]

theorem shortLines_append (u a b : List Char) :
    shortLines u.length (a ++ b) = (shortLines u.length a && shortLines (pendingAfter u a).length b) := by
  induction a generalizing u with
  | nil => rfl
  | cons c a ih =>
    rw [List.cons_append, shortLines, shortLines, pendingAfter]
    by_cases ends : isEol c = true
    · rw [if_pos ends, if_pos ends, if_pos ends]
      exact ih []
    · have next := ih (u ++ [c])
      rw [List.length_append, List.length_singleton] at next
      rw [if_neg ends, if_neg ends, if_neg ends, next, Bool.and_assoc]

inductive Call where
  | connect (bytes : List Char)
  | server (bytes : List Char)

def Call.bytes : Call → List Char
  | connect bytes => bytes
  | server bytes => bytes

def Call.run (parseClient parseServer : Handler σ) (peer : Peer σ) : Call → Peer σ
  | connect bytes => connectDopacket parseClient parseServer peer bytes
  | server bytes => serverDopacket parseServer peer bytes

theorem Call.run_gone (parseClient parseServer : Handler σ) (gone : peer.count = none) (call : Call) :
    call.run parseClient parseServer peer = peer := by
  cases call with
  | connect bytes => simp only [Call.run, connectDopacket, gone]
  | server bytes => simp only [Call.run, serverDopacket, gone]

theorem Call.run_loop (parseClient parseServer : Handler σ) {k : Nat} (alive : peer.count = some k) (call : Call) :
    ∃ first : Handler σ, call.run parseClient parseServer peer =
      ⟨(connectLoop first parseServer call.bytes { peer.receiver with endp := k }).1,
        (connectLoop first parseServer call.bytes { peer.receiver with endp := k }).2⟩ := by
  cases call with
  | connect bytes => exact ⟨parseClient, by simp only [Call.run, connectDopacket, alive, Call.bytes]⟩
  | server bytes => exact ⟨parseServer, by simp only [Call.run, serverDopacket, alive, Call.bytes, serverLoop_eq]⟩

theorem calls_gone (parseClient parseServer : Handler σ) (gone : peer.count = none) (calls : List Call) :
    calls.foldl (Call.run parseClient parseServer) peer = peer := by
  induction calls with
  | nil => rfl
  | cons call calls ih => rw [List.foldl_cons, call.run_gone parseClient parseServer gone, ih]

theorem calls_inside (parseClient parseServer : Handler σ) (calls : List Call) {k : Nat}
    (alive : peer.count = some k) (collects : Collects u { peer.receiver with endp := k })
    (room : u.length < BUFSIZE) (inside : peer.Inside)
    (short : shortLines u.length (calls.flatMap Call.bytes) = true) :
    (calls.foldl (Call.run parseClient parseServer) peer).Inside := by
  induction calls generalizing u peer k with
  | nil => exact inside
  | cons call calls ih =>
    rw [List.flatMap_cons, shortLines_append, Bool.and_eq_true] at short
    obtain ⟨first, result⟩ := call.run_loop parseClient parseServer alive
    have step : (call.run parseClient parseServer peer).Inside := by
      rw [result]
      exact connectLoop_inside first parseServer collects room inside.1 short.1
    rw [List.foldl_cons]
    cases next : (call.run parseClient parseServer peer).count with
    | none =>
      rw [calls_gone parseClient parseServer next]
      exact step
    | some k' =>
      have kept := step.2 k' next
      have left : (connectLoop first parseServer call.bytes { peer.receiver with endp := k }).1 = some k' := by
        rw [result] at next
        exact next
      obtain ⟨count, after, -⟩ := connectLoop_lines first parseServer collects (Option.isSome_of_mem left)
      obtain rfl := Option.some.inj (left.symm.trans count)
      refine ih next (by rw [result]; exact after) ?_ step short.2
      have endp := after.endp
      omega

/-- Where no line has `BUFSIZE` bytes, every write through `endp` is inside `con_buffer`, and so is the count
that is kept after every call. -/
theorem dopacket_inside (parseClient parseServer : Handler σ) (world : σ) (buffer : Nat → Char) (calls : List Call)
    (short : shortLines 0 (calls.flatMap Call.bytes) = true) (n : Nat) :
    ((calls.take n).foldl (Call.run parseClient parseServer) (.fresh world buffer)).Inside := by
  refine calls_inside parseClient parseServer (calls.take n) rfl (collects_start _) (by decide) ⟨nofun, ?_⟩ ?_
  · intro k count
    obtain rfl := Option.some.inj count
    decide
  · rw [← List.take_append_drop n calls, List.flatMap_append] at short
    have front := shortLines_append [] ((calls.take n).flatMap Call.bytes) ((calls.drop n).flatMap Call.bytes)
    rw [List.length_nil] at front
    rw [front, Bool.and_eq_true] at short
    exact short.1

theorem dopacket_inside_wiping :
    (([.connect ['a', 'b'], .connect ['c', '\n', 'd'], .server ['e', '\n']].take 3).foldl (Call.run wiping wiping)
      (.fresh () fun _ => nul)).Inside :=
  dopacket_inside wiping wiping () (fun _ => nul) [.connect ['a', 'b'], .connect ['c', '\n', 'd'], .server ['e', '\n']] rfl 3

/-- The end of a line is written behind its bytes, or behind the buffer if they fill it. -/
theorem connectLoop_writes (parse : Handler σ) {bytes : List Char} (plain : ∀ c ∈ bytes, isEol c = false)
    {s : Receiver σ} (collects : Collects u s) :
    min BUFSIZE (u.length + bytes.length) ∈ (connectLoop parse parse (bytes ++ ['\n']) s).2.writes := by
  induction bytes generalizing u s with
  | nil =>
    obtain ⟨s', taken, -, -, writes⟩ := take_eol collects (c := '\n') (by decide)
    have written : s.endp ∈ s'.writes := (writes s.endp).mpr (.inr rfl)
    rw [collects.endp] at written
    rw [List.nil_append, connectLoop, taken]
    cases decide (u ≠ []) with
    | false => exact written
    | true =>
      have handed : min BUFSIZE u.length ∈ (s'.hand parse).2.writes := written
      dsimp only
      generalize s'.hand parse = answer at handed
      obtain ⟨parsed, s''⟩ := answer
      cases parsed <;> exact handed
  | cons c bytes ih =>
    obtain ⟨s', taken, collects', -, -⟩ := take_byte collects (plain c List.mem_cons_self)
    have behind := ih (fun c mem => plain c (List.mem_cons_of_mem _ mem)) collects'
    rw [List.length_append, List.length_singleton, Nat.add_assoc, Nat.add_comm 1] at behind
    rw [List.cons_append, connectLoop, taken]
    exact behind

/-- A line of `BUFSIZE` bytes, whose terminator is written behind `con_buffer`. -/
theorem fullLine_outside :
    ¬ ([.server (List.replicate BUFSIZE 'a' ++ ['\n'])].foldl (Call.run wiping wiping) (.fresh () fun _ => nul)).Inside := by
  intro inside
  have written (bytes : List Char) (plain : ∀ c ∈ bytes, isEol c = false) : min BUFSIZE (0 + bytes.length) ∈
      ([.server (bytes ++ ['\n'])].foldl (Call.run wiping wiping) (.fresh () fun _ => nul)).receiver.writes := by
    have looped := connectLoop_writes wiping plain (collects_start (Peer.fresh () fun _ => nul).receiver)
    rw [← serverLoop_eq] at looped
    exact looped
  have outside := inside.1 _ (written (List.replicate BUFSIZE 'a') fun c mem => by rw [List.eq_of_mem_replicate mem]; decide)
  rw [List.length_replicate, Nat.zero_add, Nat.min_self] at outside
  exact Nat.lt_irrefl _ outside

end

end Ircd.Buffers

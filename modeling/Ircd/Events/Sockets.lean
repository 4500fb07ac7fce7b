import Mathlib.Data.List.Basic
import Mathlib.Logic.Function.Basic

/-! The life of a socket generator of `ircd_events.c`.

What runs is a stack: callbacks of events, turns of the engine, which hold a reference while they
generate events, and `eng_closing` where it reports an error. Whoever is on top may add and delete
sockets and generate events before it returns. A reference is held by a frame of the stack, so the
counts do not come near the end of their type. The list of generators is left out.
-/

set_option autoImplicit false

namespace Ircd.Events.Sockets

inductive EventType where
  | read | write | accept | connect | eof | error | signal | expire | destroy
  deriving DecidableEq, Repr

/-- What the functions read of a `GenHeader`: `GEN_ACTIVE`, `GEN_DESTROY`, `GEN_ERROR` and `gh_ref`. -/
structure Generator where
  active : Bool
  destroy : Bool
  error : Bool
  ref : Nat
  deriving DecidableEq, Repr

/-- What is running: the callback of an event, a turn of the engine, or `eng_closing` in
`socket_del`. -/
inductive Frame (τ : Type) where
  | event (type : EventType) (g : τ)
  | turn (g : τ)
  | closing (g : τ)
  deriving DecidableEq

/-- The record of a run: calls of `socket_add` and `socket_del`, callbacks that start, and callbacks
other than for `ET_DESTROY` that have returned. -/
inductive Entry (τ : Type) where
  | added (g : τ)
  | requested (g : τ)
  | delivered (type : EventType) (g : τ)
  | finished (g : τ)
  deriving DecidableEq

/-- The generators, what is running, and the record with its last entry first. -/
structure State (τ : Type) where
  gen : τ → Generator
  stack : List (Frame τ)
  log : List (Entry τ)

def State.init (τ : Type) : State τ := ⟨fun _ => ⟨false, false, false, 0⟩, [], []⟩

variable {τ : Type} [DecidableEq τ]

def State.set (s : State τ) (g : τ) (x : Generator) : State τ := { s with gen := Function.update s.gen g x }

def eventExecute (type : EventType) (s : State τ) (g : τ) : State τ :=
  { gen := Function.update s.gen g { s.gen g with
      active := (s.gen g).active && type ≠ .destroy
      error := (s.gen g).error || type = .error }
    stack := .event type g :: s.stack
    log := .delivered type g :: s.log }

def eventGenerate (type : EventType) (s : State τ) (g : τ) : State τ :=
  if type ≠ .destroy ∧ (s.gen g).destroy then s
  else eventExecute type (s.set g { s.gen g with ref := (s.gen g).ref + 1 }) g

def genRefDec (s : State τ) (g : τ) : State τ :=
  let s := s.set g { s.gen g with ref := (s.gen g).ref - 1 }
  if (s.gen g).ref = 0 ∧ (s.gen g).destroy then eventGenerate .destroy s g else s

def socketAdd (s : State τ) (g : τ) : State τ :=
  { s.set g ⟨true, false, false, 0⟩ with log := .added g :: s.log }

def socketDelClosed (s : State τ) (g : τ) : State τ :=
  let s := s.set g { s.gen g with destroy := true }
  if (s.gen g).ref = 0 then eventGenerate .destroy s g else s

/-- `socket_del`. The engine for `/dev/poll` reports an error if it cannot remove the socket. -/
def socketDel (s : State τ) (g : τ) (fails : Bool) : State τ :=
  let s := { s with log := .requested g :: s.log }
  if fails then eventGenerate .error { s with stack := .closing g :: s.stack } g else socketDelClosed s g

/-- What can happen next: a call, or what is on top of the stack returns. -/
inductive Op (τ : Type) where
  | add (g : τ)
  | generate (type : EventType) (g : τ)
  | turn (g : τ)
  | del (g : τ) (fails : Bool)
  | resume

def step (s : State τ) : Op τ → State τ
  | .add g => socketAdd s g
  | .generate type g => eventGenerate type s g
  | .turn g => { s.set g { s.gen g with ref := (s.gen g).ref + 1 } with stack := .turn g :: s.stack }
  | .del g fails => socketDel s g fails
  | .resume =>
    match s.stack with
    | [] => s
    | .event type g :: rest =>
      if type = .destroy then { s with stack := rest }
      else genRefDec { s with stack := rest, log := .finished g :: s.log } g
    | .turn g :: rest => genRefDec { s with stack := rest } g
    | .closing g :: rest => socketDelClosed { s with stack := rest } g

/-- The calls that are in order: a socket is added while it is not active, what is about a socket
is called while it is active, and it is deleted once. -/
def Permitted (s : State τ) : Op τ → Prop
  | .add g => (s.gen g).active = false
  | .generate type g => (s.gen g).active = true ∧ type ≠ .destroy
  | .turn g => (s.gen g).active = true
  | .del g _ => (s.gen g).active = true ∧ (s.gen g).destroy = false
  | .resume => s.stack ≠ []

/-- The runs; `Careful` says which steps they are made of. -/
inductive Reachable (Careful : Op τ → Prop) : State τ → Prop where
  | init : Reachable Careful (State.init τ)
  | step {s : State τ} (op : Op τ) :
      Reachable Careful s → Permitted s op → Careful op → Reachable Careful (Sockets.step s op)

def additions (log : List (Entry τ)) (g : τ) : Nat := log.count (.added g)

def requests (log : List (Entry τ)) (g : τ) : Nat := log.count (.requested g)

def destroys (log : List (Entry τ)) (g : τ) : Nat := log.count (.delivered .destroy g)

def begun (log : List (Entry τ)) (g : τ) : Nat :=
  log.countP fun
    | .delivered type h => type ≠ .destroy && h = g
    | _ => false

def finished (log : List (Entry τ)) (g : τ) : Nat := log.count (.finished g)

def Frame.holds (g : τ) : Frame τ → Bool
  | .event type h => type ≠ .destroy && h = g
  | .turn h => h = g
  | .closing _ => false

/-- The callback of an event other than `ET_DESTROY`. -/
def Frame.delivers (g : τ) : Frame τ → Bool
  | .event type h => type ≠ .destroy && h = g
  | _ => false

/-- Each deletion is followed by one `ET_DESTROY`, at the latest when nothing holds the socket any
more; it comes when every other callback has returned, and no other event comes in between. -/
structure Orderly (s : State τ) : Prop where
  once : ∀ g, destroys s.log g ≤ requests s.log g ∧ requests s.log g ≤ destroys s.log g + 1
  awaited : ∀ g, destroys s.log g ≠ requests s.log g → ∃ frame ∈ s.stack, frame.holds g = true
  last : ∀ g before after, s.log = after ++ .delivered .destroy g :: before →
    requests before g = destroys before g + 1 ∧ begun before g = finished before g
  silent : ∀ g type before after, type ≠ .destroy → s.log = after ++ .delivered type g :: before →
    additions before g = requests before g + 1

structure View where
  gen : Generator
  holding : Nat
  running : Nat
  added : Nat
  requested : Nat
  destroyed : Nat
  begun : Nat
  finished : Nat

def State.view (s : State τ) (g : τ) : View where
  gen := s.gen g
  holding := s.stack.countP (Frame.holds g)
  running := s.stack.countP (Frame.delivers g)
  added := additions s.log g
  requested := requests s.log g
  destroyed := destroys s.log g
  begun := Sockets.begun s.log g
  finished := Sockets.finished s.log g

structure View.Sound (v : View) : Prop where
  refs : v.gen.active = true → v.gen.ref = v.holding
  idle : v.gen.active = false → v.holding = 0
  fits : v.running ≤ v.holding
  added : v.added = v.destroyed + if v.gen.active then 1 else 0
  requested : v.requested = v.destroyed + if v.gen.active && v.gen.destroy then 1 else 0
  opened : v.begun = v.finished + v.running

structure View.Good (v : View) : Prop extends v.Sound where
  waiting : v.gen.active = true → v.gen.destroy = true → v.holding ≠ 0

def Tidy : List (Entry τ) → Prop
  | [] => True
  | .delivered type g :: log =>
    (if type = .destroy then requests log g = destroys log g + 1 ∧ Sockets.begun log g = Sockets.finished log g
      else additions log g = requests log g + 1) ∧ Tidy log
  | _ :: log => Tidy log

structure Good (s : State τ) : Prop where
  views : ∀ g, (s.view g).Good
  tidy : Tidy s.log
  closings : ∀ g, .closing g ∉ s.stack

theorem Tidy.split {log : List (Entry τ)} (tidy : Tidy log) {type : EventType} {g : τ} {before after : List (Entry τ)}
    (shape : log = after ++ .delivered type g :: before) :
    if type = .destroy then requests before g = destroys before g + 1 ∧ Sockets.begun before g = Sockets.finished before g
      else additions before g = requests before g + 1 := by
  induction after generalizing log with
  | nil =>
    subst shape
    exact tidy.1
  | cons entry after ih =>
    subst shape
    refine ih ?_ rfl
    cases entry with
    | delivered type' g' => exact tidy.2
    | added g' => exact tidy
    | requested g' => exact tidy
    | finished g' => exact tidy

variable {s : State τ}

theorem Good.change {s' : State τ} (good : Good s) (g : τ) (self : (s'.view g).Good)
    (others : ∀ other ≠ g, s'.view other = s.view other) (tidy : Tidy s'.log)
    (closings : ∀ g, .closing g ∉ s'.stack) :
    Good s' := by
  refine ⟨fun other => ?_, tidy, closings⟩
  by_cases same : other = g
  · rw [same]
    exact self
  · rw [others other same]
    exact good.views other

theorem good_init : Good (State.init τ) := by
  refine ⟨fun g => ?_, trivial, fun _ => nofun⟩
  exact ⟨⟨nofun, fun _ => rfl, Nat.le_refl _, rfl, rfl, rfl⟩, nofun⟩

def Entry.about : Entry τ → τ
  | .added g | .requested g | .delivered _ g | .finished g => g

theorem view_other {s' : State τ} {g other : τ} (differs : other ≠ g) (gen : s'.gen other = s.gen other)
    (holding : s'.stack.countP (Frame.holds other) = s.stack.countP (Frame.holds other))
    (running : s'.stack.countP (Frame.delivers other) = s.stack.countP (Frame.delivers other))
    (entries : List (Entry τ)) (log : s'.log = entries ++ s.log) (about : ∀ e ∈ entries, e.about = g) :
    s'.view other = s.view other := by
  have absent (e : Entry τ) (its : e.about = other) : entries.count e = 0 :=
    List.count_eq_zero.mpr fun mem => differs (its ▸ about e mem)
  have started : Sockets.begun entries other = 0 := by
    apply List.countP_eq_zero.mpr
    intro e mem
    have own := about e mem
    cases e with
    | delivered type h =>
      rw [show h = g from own]
      simp [Ne.symm differs]
    | added h => exact Bool.false_ne_true
    | requested h => exact Bool.false_ne_true
    | finished h => exact Bool.false_ne_true
  unfold State.view additions requests destroys Sockets.finished
  rw [gen, holding, running, log, List.count_append, List.count_append, List.count_append, List.count_append,
    absent (.added other) rfl, absent (.requested other) rfl, absent (.delivered .destroy other) rfl,
    absent (.finished other) rfl]
  unfold Sockets.begun at started ⊢
  rw [List.countP_append, started]
  simp only [Nat.zero_add]

theorem Frame.holds_event (type : EventType) (g h : τ) :
    (Frame.event type h).holds g = decide (type ≠ .destroy ∧ h = g) := by simp [Frame.holds]

theorem Frame.delivers_event (type : EventType) (g h : τ) :
    (Frame.event type h).delivers g = decide (type ≠ .destroy ∧ h = g) := by simp [Frame.delivers]

structure Nearly (s : State τ) (g : τ) : Prop where
  others : ∀ other ≠ g, (s.view other).Good
  self : (s.view g).Sound
  active : (s.gen g).active = true
  tidy : Tidy s.log
  closings : ∀ g, .closing g ∉ s.stack

theorem Nearly.destroy {g : τ} (nearly : Nearly s g) (unused : (s.gen g).ref = 0) (due : (s.gen g).destroy = true) :
    Good (eventGenerate .destroy s g) := by
  obtain ⟨others, self, active, tidy, closings⟩ := nearly
  have free : (s.view g).holding = 0 := (self.refs active).symm.trans unused
  have returned : (s.view g).running = 0 := Nat.le_zero.mp (free ▸ self.fits)
  have requested : requests s.log g = destroys s.log g + 1 := by
    have count := self.requested
    simpa [State.view, active, due] using count
  have past : Sockets.begun s.log g = Sockets.finished s.log g := by
    have count := self.opened
    rw [returned] at count
    exact count
  have value : eventGenerate .destroy s g =
      ⟨Function.update s.gen g ⟨false, true, (s.gen g).error, 1⟩, .event .destroy g :: s.stack,
        .delivered .destroy g :: s.log⟩ := by
    simp [eventGenerate, eventExecute, State.set, unused, due]
  have view : (eventGenerate .destroy s g).view g = { s.view g with
      gen := ⟨false, true, (s.gen g).error, 1⟩
      destroyed := (s.view g).destroyed + 1 } := by
    rw [value]
    simp [State.view, Frame.holds_event, Frame.delivers_event, additions, requests, destroys, Sockets.begun,
      Sockets.finished]
  refine ⟨fun other => ?_, ?_, ?_⟩
  · by_cases same : other = g
    · subst same
      have added := self.added
      have count := self.requested
      have opened := self.opened
      rw [view]
      simp only [State.view, active, due, Bool.and_self, if_true] at added count
      exact ⟨⟨nofun, fun _ => free, self.fits, added, count, opened⟩, nofun⟩
    · have unchanged : (eventGenerate .destroy s g).view other = s.view other := by
        rw [value]
        refine view_other same ?_ ?_ ?_ [.delivered .destroy g] rfl (by simp [Entry.about])
        · simp [same]
        · simp [Frame.holds_event]
        · simp [Frame.delivers_event]
      rw [unchanged]
      exact others other same
  · rw [value]
    exact ⟨⟨requested, past⟩, tidy⟩
  · rw [value]
    simpa using closings

theorem Nearly.settle {g : τ} (nearly : Nearly s g) :
    Good (if (s.gen g).ref = 0 ∧ (s.gen g).destroy then eventGenerate .destroy s g else s) := by
  split
  · rename_i both
    exact nearly.destroy both.1 both.2
  · rename_i not_due
    refine ⟨fun other => ?_, nearly.tidy, nearly.closings⟩
    by_cases same : other = g
    · subst same
      refine ⟨nearly.self, fun active due free => not_due ⟨?_, due⟩⟩
      exact (nearly.self.refs active).trans free
    · exact nearly.others other same

theorem Good.active_of_holds (good : Good s) {g : τ} {frame : Frame τ} (mem : frame ∈ s.stack)
    (holds : frame.holds g = true) : (s.gen g).active = true := by
  by_contra inactive
  have none_holds := (good.views g).idle (Bool.not_eq_true _ ▸ inactive)
  exact absurd (List.countP_pos_iff.mpr ⟨frame, mem, holds⟩) (by rw [show List.countP _ _ = 0 from none_holds]; simp)

theorem Good.add (good : Good s) {g : τ} (inactive : (s.gen g).active = false) : Good (socketAdd s g) := by
  have before := good.views g
  have view : (socketAdd s g).view g = { s.view g with
      gen := ⟨true, false, false, 0⟩
      added := (s.view g).added + 1 } := by
    simp [socketAdd, State.set, State.view, additions, requests, destroys, Sockets.begun, Sockets.finished]
  refine good.change g ?_ ?_ good.tidy good.closings
  · have added := before.added
    have count := before.requested
    simp only [State.view, inactive, Bool.false_eq_true, if_false, Bool.false_and, Nat.add_zero] at added count
    rw [view]
    refine ⟨⟨fun _ => (before.idle inactive).symm, nofun, before.fits, ?_, count, before.opened⟩, nofun⟩
    change additions s.log g + 1 = destroys s.log g + 1
    rw [added]
  · intro other differs
    refine view_other differs ?_ rfl rfl [.added g] rfl (by simp [Entry.about])
    simp [socketAdd, State.set, differs]

theorem Good.generate (good : Good s) {g : τ} {type : EventType} (active : (s.gen g).active = true)
    (other_type : type ≠ .destroy) : Good (eventGenerate type s g) := by
  unfold eventGenerate
  split
  · exact good
  · rename_i live
    have live : (s.gen g).destroy = false := by
      by_contra doomed
      exact live ⟨other_type, by simpa using doomed⟩
    have before := good.views g
    have value : eventExecute type (s.set g { s.gen g with ref := (s.gen g).ref + 1 }) g =
        ⟨Function.update s.gen g ⟨true, false, (s.gen g).error || type = .error, (s.gen g).ref + 1⟩,
          .event type g :: s.stack, .delivered type g :: s.log⟩ := by
      simp [eventExecute, State.set, active, live, other_type]
    have added := before.added
    have count := before.requested
    simp only [State.view, active, live, if_true, Bool.and_false, Bool.false_eq_true, if_false, Nat.add_zero]
      at added count
    rw [value]
    refine good.change g ?_ ?_ ?_ (by simpa using good.closings)
    · have view : State.view ⟨Function.update s.gen g ⟨true, false, (s.gen g).error || type = .error, (s.gen g).ref + 1⟩,
            .event type g :: s.stack, .delivered type g :: s.log⟩ g = { s.view g with
          gen := ⟨true, false, (s.gen g).error || type = .error, (s.gen g).ref + 1⟩
          holding := (s.view g).holding + 1
          running := (s.view g).running + 1
          begun := (s.view g).begun + 1 } := by
        simp [State.view, Frame.holds_event, Frame.delivers_event, additions, requests, destroys, Sockets.begun,
          Sockets.finished, other_type]
      rw [view]
      refine ⟨⟨fun _ => ?_, nofun, Nat.succ_le_succ before.fits, added, count, ?_⟩, nofun⟩
      · exact congrArg (· + 1) (before.refs active)
      · exact congrArg (· + 1) before.opened
    · intro other differs
      refine view_other differs ?_ ?_ ?_ [.delivered type g] rfl (by simp [Entry.about])
      · simp [differs]
      · simp [Frame.holds_event, Ne.symm differs]
      · simp [Frame.delivers_event, Ne.symm differs]
    · refine ⟨?_, good.tidy⟩
      rw [if_neg other_type, added, count]

theorem Good.turn (good : Good s) {g : τ} (active : (s.gen g).active = true) :
    Good (step s (.turn g)) := by
  have before := good.views g
  refine good.change g ?_ ?_ good.tidy (by simpa [step] using good.closings)
  · have view : (step s (.turn g)).view g = { s.view g with
        gen := { s.gen g with ref := (s.gen g).ref + 1 }
        holding := (s.view g).holding + 1 } := by
      simp [step, State.set, State.view, Frame.holds, Frame.delivers]
    rw [view]
    refine ⟨⟨fun _ => congrArg (· + 1) (before.refs active), ?_, Nat.le_succ_of_le before.fits, before.added,
      before.requested, before.opened⟩, fun _ _ => Nat.succ_ne_zero _⟩
    exact fun inactive => absurd (active.symm.trans inactive) nofun
  · intro other differs
    refine view_other differs ?_ ?_ ?_ [] rfl nofun
    · simp [step, State.set, differs]
    · simp [step, State.set, Frame.holds, Ne.symm differs]
    · simp [step, State.set, Frame.delivers]

theorem Good.del (good : Good s) {g : τ} (active : (s.gen g).active = true) (live : (s.gen g).destroy = false) :
    Good (socketDel s g false) := by
  have before := good.views g
  let marked : State τ := { s.set g { s.gen g with destroy := true } with log := .requested g :: s.log }
  have nearly : Nearly marked g := by
    refine ⟨fun other differs => ?_, ?_, ?_, good.tidy, good.closings⟩
    · have unchanged : marked.view other = s.view other := by
        refine view_other differs ?_ rfl rfl [.requested g] rfl (by simp [Entry.about])
        simp [marked, State.set, differs]
      rw [unchanged]
      exact good.views other
    · have view : marked.view g = { s.view g with
          gen := { s.gen g with destroy := true }
          requested := (s.view g).requested + 1 } := by
        simp [marked, State.set, State.view, additions, requests, destroys, Sockets.begun, Sockets.finished]
      have count := before.requested
      simp only [State.view, live, Bool.and_false, Bool.false_eq_true, if_false, Nat.add_zero] at count
      rw [view]
      refine ⟨before.refs, before.idle, before.fits, before.added, ?_, before.opened⟩
      change requests s.log g + 1 = destroys s.log g + if (s.gen g).active && true then 1 else 0
      rw [count, active]
      rfl
    · simp [marked, State.set, active]
  have value : socketDel s g false =
      if (marked.gen g).ref = 0 ∧ (marked.gen g).destroy then eventGenerate .destroy marked g else marked := by
    simp [socketDel, socketDelClosed, marked, State.set]
  rw [value]
  exact nearly.settle

theorem Good.release (good : Good s) {g : τ} {frame : Frame τ} {rest : List (Frame τ)}
    (top : s.stack = frame :: rest) (holds : frame.holds g = true)
    (only : ∀ other ≠ g, frame.holds other = false ∧ frame.delivers other = false) (entries : List (Entry τ))
    (returned : entries = if frame.delivers g then [.finished g] else []) :
    Good (genRefDec { s with stack := rest, log := entries ++ s.log } g) := by
  have before := good.views g
  have active := good.active_of_holds (top ▸ List.mem_cons_self) holds
  have holding : (s.view g).holding = rest.countP (Frame.holds g) + 1 := by
    simp only [State.view, top]
    exact List.countP_cons_of_pos holds
  have running : (s.view g).running = rest.countP (Frame.delivers g) + if frame.delivers g then 1 else 0 := by
    simp only [State.view, top]
    exact List.countP_cons
  have fits : rest.countP (Frame.delivers g) ≤ rest.countP (Frame.holds g) := by
    apply List.countP_mono_left
    intro frame _ delivers
    cases frame with
    | event type h => exact delivers
    | turn h => cases delivers
    | closing h => cases delivers
  let left : State τ :=
    { s.set g { s.gen g with ref := (s.gen g).ref - 1 } with stack := rest, log := entries ++ s.log }
  have nearly : Nearly left g := by
    refine ⟨fun other differs => ?_, ?_, ?_, ?_, ?_⟩
    · have unchanged : left.view other = s.view other := by
        refine view_other differs ?_ ?_ ?_ entries rfl ?_
        · simp [left, State.set, differs]
        · rw [top, List.countP_cons_of_neg (by simp [(only other differs).1])]
        · rw [top, List.countP_cons_of_neg (by simp [(only other differs).2])]
        · intro e mem
          rw [returned] at mem
          split at mem
          · rw [List.mem_singleton.mp mem]
            rfl
          · cases mem
      rw [unchanged]
      exact good.views other
    · have view : left.view g = { s.view g with
          gen := { s.gen g with ref := (s.gen g).ref - 1 }
          holding := rest.countP (Frame.holds g)
          running := rest.countP (Frame.delivers g)
          finished := (s.view g).finished + if frame.delivers g then 1 else 0 } := by
        cases delivers : frame.delivers g <;>
          simp [left, returned, delivers, State.set, State.view, additions, requests, destroys, Sockets.begun,
            Sockets.finished]
      have opened := before.opened
      rw [running] at opened
      rw [view]
      refine ⟨fun _ => ?_, ?_, fits, before.added, before.requested, ?_⟩
      · have refs := before.refs active
        rw [holding] at refs
        change (s.gen g).ref = _ at refs
        change (s.gen g).ref - 1 = rest.countP (Frame.holds g)
        omega
      · exact fun inactive => absurd (active.symm.trans inactive) nofun
      · dsimp only
        omega
    · simp [left, State.set, active]
    · change Tidy (entries ++ s.log)
      rw [returned]
      split
      · exact good.tidy
      · exact good.tidy
    · intro h mem
      apply good.closings h
      rw [top]
      exact List.mem_cons_of_mem frame mem
  have value : genRefDec { s with stack := rest, log := entries ++ s.log } g =
      if (left.gen g).ref = 0 ∧ (left.gen g).destroy then eventGenerate .destroy left g else left := rfl
  rw [value]
  exact nearly.settle

theorem Good.resume (good : Good s) (busy : s.stack ≠ []) : Good (step s .resume) := by
  unfold Sockets.step
  match top : s.stack with
  | [] => exact absurd top busy
  | .event type g :: rest =>
    dsimp only
    split
    · rename_i destroy
      have same : ∀ h, ({ s with stack := rest } : State τ).view h = s.view h := by
        intro h
        simp [State.view, top, destroy, Frame.holds_event, Frame.delivers_event]
      refine ⟨fun h => ?_, good.tidy, fun h mem => good.closings h ?_⟩
      · rw [same]
        exact good.views h
      · rw [top]
        exact List.mem_cons_of_mem _ mem
    · rename_i other_type
      refine good.release top ?_ ?_ [.finished g] ?_
      · simp [Frame.holds_event, other_type]
      · intro other differs
        simp [Frame.holds_event, Frame.delivers_event, Ne.symm differs]
      · simp [Frame.delivers_event, other_type]
  | .turn g :: rest =>
    refine good.release top ?_ ?_ [] rfl
    · simp [Frame.holds]
    · intro other differs
      simp [Frame.holds, Frame.delivers, Ne.symm differs]
  | .closing g :: rest => exact absurd (top ▸ List.mem_cons_self) (good.closings g)

def Removable : Op τ → Prop
  | .del _ fails => fails = false
  | _ => True

theorem Reachable.good (reachable : Reachable Removable s) : Good s := by
  induction reachable with
  | init => exact good_init
  | step op _ permitted careful good =>
    cases op with
    | add g => exact good.add permitted
    | generate type g => exact good.generate permitted.1 permitted.2
    | turn g => exact good.turn permitted
    | del g fails =>
      cases careful
      exact good.del permitted.1 permitted.2
    | resume => exact good.resume permitted

/-- In every run in which the engine can remove the sockets that are deleted, however callbacks and
deletions are nested. -/
theorem sockets_orderly {s : State τ} (reachable : Reachable Removable s) : Orderly s := by
  have good := reachable.good
  refine ⟨fun g => ?_, fun g pending => ?_, fun g before after shape => ?_, fun g type before after other shape => ?_⟩
  · have count := (good.views g).requested
    change requests s.log g = destroys s.log g + _ at count
    split at count <;> omega
  · have count := (good.views g).requested
    change requests s.log g = destroys s.log g + _ at count
    split at count
    · rename_i both
      rw [Bool.and_eq_true] at both
      have held := (good.views g).waiting both.1 both.2
      exact List.countP_pos_iff.mp (Nat.pos_of_ne_zero held)
    · exact absurd count.symm pending
  · have tidy := good.tidy.split shape
    rwa [if_pos rfl] at tidy
  · have tidy := good.tidy.split shape
    rwa [if_neg other] at tidy

/-- A socket is deleted by its own callback. -/
theorem sockets_orderly_nested :
    ∃ s : State Nat, Reachable Removable s ∧ Orderly s ∧
      s.log = [.delivered .destroy 7, .finished 7, .requested 7, .delivered .read 7, .added 7] := by
  have start : Reachable Removable (State.init Nat) := .init
  have added := start.step (.add 7) rfl trivial
  have read := added.step (.generate .read 7) ⟨rfl, nofun⟩ trivial
  have deleted := read.step (.del 7 false) ⟨rfl, rfl⟩ rfl
  have returned := deleted.step .resume nofun trivial
  exact ⟨_, returned, sockets_orderly returned, rfl⟩

/-- The engine cannot remove a socket that is deleted and reports the error to it. -/
theorem removal_error_delivered : ∃ s : State Nat, Reachable (fun _ => True) s ∧ ¬ Orderly s := by
  have start : Reachable (fun _ => True) (State.init Nat) := .init
  have added := start.step (.add 7) rfl trivial
  have deleted := added.step (.del 7 true) ⟨rfl, rfl⟩ trivial
  refine ⟨_, deleted, fun orderly => ?_⟩
  have early := orderly.silent 7 .error [.requested 7, .added 7] [] nofun rfl
  exact absurd early (by decide)

end Ircd.Events.Sockets

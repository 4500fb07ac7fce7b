import Ircd.Library.Slots

/-! The timer queue of `ircd_events.c`.

The callbacks are code outside the queue: what runs is a stack of callbacks and loops of
`timer_run`, and whoever is on top may call `timer_add`, `timer_del`, `timer_chg` and `timer_run`
on any timer before it returns. `gh_ref` is left out: it is read only for generators with
`GEN_DESTROY`, which no timer gets.
-/

set_option autoImplicit false

namespace Ircd.Events
open Ircd.Library

inductive TimerType where
  | absolute | relative | periodic
  deriving DecidableEq, Repr

/-- What is running: the loop of `timer_run`, or the callback of a timer for `ET_EXPIRE` or
`ET_DESTROY`. -/
inductive Frame (τ : Type) where
  | loop
  | expire (t : τ)
  | destroy (t : τ)
  deriving DecidableEq

/-- The timers and the queue. `stamp` and `enqueued` are not in the source: they count the
insertions, so that the order of insertion can be spoken of. -/
structure State (τ : Type) where
  links : Links Unit τ
  active : τ → Bool
  marked : τ → Bool
  readd : τ → Bool
  type : τ → TimerType
  value : τ → Int
  expire : τ → Int
  currentTime : Int
  stack : List (Frame τ)
  stamp : τ → Nat
  enqueued : Nat

def State.init {τ : Type} (currentTime : Int) : State τ where
  links := ⟨fun _ => none, fun _ => none, fun _ => none⟩
  active := fun _ => false
  marked := fun _ => false
  readd := fun _ => false
  type := fun _ => .absolute
  value := fun _ => 0
  expire := fun _ => 0
  currentTime := currentTime
  stack := []
  stamp := fun _ => 0
  enqueued := 0

variable {τ : Type} [DecidableEq τ]

def State.onQueue (s : State τ) (t : τ) : Bool := (s.links.prevnextp t).isSome

def State.expiry (s : State τ) (t : τ) : Int :=
  match s.type t with
  | .absolute => s.value t
  | .relative => s.value t + s.currentTime
  | .periodic => s.value t + s.currentTime

def linkIn (s : State τ) (t : τ) (slot : Ref Unit τ) : State τ :=
  { s with
    links := s.links.insert slot t
    stamp := Function.update s.stamp t s.enqueued
    enqueued := s.enqueued + 1 }

def setExpire (s : State τ) (t : τ) : State τ := { s with expire := Function.update s.expire t (s.expiry t) }

/-- `timer_enqueue`; the search for the slot has `fuel` turns. -/
def timerEnqueue (fuel : Nat) (s : State τ) (t : τ) : Option (State τ) :=
  let s := setExpire s t
  (s.links.seek (fun other => s.expire t < s.expire other) fuel (.head ())).map (linkIn s t)

def genDequeue (s : State τ) (t : τ) : State τ := { s with links := s.links.clip t }

/-- `event_generate` for `ET_DESTROY`: the timer is no longer active when its callback starts. -/
def generateDestroy (s : State τ) (t : τ) : State τ :=
  { s with active := Function.update s.active t false, stack := .destroy t :: s.stack }

def generateExpire (s : State τ) (t : τ) : State τ := { s with stack := .expire t :: s.stack }

def setTimer (s : State τ) (t : τ) (type : TimerType) (value : Int) : State τ :=
  { s with
    type := Function.update s.type t type
    value := Function.update s.value t value
    expire := Function.update s.expire t 0 }

def timerAdd (fuel : Nat) (s : State τ) (t : τ) (type : TimerType) (value : Int) : Option (State τ) :=
  let s := { s with
    active := Function.update s.active t true
    readd := Function.update s.readd t (s.readd t || s.marked t) }
  let s := setTimer s t type value
  if s.marked t then some s else timerEnqueue fuel s t

def timerDel (s : State τ) (t : τ) : State τ :=
  let s := { s with readd := Function.update s.readd t false }
  if s.marked t then s else generateDestroy (genDequeue s t) t

def timerChg (fuel : Nat) (s : State τ) (t : τ) (type : TimerType) (value : Int) : Option (State τ) :=
  let s := setTimer s t type value
  if s.marked t then some { s with readd := Function.update s.readd t true }
  else timerEnqueue fuel (genDequeue s t) t

/-- The test of the loop of `timer_run` and what follows up to the callback; `rest` is what runs
when the loop ends. -/
def timerRunTurn (s : State τ) (rest : List (Frame τ)) : State τ :=
  match s.links.head () with
  | none => { s with stack := rest }
  | some t =>
    if s.currentTime < s.expire t then { s with stack := rest }
    else
      let s := genDequeue s t
      let s := { s with
        marked := Function.update s.marked t true
        readd := Function.update s.readd t (s.readd t || s.type t = .periodic) }
      generateExpire s t

def timerRunReturn (fuel : Nat) (s : State τ) (t : τ) (rest : List (Frame τ)) : Option (State τ) :=
  let s := { s with marked := Function.update s.marked t false, stack := rest }
  if s.readd t then
    (timerEnqueue fuel s t).map fun s => { s with readd := Function.update s.readd t false }
  else some (generateDestroy s t)

/-- What can happen next: a call, a change of `CurrentTime`, or what is on top of the stack goes on:
a loop makes its next test, a callback returns. -/
inductive Op (τ : Type) where
  | add (t : τ) (type : TimerType) (value : Int)
  | del (t : τ)
  | chg (t : τ) (type : TimerType) (value : Int)
  | run
  | clock (time : Int)
  | resume

def State.mayCall (s : State τ) : Bool := s.stack.head? ≠ some .loop

/-- The calls that are in order: only a timer that is not on the queue is added, only an active
one is deleted or changed. -/
def Permitted (s : State τ) : Op τ → Prop
  | .add t _ _ => s.mayCall ∧ ¬ s.onQueue t
  | .del t => s.mayCall ∧ s.active t
  | .chg t _ _ => s.mayCall ∧ s.active t
  | .run => s.mayCall
  | .clock _ => s.mayCall
  | .resume => s.stack ≠ []

def step (fuel : Nat) (s : State τ) : Op τ → Option (State τ)
  | .add t type value => timerAdd fuel s t type value
  | .del t => some (timerDel s t)
  | .chg t type value => timerChg fuel s t type value
  | .run => some { s with stack := .loop :: s.stack }
  | .clock time => some { s with currentTime := time }
  | .resume =>
    match s.stack with
    | [] => none
    | .loop :: rest => some (timerRunTurn s rest)
    | .expire t :: rest => timerRunReturn fuel s t rest
    | .destroy _ :: rest => some { s with stack := rest }

/-- A permitted call or return that ends in `s'`. -/
def Step (s : State τ) (op : Op τ) (s' : State τ) : Prop := Permitted s op ∧ ∃ fuel, step fuel s op = some s'

inductive Reachable : State τ → Prop where
  | init (currentTime : Int) : Reachable (State.init currentTime)
  | step {s s' : State τ} {op : Op τ} : Reachable s → Step s op s' → Reachable s'

end Ircd.Events

import Ircd.Library.PrevNext
import Ircd.Text.Chattr

/-! The nick history of `whowas.c`: records on three lists at once.

The fields of the records are functions of the record's pointer, so that a write to one
field leaves the others alone. `malloc` may give any pointer that is not in use: the
pointer of a new record is an argument of the call that takes it. The texts that are only
copied into a record and freed with it are left out.
-/

set_option autoImplicit false

namespace Ircd.Whowas
open Ircd.Library Ircd.Text

/-- The records and the lists they are on. `hash` holds `hnext`, `hprevnextp` and
`whowashash`; `client` holds `cnext`, `cprevnextp` and the `cli_whowas` of each client. -/
structure State (ι γ : Type) where
  allocated : ι → Bool
  hashv : ι → Nat
  name : ι → CString
  online : ι → Option γ
  hash : Links Nat ι
  client : Links γ ι
  wnext : ι → Option ι
  wprev : ι → Option ι
  wwList : Option ι
  wwTail : Option ι
  wwAlloc : Nat
  /-- The feature `NICKNAMEHISTORYLENGTH`. -/
  historyLength : Nat

def hashWhowasName (name : CString) : Nat :=
  let sums := name.chars.foldl (fun (hash : Nat × Nat) c =>
    ((hash.1 * 2 + (toLower c).toNat) % 2 ^ 32, (hash.2 / 2 + (toLower c).toNat) % 2 ^ 32)) (0, 0)
  (sums.1 &&& 15) * 8 + (sums.2 &&& 7)

section
variable {ι γ : Type} [DecidableEq ι] [DecidableEq γ]

def unlinkClient (s : State ι γ) (ww : ι) : Option (State ι γ) :=
  if (s.online ww).isSome then (s.client.unlink ww).map fun client => { s with client := client } else some s

def unlinkHash (s : State ι γ) (ww : ι) : Option (State ι γ) :=
  (s.hash.unlink ww).map fun hash => { s with hash := hash }

def unlinkList (s : State ι γ) (ww : ι) : State ι γ :=
  let s := match s.wnext ww with
    | some n => { s with wprev := Function.update s.wprev n (s.wprev ww) }
    | none => s
  let s := match s.wprev ww with
    | some p => { s with wnext := Function.update s.wnext p (s.wnext ww) }
    | none => s
  if s.wwTail = some ww then { s with wwTail := s.wprev ww } else s

def whowasClean (s : State ι γ) (ww : ι) : Option (State ι γ) :=
  ((unlinkClient s ww).bind (unlinkHash · ww)).map (unlinkList · ww)

def whowasFree (s : State ι γ) (ww : ι) : Option (State ι γ) :=
  (whowasClean s ww).map fun s =>
    { s with allocated := Function.update s.allocated ww false, wwAlloc := s.wwAlloc - 1 }

def State.blank (s : State ι γ) (ww : ι) : State ι γ :=
  { s with
    online := Function.update s.online ww none
    hash := s.hash.clear ww
    client := s.client.clear ww
    wnext := Function.update s.wnext ww none
    wprev := Function.update s.wprev ww none }

/-- `whowas_alloc`, with `new` the pointer `malloc` would give; `none` when the assertion fails. -/
def whowasAlloc (s : State ι γ) (new : ι) : Option (ι × State ι γ) :=
  if s.wwAlloc ≥ s.historyLength then
    match s.wwTail with
    | none => none
    | some ww => (whowasClean s ww).map fun s => (ww, s.blank ww)
  else
    let s := { s with allocated := Function.update s.allocated new true, wwAlloc := s.wwAlloc + 1 }
    some (new, s.blank new)

/-- The loop of `whowas_realloc`, which takes one record a turn. -/
def whowasTrim : Nat → State ι γ → Option (State ι γ)
  | 0, s => some s
  | left + 1, s =>
    if s.wwAlloc > s.historyLength then
      match s.wwTail with
      | none => some s
      | some ww => (whowasFree s ww).bind (whowasTrim left)
    else some s

def whowasRealloc (s : State ι γ) : Option (State ι γ) := whowasTrim s.wwAlloc s

def linkClient (s : State ι γ) (ww : ι) (cptr : γ) : State ι γ :=
  { s with online := Function.update s.online ww (some cptr), client := s.client.push cptr ww }

def linkList (s : State ι γ) (ww : ι) : State ι γ :=
  let s := { s with wnext := Function.update s.wnext ww s.wwList }
  let s := match s.wwList with
    | some head => { s with wprev := Function.update s.wprev head (some ww) }
    | none => s
  let s := { s with wwList := some ww }
  if s.wwTail = none then { s with wwTail := some ww } else s

def linkHash (s : State ι γ) (ww : ι) : State ι γ := { s with hash := s.hash.push (s.hashv ww) ww }

/-- Fill in the record `ww` and put it on its lists. -/
def State.enter (s : State ι γ) (ww : ι) (cptr : γ) (name : CString) (stillOn : Bool) : State ι γ :=
  let s := { s with
    hashv := Function.update s.hashv ww (hashWhowasName name)
    name := Function.update s.name ww name }
  let s := if stillOn then linkClient s ww cptr else { s with online := Function.update s.online ww none }
  linkHash (linkList s ww) ww

/-- `add_history` for a client called `name`. -/
def addHistory (s : State ι γ) (cptr : γ) (name : CString) (stillOn : Bool) (new : ι) : Option (State ι γ) :=
  (whowasAlloc s new).map fun (ww, s) => s.enter ww cptr name stillOn

/-- The loop of `off_history`; a chain has no more records than there are. -/
def offLoop : Nat → Option ι → State ι γ → Option (State ι γ)
  | _, none, s => some s
  | 0, some _, _ => none
  | left + 1, some temp, s =>
    let s := { s with online := Function.update s.online temp none }
    offLoop left (s.client.next temp) s

def offHistory (s : State ι γ) (cptr : γ) : Option (State ι γ) := offLoop s.wwAlloc (s.client.head cptr) s

/-- `remove_client_from_list` calls `off_history` and then frees the client. -/
def clientGone (s : State ι γ) (cptr : γ) : Option (State ι γ) :=
  (offHistory s cptr).map fun s =>
    { s with client := { s.client with head := Function.update s.client.head cptr none } }

inductive Call (ι γ : Type) where
  | add (cptr : γ) (name : CString) (stillOn : Bool) (new : ι)
  | off (cptr : γ)
  | realloc (historyLength : Nat)

def step (s : State ι γ) : Call ι γ → Option (State ι γ)
  | .add cptr name stillOn new => addHistory s cptr name stillOn new
  | .off cptr => clientGone s cptr
  | .realloc historyLength => whowasRealloc { s with historyLength := historyLength }

/-- A new record is at a place not in use, and the history keeps at least one record. -/
def Call.allowed (s : State ι γ) : Call ι γ → Prop
  | .add _ _ _ new => s.allocated new = false
  | .off _ => True
  | .realloc historyLength => 1 ≤ historyLength

structure State.Empty (s : State ι γ) : Prop where
  allocated : ∀ ww, s.allocated ww = false
  hash : ∀ hashv, s.hash.head hashv = none
  client : ∀ cptr, s.client.head cptr = none
  list : s.wwList = none
  tail : s.wwTail = none
  alloc : s.wwAlloc = 0
  length : 1 ≤ s.historyLength

/-- What the history is for: the last nicks, the newest first, each with its client as
long as that is there. -/
abbrev History (γ : Type) := List (CString × Option γ)

/-- What a call does to the history: only the oldest entries are dropped. -/
def History.step (length : Nat) (history : History γ) : Call ι γ → History γ
  | .add cptr name stillOn _ => ((name, if stillOn then some cptr else none) :: history).take length
  | .off cptr => history.map fun entry => if entry.2 = some cptr then (entry.1, none) else entry
  | .realloc length => history.take length

/-- The states reached by calls that all meet a condition, with the history they make. -/
inductive Run (meets : State ι γ → Call ι γ → Prop) : State ι γ → History γ → Prop
  | init {s : State ι γ} (empty : s.Empty) : Run meets s []
  | call {s s' : State ι γ} {history : History γ} {c : Call ι γ} (run : Run meets s history)
      (allowed : c.allowed s) (met : meets s c) (next : step s c = some s') :
      Run meets s' (history.step s.historyLength c)

def Call.spares (s : State ι γ) : Call ι γ → Prop
  | .add _ _ _ _ => ¬ (s.historyLength = 1 ∧ s.wwAlloc = 1)
  | _ => True

end

end Ircd.Whowas

import Ircd.Library.PrevNext
import Mathlib.Data.List.Perm.Subperm
import Mathlib.Tactic.Common

/-! The list of connections with queued output: `send.c` and the two list functions of `client.c`.

What a socket does with each write is part of the state, so a state says how every later write will go. Queues are
their lengths. The functions are those of a server built without SSL; a message buffer is always to be had.
A notice to operators is sent by `send_buffer` again, and a notice about that notice too; `depth` bounds how far this
goes.
-/

set_option autoImplicit false

namespace Ircd.Buffers.SendQueues
open Ircd.Library

inductive IOResult where
  | success
  | blocked
  | failure
  deriving DecidableEq

/-- What `os_sendv_nonb` does: its result, the bytes it is given and the bytes it takes. -/
structure Write where
  io : IOResult
  count : Nat
  written : Nat

/-- What the functions read and write of a client and its connection: `closed` is a descriptor of -1, and a `quiet`
client, a user or one that is unknown or closing, dies without a notice. -/
structure Conn where
  sendQ : Nat
  lastsq : Nat
  maxSendQ : Nat
  blocked : Bool
  dead : Bool
  me : Bool
  closed : Bool
  server : Bool
  quiet : Bool

def Conn.canSend (x : Conn) : Bool := !(x.dead || x.me || x.closed)

structure State (κ : Type) where
  links : Links Unit κ
  conn : κ → Conn
  socket : κ → Nat → Write

variable {κ : Type} [DecidableEq κ]

namespace State

def setConn (s : State κ) (c : κ) (x : Conn) : State κ := { s with conn := Function.update s.conn c x }

def dropSendq (s : State κ) (c : κ) : State κ :=
  if (s.links.prevnextp c).isSome then
    (s.links.unlink c).elim s fun links => { s with links := links.clear c }
  else s

def addSendq (s : State κ) (c : κ) : State κ :=
  if (s.links.prevnextp c).isSome then s else { s with links := s.links.push () c }

def offered (s : State κ) (c : κ) : Nat := min (s.socket c 0).count (s.conn c).sendQ

def taken (s : State κ) (c : κ) : Nat :=
  if (s.socket c 0).io = .success then min (s.socket c 0).written (s.offered c) else 0

/-- `deliver_it`: the flags and the socket; what is taken is `taken`. -/
def deliverIt (s : State κ) (c : κ) : State κ :=
  let x := s.conn c
  let x :=
    match (s.socket c 0).io with
    | .success => { x with blocked := s.taken c < s.offered c }
    | .blocked => { x with blocked := true }
    | .failure => { x with dead := true }
  { s.setConn c x with socket := Function.update s.socket c fun n => s.socket c (n + 1) }

section
variable (notices : κ → State κ → State κ)

/-- `dead_link`, with the notice about the client. -/
def deadLink (s : State κ) (c : κ) : State κ :=
  let s := s.setConn c { s.conn c with dead := true, sendQ := 0 }
  let s := s.dropSendq c
  if (s.conn c).quiet then s else notices c s

/-- The loop of `send_queued`; every turn but the last takes something out of the queue. -/
def sendLoop (c : κ) : Nat → State κ → State κ
  | 0, s => s.dropSendq c
  | turns + 1, s =>
    if (s.conn c).sendQ = 0 then s.dropSendq c
    else
      let len := s.taken c
      let s := s.deliverIt c
      let x := s.conn c
      if len ≠ 0 then
        let s := s.setConn c { x with sendQ := x.sendQ - len, lastsq := (x.sendQ - len) / 1024 }
        if x.blocked then s else sendLoop c turns s
      else if x.dead then s.deadLink notices c
      else s

def sendQueued (s : State κ) (c : κ) : State κ :=
  if (s.conn c).blocked || !(s.conn c).canSend then s else sendLoop notices c (s.conn c).sendQ s

/-- `send_buffer` for a text of `len` characters and its line end. -/
def sendBuffer (s : State κ) (c : κ) (len : Nat) : State κ :=
  let x := s.conn c
  if !x.canSend then s
  else if x.sendQ > x.maxSendQ then (if x.server then notices c s else s).deadLink notices c
  else
    let s := (s.setConn c { x with sendQ := x.sendQ + (len + 2) }).addSendq c
    if (x.sendQ + (len + 2)) / 1024 > x.lastsq then s.sendQueued notices c else s

/-- The loop of `flush_connections` from a connection on: which connections `send_queued` is called for, and the state
behind it. -/
def flushLoop : Nat → State κ → Option κ → Option (List κ × State κ)
  | 0, _, _ => none
  | _ + 1, s, none => some ([], s)
  | turns + 1, s, some c =>
    let s := s.sendQueued notices c
    (flushLoop turns s (s.links.next c)).map fun r => (c :: r.1, r.2)

def flushConnections (turns : Nat) (s : State κ) : Option (List κ × State κ) :=
  flushLoop notices turns s (s.links.head ())

end

/-- `sendto_opmask_butone` for a notice about a client, sent to some operators. -/
def notices (opers : List κ) (text : κ → Nat) : Nat → κ → State κ → State κ
  | 0, _, s => s
  | depth + 1, c, s => opers.foldl (fun s oper => s.sendBuffer (notices opers text depth) oper (text c)) s

end State

open State

/-- The connections of the list, in order; those outside of it have no pointers. -/
structure Listed (s : State κ) (l : List κ) : Prop where
  holds : s.links.Holds (fun _ => some ()) l
  distinct : l.Nodup
  off : ∀ c, c ∉ l → s.links.prevnextp c = none ∧ s.links.next c = none

structure Sound (s : State κ) (l : List κ) : Prop extends Listed s l where
  queued : ∀ c, c ∈ l ↔ 0 < (s.conn c).sendQ

structure SoundBut (c : κ) (s : State κ) (l : List κ) : Prop extends Listed s l where
  queued : ∀ d, d ≠ c → (d ∈ l ↔ 0 < (s.conn d).sendQ)

omit [DecidableEq κ] in
theorem filter_unit (l : List κ) : (l.filter fun _ => (some () : Option Unit) = some ()) = l := by
  simp

variable {s : State κ} {l : List κ}

omit [DecidableEq κ] in
theorem Listed.chain (listed : Listed s l) : Chain s.links.next (s.links.head ()) l := by
  have chain := listed.holds.chain ()
  rwa [filter_unit] at chain

omit [DecidableEq κ] in
theorem Listed.back (listed : Listed s l) : Back s.links.prevnextp (.head ()) l := by
  have back := listed.holds.back ()
  rwa [filter_unit] at back

omit [DecidableEq κ] in
theorem Listed.prev_isSome (listed : Listed s l) (c : κ) :
    (s.links.prevnextp c).isSome = true ↔ c ∈ l := by
  constructor
  · intro set
    by_contra outside
    rw [(listed.off c outside).1] at set
    cases set
  · intro mem
    rcases listed.back.mem mem with first | ⟨p, -, before⟩
    · rw [first]
      rfl
    · rw [before]
      rfl

omit [DecidableEq κ] in
theorem Sound.but (sound : Sound s l) (c : κ) : SoundBut c s l :=
  ⟨sound.toListed, fun d _ => sound.queued d⟩

omit [DecidableEq κ] in
theorem SoundBut.sound {c : κ} (but : SoundBut c s l) (queued : c ∈ l ↔ 0 < (s.conn c).sendQ) : Sound s l := by
  refine ⟨but.toListed, fun d => ?_⟩
  by_cases here : d = c
  · rw [here]
    exact queued
  · exact but.queued d here

@[simp] theorem setConn_self (s : State κ) (c : κ) (x : Conn) : (s.setConn c x).conn c = x := Function.update_self ..

theorem setConn_of_ne (s : State κ) {c d : κ} (other : d ≠ c) (x : Conn) : (s.setConn c x).conn d = s.conn d :=
  Function.update_of_ne other _ _

theorem SoundBut.setConn {c : κ} (but : SoundBut c s l) (x : Conn) :
    SoundBut c (s.setConn c x) l := by
  refine ⟨⟨but.holds, but.distinct, but.off⟩, fun d other => ?_⟩
  rw [but.queued d other, setConn_of_ne s other]

@[simp] theorem dropSendq_conn (s : State κ) (c : κ) : (s.dropSendq c).conn = s.conn := by
  unfold dropSendq
  split
  · cases s.links.unlink c with
    | none => rfl
    | some links => rfl
  · rfl

theorem Listed.drop (listed : Listed s l) (c : κ) : Listed (s.dropSendq c) (l.erase c) := by
  unfold dropSendq
  by_cases mem : c ∈ l
  · obtain ⟨links, unlinked, holds⟩ := listed.holds.unlink listed.distinct mem rfl
    rw [if_pos ((listed.prev_isSome c).mpr mem), unlinked]
    have others (d : κ) (other : d ≠ c) :
        (links.clear c).next d = links.next d ∧ (links.clear c).prevnextp d = links.prevnextp d :=
      ⟨Function.update_of_ne other _ _, Function.update_of_ne other _ _⟩
    have inside (d : κ) (mem_d : d ∈ l.erase c) : d ≠ c := (List.Nodup.mem_erase_iff listed.distinct).mp mem_d |>.1
    refine ⟨?_, listed.distinct.erase c, fun d outside => ?_⟩
    · exact holds.congr (fun d mem_d => (others d (inside d mem_d)).1) (fun d mem_d => (others d (inside d mem_d)).2) rfl
        fun _ _ => rfl
    · by_cases here : d = c
      · rw [here]
        exact ⟨Function.update_self .., Function.update_self ..⟩
      · have outside_l : d ∉ l := fun mem_d => outside ((List.mem_erase_of_ne here).mpr mem_d)
        have kept := listed.holds.unlink_outside mem rfl unlinked outside_l
        have off := listed.off d outside_l
        exact ⟨((others d here).2.trans kept.2).trans off.1, ((others d here).1.trans kept.1).trans off.2⟩
  · rw [if_neg (mt (listed.prev_isSome c).mp mem), List.erase_of_not_mem mem]
    exact listed

theorem SoundBut.drop {c : κ} (but : SoundBut c s l) (empty : (s.conn c).sendQ = 0) :
    Sound (s.dropSendq c) (l.erase c) := by
  refine ⟨but.toListed.drop c, fun d => ?_⟩
  rw [dropSendq_conn]
  by_cases here : d = c
  · rw [here, empty]
    exact iff_of_false but.distinct.not_mem_erase (Nat.lt_irrefl 0)
  · rw [List.mem_erase_of_ne here]
    exact but.queued d here

theorem SoundBut.add {c : κ} (but : SoundBut c s l) (some_queued : 0 < (s.conn c).sendQ) :
    ∃ l', Sound (s.addSendq c) l' := by
  unfold addSendq
  by_cases mem : c ∈ l
  · rw [if_pos ((but.prev_isSome c).mpr mem)]
    exact ⟨l, but.sound (iff_of_true mem some_queued)⟩
  · rw [if_neg (mt (but.prev_isSome c).mp mem)]
    refine ⟨c :: l, ⟨but.holds.push but.distinct mem rfl, List.nodup_cons.mpr ⟨mem, but.distinct⟩, fun d outside => ?_⟩,
      fun d => ?_⟩
    · rw [List.mem_cons, not_or] at outside
      have kept := but.holds.push_outside () outside.1 outside.2
      have off := but.off d outside.2
      exact ⟨kept.2.trans off.1, kept.1.trans off.2⟩
    · rw [List.mem_cons]
      by_cases here : d = c
      · rw [here]
        exact iff_of_true (.inl rfl) some_queued
      · rw [or_iff_right here]
        exact but.queued d here

@[simp] theorem addSendq_conn (s : State κ) (c : κ) : (s.addSendq c).conn = s.conn := by
  unfold addSendq
  split
  · rfl
  · rfl

structure Kept (s s' : State κ) : Prop where
  sound : ∃ l, Sound s' l
  dead : ∀ c, (s.conn c).dead = true → s'.conn c = s.conn c

def Keeps (s s' : State κ) : Prop := (∃ l, Sound s l) → Kept s s'

omit [DecidableEq κ] in
theorem Keeps.refl (s : State κ) : Keeps s s := fun sound => ⟨sound, fun _ _ => rfl⟩

omit [DecidableEq κ] in
theorem Keeps.trans {s₁ s₂ s₃ : State κ} (first : Keeps s₁ s₂) (second : Keeps s₂ s₃) : Keeps s₁ s₃ := by
  intro sound
  have kept := first sound
  have later := second kept.sound
  refine ⟨later.sound, fun c dead => ?_⟩
  have same := kept.dead c dead
  rw [later.dead c (same ▸ dead), same]

inductive Drains : Nat → (Nat → Write) → Prop
  | empty {socket : Nat → Write} : Drains 0 socket
  | fails {len : Nat} {socket : Nat → Write} (some_len : len ≠ 0) (io : (socket 0).io = .failure) : Drains len socket
  | takes {len : Nat} {socket : Nat → Write} (io : (socket 0).io = .success) (some_bytes : min (socket 0).count len ≠ 0)
      (all : min (socket 0).count len ≤ (socket 0).written)
      (rest : Drains (len - min (socket 0).count len) fun n => socket (n + 1)) : Drains len socket

/-- `send_queued` takes the connection off the list: it may be written to, and its socket takes all there is, or
fails. -/
def Leaves (s : State κ) (c : κ) : Prop :=
  (s.conn c).blocked = false ∧ (s.conn c).canSend = true ∧ Drains (s.conn c).sendQ (s.socket c)

def deliveredConn (s : State κ) (c : κ) : Conn :=
  match (s.socket c 0).io with
  | .success => { s.conn c with blocked := s.taken c < s.offered c }
  | .blocked => { s.conn c with blocked := true }
  | .failure => { s.conn c with dead := true }

@[simp] theorem deliverIt_self (s : State κ) (c : κ) : (s.deliverIt c).conn c = deliveredConn s c := by
  unfold deliverIt deliveredConn
  exact Function.update_self ..

@[simp] theorem deliverIt_socket (s : State κ) (c : κ) : (s.deliverIt c).socket c = fun n => s.socket c (n + 1) :=
  Function.update_self ..

structure Touches (c : κ) (s s' : State κ) : Prop where
  links : s'.links = s.links
  others : ∀ d, d ≠ c → s'.conn d = s.conn d ∧ s'.socket d = s.socket d

theorem deliverIt_touches (s : State κ) (c : κ) : Touches c s (s.deliverIt c) :=
  ⟨rfl, fun _ other => ⟨Function.update_of_ne other _ _, Function.update_of_ne other _ _⟩⟩

theorem setConn_touches (s : State κ) (c : κ) (x : Conn) : Touches c s (s.setConn c x) :=
  ⟨rfl, fun _ other => ⟨setConn_of_ne s other x, rfl⟩⟩

omit [DecidableEq κ] in
theorem Touches.trans {c : κ} {s₁ s₂ s₃ : State κ} (first : Touches c s₁ s₂) (second : Touches c s₂ s₃) :
    Touches c s₁ s₃ := by
  refine ⟨second.links.trans first.links, fun d other => ?_⟩
  exact ⟨(second.others d other).1.trans (first.others d other).1,
    (second.others d other).2.trans (first.others d other).2⟩

omit [DecidableEq κ] in
theorem SoundBut.touches {c : κ} {s' : State κ} (but : SoundBut c s l) (touches : Touches c s s') :
    SoundBut c s' l := by
  refine ⟨⟨?_, but.distinct, ?_⟩, fun d other => ?_⟩
  · rw [touches.links]
    exact but.holds
  · rw [touches.links]
    exact but.off
  · rw [(touches.others d other).1]
    exact but.queued d other

structure Left (c : κ) (s s' : State κ) : Prop where
  sound : ∃ l', Sound s' l'
  empty : (s'.conn c).sendQ = 0
  dead : ∀ d, d ≠ c → (s.conn d).dead = true → s'.conn d = s.conn d

omit [DecidableEq κ] in
theorem Left.after {c : κ} {s₁ s' : State κ} (left : Left c s₁ s') (touches : Touches c s s₁) : Left c s s' := by
  refine ⟨left.sound, left.empty, fun d other dead => ?_⟩
  have same := (touches.others d other).1
  rw [left.dead d other (same ▸ dead), same]

theorem drains_iff {len : Nat} {socket : Nat → Write} (some_len : len ≠ 0) :
    Drains len socket ↔ (socket 0).io = .failure ∨ (socket 0).io = .success ∧ min (socket 0).count len ≠ 0 ∧
      min (socket 0).count len ≤ (socket 0).written ∧
        Drains (len - min (socket 0).count len) fun n => socket (n + 1) := by
  constructor
  · intro drains
    cases drains with
    | empty => exact absurd rfl some_len
    | fails _ io => exact .inl io
    | takes io some_bytes all rest => exact .inr ⟨io, some_bytes, all, rest⟩
  · rintro (io | ⟨io, some_bytes, all, rest⟩)
    · exact .fails some_len io
    · exact .takes io some_bytes all rest

section
variable {notices : κ → State κ → State κ} (tame : ∀ c s, Keeps s (notices c s))
include tame

theorem deadLink_left {c : κ} {s : State κ} {l : List κ} (but : SoundBut c s l) : Left c s (s.deadLink notices c) := by
  have dropped := (but.setConn { s.conn c with dead := true, sendQ := 0 }).drop (by rw [setConn_self])
  have here : (((s.setConn c { s.conn c with dead := true, sendQ := 0 }).dropSendq c).conn c).sendQ = 0 := by
    rw [dropSendq_conn, setConn_self]
  have gone : (((s.setConn c { s.conn c with dead := true, sendQ := 0 }).dropSendq c).conn c).dead = true := by
    rw [dropSendq_conn, setConn_self]
  have others (d : κ) (other : d ≠ c) :
      ((s.setConn c { s.conn c with dead := true, sendQ := 0 }).dropSendq c).conn d = s.conn d := by
    rw [dropSendq_conn, setConn_of_ne s other]
  unfold State.deadLink
  simp only
  generalize (s.setConn c { s.conn c with dead := true, sendQ := 0 }).dropSendq c = s₁ at *
  split
  · exact ⟨⟨_, dropped⟩, here, fun d other _ => others d other⟩
  · have kept := tame c s₁ ⟨_, dropped⟩
    refine ⟨kept.sound, by rw [kept.dead c gone, here], fun d other dead => ?_⟩
    rw [kept.dead d (others d other ▸ dead), others d other]

/-- The loop of `send_queued`: either the queue drains and the connection leaves the list, or the list is as it was. -/
theorem sendLoop_spec {c : κ} {turns : Nat} {s : State κ} {l : List κ} (but : SoundBut c s l)
    (on_list : (s.conn c).sendQ ≠ 0 → c ∈ l) (alive : (s.conn c).dead = false) (enough : (s.conn c).sendQ ≤ turns) :
    Drains (s.conn c).sendQ (s.socket c) ∧ Left c s (sendLoop notices c turns s) ∨
      ¬ Drains (s.conn c).sendQ (s.socket c) ∧ Sound (sendLoop notices c turns s) l ∧
        Touches c s (sendLoop notices c turns s) := by
  induction turns generalizing s with
  | zero =>
    have zero : (s.conn c).sendQ = 0 := Nat.le_zero.mp enough
    left
    rw [sendLoop, zero]
    exact ⟨.empty, ⟨_, but.drop zero⟩, by rw [dropSendq_conn, zero], fun d _ _ => by rw [dropSendq_conn]⟩
  | succ turns ih =>
    unfold sendLoop
    by_cases zero : (s.conn c).sendQ = 0
    · left
      rw [if_pos zero, zero]
      exact ⟨.empty, ⟨_, but.drop zero⟩, by rw [dropSendq_conn, zero], fun d _ _ => by rw [dropSendq_conn]⟩
    · rw [if_neg zero, drains_iff zero]
      have delivered := deliverIt_touches s c
      have mem := on_list zero
      simp only [deliverIt_self]
      cases io : (s.socket c 0).io with
      | failure =>
        have none_taken : s.taken c = 0 := by rw [taken, io]; rfl
        have died : (deliveredConn s c).dead = true := by rw [deliveredConn, io]
        left
        rw [if_neg (not_not.mpr none_taken), if_pos died]
        exact ⟨.inl rfl, (deadLink_left tame (but.touches delivered)).after delivered⟩
      | blocked =>
        have none_taken : s.taken c = 0 := by rw [taken, io]; rfl
        have lives : ¬ (deliveredConn s c).dead = true := by rw [deliveredConn, io]; simp [alive]
        right
        rw [if_neg (not_not.mpr none_taken), if_neg lives]
        refine ⟨by simp, (but.touches delivered).sound ?_, delivered⟩
        rw [deliverIt_self, deliveredConn, io]
        exact iff_of_true mem (Nat.pos_of_ne_zero zero)
      | success =>
        have some_taken : s.taken c = min (s.socket c 0).written (s.offered c) := by rw [taken, io]; rfl
        have offered : s.offered c = min (s.socket c 0).count (s.conn c).sendQ := rfl
        have conn : deliveredConn s c = { s.conn c with blocked := s.taken c < s.offered c } := by rw [deliveredConn, io]
        rw [conn]
        by_cases none_taken : s.taken c = 0
        · have lives : ¬ (s.conn c).dead = true := by simp [alive]
          right
          rw [if_neg (not_not.mpr none_taken), if_neg lives]
          refine ⟨?_, (but.touches delivered).sound ?_, delivered⟩
          · rintro (failed | ⟨-, some_bytes, all, -⟩)
            · cases failed
            · omega
          · rw [deliverIt_self, conn]
            exact iff_of_true mem (Nat.pos_of_ne_zero zero)
        · rw [if_pos none_taken]
          simp only [decide_eq_true_eq]
          have touches := delivered.trans (setConn_touches (s.deliverIt c) c
            { s.conn c with
              blocked := s.taken c < s.offered c
              sendQ := (s.conn c).sendQ - s.taken c
              lastsq := ((s.conn c).sendQ - s.taken c) / 1024 })
          by_cases partly : s.taken c < s.offered c
          · right
            rw [if_pos partly]
            refine ⟨?_, (but.touches touches).sound ?_, touches⟩
            · rintro (failed | ⟨-, some_bytes, all, -⟩)
              · cases failed
              · omega
            · rw [setConn_self]
              exact iff_of_true mem (by simp only; omega)
          · rw [if_neg partly]
            have whole : s.taken c = min (s.socket c 0).count (s.conn c).sendQ := by omega
            have later := ih (but.touches touches) (fun _ => mem) (by rw [setConn_self]; exact alive)
              (by rw [setConn_self]; simp only; omega)
            rw [setConn_self] at later
            simp only [State.setConn, deliverIt_socket, whole] at later touches ⊢
            rcases later with ⟨drains, left_list⟩ | ⟨stays, sound, touched⟩
            · exact .inl ⟨.inr ⟨trivial, by omega, by omega, drains⟩, left_list.after touches⟩
            · refine .inr ⟨?_, sound, touches.trans touched⟩
              rintro (failed | ⟨-, -, -, drains⟩)
              · cases failed
              · exact stays drains

omit tame in
omit [DecidableEq κ] in
theorem Left.kept {c : κ} {s s' : State κ} (gone : Left c s s') (alive : (s.conn c).dead = false) : Kept s s' := by
  refine ⟨gone.sound, fun d dead => gone.dead d (fun same => ?_) dead⟩
  rw [same, alive] at dead
  cases dead

omit tame in
omit [DecidableEq κ] in
theorem Touches.dead {c : κ} {s s' : State κ} (touches : Touches c s s') (alive : (s.conn c).dead = false) (d : κ)
    (dead : (s.conn d).dead = true) : s'.conn d = s.conn d := by
  refine (touches.others d fun same => ?_).1
  rw [same, alive] at dead
  cases dead

omit tame in
omit [DecidableEq κ] in
theorem canSend_alive {x : Conn} (can : x.canSend = true) : x.dead = false := by
  simp only [Conn.canSend, Bool.not_eq_true', Bool.or_eq_false_iff] at can
  exact can.1.1

/-- `send_queued` takes its connection off the list, or leaves the list and all other connections alone. -/
theorem sendQueued_spec {s : State κ} {l : List κ} (sound : Sound s l) (c : κ) :
    Leaves s c ∧ Left c s (s.sendQueued notices c) ∨
      ¬ Leaves s c ∧ Sound (s.sendQueued notices c) l ∧ Touches c s (s.sendQueued notices c) := by
  unfold sendQueued Leaves
  by_cases ready : (s.conn c).blocked = false ∧ (s.conn c).canSend = true
  · rw [if_neg (by simp [ready])]
    have on_list (some_queued : (s.conn c).sendQ ≠ 0) : c ∈ l := (sound.queued c).mpr (Nat.pos_of_ne_zero some_queued)
    rcases sendLoop_spec tame (sound.but c) on_list (canSend_alive ready.2) (Nat.le_refl _) with
      ⟨drains, gone⟩ | ⟨stays, sound', touches⟩
    · exact .inl ⟨⟨ready.1, ready.2, drains⟩, gone⟩
    · exact .inr ⟨fun leaves => stays leaves.2.2, sound', touches⟩
  · have skipped : ((s.conn c).blocked || !(s.conn c).canSend) = true := by
      by_contra neither
      simp only [Bool.or_eq_true, Bool.not_eq_true', not_or, Bool.not_eq_false, Bool.not_eq_true] at neither
      exact ready neither
    rw [if_pos skipped]
    exact .inr ⟨fun leaves => ready ⟨leaves.1, leaves.2.1⟩, sound, rfl, fun _ _ => ⟨rfl, rfl⟩⟩

theorem sendQueued_keeps (s : State κ) (c : κ) : Keeps s (s.sendQueued notices c) := by
  rintro ⟨l, sound⟩
  by_cases alive : (s.conn c).dead = false
  · rcases sendQueued_spec tame sound c with ⟨-, gone⟩ | ⟨-, sound', touches⟩
    · exact gone.kept alive
    · exact ⟨⟨l, sound'⟩, touches.dead alive⟩
  · have skipped : ((s.conn c).blocked || !(s.conn c).canSend) = true := by simp [Conn.canSend, alive]
    rw [sendQueued, if_pos skipped]
    exact Keeps.refl s ⟨l, sound⟩

theorem deadLink_kept {c : κ} {s s₁ : State κ} (kept : Kept s s₁) (alive : (s.conn c).dead = false) :
    Kept s (s₁.deadLink notices c) := by
  obtain ⟨l, sound⟩ := kept.sound
  have gone := deadLink_left tame (sound.but c)
  refine ⟨gone.sound, fun d dead => ?_⟩
  have other : d ≠ c := by
    intro same
    rw [same, alive] at dead
    cases dead
  have same := kept.dead d dead
  rw [gone.dead d other (same ▸ dead), same]

theorem sendBuffer_keeps (s : State κ) (c : κ) (len : Nat) : Keeps s (s.sendBuffer notices c len) := by
  intro sound
  unfold sendBuffer
  by_cases can : (s.conn c).canSend = true
  · have alive := canSend_alive can
    simp only
    rw [if_neg (by simp [can])]
    split
    · split
      · exact deadLink_kept tame (tame c s sound) alive
      · exact deadLink_kept tame (Keeps.refl s sound) alive
    · have touches := setConn_touches s c { s.conn c with sendQ := (s.conn c).sendQ + (len + 2) }
      obtain ⟨l, sound⟩ := sound
      have queued : 0 < ((s.setConn c { s.conn c with sendQ := (s.conn c).sendQ + (len + 2) }).conn c).sendQ := by
        rw [setConn_self]
        exact Nat.succ_pos _
      have added := ((sound.but c).touches touches).add queued
      have kept : Kept s ((s.setConn c { s.conn c with sendQ := (s.conn c).sendQ + (len + 2) }).addSendq c) := by
        refine ⟨added, fun d dead => ?_⟩
        rw [addSendq_conn]
        exact touches.dead alive d dead
      split
      · exact Keeps.trans (fun _ => kept) (sendQueued_keeps tame _ c) ⟨l, sound⟩
      · exact kept
  · simp only
    rw [if_pos (by simp [can])]
    exact Keeps.refl s sound

end

omit [DecidableEq κ] in
theorem foldl_keeps {α : Type} {act : State κ → α → State κ} (each : ∀ s a, Keeps s (act s a)) (l : List α)
    (s : State κ) : Keeps s (l.foldl act s) := by
  induction l generalizing s with
  | nil => exact .refl s
  | cons a l ih => exact (each s a).trans (ih (act s a))

theorem notices_keeps (opers : List κ) (text : κ → Nat) (depth : Nat) (c : κ) (s : State κ) :
    Keeps s (notices opers text depth c s) := by
  induction depth generalizing c s with
  | zero => exact .refl s
  | succ depth ih => exact foldl_keeps (fun s oper => sendBuffer_keeps ih s oper (text c)) opers s

omit [DecidableEq κ] in
theorem Touches.leaves_iff {c d : κ} {s' : State κ} (touches : Touches c s s') (other : d ≠ c) :
    Leaves s' d ↔ Leaves s d := by
  unfold Leaves
  rw [(touches.others d other).1, (touches.others d other).2]

section
variable {notices : κ → State κ → State κ} (tame : ∀ c s, Keeps s (notices c s))
include tame

/-- A connection that leaves the list takes the way to the ones behind it along: its pointer to the next is cleared. -/
theorem flushLoop_spec {s : State κ} {front back : List κ} (sound : Sound s (front ++ back)) {turns : Nat}
    (enough : back.length < turns) :
    ∃ called s', flushLoop notices turns s back.head? = some (called, s') ∧ called <+: back ∧ (∃ l, Sound s' l) ∧
      (called = back ↔ ∀ c ∈ back.dropLast, ¬ Leaves s c) := by
  induction back generalizing front s turns with
  | nil =>
    obtain ⟨turns, rfl⟩ := Nat.exists_eq_succ_of_ne_zero (Nat.ne_of_gt enough)
    exact ⟨[], s, rfl, List.prefix_rfl, ⟨_, sound⟩, iff_of_true rfl (by simp)⟩
  | cons c back ih =>
    obtain ⟨turns, rfl⟩ := Nat.exists_eq_succ_of_ne_zero (Nat.ne_of_gt (Nat.zero_lt_of_lt enough))
    rw [List.length_cons] at enough
    rw [List.head?_cons, flushLoop]
    rcases sendQueued_spec tame sound c with ⟨leaves, gone⟩ | ⟨stays, sound', touches⟩
    · obtain ⟨l', sound'⟩ := gone.sound
      have off : c ∉ l' := fun mem => by
        have queued := (sound'.queued c).mp mem
        rw [gone.empty] at queued
        exact Nat.lt_irrefl 0 queued
      obtain ⟨turns, rfl⟩ := Nat.exists_eq_succ_of_ne_zero (n := turns) (by omega)
      rw [(sound'.off c off).2, flushLoop]
      refine ⟨[c], _, rfl, ⟨back, rfl⟩, gone.sound, ?_⟩
      cases back with
      | nil => simp
      | cons b back =>
        refine iff_of_false (by simp) fun none_leaves => none_leaves c ?_ leaves
        rw [List.dropLast_cons_of_ne_nil (by simp)]
        exact List.mem_cons_self
    · have next : (s.sendQueued notices c).links.next c = back.head? := sound'.chain.next_mid.head_eq
      have sound_on : Sound (s.sendQueued notices c) ((front ++ [c]) ++ back) := by rwa [List.append_assoc]
      have distinct : c ∉ back := (List.nodup_cons.mp (List.nodup_append.mp sound.distinct).2.1).1
      obtain ⟨called, s', loop, pre, ends, all⟩ := ih sound_on (Nat.lt_of_succ_lt_succ enough)
      rw [next, loop]
      refine ⟨c :: called, s', rfl, List.cons_prefix_cons.mpr ⟨rfl, pre⟩, ends, ?_⟩
      rw [List.cons_inj_right, all]
      have same (d : κ) (mem : d ∈ back.dropLast) : Leaves (s.sendQueued notices c) d ↔ Leaves s d :=
        touches.leaves_iff fun here => distinct (here ▸ List.dropLast_subset back mem)
      cases back with
      | nil => simp
      | cons b back =>
        rw [List.dropLast_cons_of_ne_nil (by simp) (x := c), List.forall_mem_cons]
        rw [and_iff_right stays]
        exact forall₂_congr fun d mem => not_congr (same d mem)

theorem flushLoop_keeps {turns : Nat} {s s' : State κ} {from_here : Option κ} {called : List κ}
    (returns : flushLoop notices turns s from_here = some (called, s')) : Keeps s s' := by
  induction turns generalizing s s' from_here called with
  | zero => cases returns
  | succ turns ih =>
    cases from_here with
    | none =>
      obtain ⟨-, rfl⟩ := Prod.mk.inj (Option.some.inj returns)
      exact .refl s
    | some c =>
      obtain ⟨rest, loop, same⟩ := Option.map_eq_some_iff.mp returns
      have later : Keeps (s.sendQueued notices c) rest.2 := ih loop
      rw [← (Prod.mk.inj same).2]
      exact (sendQueued_keeps tame s c).trans later

end

def closeConnection (notices : κ → State κ → State κ) (s : State κ) (c : κ) : State κ :=
  let s := if (s.conn c).closed then s else s.sendQueued notices c
  (s.setConn c { s.conn c with closed := true, dead := true, sendQ := 0 }).dropSendq c

/-- What happens to the connections; whoever gets notices may differ from call to call. The last case is any other
change of a client, its socket or its flags, a new client on a connection without output among them. -/
inductive Call (s : State κ) : State κ → Prop
  | send (opers : List κ) (text : κ → Nat) (depth : Nat) (c : κ) (len : Nat) :
      Call s (s.sendBuffer (notices opers text depth) c len)
  | writable (opers : List κ) (text : κ → Nat) (depth : Nat) (c : κ) :
      Call s ((s.setConn c { s.conn c with blocked := false }).sendQueued (notices opers text depth) c)
  | flush {opers : List κ} {text : κ → Nat} {depth turns : Nat} {called : List κ} {s' : State κ}
      (returns : flushConnections (notices opers text depth) turns s = some (called, s')) : Call s s'
  | close (opers : List κ) (text : κ → Nat) (depth : Nat) (c : κ) :
      Call s (closeConnection (notices opers text depth) s c)
  | change (c : κ) (x : Conn) (socket : Nat → Write) (same : x.sendQ = (s.conn c).sendQ) :
      Call s { s.setConn c x with socket := Function.update s.socket c socket }

structure Started (s : State κ) : Prop where
  head : s.links.head () = none
  off : ∀ c, s.links.prevnextp c = none ∧ s.links.next c = none
  empty : ∀ c, (s.conn c).sendQ = 0

inductive Reached : State κ → Prop
  | start {s : State κ} (started : Started s) : Reached s
  | call {s s' : State κ} (before : Reached s) (call : Call s s') : Reached s'

theorem flushConnections_spec (sound : Sound s l) (opers : List κ) (text : κ → Nat) (depth : Nat) {turns : Nat}
    (enough : l.length < turns) :
    ∃ called s', flushConnections (notices opers text depth) turns s = some (called, s') ∧ called <+: l ∧
      (∃ l', Sound s' l') ∧ (called = l ↔ ∀ c ∈ l.dropLast, ¬ Leaves s c) := by
  unfold flushConnections
  rw [sound.chain.head_eq]
  have sound_on : Sound s ([] ++ l) := sound
  exact flushLoop_spec (fun c s => notices_keeps opers text depth c s) sound_on enough

omit [DecidableEq κ] in
theorem Started.sound (started : Started s) : Sound s [] := by
  refine ⟨⟨⟨fun _ => started.head, fun _ => trivial⟩, List.nodup_nil, fun c _ => started.off c⟩, fun c => ?_⟩
  rw [started.empty c]
  exact iff_of_false List.not_mem_nil (Nat.lt_irrefl 0)

theorem Call.sound {s' : State κ} (call : Call s s') (sound : ∃ l, Sound s l) : ∃ l, Sound s' l := by
  cases call with
  | send opers text depth c len => exact (sendBuffer_keeps (notices_keeps opers text depth) s c len sound).sound
  | writable opers text depth c =>
    obtain ⟨l, sound⟩ := sound
    refine (sendQueued_keeps (notices_keeps opers text depth) _ c ⟨l, ?_⟩).sound
    refine ((sound.but c).setConn _).sound ?_
    rw [setConn_self]
    exact sound.queued c
  | flush returns => exact (flushLoop_keeps (notices_keeps _ _ _) returns sound).sound
  | close opers text depth c =>
    unfold closeConnection
    have flushed : ∃ l, Sound (if (s.conn c).closed then s else s.sendQueued (notices opers text depth) c) l := by
      split
      · exact sound
      · exact (sendQueued_keeps (notices_keeps opers text depth) s c sound).sound
    obtain ⟨l, sound⟩ := flushed
    exact ⟨_, ((sound.but c).setConn _).drop (by rw [setConn_self])⟩
  | change c x socket same =>
    obtain ⟨l, sound⟩ := sound
    have changed : SoundBut c { s.setConn c x with socket := Function.update s.socket c socket } l :=
      (sound.but c).touches ⟨rfl, fun _ other => ⟨setConn_of_ne s other x, Function.update_of_ne other _ _⟩⟩
    refine ⟨l, changed.sound ?_⟩
    show c ∈ l ↔ 0 < ((s.setConn c x).conn c).sendQ
    rw [setConn_self, same]
    exact sound.queued c

theorem Reached.sound (reached : Reached s) : ∃ l, Sound s l := by
  induction reached with
  | start started => exact ⟨[], started.sound⟩
  | call _ call ih => exact call.sound ih

omit [DecidableEq κ] in
theorem prefix_covers {called : List κ} (pre : called <+: l) (distinct : l.Nodup) (all : ∀ c ∈ l, c ∈ called) :
    called = l :=
  pre.eq_of_length_le (distinct.subperm all).length_le

/-- `flush_connections(NULL)` always ends. It calls `send_queued` for all connections with output if and only if none
of them but the last leaves the list, as the call for it would have it. -/
theorem flush_connections_calls {s : State κ} (reached : Reached s) :
    ∃ l, Chain s.links.next (s.links.head ()) l ∧ (∀ c, c ∈ l ↔ 0 < (s.conn c).sendQ) ∧
      ∀ opers text depth turns, l.length < turns → ∃ called s',
        flushConnections (notices opers text depth) turns s = some (called, s') ∧
          ((∀ c, 0 < (s.conn c).sendQ → c ∈ called) ↔ ∀ c ∈ l.dropLast, ¬ Leaves s c) := by
  obtain ⟨l, sound⟩ := reached.sound
  refine ⟨l, sound.chain, sound.queued, fun opers text depth turns enough => ?_⟩
  obtain ⟨called, s', returns, pre, -, all⟩ := flushConnections_spec sound opers text depth enough
  refine ⟨called, s', returns, ?_⟩
  rw [← all]
  constructor
  · intro covers
    exact prefix_covers pre sound.distinct fun c mem => covers c ((sound.queued c).mp mem)
  · intro same c queued
    rw [same]
    exact (sound.queued c).mpr queued

def idle (answer : Write) : State Bool :=
  ⟨⟨fun _ => none, fun _ => none, fun _ => none⟩, fun _ => ⟨0, 0, 1000, false, false, false, false, false, true⟩,
    fun _ _ => answer⟩

theorem idle_reached (answer : Write) : Reached (idle answer) :=
  .start ⟨rfl, fun _ => ⟨rfl, rfl⟩, fun _ => rfl⟩

def bothQueued (answer : Write) : State Bool :=
  ((idle answer).sendBuffer (notices [] (fun _ => 0) 0) false 10).sendBuffer (notices [] (fun _ => 0) 0) true 10

theorem bothQueued_reached (answer : Write) : Reached (bothQueued answer) :=
  .call (.call (idle_reached answer) (.send [] _ 0 false 10)) (.send [] _ 0 true 10)

theorem flush_connections_calls_blocked :
    ∃ l, Chain (bothQueued ⟨.blocked, 12, 0⟩).links.next ((bothQueued ⟨.blocked, 12, 0⟩).links.head ()) l ∧
      (∀ c, c ∈ l ↔ 0 < ((bothQueued ⟨.blocked, 12, 0⟩).conn c).sendQ) ∧
        ∀ opers text depth turns, l.length < turns → ∃ called s',
          flushConnections (notices opers text depth) turns (bothQueued ⟨.blocked, 12, 0⟩) = some (called, s') ∧
            ((∀ c, 0 < ((bothQueued ⟨.blocked, 12, 0⟩).conn c).sendQ → c ∈ called) ↔
              ∀ c ∈ l.dropLast, ¬ Leaves (bothQueued ⟨.blocked, 12, 0⟩) c) :=
  flush_connections_calls (bothQueued_reached _)

/-- The socket of the first takes its whole queue, and the second is passed over. -/
theorem second_never_called :
    Reached (bothQueued ⟨.success, 12, 12⟩) ∧ 0 < ((bothQueued ⟨.success, 12, 12⟩).conn false).sendQ ∧
      ∀ turns called s', flushConnections (notices [] (fun _ => 0) 0) turns (bothQueued ⟨.success, 12, 12⟩) =
        some (called, s') → false ∉ called := by
  refine ⟨bothQueued_reached _, by decide, fun turns called s' returns => ?_⟩
  cases turns with
  | zero => cases returns
  | succ turns =>
    cases turns with
    | zero => cases returns
    | succ turns =>
      have once : [true] = called := (Prod.mk.inj (Option.some.inj returns)).1
      rw [← once]
      decide

end Ircd.Buffers.SendQueues

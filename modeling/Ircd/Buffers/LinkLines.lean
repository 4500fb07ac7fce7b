import Ircd.Buffers.MsgQueue
import Ircd.Buffers.PacketLines
import Mathlib.Data.List.TakeWhile

/-! From the queue of a server to the parser of the next one.

The bytes that are removed from the queue are sent, and the other server may receive them in any pieces.
-/

set_option autoImplicit false

namespace Ircd.Buffers
open Ircd.Text

def onWire (bytes : List Byte) : List Char := bytes.map fun b => Char.ofNat b.toNat

def MsgBuf.text (mb : MsgBuf) : List Char := (onWire mb.bytes).takeWhile fun c => !isEol c

/-- What `msgq_vmake` leaves of a text that is not empty and has no end of line. -/
structure MsgBuf.IsLine (mb : MsgBuf) : Prop where
  ended : onWire mb.bytes = mb.text ++ ['\r', '\n']
  some_text : mb.text ≠ []

theorem linesFrom_inside {text : List Char} (inside : ∀ c ∈ text, isEol c = false) (u : List Char) :
    linesFrom u text = [] ∧ pendingAfter u text = u ++ text := by
  induction text generalizing u with
  | nil => exact ⟨rfl, (List.append_nil u).symm⟩
  | cons c text ih =>
    have other : ¬ isEol c = true := by simp [inside c List.mem_cons_self]
    obtain ⟨none_yet, kept⟩ := ih (fun d mem => inside d (List.mem_cons_of_mem c mem)) (u ++ [c])
    rw [linesFrom, pendingAfter, if_neg other, if_neg other, kept, List.append_assoc]
    exact ⟨none_yet, rfl⟩

theorem text_inside (mb : MsgBuf) : ∀ c ∈ mb.text, isEol c = false := by
  intro c mem
  simpa using List.mem_takeWhile_imp mem

namespace MsgBuf.IsLine
variable {mb : MsgBuf} (line : mb.IsLine)
include line

theorem length : mb.bytes.length = mb.text.length + 2 := by
  have same := congrArg List.length line.ended
  rwa [onWire, List.length_map, List.length_append] at same

/-- The carriage return completes the line. -/
theorem returned (rest : List Char) : linesFrom [] (mb.text ++ '\r' :: rest) = mb.text :: linesFrom [] rest := by
  obtain ⟨none_yet, kept⟩ := linesFrom_inside (text_inside mb) []
  have short := mb.short
  have room : mb.text.length ≤ BUFSIZE := by
    rw [line.length] at short
    exact Nat.le_trans (Nat.le_add_right _ 2) short
  rw [linesFrom_append, none_yet, kept, List.nil_append, List.nil_append, linesFrom,
    if_pos (by decide : isEol '\r' = true), if_neg line.some_text, List.take_of_length_le room]
  rfl

theorem whole (rest : List Char) : linesFrom [] (onWire mb.bytes ++ rest) = mb.text :: linesFrom [] rest := by
  rw [line.ended, List.append_assoc]
  exact (line.returned ('\n' :: rest)).trans rfl

theorem part {k : Nat} (unfinished : k < mb.bytes.length) :
    linesFrom [] (onWire (mb.bytes.take k)) = if k + 1 = mb.bytes.length then [mb.text] else [] := by
  have length := line.length
  have taken : onWire (mb.bytes.take k) = (mb.text ++ ['\r', '\n']).take k := by rw [← line.ended, onWire, List.map_take, onWire]
  rw [taken]
  by_cases last : k + 1 = mb.bytes.length
  · have here : k = mb.text.length + 1 := by omega
    rw [if_pos last, here, List.take_length_add_append]
    exact line.returned []
  · have before : k ≤ mb.text.length := by omega
    rw [if_neg last, List.take_append_of_le_length before]
    exact (linesFrom_inside (fun c mem => text_inside mb c (List.mem_of_mem_take mem)) []).1

end MsgBuf.IsLine

/-- A head of which only the last byte is left: its line is complete. -/
def nearlySent : List Msg → List MsgBuf
  | m :: _ => if m.sent + 1 = m.msg.bytes.length then [m.msg] else []
  | [] => []

theorem nearlySent_starts (l : List Msg) : nearlySent l <+: l.map Msg.msg := by
  cases l with
  | nil => exact List.nil_prefix
  | cons m l =>
    rw [nearlySent]
    split
    · exact ⟨l.map Msg.msg, rfl⟩
    · exact List.nil_prefix

theorem linesFrom_sentPart {l : List Msg} (lines : ∀ m ∈ l, m.msg.IsLine) :
    linesFrom [] (onWire (sentPart l)) = (nearlySent l).map MsgBuf.text := by
  cases l with
  | nil => rfl
  | cons m l =>
    rw [sentPart, (lines m List.mem_cons_self).part m.unfinished, nearlySent]
    split <;> rfl

theorem nearlySent_unsent {l : List Msg} (lines : ∀ m ∈ l, m.msg.IsLine) (unsent : headSent l = false) :
    nearlySent l = [] := by
  have none_sent := linesFrom_sentPart lines
  rw [sentPart_of_unsent unsent] at none_sent
  exact List.map_eq_nil_iff.mp none_sent.symm

theorem linesFrom_messages {done : List (Bool × MsgBuf)} (lines : ∀ entry ∈ done, entry.2.IsLine) (rest : List Char) :
    linesFrom [] (onWire (done.flatMap fun entry => entry.2.bytes) ++ rest) =
      done.map (fun entry => entry.2.text) ++ linesFrom [] rest := by
  induction done with
  | nil => rfl
  | cons entry done ih =>
    have behind := ih fun e mem => lines e (List.mem_cons_of_mem entry mem)
    have first := (lines entry List.mem_cons_self).whole (onWire (done.flatMap fun e => e.2.bytes) ++ rest)
    rw [behind] at first
    rw [List.flatMap_cons, onWire, List.map_append, List.append_assoc]
    exact first

theorem mem_ofClass {l : List (Bool × MsgBuf)} {prio : Bool} {mb : MsgBuf} : mb ∈ ofClass prio l ↔ (prio, mb) ∈ l := by
  simp [ofClass]

theorem ofClass_map (prio other : Bool) (l : List MsgBuf) :
    ofClass prio (l.map fun mb => (other, mb)) = if other = prio then l else [] := by
  by_cases same : other = prio
  · have all : (l.map fun mb => (other, mb)).filter (fun entry => entry.1 = prio) = l.map fun mb => (other, mb) :=
      List.filter_eq_self.mpr (by simp [same])
    rw [if_pos same, ofClass, all, List.map_map]
    exact List.map_id l
  · have none_left : (l.map fun mb => (other, mb)).filter (fun entry => entry.1 = prio) = [] :=
      List.filter_eq_nil_iff.mpr (by simp [same])
    rw [if_neg same, ofClass, none_left, List.map_nil]

theorem queued_some : 0 < ([72, 13, 10] : List Byte).length := by decide

theorem queued_short : ([72, 13, 10] : List Byte).length ≤ 512 := by decide

def queuedLine : MsgBuf := ⟨[72, 13, 10], queued_some, queued_short⟩

end Ircd.Buffers

import Ircd.Channels.ModeBuf

/-! One pass of `modebuf_flush_int`: what gets in the line, what is put off, and the letters. -/

set_option autoImplicit false

namespace Ircd.Channels
open Ircd.Library

variable {Client : Type}

def fitting (names : Names Client) (noKey : Bool) : Nat → List (Slot Client) → List (Slot Client)
  | _, [] => []
  | room, slot :: slots =>
    if room ≤ slot.arg.size names noKey then fitting names noKey room slots
    else slot :: fitting names noKey (room - (slot.arg.size names noKey + 1)) slots

def putOff (names : Names Client) (noKey : Bool) : Nat → List (Slot Client) → List (Slot Client)
  | _, [] => []
  | room, slot :: slots =>
    if room ≤ slot.arg.size names noKey then slot :: putOff names noKey room slots
    else putOff names noKey (room - (slot.arg.size names noKey + 1)) slots

def lastLimit : List Char → List (Slot Client) → List Char
  | limitbuf, [] => limitbuf
  | limitbuf, slot :: slots =>
    match slot.arg with
    | .uint limit => lastLimit (Nat.toDigits 10 limit) slots
    | _ => lastLimit limitbuf slots

theorem fitting_sublist (names : Names Client) (noKey : Bool) (room : Nat) (slots : List (Slot Client)) :
    (fitting names noKey room slots).Sublist slots := by
  induction slots generalizing room with
  | nil => exact List.Sublist.refl _
  | cons slot slots ih =>
    rw [fitting]
    split
    · exact (ih room).cons slot
    · exact (ih _).cons_cons slot

theorem putOff_sublist (names : Names Client) (noKey : Bool) (room : Nat) (slots : List (Slot Client)) :
    (putOff names noKey room slots).Sublist slots := by
  induction slots generalizing room with
  | nil => exact List.Sublist.refl _
  | cons slot slots ih =>
    rw [putOff]
    split
    · exact (ih room).cons_cons slot
    · exact (ih _).cons slot

theorem fitting_perm (names : Names Client) (noKey : Bool) (room : Nat) (slots : List (Slot Client)) :
    (fitting names noKey room slots ++ putOff names noKey room slots).Perm slots := by
  induction slots generalizing room with
  | nil => exact List.Perm.refl _
  | cons slot slots ih =>
    rw [fitting, putOff]
    split
    · exact List.perm_middle.trans ((ih room).cons slot)
    · exact (ih _).cons slot

theorem fitting_all {names : Names Client} {noKey : Bool} {room : Nat} {slots : List (Slot Client)}
    (all : putOff names noKey room slots = []) : fitting names noKey room slots = slots := by
  have perm := fitting_perm names noKey room slots
  rw [all, List.append_nil] at perm
  exact (fitting_sublist names noKey room slots).eq_of_length perm.length_eq

theorem lastLimit_cons (limitbuf : List Char) (slot : Slot Client) (slots : List (Slot Client)) :
    lastLimit limitbuf (slot :: slots) = lastLimit (lastLimit limitbuf [slot]) slots := by
  obtain ⟨add, arg, free, save⟩ := slot
  cases arg <;> rfl

theorem writeSlot_eq (names : Names Client) (noKey : Bool) (p : Pen) (slot : Slot Client) :
    writeSlot names noKey p slot =
      if p.totalbuflen ≤ slot.arg.size names noKey then
        ({ p with limitbuf := lastLimit p.limitbuf [slot] }, { slot with save := true })
      else
        ({ p.put slot.add slot.arg.letter with
          totalbuflen := p.totalbuflen - (slot.arg.size names noKey + 1)
          limitbuf := lastLimit p.limitbuf [slot] }, slot) := by
  obtain ⟨add, arg, free, save⟩ := slot
  cases arg <;> cases add <;> rfl

theorem writeSlots_letters (names : Names Client) (noKey : Bool) (p : Pen) (slots : List (Option (Slot Client))) :
    let fit := fitting names noKey p.totalbuflen slots.reduceOption
    let p' := (writeSlots names noKey p slots).1
    p'.addbuf = p.addbuf ++ (fit.filter fun slot => slot.add).map (·.arg.letter) ∧
      p'.rembuf = p.rembuf ++ (fit.filter fun slot => !slot.add).map (·.arg.letter) ∧
      p'.limitbuf = lastLimit p.limitbuf slots.reduceOption := by
  induction slots generalizing p with
  | nil => simp [writeSlots, fitting, lastLimit]
  | cons slot slots ih =>
    cases slot with
    | none => simpa only [writeSlots, List.reduceOption_cons_of_none] using ih p
    | some slot =>
      simp only [writeSlots, writeSlot_eq, List.reduceOption_cons_of_some, fitting]
      split
      · rw [lastLimit_cons p.limitbuf slot slots.reduceOption]
        exact ih { p with limitbuf := lastLimit p.limitbuf [slot] }
      · rw [lastLimit_cons p.limitbuf slot slots.reduceOption]
        obtain ⟨addbuf, rembuf, limitbuf⟩ := ih { p.put slot.add slot.arg.letter with
          totalbuflen := p.totalbuflen - (slot.arg.size names noKey + 1)
          limitbuf := lastLimit p.limitbuf [slot] }
        refine ⟨addbuf.trans ?_, rembuf.trans ?_, limitbuf⟩
        · cases added : slot.add <;> simp [Pen.put, added]
        · cases added : slot.add <;> simp [Pen.put, added]

def Slot.mark (slot : Slot Client) : Slot Client := { slot with save := true }

theorem writeSlots_marks (names : Names Client) (noKey : Bool) (p : Pen) {slots : List (Option (Slot Client))}
    (unsaved : ∀ slot ∈ slots.reduceOption, slot.save = false) :
    let marked := (writeSlots names noKey p slots).2
    marked.length = slots.length ∧
      marked.reduceOption.filter (·.save) = (putOff names noKey p.totalbuflen slots.reduceOption).map Slot.mark ∧
      marked.reduceOption.filter (!·.save) = fitting names noKey p.totalbuflen slots.reduceOption := by
  induction slots generalizing p with
  | nil => simp [writeSlots, fitting, putOff]
  | cons slot slots ih =>
    cases slot with
    | none =>
      obtain ⟨length, saved, out⟩ := ih p unsaved
      simp only [writeSlots, List.reduceOption_cons_of_none]
      exact ⟨congrArg (· + 1) length, saved, out⟩
    | some slot =>
      rw [List.reduceOption_cons_of_some] at unsaved
      have here := unsaved slot List.mem_cons_self
      have rest := fun p => ih p fun slot mem => unsaved slot (List.mem_cons_of_mem _ mem)
      simp only [writeSlots, writeSlot_eq, List.reduceOption_cons_of_some, fitting, putOff]
      split
      · obtain ⟨length, saved, out⟩ := rest { p with limitbuf := lastLimit p.limitbuf [slot] }
        refine ⟨congrArg (· + 1) length, ?_, ?_⟩
        · simpa [Slot.mark] using saved
        · simpa using out
      · obtain ⟨length, saved, out⟩ := rest { p.put slot.add slot.arg.letter with
          totalbuflen := p.totalbuflen - (slot.arg.size names noKey + 1)
          limitbuf := lastLimit p.limitbuf [slot] }
        refine ⟨congrArg (· + 1) length, ?_, ?_⟩
        · simpa [here] using saved
        · simpa [here] using out

def ModeBuf.slots (mb : ModeBuf Client) : List (Slot Client) := (mb.args.take mb.count).reduceOption

def ModeBuf.fitting (names : Names Client) (mb : ModeBuf Client) : List (Slot Client) :=
  Channels.fitting names mb.dest.noKey mb.room mb.slots

def ModeBuf.putOff (names : Names Client) (mb : ModeBuf Client) : List (Slot Client) :=
  Channels.putOff names mb.dest.noKey mb.room mb.slots

def ModeBuf.idle (mb : ModeBuf Client) : Bool := mb.add.isNone && mb.rem.isNone && mb.count = 0

theorem hiddenJoins_keeps (view : ChannelView) (mb : ModeBuf Client) :
    ∃ add rem, (hiddenJoins view mb).2 = { mb with add := add, rem := rem } ∧
      ∀ f, f ≠ .wasDelJoins → add f = mb.add f ∧ rem f = mb.rem f := by
  have other : ∀ f : Flag, f ≠ .wasDelJoins → Flags.only .wasDelJoins f = false := by
    intro f differs
    simp [differs]
  unfold hiddenJoins
  dsimp only
  split
  · split
    · refine ⟨_, _, rfl, fun f differs => ?_⟩
      simp [differs]
    · refine ⟨_, _, rfl, fun f differs => ?_⟩
      simp [differs]
  · split
    · refine ⟨_, _, rfl, fun f differs => ?_⟩
      simp [differs]
    · exact ⟨_, _, rfl, fun f _ => ⟨rfl, rfl⟩⟩

theorem flagLetters_ne {e : Flag × Char} (mem : e ∈ flagLetters) : e.1 ≠ .wasDelJoins := by
  revert mem
  revert e
  decide

theorem addLetters_hiddenJoins (view : ChannelView) (mb : ModeBuf Client) :
    addLetters flagLetters (hiddenJoins view mb).2 = addLetters flagLetters mb := by
  obtain ⟨add, rem, kept, same⟩ := hiddenJoins_keeps view mb
  rw [kept]
  refine congrArg (List.map Prod.snd) (List.filter_congr fun e mem => ?_)
  exact (same e.1 (flagLetters_ne mem)).1

theorem remLetters_hiddenJoins (view : ChannelView) (mb : ModeBuf Client) :
    remLetters flagLetters (hiddenJoins view mb).2 = remLetters flagLetters mb := by
  obtain ⟨add, rem, kept, same⟩ := hiddenJoins_keeps view mb
  rw [kept]
  refine congrArg (List.map Prod.snd) (List.filter_congr fun e mem => ?_)
  obtain ⟨added, removed⟩ := same e.1 (flagLetters_ne mem)
  dsimp only
  rw [added, removed]

theorem written_hiddenJoins (names : Names Client) (view : ChannelView) (mb : ModeBuf Client) :
    written names (hiddenJoins view mb).2 = written names mb := by
  have add := addLetters_hiddenJoins view mb
  have rem := remLetters_hiddenJoins view mb
  obtain ⟨add', rem', kept, -⟩ := hiddenJoins_keeps view mb
  unfold written
  rw [add, rem, kept]
  rfl

theorem written_letters (names : Names Client) (mb : ModeBuf Client) :
    (written names mb).1.addbuf =
        addLetters flagLetters mb ++ ((mb.fitting names).filter fun slot => slot.add).map (·.arg.letter) ∧
      (written names mb).1.rembuf =
        remLetters flagLetters mb ++ ((mb.fitting names).filter fun slot => !slot.add).map (·.arg.letter) ∧
      (written names mb).1.limitbuf = lastLimit [] mb.slots :=
  writeSlots_letters names mb.dest.noKey _ _

def ModeBuf.deopLetter (mb : ModeBuf Client) : List Char := if mb.dest.server && mb.dest.deop then ['o'] else []

theorem flushPass_idle (names : Names Client) (view : ChannelView) {mb : ModeBuf Client} (idle : mb.idle = true) :
    flushPass names view mb = ⟨view, mb, ⟨[], [], [], []⟩, [], []⟩ :=
  if_pos idle

theorem flushPass_buffers (names : Names Client) (view : ChannelView) {mb : ModeBuf Client} (busy : mb.idle = false) :
    let b := (flushPass names view mb).buffers
    b.addbuf = addLetters flagLetters mb ++ ((mb.fitting names).filter fun slot => slot.add).map (·.arg.letter) ++
        mb.deopLetter ∧
      b.rembuf = remLetters flagLetters mb ++ ((mb.fitting names).filter fun slot => !slot.add).map (·.arg.letter) ∧
      b.addbufLocal.length ≤ 1 ∧ b.rembufLocal.length ≤ 1 := by
  have same := written_hiddenJoins names view mb
  obtain ⟨add, rem, kept, -⟩ := hiddenJoins_keeps view mb
  obtain ⟨addbuf, rembuf, -⟩ := written_letters names mb
  have pass : flushPass names view mb = _ := if_neg (by rw [← ModeBuf.idle, busy]; nofun)
  have short : ∀ mb : ModeBuf Client, (addLetters localLetters mb).length ≤ 1 ∧ (remLetters localLetters mb).length ≤ 1 := by
    intro mb
    simp only [addLetters, remLetters, List.length_map]
    exact ⟨List.length_filter_le _ localLetters, List.length_filter_le _ localLetters⟩
  rw [pass]
  dsimp only
  rw [same, ← addbuf, ← rembuf]
  refine ⟨?_, ?_, (short _).1, (short _).2⟩
  · rw [kept]
    unfold ModeBuf.deopLetter
    dsimp only
    split
    · simp [Pen.put]
    · simp
  · split
    · simp [Pen.put]
    · rfl

/-- No more than 19 modes are to be added, and no more than 19 to be removed: flags, the slots that get in the
line, and the source that is deopped. -/
def ModeBuf.fewModes (names : Names Client) (mb : ModeBuf Client) : Bool :=
  flagLetters.countP (fun e => mb.add e.1) + (mb.fitting names).countP (fun slot => slot.add) +
      (if mb.dest.server && mb.dest.deop then 1 else 0) ≤ 19 &&
    flagLetters.countP (fun e => !mb.add e.1 && mb.rem e.1) + (mb.fitting names).countP (fun slot => !slot.add) ≤ 19

theorem idle_fewModes (names : Names Client) {mb : ModeBuf Client} (idle : mb.idle = true) : mb.fewModes names = true := by
  simp only [ModeBuf.idle, Flags.isNone, Bool.and_eq_true, List.all_eq_true, Bool.not_eq_eq_eq_not, Bool.not_true,
    decide_eq_true_eq] at idle
  obtain ⟨⟨add, rem⟩, count⟩ := idle
  have every : ∀ e ∈ flagLetters, e.1 ∈ Flag.all := by decide
  have none_fit : mb.fitting names = [] := by simp [ModeBuf.fitting, ModeBuf.slots, count, fitting]
  have no_add : flagLetters.countP (fun e => mb.add e.1) = 0 :=
    List.countP_eq_zero.mpr fun e mem => by simp [add e.1 (every e mem)]
  have no_rem : flagLetters.countP (fun e => !mb.add e.1 && mb.rem e.1) = 0 :=
    List.countP_eq_zero.mpr fun e mem => by simp [rem e.1 (every e mem)]
  simp only [ModeBuf.fewModes, no_add, no_rem, none_fit]
  split <;> rfl

/-- A flush stays in its arrays of letters if and only if there are few modes. -/
theorem letters_fit (names : Names Client) (view : ChannelView) (mb : ModeBuf Client) :
    (flushPass names view mb).buffers.fit = true ↔ mb.fewModes names = true := by
  cases idle : mb.idle with
  | true => simp [flushPass_idle names view idle, LetterBuffers.fit, idle_fewModes names idle]
  | false =>
    obtain ⟨addbuf, rembuf, addLocal, remLocal⟩ := flushPass_buffers names view idle
    have added : (flushPass names view mb).buffers.addbuf.length =
        flagLetters.countP (fun e => mb.add e.1) + (mb.fitting names).countP (fun slot => slot.add) +
          (if mb.dest.server && mb.dest.deop then 1 else 0) := by
      rw [addbuf]
      simp only [addLetters, ModeBuf.deopLetter, List.length_append, List.length_map, ← List.countP_eq_length_filter]
      split <;> rfl
    have removed : (flushPass names view mb).buffers.rembuf.length =
        flagLetters.countP (fun e => !mb.add e.1 && mb.rem e.1) +
          (mb.fitting names).countP (fun slot => !slot.add) := by
      rw [rembuf]
      simp only [remLetters, List.length_append, List.length_map, ← List.countP_eq_length_filter]
    have short : (flushPass names view mb).buffers.addbufLocal.length ≤ 19 ∧
        (flushPass names view mb).buffers.rembufLocal.length ≤ 19 := ⟨by omega, by omega⟩
    simp only [LetterBuffers.fit, ModeBuf.fewModes, added, removed, short.1, short.2, decide_true, Bool.and_true]

/-- The line `+smtinDRcCMNWuzbbbbbb` of an operator on a secure connection: fourteen flags and six bans. -/
def crowdedLine : List (ChannelView × ModeCall Nat) :=
  let flags : Flags := fun f => f.simple && f ≠ .priv && f ≠ .registered && f ≠ .operOnly
  let ban : ModeCall Nat := .string true .ban ['*', '!', '*', '@', '*'] true
  [.mode true flags, ban, ban, ban, ban, ban, ban].map (⟨.none, false⟩, ·)

theorem letters_overrun : ¬ ∀ (names : Names Nat) (dest : Dest) (calls : List (ChannelView × ModeCall Nat))
    (mb : ModeBuf Nat) (passes : List (Flushed Nat)),
    runCalls names (modebufInit 0 false dest) calls = some (mb, passes) → ∀ pass ∈ passes, pass.buffers.fit = true := by
  intro fit
  have overrun : (runCalls ⟨fun _ => [], fun _ => []⟩
      (modebufInit 0 false { Dest.none with channel := true, server := true }) crowdedLine).any
        (fun result => result.2.any fun pass => !pass.buffers.fit) = true := by
    decide +kernel
  obtain ⟨⟨mb, passes⟩, result, past⟩ := (Option.any_eq_true _ _).mp overrun
  obtain ⟨pass, mem, outside⟩ := List.any_eq_true.mp past
  rw [fit _ _ _ mb passes result pass mem] at outside
  cases outside

end Ircd.Channels

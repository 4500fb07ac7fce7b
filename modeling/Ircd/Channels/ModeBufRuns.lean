import Ircd.Channels.ModeBufFlush
import Mathlib.Data.List.Forall2

/-! Every mode with an argument that is put into a `ModeBuf` comes out of it once.

A pass of the flush spells the slots that get in its line and leaves those it puts off, in their order.
-/

set_option autoImplicit false

namespace Ircd.Channels
open Ircd.Library

variable {Client : Type}

/-- The slots of the buffer are `l`, and none of them is marked. -/
structure Holds (mb : ModeBuf Client) (l : List (Slot Client)) : Prop where
  args : mb.args = packed l maxModeParams
  count : mb.count = l.length
  few : l.length ≤ maxModeParams
  unsaved : ∀ slot ∈ l, slot.save = false

theorem Holds.take {mb : ModeBuf Client} {l : List (Slot Client)} (holds : Holds mb l) :
    mb.args.take mb.count = l.map some := by
  rw [holds.args, holds.count, packed, List.take_append_of_le_length (by simp)]
  exact List.take_of_length_le (by simp)

theorem Holds.drop {mb : ModeBuf Client} {l : List (Slot Client)} (holds : Holds mb l) :
    mb.args.drop mb.count = List.replicate (maxModeParams - l.length) none := by
  rw [holds.args, holds.count, packed, List.drop_append_of_le_length (by simp)]
  simp

theorem reduceOption_map_some (l : List (Slot Client)) : (l.map some).reduceOption = l := by
  simp [List.reduceOption]

theorem Holds.slots {mb : ModeBuf Client} {l : List (Slot Client)} (holds : Holds mb l) : mb.slots = l := by
  rw [ModeBuf.slots, holds.take, reduceOption_map_some]

theorem written_marks (names : Names Client) {mb : ModeBuf Client} {l : List (Slot Client)} (holds : Holds mb l) :
    (written names mb).2.length = l.length ∧
      (written names mb).2.reduceOption.filter (·.save) = (mb.putOff names).map Slot.mark ∧
      (written names mb).2.reduceOption.filter (!·.save) = mb.fitting names := by
  have unsaved : ∀ slot ∈ (mb.args.take mb.count).reduceOption, slot.save = false := by
    rw [holds.take, reduceOption_map_some]
    exact holds.unsaved
  obtain ⟨length, saved, out⟩ := writeSlots_marks names mb.dest.noKey
    ⟨addLetters flagLetters mb, remLetters flagLetters mb, mb.room, []⟩ unsaved
  refine ⟨length.trans ?_, saved, out⟩
  rw [holds.take, List.length_map]

theorem Holds.putOff_sublist {names : Names Client} {mb : ModeBuf Client} {l : List (Slot Client)} (holds : Holds mb l) :
    (mb.putOff names).Sublist l := by
  rw [ModeBuf.putOff, holds.slots]
  exact Channels.putOff_sublist names mb.dest.noKey mb.room l

theorem unmark_marked {names : Names Client} {mb : ModeBuf Client} {l : List (Slot Client)} (holds : Holds mb l) :
    ((mb.putOff names).map Slot.mark).map (fun slot => { slot with save := false }) = mb.putOff names := by
  rw [List.map_map]
  refine (List.map_congr_left fun slot mem => ?_).trans (List.map_id _)
  have unsaved := holds.unsaved slot (holds.putOff_sublist.subset mem)
  obtain ⟨add, arg, free, save⟩ := slot
  dsimp only at unsaved
  subst unsaved
  rfl

theorem flushPass_holds (names : Names Client) (view : ChannelView) {mb : ModeBuf Client} {l : List (Slot Client)}
    (holds : Holds mb l) : Holds (flushPass names view mb).mbuf (mb.putOff names) := by
  have few : (mb.putOff names).length ≤ maxModeParams :=
    Nat.le_trans holds.putOff_sublist.length_le holds.few
  have unsaved : ∀ slot ∈ mb.putOff names, slot.save = false :=
    fun slot mem => holds.unsaved slot (holds.putOff_sublist.subset mem)
  cases idle : mb.idle with
  | true =>
    simp only [ModeBuf.idle, Bool.and_eq_true, decide_eq_true_eq] at idle
    have none_held : l = [] := List.eq_nil_of_length_eq_zero (holds.count.symm.trans idle.2)
    have nothing : mb.putOff names = [] := List.sublist_nil.mp (none_held ▸ holds.putOff_sublist)
    rw [flushPass_idle names view (by simp [ModeBuf.idle, idle]), nothing, ← none_held]
    exact holds
  | false =>
    obtain ⟨length, saved, -⟩ := written_marks names holds
    have same := written_hiddenJoins names view mb
    obtain ⟨add, rem, kept, -⟩ := hiddenJoins_keeps view mb
    have whole : ((written names mb).2 ++ mb.args.drop mb.count).length = maxModeParams := by
      have few := holds.few
      rw [holds.drop, List.length_append, length, List.length_replicate]
      omega
    have marked : ((written names mb).2 ++ mb.args.drop mb.count).reduceOption.filter (·.save) =
        (mb.putOff names).map Slot.mark := by
      rw [List.reduceOption_append, holds.drop, List.filter_append, saved]
      simp
    have swept := pack_eq Slot.save (fun slot : Slot Client => { slot with save := false })
      ((written names mb).2 ++ mb.args.drop mb.count)
    rw [whole, marked, unmark_marked holds, List.length_map] at swept
    have pass : flushPass names view mb = _ := if_neg (by rw [← ModeBuf.idle, idle]; rintro ⟨⟩)
    rw [pass]
    dsimp only
    rw [same, kept]
    dsimp only
    rw [swept]
    exact ⟨rfl, rfl, few, unsaved⟩

def MessageKind.param (names : Names Client) (noKey bounce : Bool) (limitbuf : List Char) :
    MessageKind → Slot Client → Option (List Char)
  | .opmode | .bounce | .mode => serverParam names bounce limitbuf
  | .hack2 | .hack3 | .hack4 | .log | .channel => shownParam names noKey limitbuf

/-- A message with simple letters, then the slots of a batch, then a tail. What is to be added stands behind `+`,
and behind `-` in a message that is bounced. -/
def spell (kind : MessageKind) (param : Slot Client → Option (List Char)) (simple : Bool → List Char)
    (tail : Bool → List (Char × Option (List Char))) (batch : List (Slot Client)) : ModeMessage :=
  let side := fun add => batch.filter fun slot => slot.add = add
  let letters := fun add => simple add ++ (side add).map (·.arg.letter) ++ (tail add).map Prod.fst
  let words := fun add => (side add).filterMap param ++ (tail add).filterMap Prod.snd
  let first : Bool := kind = .bounce
  ⟨kind, letters first, letters (!first), words first ++ words (!first)⟩

def Dest.shownKinds (d : Dest) : List MessageKind :=
  (if d.hack2 then [.hack2] else []) ++ (if d.hack3 then [.hack3] else []) ++ (if d.hack4 then [.hack4] else []) ++
    (if d.log then [.log] else []) ++ (if d.channel then [.channel] else [])

def Dest.serverKinds (d : Dest) : List MessageKind :=
  if !d.server then [] else if d.opmode then [.opmode] else if d.bounce then [.bounce] else [.mode]

def ModeBuf.simple (mb : ModeBuf Client) (add : Bool) : List Char :=
  if add then addLetters flagLetters mb else remLetters flagLetters mb

/-- What stands behind the slots: `d` for the users, and for the servers the source that is deopped. -/
def ModeBuf.tail (names : Names Client) (view : ChannelView) (mb : ModeBuf Client) (add : Bool) :
    MessageKind → List (Char × Option (List Char))
  | .channel =>
    (if add then addLetters localLetters (hiddenJoins view mb).2 else remLetters localLetters (hiddenJoins view mb).2).map
      (·, none)
  | .opmode | .bounce | .mode => if add && mb.dest.deop then [('o', some (names.numNick mb.source))] else []
  | _ => []

theorem params_marked (param : Slot Client → Option (List Char)) (add : Bool) (slots : List (Option (Slot Client))) :
    params param add slots =
      ((slots.reduceOption.filter (!·.save)).filter fun slot => slot.add = add).filterMap param := by
  induction slots with
  | nil => rfl
  | cons slot slots ih =>
    cases slot with
    | none => simpa [params] using ih
    | some slot =>
      have step : params param add (some slot :: slots) =
          (if slot.save || slot.add ≠ add then none else param slot).toList ++ params param add slots := by
        simp only [params, List.filterMap_cons, Option.bind_some]
        cases (if slot.save || slot.add ≠ add then none else param slot) <;> rfl
      rw [step, ih, List.reduceOption_cons_of_some]
      cases saved : slot.save with
      | true => simp [saved]
      | false =>
        by_cases same : slot.add = add
        · cases word : param slot <;> simp [saved, same, word]
        · simp [saved, same]

structure Wrote (mb : ModeBuf Client) (p : Pen) (slots : List (Option (Slot Client))) (batch : List (Slot Client)) : Prop where
  addbuf : p.addbuf = mb.simple true ++ (batch.filter fun slot => slot.add = true).map (·.arg.letter)
  rembuf : p.rembuf = mb.simple false ++ (batch.filter fun slot => slot.add = false).map (·.arg.letter)
  words : ∀ param add, params param add slots = (batch.filter fun slot => slot.add = add).filterMap param

theorem shownMessages_eq (names : Names Client) (view : ChannelView) {mb : ModeBuf Client} {p : Pen}
    {slots : List (Option (Slot Client))} {batch : List (Slot Client)} (wrote : Wrote mb p slots batch) :
    shownMessages names (hiddenJoins view mb).2 p slots = mb.dest.shownKinds.map fun kind =>
      spell kind (kind.param names mb.dest.noKey mb.dest.bounce p.limitbuf) mb.simple (mb.tail names view · kind) batch := by
  have dest : (hiddenJoins view mb).2.dest = mb.dest := by
    obtain ⟨add, rem, kept, -⟩ := hiddenJoins_keeps view mb
    rw [kept]
  have plain : ∀ kind : MessageKind, kind ≠ .bounce → (∀ add, mb.tail names view add kind = []) →
      spell kind (kind.param names mb.dest.noKey mb.dest.bounce p.limitbuf) mb.simple (mb.tail names view · kind) batch =
        ⟨kind, p.rembuf, p.addbuf, params (kind.param names mb.dest.noKey mb.dest.bounce p.limitbuf) false slots ++
          params (kind.param names mb.dest.noKey mb.dest.bounce p.limitbuf) true slots⟩ := by
    intro kind forth bare
    simp [spell, forth, bare, wrote.addbuf, wrote.rembuf, wrote.words]
  have channel :
      spell .channel (MessageKind.channel.param names mb.dest.noKey mb.dest.bounce p.limitbuf) mb.simple
          (mb.tail names view · .channel) batch =
        ⟨.channel, p.rembuf ++ remLetters localLetters (hiddenJoins view mb).2,
          p.addbuf ++ addLetters localLetters (hiddenJoins view mb).2,
          params (shownParam names mb.dest.noKey p.limitbuf) false slots ++
            params (shownParam names mb.dest.noKey p.limitbuf) true slots⟩ := by
    simp [spell, ModeBuf.tail, MessageKind.param, wrote.addbuf, wrote.rembuf, wrote.words, Function.comp_def]
  simp only [Dest.shownKinds, List.map_append, apply_ite (List.map _), List.map_cons, List.map_nil, channel,
    plain .hack2 nofun (fun _ => rfl), plain .hack3 nofun (fun _ => rfl), plain .hack4 nofun (fun _ => rfl),
    plain .log nofun (fun _ => rfl)]
  rw [shownMessages, dest]
  rfl

theorem serverMessages_eq (names : Names Client) (view : ChannelView) {mb : ModeBuf Client} {p : Pen}
    {slots : List (Option (Slot Client))} {batch : List (Slot Client)} (wrote : Wrote mb p slots batch) :
    serverMessages names (hiddenJoins view mb).2 (if mb.dest.server && mb.dest.deop then p.put true 'o' else p) slots =
      mb.dest.serverKinds.map fun kind =>
        spell kind (kind.param names mb.dest.noKey mb.dest.bounce p.limitbuf) mb.simple (mb.tail names view · kind)
          batch := by
  obtain ⟨dest, source⟩ : (hiddenJoins view mb).2.dest = mb.dest ∧ (hiddenJoins view mb).2.source = mb.source := by
    obtain ⟨add, rem, kept, -⟩ := hiddenJoins_keeps view mb
    rw [kept]
    exact ⟨rfl, rfl⟩
  rw [serverMessages, dest, source]
  cases server : mb.dest.server with
  | false => simp [Dest.serverKinds, server]
  | true =>
    -- The bounced message alone has the sides the other way round.
    cases deop : mb.dest.deop <;> cases opmode : mb.dest.opmode <;> cases bounce : mb.dest.bounce <;>
      simp [Dest.serverKinds, server, deop, opmode, bounce, spell, ModeBuf.tail, MessageKind.param, Pen.put,
        wrote.addbuf, wrote.rembuf, wrote.words]

theorem flushPass_sent (names : Names Client) (view : ChannelView) {mb : ModeBuf Client} {l : List (Slot Client)}
    (holds : Holds mb l) (busy : mb.idle = false) :
    (flushPass names view mb).sent = (mb.dest.shownKinds ++ mb.dest.serverKinds).map fun kind =>
      spell kind (kind.param names mb.dest.noKey mb.dest.bounce (lastLimit [] l)) mb.simple
        (mb.tail names view · kind) (mb.fitting names) := by
  obtain ⟨-, -, out⟩ := written_marks names holds
  obtain ⟨addbuf, rembuf, limitbuf⟩ := written_letters names mb
  rw [holds.slots] at limitbuf
  have wrote : Wrote mb (written names mb).1 (written names mb).2 (mb.fitting names) := by
    refine ⟨addbuf.trans ?_, rembuf.trans ?_, fun param add => ?_⟩
    · simp [ModeBuf.simple]
    · simp [ModeBuf.simple]
    · rw [params_marked, out]
  have same := written_hiddenJoins names view mb
  have dest : (hiddenJoins view mb).2.dest = mb.dest := by
    obtain ⟨add, rem, kept, -⟩ := hiddenJoins_keeps view mb
    rw [kept]
  have pass : flushPass names view mb = _ := if_neg (by rw [← ModeBuf.idle, busy]; rintro ⟨⟩)
  rw [pass, List.map_append, ← limitbuf, ← shownMessages_eq names view wrote, ← serverMessages_eq names view wrote]
  dsimp only
  rw [same, dest]

/-- A pass that finds `held` in the buffer takes a batch of it, in order, and each of its messages spells
that batch; the limit is the last one held. Nothing is said of a pass that leaves its arrays. -/
structure Emits (names : Names Client) (held batch : List (Slot Client)) (pass : Flushed Client) : Prop where
  taken : batch.Sublist held
  sent : pass.buffers.fit = true → ∃ (mb : ModeBuf Client) (view : ChannelView),
    Holds mb held ∧ pass = flushPass names view mb ∧
      ∀ m ∈ pass.sent, m = spell m.kind (m.kind.param names mb.dest.noKey mb.dest.bounce (lastLimit [] held)) mb.simple
        (mb.tail names view · m.kind) batch
  freed : pass.buffers.fit = true → pass.freed = batch.filterMap Slot.freed

/-- The passes have sent what was pushed, but for what is left in the buffer. -/
structure Delivers (names : Names Client) (pushed : List (Slot Client)) (passes : List (Flushed Client))
    (left : List (Slot Client)) (parts : List (List (Slot Client) × List (Slot Client))) : Prop where
  emits : List.Forall₂ (fun part pass => Emits names part.1 part.2 pass) parts passes
  order : ∀ part ∈ parts, part.1.Sublist pushed
  few : ∀ part ∈ parts, part.1.length ≤ maxModeParams
  left_order : left.Sublist pushed
  once : (parts.flatMap Prod.snd ++ left).Perm pushed
  whole : (∀ part ∈ parts, part.2 = part.1) → parts.flatMap Prod.snd ++ left = pushed

theorem Delivers.none (names : Names Client) (pushed : List (Slot Client)) : Delivers names pushed [] pushed [] :=
  ⟨.nil, fun _ => nofun, fun _ => nofun, List.Sublist.refl _, List.Perm.refl _, fun _ => rfl⟩

theorem Delivers.append {names : Names Client} {pushed new left left' : List (Slot Client)}
    {passes passes' : List (Flushed Client)} {parts parts' : List (List (Slot Client) × List (Slot Client))}
    (first : Delivers names pushed passes left parts) (second : Delivers names (left ++ new) passes' left' parts') :
    Delivers names (pushed ++ new) (passes ++ passes') left' (parts ++ parts') := by
  have into : (left ++ new).Sublist (pushed ++ new) := first.left_order.append (List.Sublist.refl new)
  refine ⟨List.rel_append first.emits second.emits, ?_, ?_, second.left_order.trans into, ?_, ?_⟩
  · intro part mem
    rcases List.mem_append.mp mem with mem | mem
    · exact (first.order part mem).trans (List.sublist_append_left pushed new)
    · exact (second.order part mem).trans into
  · intro part mem
    rcases List.mem_append.mp mem with mem | mem
    · exact first.few part mem
    · exact second.few part mem
  · rw [List.flatMap_append, List.append_assoc]
    refine (second.once.append_left _).trans ?_
    rw [← List.append_assoc]
    exact first.once.append_right new
  · intro whole
    rw [List.flatMap_append, List.append_assoc, second.whole fun part mem => whole part (List.mem_append_right _ mem),
      ← List.append_assoc, first.whole fun part mem => whole part (List.mem_append_left _ mem)]

theorem Holds.fitting_eq {names : Names Client} {mb : ModeBuf Client} {l : List (Slot Client)} (holds : Holds mb l) :
    mb.fitting names = Channels.fitting names mb.dest.noKey mb.room l ∧
      mb.putOff names = Channels.putOff names mb.dest.noKey mb.room l := by
  rw [ModeBuf.fitting, ModeBuf.putOff, holds.slots]
  exact ⟨rfl, rfl⟩

theorem freed_unsaved (slots : List (Option (Slot Client))) :
    slots.filterMap (fun slot => slot.bind Slot.freed) = (slots.reduceOption.filter (!·.save)).filterMap Slot.freed := by
  induction slots with
  | nil => rfl
  | cons slot slots ih =>
    cases slot with
    | none => simpa using ih
    | some slot =>
      cases saved : slot.save with
      | true =>
        have kept : slot.freed = none := by
          unfold Slot.freed
          cases slot.arg <;> simp [saved]
        simpa [saved, kept] using ih
      | false =>
        cases freed : slot.freed <;> simpa [saved, freed] using ih

theorem flushPass_freed (names : Names Client) (view : ChannelView) {mb : ModeBuf Client} {l : List (Slot Client)}
    (holds : Holds mb l) (busy : mb.idle = false) :
    (flushPass names view mb).freed = (mb.fitting names).filterMap Slot.freed := by
  obtain ⟨-, -, out⟩ := written_marks names holds
  have same := written_hiddenJoins names view mb
  obtain ⟨add, rem, kept, -⟩ := hiddenJoins_keeps view mb
  have pass : flushPass names view mb = _ := if_neg (by rw [← ModeBuf.idle, busy]; rintro ⟨⟩)
  rw [pass]
  dsimp only
  rw [same, kept, ← out]
  dsimp only
  rw [holds.drop, List.filterMap_append, freed_unsaved]
  simp

theorem flushPass_delivers (names : Names Client) (view : ChannelView) {mb : ModeBuf Client} {l : List (Slot Client)}
    (holds : Holds mb l) :
    Delivers names l [flushPass names view mb] (mb.putOff names) [(l, mb.fitting names)] := by
  obtain ⟨fit, off⟩ := holds.fitting_eq
  have taken : (mb.fitting names).Sublist l := by
    rw [fit]
    exact fitting_sublist names mb.dest.noKey mb.room l
  refine ⟨.cons ⟨taken, ?_, ?_⟩ .nil, ?_, ?_, holds.putOff_sublist, ?_, ?_⟩
  · refine fun _ => ⟨mb, view, holds, rfl, fun m mem => ?_⟩
    cases idle : mb.idle with
    | true =>
      rw [flushPass_idle names view idle] at mem
      cases mem
    | false =>
      rw [flushPass_sent names view holds idle] at mem
      obtain ⟨kind, -, spelled⟩ := List.mem_map.mp mem
      subst spelled
      rfl
  · intro _
    cases idle : mb.idle with
    | true =>
      have nothing : mb.fitting names = [] := by
        simp only [ModeBuf.idle, Bool.and_eq_true, decide_eq_true_eq] at idle
        simp [ModeBuf.fitting, ModeBuf.slots, idle.2, Channels.fitting]
      rw [flushPass_idle names view idle, nothing]
      rfl
    | false => exact flushPass_freed names view holds idle
  · intro part mem
    obtain rfl := List.mem_singleton.mp mem
    exact List.Sublist.refl l
  · intro part mem
    obtain rfl := List.mem_singleton.mp mem
    exact holds.few
  · rw [fit, off]
    simpa using fitting_perm names mb.dest.noKey mb.room l
  · intro whole
    have all : mb.fitting names = l := whole (l, mb.fitting names) List.mem_cons_self
    have perm := fitting_perm names mb.dest.noKey mb.room l
    rw [← fit, ← off, all] at perm
    have nothing : mb.putOff names = [] := by
      have length := perm.length_eq
      rw [List.length_append] at length
      exact List.eq_nil_of_length_eq_zero (by omega)
    simp [nothing, all]

/-- The text of a mode is far from filling a line, as the limits on bans, keys and nicks have it. -/
def Slot.Small (names : Names Client) (slot : Slot Client) : Prop := slot.arg.size names false < 306

instance (names : Names Client) (slot : Slot Client) : Decidable (slot.Small names) :=
  inferInstanceAs (Decidable (slot.arg.size names false < 306))

theorem Slot.Small.fits {names : Names Client} {slot : Slot Client} (small : slot.Small names) (mb : ModeBuf Client) :
    ¬ mb.room ≤ slot.arg.size names mb.dest.noKey := by
  have room : 306 ≤ mb.room := by
    unfold ModeBuf.room bufSize
    split <;> omega
  have less : slot.arg.size names mb.dest.noKey ≤ max 1 (slot.arg.size names false) := by
    cases slot.arg with
    | client mode who opLevel => exact Nat.le_max_right _ _
    | uint limit => exact Nat.le_max_right _ _
    | string mode s =>
      cases mode with
      | key =>
        cases mb.dest.noKey with
        | true => exact Nat.le_max_left _ _
        | false => exact Nat.le_max_right _ _
      | _ => exact Nat.le_max_right _ _
  have small : slot.arg.size names false < 306 := small
  omega

theorem putOff_shorter {names : Names Client} {mb : ModeBuf Client} {l : List (Slot Client)} (holds : Holds mb l)
    (small : ∀ slot ∈ l, slot.Small names) (something : l ≠ []) : (mb.putOff names).length < l.length := by
  obtain ⟨-, off⟩ := holds.fitting_eq
  cases l with
  | nil => exact absurd rfl something
  | cons slot l =>
    rw [off, Channels.putOff, if_neg ((small slot List.mem_cons_self).fits mb), List.length_cons]
    exact Nat.lt_succ_of_le (Channels.putOff_sublist names mb.dest.noKey _ l).length_le

theorem modebufFlushInt_delivers (names : Names Client) (fuel : Nat) (view : ChannelView) {mb : ModeBuf Client}
    {l : List (Slot Client)} (holds : Holds mb l) (small : ∀ slot ∈ l, slot.Small names) (enough : l.length < fuel) :
    ∃ passes last parts, modebufFlushInt names fuel view mb = some passes ∧ passes.getLast? = some last ∧
      Holds last.mbuf [] ∧ Delivers names l passes [] parts := by
  induction fuel generalizing view mb l with
  | zero => exact absurd enough (Nat.not_lt_zero _)
  | succ fuel ih =>
    have after := flushPass_holds names view holds
    have pass := flushPass_delivers names view holds
    by_cases finished : (flushPass names view mb).mbuf.count = 0
    · have nothing : mb.putOff names = [] := List.eq_nil_of_length_eq_zero (after.count.symm.trans finished)
      rw [nothing] at after pass
      exact ⟨_, _, _, if_pos finished, rfl, after, pass⟩
    · have something : l ≠ [] := by
        rintro rfl
        have nothing : mb.putOff names = [] := List.sublist_nil.mp holds.putOff_sublist
        exact finished (after.count.trans (by rw [nothing]; rfl))
      have shorter := putOff_shorter holds small something
      obtain ⟨passes, last, parts, flushes, ends, empty, delivers⟩ := ih (flushPass names view mb).view after
        (fun slot mem => small slot (holds.putOff_sublist.subset mem)) (by omega)
      refine ⟨flushPass names view mb :: passes, last, (l, mb.fitting names) :: parts, ?_, ?_, empty, ?_⟩
      · rw [modebufFlushInt, if_neg finished, flushes]
        rfl
      · cases passes with
        | nil => cases ends
        | cons pass passes => exact ends
      · have both := pass.append (by rw [List.append_nil]; exact delivers)
        rw [List.append_nil] at both
        exact both

structure Waiting (names : Names Client) (mb : ModeBuf Client) (l : List (Slot Client)) : Prop where
  holds : Holds mb l
  room : l.length < maxModeParams
  small : ∀ slot ∈ l, slot.Small names

theorem waiting_init (names : Names Client) (source : Client) (localChannel : Bool) (dest : Dest) :
    Waiting names (modebufInit source localChannel dest) [] :=
  ⟨⟨rfl, rfl, Nat.zero_le _, fun _ => nofun⟩, Nat.zero_lt_succ _, fun _ => nofun⟩

theorem Holds.push {mb : ModeBuf Client} {l : List (Slot Client)} (holds : Holds mb l) (room : l.length < maxModeParams)
    {slot : Slot Client} (unsaved : slot.save = false) :
    Holds { mb with args := mb.args.set mb.count (some slot), count := mb.count + 1 } (l ++ [slot]) := by
  refine ⟨?_, ?_, ?_, ?_⟩
  · rw [holds.args, holds.count, packed_push room]
  · rw [holds.count, List.length_append]
    rfl
  · rw [List.length_append]
    exact room
  · intro s mem
    rcases List.mem_append.mp mem with mem | mem
    · exact holds.unsaved s mem
    · exact List.mem_singleton.mp mem ▸ unsaved

theorem push_delivers {names : Names Client} (view : ChannelView) {mb : ModeBuf Client} {l : List (Slot Client)}
    (waiting : Waiting names mb l) {slot : Slot Client} (small : slot.Small names) (unsaved : slot.save = false) :
    ∃ left parts, Waiting names (mb.push names view slot).1 left ∧
      Delivers names (l ++ [slot]) (mb.push names view slot).2 left parts := by
  obtain ⟨holds, room, smalls⟩ := waiting
  let mb' : ModeBuf Client := { mb with args := mb.args.set mb.count (some slot), count := mb.count + 1 }
  have smalls' : ∀ s ∈ l ++ [slot], s.Small names := by
    intro s mem
    rcases List.mem_append.mp mem with mem | mem
    · exact smalls s mem
    · exact List.mem_singleton.mp mem ▸ small
  have held : Holds mb' (l ++ [slot]) := holds.push room unsaved
  by_cases full : maxModeParams - (if mb.dest.deop then 1 else 0) ≤ mb.count + 1
  · have value : mb.push names view slot = ((flushPass names view mb').mbuf, [flushPass names view mb']) := if_pos full
    have shorter := putOff_shorter held smalls' (by simp)
    have few := held.few
    rw [value]
    exact ⟨_, _, ⟨flushPass_holds names view held, Nat.lt_of_lt_of_le shorter few,
      fun s mem => smalls' s (held.putOff_sublist.subset mem)⟩, flushPass_delivers names view held⟩
  · have value : mb.push names view slot = (mb', []) := if_neg full
    have count : mb.count + 1 = (l ++ [slot]).length := held.count
    rw [value]
    refine ⟨_, [], ⟨held, ?_, smalls'⟩, Delivers.none names _⟩
    rw [← count]
    omega

def ModeCall.Small (names : Names Client) (call : ModeCall Client) : Prop := ∀ slot ∈ call.pushed, slot.Small names

theorem Waiting.same {names : Names Client} {mb mb' : ModeBuf Client} {l : List (Slot Client)}
    (waiting : Waiting names mb l) (args : mb'.args = mb.args) (count : mb'.count = mb.count) : Waiting names mb' l :=
  ⟨⟨args.trans waiting.holds.args, count.trans waiting.holds.count, waiting.holds.few, waiting.holds.unsaved⟩,
    waiting.room, waiting.small⟩

theorem modebufMode_slots (mb : ModeBuf Client) (add : Bool) (mode : Flags) :
    (modebufMode mb add mode).args = mb.args ∧ (modebufMode mb add mode).count = mb.count := by
  unfold modebufMode
  dsimp only
  split
  · exact ⟨rfl, rfl⟩
  · split <;> exact ⟨rfl, rfl⟩

theorem modebufFlush_delivers {names : Names Client} (view : ChannelView) {mb : ModeBuf Client} {l : List (Slot Client)}
    (waiting : Waiting names mb l) : ∃ mb' passes parts, modebufFlush names view mb = some (mb', passes) ∧
      Waiting names mb' [] ∧ Delivers names l passes [] parts := by
  obtain ⟨holds, -, small⟩ := waiting
  obtain ⟨passes, last, parts, flushes, ends, empty, delivers⟩ := modebufFlushInt_delivers names (mb.count + 1) view holds
    small (by rw [holds.count]; exact Nat.lt_succ_self _)
  refine ⟨last.mbuf, passes, parts, ?_, ⟨empty, Nat.zero_lt_succ _, fun _ => nofun⟩, delivers⟩
  rw [modebufFlush, flushes]
  simp [ends]

theorem run_delivers {names : Names Client} (view : ChannelView) {mb : ModeBuf Client} {l : List (Slot Client)}
    (waiting : Waiting names mb l) {call : ModeCall Client} (small : call.Small names) :
    ∃ mb' passes left parts, call.run names view mb = some (mb', passes) ∧ Waiting names mb' left ∧
      Delivers names (l ++ call.pushed.toList) passes left parts ∧ (call = .flush → left = []) := by
  have none : Delivers names (l ++ []) [] l [] := by
    rw [List.append_nil]
    exact Delivers.none names l
  cases call with
  | mode add flags =>
    obtain ⟨args, count⟩ := modebufMode_slots mb add flags
    exact ⟨_, _, l, [], rfl, waiting.same args count, none, nofun⟩
  | uint add limit =>
    cases add with
    | false => exact ⟨_, _, l, [], rfl, waiting.same rfl rfl, none, nofun⟩
    | true =>
      obtain ⟨left, parts, after, delivers⟩ := push_delivers view waiting (small _ rfl) rfl
      exact ⟨_, _, left, parts, rfl, after, delivers, nofun⟩
  | string add which text free =>
    obtain ⟨left, parts, after, delivers⟩ := push_delivers view waiting (small _ rfl) rfl
    exact ⟨_, _, left, parts, rfl, after, delivers, nofun⟩
  | client add which who opLevel =>
    obtain ⟨left, parts, after, delivers⟩ := push_delivers view waiting (small _ rfl) rfl
    exact ⟨_, _, left, parts, rfl, after, delivers, nofun⟩
  | flush =>
    obtain ⟨mb', passes, parts, flushes, after, delivers⟩ := modebufFlush_delivers view waiting
    refine ⟨mb', passes, [], parts, flushes, after, ?_, fun _ => rfl⟩
    change Delivers names (l ++ []) passes [] parts
    rw [List.append_nil]
    exact delivers
  | bounced deop => exact ⟨_, _, l, [], rfl, waiting.same rfl rfl, none, nofun⟩

theorem runCalls_delivers {names : Names Client} {mb : ModeBuf Client} {l : List (Slot Client)}
    (waiting : Waiting names mb l) (calls : List (ChannelView × ModeCall Client))
    (small : ∀ call ∈ calls, call.2.Small names) :
    ∃ mb' passes left parts, runCalls names mb calls = some (mb', passes) ∧ Waiting names mb' left ∧
      Delivers names (l ++ calls.filterMap (·.2.pushed)) passes left parts ∧
      (calls.getLast?.map Prod.snd = some .flush → left = []) := by
  induction calls generalizing mb l with
  | nil =>
    refine ⟨mb, [], l, [], rfl, waiting, ?_, nofun⟩
    rw [List.filterMap_nil, List.append_nil]
    exact Delivers.none names l
  | cons call calls ih =>
    obtain ⟨view, call⟩ := call
    obtain ⟨mb', passes, left, parts, runs, waiting', first, flushed⟩ := run_delivers view waiting
      (small (view, call) List.mem_cons_self)
    obtain ⟨mb'', passes', left', parts', rest, waiting'', second, last⟩ := ih waiting'
      fun call mem => small call (List.mem_cons_of_mem _ mem)
    refine ⟨mb'', passes ++ passes', left', parts ++ parts', ?_, waiting'', ?_, ?_⟩
    · rw [runCalls]
      simp [runs, rest]
    · have pushed : ((view, call) :: calls).filterMap (fun call => call.2.pushed) =
          call.pushed.toList ++ calls.filterMap fun call => call.2.pushed := by
        cases put : call.pushed <;> simp [put]
      rw [pushed, ← List.append_assoc]
      exact first.append second
    · intro ends
      cases calls with
      | nil =>
        have here : call = .flush := Option.some.inj ends
        have nothing := second.left_order
        rw [flushed here, List.filterMap_nil, List.append_nil] at nothing
        exact List.sublist_nil.mp nothing
      | cons next calls => exact last (by simpa using ends)

/-- All that is pushed goes out once, in batches, or is still in the buffer, and the flush ends. -/
theorem modes_delivered (names : Names Client) (source : Client) (localChannel : Bool) (dest : Dest)
    (calls : List (ChannelView × ModeCall Client)) (small : ∀ call ∈ calls, call.2.Small names) :
    ∃ mb passes left parts, runCalls names (modebufInit source localChannel dest) calls = some (mb, passes) ∧
      Holds mb left ∧ mb.count < maxModeParams ∧
      Delivers names (calls.filterMap (·.2.pushed)) passes left parts ∧
      (calls.getLast?.map Prod.snd = some .flush → left = []) := by
  obtain ⟨mb, passes, left, parts, runs, waiting, delivers, last⟩ :=
    runCalls_delivers (waiting_init names source localChannel dest) calls small
  exact ⟨mb, passes, left, parts, runs, waiting.holds, waiting.holds.count ▸ waiting.room, delivers, last⟩

theorem modes_delivered_op :
    ∃ mb passes left parts, runCalls ⟨fun _ => ['n'], fun _ => ['A', 'B', 'A', 'A', 'A']⟩
        (modebufInit 0 false { Dest.none with server := true })
        [(⟨.none, false⟩, .client true .chanop 1 1000), (⟨.none, false⟩, .flush)] = some (mb, passes) ∧
      Holds mb left ∧ mb.count < maxModeParams ∧
      Delivers ⟨fun _ => ['n'], fun _ => ['A', 'B', 'A', 'A', 'A']⟩ [⟨true, .client .chanop 1 1000, false, false⟩] passes
        left parts ∧
      (some (ModeCall.flush : ModeCall Nat) = some .flush → left = []) :=
  modes_delivered _ 0 false _ [(⟨.none, false⟩, .client true .chanop 1 1000), (⟨.none, false⟩, .flush)] (by
    intro call mem slot pushed
    rcases List.mem_cons.mp mem with rfl | mem
    · obtain rfl := Option.some.inj pushed
      decide
    · obtain rfl := List.mem_singleton.mp mem
      cases pushed)

/-- Six bans are pushed. The fourth is too long for what room is left, and the last two overtake it. -/
theorem bans_overtake : ¬ ∀ (names : Names Nat) (bans : List (List Char)), (∀ ban ∈ bans, ban.length < 306) →
    (runCalls names (modebufInit 0 false { Dest.none with server := true })
      (bans.map (fun ban => (⟨.none, false⟩, .string true .ban ban false)) ++ [(⟨.none, false⟩, .flush)])).map
        (fun result => result.2.flatMap fun pass => pass.sent.flatMap (·.params)) = some bans := by
  intro ordered
  let long := List.replicate 90 'x'
  have kept := ordered ⟨fun _ => [], fun _ => []⟩ [long, long, long, long, ['y'], ['z']] (by decide)
  revert kept
  decide +kernel

end Ircd.Channels

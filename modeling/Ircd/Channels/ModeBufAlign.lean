import Ircd.Channels.ModeBufRuns
import Ircd.Library.Deal

/-! The parameters of a message and its letters, as the receiver deals the ones out to the others.

A limit takes a parameter where it is set and none where it is removed. The sides of a bounced message are
the other way round.
-/

set_option autoImplicit false

namespace Ircd.Channels
open Ircd.Library

variable {Client : Type}

def Reached (names : Names Client) (mb : ModeBuf Client) : Prop :=
  ∃ source localChannel dest calls passes, (∀ call ∈ calls, ModeCall.Small names call.2) ∧
    runCalls names (modebufInit source localChannel dest) calls = some (mb, passes)

/-- A buffer that `modebuf_flush_int` is entered with. -/
inductive Entered (names : Names Client) : ModeBuf Client → Prop where
  | flush {mb : ModeBuf Client} : Reached names mb → Entered names mb
  | push {mb : ModeBuf Client} {call : ModeCall Client} {slot : Slot Client} : Reached names mb → call.Small names →
      call.pushed = some slot → maxModeParams - (if mb.dest.deop then 1 else 0) ≤ mb.count + 1 →
      Entered names { mb with args := mb.args.set mb.count (some slot), count := mb.count + 1 }
  | again {mb : ModeBuf Client} (view : ChannelView) : Entered names mb → (flushPass names view mb).mbuf.count ≠ 0 →
      Entered names (flushPass names view mb).mbuf

def ModeArg.isLimit : ModeArg Client → Bool
  | .uint _ => true
  | _ => false

structure LimitsSet (mb : ModeBuf Client) (l : List (Slot Client)) : Prop where
  slots : ∀ slot ∈ l, slot.arg.isLimit = true → slot.add = true
  flag : mb.add .limit = false

theorem pushed_limit {call : ModeCall Client} {slot : Slot Client} (pushed : call.pushed = some slot) :
    (slot.arg.isLimit = true → slot.add = true) ∧ slot.save = false := by
  cases call with
  | mode add flags => cases pushed
  | uint add limit =>
    cases add with
    | false => cases pushed
    | true =>
      obtain rfl := Option.some.inj pushed
      exact ⟨fun _ => rfl, rfl⟩
  | string add which text free =>
    obtain rfl := Option.some.inj pushed
    exact ⟨nofun, rfl⟩
  | client add which who opLevel =>
    obtain rfl := Option.some.inj pushed
    exact ⟨nofun, rfl⟩
  | flush => cases pushed
  | bounced deop => cases pushed

theorem flushPass_flag (names : Names Client) (view : ChannelView) {mb : ModeBuf Client} (flag : mb.add .limit = false) :
    (flushPass names view mb).mbuf.add .limit = false := by
  unfold flushPass
  split
  · exact flag
  · rfl

theorem modebufFlushInt_flag (names : Names Client) {fuel : Nat} (view : ChannelView) {mb : ModeBuf Client}
    {passes : List (Flushed Client)} (flag : mb.add .limit = false)
    (flushes : modebufFlushInt names fuel view mb = some passes) : ∀ pass ∈ passes, pass.mbuf.add .limit = false := by
  induction fuel generalizing view mb passes with
  | zero => cases flushes
  | succ fuel ih =>
    have first := flushPass_flag names view flag
    rw [modebufFlushInt] at flushes
    split at flushes
    · obtain rfl := Option.some.inj flushes
      intro pass mem
      obtain rfl := List.mem_singleton.mp mem
      exact first
    · obtain ⟨later, rest, rfl⟩ := Option.map_eq_some_iff.mp flushes
      intro pass mem
      rcases List.mem_cons.mp mem with rfl | mem
      · exact first
      · exact ih _ first rest pass mem

theorem push_flag (names : Names Client) (view : ChannelView) {mb : ModeBuf Client} (slot : Slot Client)
    (flag : mb.add .limit = false) : (mb.push names view slot).1.add .limit = false := by
  let mb' : ModeBuf Client := { mb with args := mb.args.set mb.count (some slot), count := mb.count + 1 }
  by_cases full : maxModeParams - (if mb.dest.deop then 1 else 0) ≤ mb.count + 1
  · have value : mb.push names view slot = ((flushPass names view mb').mbuf, [flushPass names view mb']) := if_pos full
    rw [value]
    exact flushPass_flag names view flag
  · have value : mb.push names view slot = (mb', []) := if_neg full
    rw [value]
    exact flag

theorem run_flag {names : Names Client} {view : ChannelView} {mb mb' : ModeBuf Client} {call : ModeCall Client}
    {passes : List (Flushed Client)} (flag : mb.add .limit = false) (runs : call.run names view mb = some (mb', passes)) :
    mb'.add .limit = false := by
  cases call with
  | mode add flags =>
    obtain ⟨rfl, -⟩ := Prod.mk.inj (Option.some.inj runs)
    unfold modebufMode
    dsimp only
    split
    · exact flag
    · split
      · simp [flag, Flag.simple]
      · simp [flag]
  | uint add limit =>
    have same : mb' = (modebufModeUint names view mb add limit).1 := (congrArg Prod.fst (Option.some.inj runs)).symm
    rw [same]
    cases add with
    | false => exact flag
    | true => exact push_flag names view _ flag
  | string add which text free =>
    have same : mb' = (mb.push names view _).1 := (congrArg Prod.fst (Option.some.inj runs)).symm
    rw [same]
    exact push_flag names view _ flag
  | client add which who opLevel =>
    have same : mb' = (mb.push names view _).1 := (congrArg Prod.fst (Option.some.inj runs)).symm
    rw [same]
    exact push_flag names view _ flag
  | flush =>
    obtain ⟨all, flushes, same⟩ := Option.map_eq_some_iff.mp runs
    obtain ⟨rfl, rfl⟩ := Prod.mk.inj same
    cases ends : all.getLast? with
    | none => exact flag
    | some last => exact modebufFlushInt_flag names view flag flushes last (List.mem_of_getLast? ends)
  | bounced deop =>
    obtain ⟨rfl, -⟩ := Prod.mk.inj (Option.some.inj runs)
    exact flag

theorem runCalls_flag {names : Names Client} {mb mb' : ModeBuf Client} {calls : List (ChannelView × ModeCall Client)}
    {passes : List (Flushed Client)} (flag : mb.add .limit = false)
    (runs : runCalls names mb calls = some (mb', passes)) : mb'.add .limit = false := by
  induction calls generalizing mb passes with
  | nil =>
    obtain ⟨rfl, -⟩ := Prod.mk.inj (Option.some.inj runs)
    exact flag
  | cons call calls ih =>
    obtain ⟨view, call⟩ := call
    rw [runCalls] at runs
    obtain ⟨⟨mid, first⟩, step, rest⟩ := Option.bind_eq_some_iff.mp runs
    obtain ⟨⟨last, later⟩, goes, same⟩ := Option.bind_eq_some_iff.mp rest
    obtain ⟨rfl, -⟩ := Prod.mk.inj (Option.some.inj same)
    exact ih (run_flag flag step) goes

theorem Reached.sound {names : Names Client} {mb : ModeBuf Client} (reached : Reached names mb) :
    ∃ l, Waiting names mb l ∧ LimitsSet mb l := by
  obtain ⟨source, localChannel, dest, calls, passes, small, runs⟩ := reached
  obtain ⟨mb', passes', left, parts, runs', waiting, delivers, -⟩ :=
    runCalls_delivers (waiting_init names source localChannel dest) calls small
  obtain ⟨rfl, rfl⟩ := Prod.mk.inj (Option.some.inj (runs.symm.trans runs'))
  refine ⟨left, waiting, fun slot mem => ?_, runCalls_flag rfl runs⟩
  obtain ⟨call, -, pushed⟩ := List.mem_filterMap.mp (delivers.left_order.subset mem)
  exact (pushed_limit pushed).1

theorem Entered.sound {names : Names Client} {mb : ModeBuf Client} (entered : Entered names mb) :
    ∃ l, Holds mb l ∧ LimitsSet mb l := by
  induction entered with
  | flush reached =>
    obtain ⟨l, waiting, limits⟩ := reached.sound
    exact ⟨l, waiting.holds, limits⟩
  | push reached small pushed _ =>
    obtain ⟨l, ⟨holds, room, smalls⟩, limits⟩ := reached.sound
    obtain ⟨set, unsaved⟩ := pushed_limit pushed
    refine ⟨l ++ [_], holds.push room unsaved, ?_, limits.flag⟩
    intro slot mem
    rcases List.mem_append.mp mem with mem | mem
    · exact limits.slots slot mem
    · exact List.mem_singleton.mp mem ▸ set
  | again view _ _ before =>
    obtain ⟨l, holds, limits⟩ := before
    exact ⟨_, flushPass_holds names view holds, fun slot mem => limits.slots slot (holds.putOff_sublist.subset mem),
      flushPass_flag names view limits.flag⟩

def takesParam : Bool × Char → Bool
  | (plus, 'l') => plus
  | (_, letter) => letter ∈ ['o', 'v', 'b', 'k', 'A', 'U']

def ModeMessage.letters (m : ModeMessage) : List (Bool × Char) := m.minus.map (false, ·) ++ m.plus.map (true, ·)

def MessageKind.side (kind : MessageKind) (add : Bool) : Bool := add != decide (kind = .bounce)

def shownText (names : Names Client) (noKey : Bool) (limitbuf : List Char) (slot : Slot Client) : List Char :=
  match slot.arg with
  | .client _ client _ => names.name client
  | .string .ban s => s
  | .string .key s => if noKey then ['*'] else s
  | .string _ _ => ['*']
  | .uint _ => limitbuf

def serverText (names : Names Client) (limitbuf : List Char) (slot : Slot Client) : List Char :=
  match slot.arg with
  | .client .chanop client opLevel =>
    if opLevel < maxOpLevel then names.numNick client ++ ':' :: Nat.toDigits 10 opLevel else names.numNick client
  | .client .voice client _ => names.numNick client
  | .string _ s => s
  | .uint _ => limitbuf

def MessageKind.text (names : Names Client) (noKey : Bool) (limitbuf : List Char) :
    MessageKind → Slot Client → List Char
  | .opmode | .bounce | .mode => serverText names limitbuf
  | .hack2 | .hack3 | .hack4 | .log | .channel => shownText names noKey limitbuf

def entries (kind : MessageKind) (param : Slot Client → Option (List Char)) (simple : Bool → List Char)
    (tail : Bool → List (Char × Option (List Char))) (batch : List (Slot Client)) :
    List ((Bool × Char) × Option (List Char)) :=
  let onSide := fun plus =>
    let add := kind.side plus
    (simple add).map (fun letter => ((plus, letter), none)) ++
      (batch.filter fun slot => slot.add = add).map (fun slot => ((plus, slot.arg.letter), param slot)) ++
      (tail add).map fun e => ((plus, e.1), e.2)
  onSide false ++ onSide true

def ModeBuf.meant (names : Names Client) (view : ChannelView) (mb : ModeBuf Client) (kind : MessageKind) :
    List ((Bool × Char) × Option (List Char)) :=
  entries kind
    (fun slot =>
      if takesParam (kind.side slot.add, slot.arg.letter) then
        some (kind.text names mb.dest.noKey (lastLimit [] mb.slots) slot)
      else none)
    mb.simple (mb.tail names view · kind) (mb.fitting names)

def Aligned (names : Names Client) (view : ChannelView) (mb : ModeBuf Client) (m : ModeMessage) : Prop :=
  deal takesParam m.letters m.params = some (mb.meant names view m.kind)

instance (names : Names Client) (view : ChannelView) (mb : ModeBuf Client) (m : ModeMessage) :
    Decidable (Aligned names view mb m) :=
  inferInstanceAs (Decidable (_ = _))

/-- A limit that was removed is bounced, or one that was set gets in an OPMODE with the bounce bit. -/
def ModeBuf.losesLimit (names : Names Client) (mb : ModeBuf Client) : Bool :=
  mb.dest.server && mb.dest.bounce &&
    if mb.dest.opmode then (mb.fitting names).any (·.arg.isLimit) else mb.rem .limit

theorem spell_letters (kind : MessageKind) (param : Slot Client → Option (List Char)) (simple : Bool → List Char)
    (tail : Bool → List (Char × Option (List Char))) (batch : List (Slot Client)) :
    (spell kind param simple tail batch).letters = (entries kind param simple tail batch).map Prod.fst := by
  by_cases back : kind = .bounce <;>
    simp [spell, entries, ModeMessage.letters, MessageKind.side, back, Function.comp_def]

theorem spell_params (kind : MessageKind) (param : Slot Client → Option (List Char)) (simple : Bool → List Char)
    (tail : Bool → List (Char × Option (List Char))) (batch : List (Slot Client)) :
    (spell kind param simple tail batch).params = (entries kind param simple tail batch).filterMap Prod.snd := by
  by_cases back : kind = .bounce <;>
    simp [spell, entries, MessageKind.side, back, List.filterMap_map]

theorem sent_kinds {d : Dest} {kind : MessageKind} (sent : kind ∈ d.shownKinds ++ d.serverKinds) :
    (kind = .bounce → d.server = true ∧ d.bounce = true ∧ d.opmode = false) ∧
      (kind = .mode → d.bounce = false) ∧ (kind = .opmode → d.server = true ∧ d.opmode = true) := by
  rcases List.mem_append.mp sent with shown | server
  · simp only [Dest.shownKinds, List.mem_append] at shown
    refine ⟨?_, ?_, ?_⟩
    all_goals
      rintro rfl
      simp at shown
  · simp only [Dest.serverKinds] at server
    cases on : d.server <;> cases opmode : d.opmode <;> cases bounce : d.bounce <;>
      simp_all

theorem slot_param {names : Names Client} {mb : ModeBuf Client} {kind : MessageKind} {slot : Slot Client}
    (limitbuf : List Char) (sent : kind ∈ mb.dest.shownKinds ++ mb.dest.serverKinds)
    (set : slot.arg.isLimit = true → slot.add = true) :
    kind.param names mb.dest.noKey mb.dest.bounce limitbuf slot =
      if takesParam (kind.side slot.add, slot.arg.letter) &&
          !(decide (kind = .opmode) && mb.dest.bounce && slot.arg.isLimit) then
        some (kind.text names mb.dest.noKey limitbuf slot)
      else none := by
  obtain ⟨bounced, plain, -⟩ := sent_kinds sent
  obtain ⟨add, arg, free, save⟩ := slot
  cases arg with
  | client mode who opLevel =>
    cases kind <;> cases mode <;>
      simp [MessageKind.param, shownParam, serverParam, MessageKind.text, shownText, serverText, ModeArg.letter, takesParam, ModeArg.isLimit]
  | string mode s =>
    cases kind <;> cases mode <;>
      simp [MessageKind.param, shownParam, serverParam, MessageKind.text, shownText, serverText, ModeArg.letter, takesParam, ModeArg.isLimit]
  | uint limit =>
    obtain rfl : add = true := set rfl
    cases kind with
    | bounce =>
      simp [MessageKind.param, serverParam, ModeArg.letter, takesParam, MessageKind.side, (bounced rfl).2.1]
    | mode =>
      simp [MessageKind.param, serverParam, MessageKind.text, serverText, ModeArg.letter, takesParam, MessageKind.side, plain rfl]
    | opmode =>
      cases bounce : mb.dest.bounce <;>
        simp [MessageKind.param, serverParam, MessageKind.text, serverText, ModeArg.letter, takesParam, MessageKind.side,
          ModeArg.isLimit]
    | _ =>
      simp [MessageKind.param, shownParam, MessageKind.text, shownText, ModeArg.letter, takesParam, MessageKind.side]

theorem mem_entries {kind : MessageKind} {param : Slot Client → Option (List Char)} {simple : Bool → List Char}
    {tail : Bool → List (Char × Option (List Char))} {batch : List (Slot Client)}
    {e : (Bool × Char) × Option (List Char)} : e ∈ entries kind param simple tail batch ↔ ∃ plus,
      (∃ letter ∈ simple (kind.side plus), ((plus, letter), none) = e) ∨
      (∃ slot ∈ batch, slot.add = kind.side plus ∧ ((plus, slot.arg.letter), param slot) = e) ∨
      ∃ word ∈ tail (kind.side plus), ((plus, word.1), word.2) = e := by
  simp only [entries, List.mem_append, List.mem_map, List.mem_filter, decide_eq_true_eq, or_assoc, and_assoc,
    Bool.exists_bool]

theorem side_side (kind : MessageKind) (plus : Bool) : kind.side (kind.side plus) = plus := by
  simp [MessageKind.side]

theorem simple_takes {mb : ModeBuf Client} (unset : mb.add .limit = false) {add plus : Bool} {letter : Char}
    (mem : letter ∈ mb.simple add) (takes : takesParam (plus, letter) = true) :
    plus = true ∧ add = false ∧ mb.rem .limit = true := by
  have only : ∀ e ∈ flagLetters, ∀ plus, takesParam (plus, e.2) = true → e.1 = .limit ∧ plus = true := by decide
  cases add with
  | true =>
    obtain ⟨e, held, rfl⟩ := List.mem_map.mp mem
    obtain ⟨listed, set⟩ := List.mem_filter.mp held
    rw [(only e listed plus takes).1, unset] at set
    cases set
  | false =>
    obtain ⟨e, held, rfl⟩ := List.mem_map.mp mem
    obtain ⟨listed, taken⟩ := List.mem_filter.mp held
    obtain ⟨limit, up⟩ := only e listed plus takes
    rw [limit, Bool.and_eq_true] at taken
    exact ⟨up, rfl, taken.2⟩

theorem tail_takes {names : Names Client} {view : ChannelView} {mb : ModeBuf Client} {kind : MessageKind} {add plus : Bool}
    {word : Char × Option (List Char)} (mem : word ∈ mb.tail names view add kind) :
    word.2.isSome = takesParam (plus, word.1) := by
  have local_free : ∀ e ∈ localLetters, takesParam (plus, e.2) = false := by
    cases plus <;> decide
  have server : word ∈ (if add && mb.dest.deop then [('o', some (names.numNick mb.source))] else []) →
      word.2.isSome = takesParam (plus, word.1) := by
    intro mem
    split at mem
    · obtain rfl := List.mem_singleton.mp mem
      rfl
    · cases mem
  cases kind with
  | channel =>
    obtain ⟨letter, held, rfl⟩ := List.mem_map.mp mem
    have listed : ∃ e ∈ localLetters, e.2 = letter := by
      split at held
      · obtain ⟨e, kept, same⟩ := List.mem_map.mp held
        exact ⟨e, (List.mem_filter.mp kept).1, same⟩
      · obtain ⟨e, kept, same⟩ := List.mem_map.mp held
        exact ⟨e, (List.mem_filter.mp kept).1, same⟩
    obtain ⟨e, here, rfl⟩ := listed
    exact (local_free e here).symm
  | opmode => exact server mem
  | bounce => exact server mem
  | mode => exact server mem
  | _ => cases mem

section
variable {names : Names Client} {view : ChannelView} {mb : ModeBuf Client} {l : List (Slot Client)} {kind : MessageKind}

def ModeBuf.sentEntries (names : Names Client) (view : ChannelView) (mb : ModeBuf Client) (kind : MessageKind) :
    List ((Bool × Char) × Option (List Char)) :=
  entries kind (kind.param names mb.dest.noKey mb.dest.bounce (lastLimit [] mb.slots)) mb.simple
    (mb.tail names view · kind) (mb.fitting names)

theorem LimitsSet.fitting (limits : LimitsSet mb l) (holds : Holds mb l) :
    ∀ slot ∈ mb.fitting names, slot.arg.isLimit = true → slot.add = true := by
  intro slot mem
  rw [holds.fitting_eq.1] at mem
  exact limits.slots slot ((fitting_sublist names mb.dest.noKey mb.room l).subset mem)

theorem sent_takes (limits : LimitsSet mb l) (holds : Holds mb l)
    (sent : kind ∈ mb.dest.shownKinds ++ mb.dest.serverKinds) :
    ∀ e ∈ mb.sentEntries names view kind, e.2.isSome = true → takesParam e.1 = true := by
  intro e mem word
  obtain ⟨plus, ⟨letter, -, rfl⟩ | ⟨slot, inside, at_side, rfl⟩ | ⟨back, inside, rfl⟩⟩ := mem_entries.mp mem
  · cases word
  · have same : kind.side slot.add = plus := by rw [at_side, side_side]
    rw [slot_param _ sent (limits.fitting holds slot inside), same] at word
    by_contra free
    simp [free] at word
  · exact (tail_takes inside).symm.trans word

theorem sent_fit (limits : LimitsSet mb l) (holds : Holds mb l)
    (sent : kind ∈ mb.dest.shownKinds ++ mb.dest.serverKinds) (kept : mb.losesLimit names = false) :
    mb.sentEntries names view kind = mb.meant names view kind ∧
      ∀ e ∈ mb.sentEntries names view kind, e.2.isSome = takesParam e.1 := by
  obtain ⟨bounced, -, opmode⟩ := sent_kinds sent
  -- In a message with OPMODE limits are dropped on account of the bounce bit.
  have param : ∀ slot ∈ mb.fitting names,
      kind.param names mb.dest.noKey mb.dest.bounce (lastLimit [] mb.slots) slot =
        if takesParam (kind.side slot.add, slot.arg.letter) then
          some (kind.text names mb.dest.noKey (lastLimit [] mb.slots) slot)
        else none := by
    intro slot inside
    have none_lost : (decide (kind = .opmode) && mb.dest.bounce && slot.arg.isLimit) = false := by
      by_contra lost
      simp only [Bool.not_eq_false, Bool.and_eq_true, decide_eq_true_eq] at lost
      obtain ⟨⟨kind_eq, bounce⟩, limit⟩ := lost
      obtain ⟨server, by_oper⟩ := opmode kind_eq
      have lost : mb.losesLimit names = true := by
        simp only [ModeBuf.losesLimit, server, bounce, by_oper, Bool.and_self, if_true, Bool.true_and]
        exact List.any_eq_true.mpr ⟨slot, inside, limit⟩
      rw [kept] at lost
      cases lost
    rw [slot_param _ sent (limits.fitting holds slot inside), none_lost]
    simp
  constructor
  · unfold ModeBuf.sentEntries ModeBuf.meant entries
    have sides : ∀ plus, ((mb.fitting names).filter fun slot => slot.add = kind.side plus).map
          (fun slot => ((plus, slot.arg.letter),
            kind.param names mb.dest.noKey mb.dest.bounce (lastLimit [] mb.slots) slot)) =
        ((mb.fitting names).filter fun slot => slot.add = kind.side plus).map (fun slot => ((plus, slot.arg.letter),
            if takesParam (kind.side slot.add, slot.arg.letter) then
              some (kind.text names mb.dest.noKey (lastLimit [] mb.slots) slot)
            else none)) :=
      fun plus => List.map_congr_left fun slot mem => by rw [param slot (List.mem_filter.mp mem).1]
    dsimp only
    rw [sides, sides]
  · intro e mem
    obtain ⟨plus, ⟨letter, inside, rfl⟩ | ⟨slot, inside, at_side, rfl⟩ | ⟨back, inside, rfl⟩⟩ := mem_entries.mp mem
    · by_contra takes
      have takes : takesParam (plus, letter) = true := by simpa using takes
      obtain ⟨rfl, down, removed⟩ := simple_takes limits.flag inside takes
      have kind_eq : kind = .bounce := by simpa [MessageKind.side] using down
      obtain ⟨server, bounce, plain⟩ := bounced kind_eq
      simp [ModeBuf.losesLimit, server, bounce, plain, removed] at kept
    · have same : kind.side slot.add = plus := by rw [at_side, side_side]
      rw [param slot inside, same]
      cases takesParam (plus, slot.arg.letter) <;> rfl
    · exact tail_takes inside

theorem lost_entry (limits : LimitsSet mb l) (holds : Holds mb l) (lost : mb.losesLimit names = true) :
    ∃ kind ∈ mb.dest.shownKinds ++ mb.dest.serverKinds, ∃ e ∈ mb.sentEntries names view kind,
      e.2.isSome ≠ takesParam e.1 := by
  simp only [ModeBuf.losesLimit, Bool.and_eq_true] at lost
  obtain ⟨⟨server, bounce⟩, which⟩ := lost
  cases opmode : mb.dest.opmode with
  | true =>
    simp only [opmode, if_true] at which
    obtain ⟨slot, inside, limit⟩ := List.any_eq_true.mp which
    have set := limits.fitting holds slot inside limit
    have sent : MessageKind.opmode ∈ mb.dest.shownKinds ++ mb.dest.serverKinds := by
      simp [Dest.serverKinds, server, opmode]
    refine ⟨.opmode, sent, ((true, slot.arg.letter), _), mem_entries.mpr ⟨true, .inr (.inl ⟨slot, inside, set, rfl⟩)⟩, ?_⟩
    obtain ⟨add, arg, free, save⟩ := slot
    cases arg with
    | uint n =>
      obtain rfl : add = true := set
      simp [MessageKind.param, serverParam, ModeArg.letter, takesParam, bounce]
    | _ => cases limit
  | false =>
    simp only [opmode, Bool.false_eq_true, if_false] at which
    have sent : MessageKind.bounce ∈ mb.dest.shownKinds ++ mb.dest.serverKinds := by
      simp [Dest.serverKinds, server, opmode, bounce]
    have letter : 'l' ∈ mb.simple false :=
      List.mem_map.mpr ⟨(.limit, 'l'), List.mem_filter.mpr ⟨by decide, by simp [limits.flag, which]⟩, rfl⟩
    exact ⟨.bounce, sent, ((true, 'l'), none), mem_entries.mpr ⟨true, .inl ⟨'l', letter, rfl⟩⟩, (by rintro ⟨⟩)⟩

theorem idle_keeps (idle : mb.idle = true) : mb.losesLimit names = false := by
  simp only [ModeBuf.idle, Flags.isNone, Bool.and_eq_true, List.all_eq_true, Bool.not_eq_eq_eq_not, Bool.not_true,
    decide_eq_true_eq] at idle
  obtain ⟨⟨-, rem⟩, count⟩ := idle
  have unset : mb.rem .limit = false := rem .limit (by decide)
  simp [ModeBuf.losesLimit, ModeBuf.fitting, ModeBuf.slots, count, Channels.fitting, unset]

end

def bouncedRemovals : List (ChannelView × ModeCall Nat) :=
  [(⟨.none, false⟩, .client false .chanop 1 1000), (⟨.none, false⟩, .uint false 0)]

def bouncedBuffer : Names Nat × ModeBuf Nat :=
  let names : Names Nat := ⟨fun _ => ['n'], fun _ => ['A', 'B', 'A', 'A', 'A']⟩
  (names, ((runCalls names (modebufInit 0 false { Dest.none with server := true, bounce := true }) bouncedRemovals).map
    Prod.fst).getD (modebufInit 0 false .none))

theorem bouncedBuffer_entered : Entered bouncedBuffer.1 bouncedBuffer.2 := by
  refine .flush ⟨0, false, { Dest.none with server := true, bounce := true }, bouncedRemovals, [], ?_, rfl⟩
  intro call mem slot pushed
  rcases List.mem_cons.mp mem with rfl | mem
  · obtain rfl := Option.some.inj pushed
    decide
  · obtain rfl := List.mem_singleton.mp mem
    cases pushed

end Ircd.Channels

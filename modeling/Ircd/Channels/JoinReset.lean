import Ircd.Channels.ModeBufAlign
import Ircd.Channels.SourceBurst
import Ircd.Library.Runs

/-! `ms_join` learns an older creation time: it wipes out the modes of the channel and reports what goes.

The entries of the buffer for the key and the passes point into the channel. These strings are cleared before the
first flush, so what is sent about them is empty.
-/

set_option autoImplicit false

namespace Ircd.Channels
open Ircd.Library Ircd.Text

variable {Client : Type}

/-! ### The reset -/

def Mode.clear (mode : Mode) : StringMode → Mode
  | .key => { mode with key := [] }
  | .upass => { mode with upass := [] }
  | .apass => { mode with apass := [] }
  | .ban => mode

def Slot.cleared (which : StringMode) (slot : Slot Client) : Slot Client :=
  match slot.arg with
  | .string s text => { slot with arg := .string s (if s = which then [] else text) }
  | _ => slot

def ModeWork.clear (w : ModeWork Client) (which : StringMode) : ModeWork Client where
  chan := { w.chan with mode := w.chan.mode.clear which }
  mbuf := { w.mbuf with args := w.mbuf.args.map (Option.map (Slot.cleared which)) }
  passes := w.passes

def resetString (names : Names Client) (which : StringMode) (text : List Char) (w : ModeWork Client) : ModeWork Client :=
  if text ≠ [] then (w.string names false which text false).clear which else w

def resetDest : Dest := { Dest.none with channel := true, hack3 := true }

def demoted (members : List (Membership Client)) : List (Membership Client) :=
  members.map fun m => { m with status := { m.status with chanop := false, voice := false } }

def startReset (names : Names Client) (sptr : Client) (localChannel : Bool) (creation : Int) (chan : Channel Client) :
    ModeWork Client :=
  let w : ModeWork Client := ⟨{ chan with creationTime := creation }, modebufInit sptr localChannel resetDest, []⟩
  let w := w.flags false chan.mode.mode
  let kept : Flags := fun f => chan.mode.mode f && (f = .burstAdded || f = .wasDelJoins)
  let w := dropLimit names chan.mode.limit { w with chan := w.chan.setFlags kept }
  { w with chan := { w.chan with mode := { w.chan.mode with limit := 0 } } }

/-- The part of `ms_join` behind its condition on the creation times, down to `modebuf_flush`. -/
def joinReset (names : Names Client) (sptr : Client) (localChannel : Bool) (creation : Int) (chan : Channel Client) :
    Option (ModeWork Client) :=
  let w := startReset names sptr localChannel creation chan
  let w := resetString names .key chan.mode.key w
  let w := resetString names .upass chan.mode.upass w
  let w := resetString names .apass chan.mode.apass w
  let w := chan.members.foldl (dropModes names) w
  ModeWork.call names { w with chan := { w.chan with members := demoted chan.members } } .flush

/-! ### What the members hear -/

abbrev ToldMode := (Bool × Char) × Option (List Char)

@[ext] structure Known where
  flags : Flags
  limit : Nat
  key : List Char
  ops : List (List Char)
  voices : List (List Char)

def Channel.seen (chan : Channel Client) : List (Membership Client) :=
  chan.members.filter fun m => !m.status.zombie && !m.status.delayed

def Channel.known (names : Names Client) (chan : Channel Client) : Known where
  flags f := chan.mode.mode f && (f.simple || f = .wasDelJoins)
  limit := chan.mode.limit
  key := chan.mode.key
  ops := (chan.seen.filter (·.status.chanop)).map (names.name ·.user)
  voices := (chan.seen.filter (·.status.voice)).map (names.name ·.user)

def hearNick (plus : Bool) (nick : Option (List Char)) (nicks : List (List Char)) : List (List Char) :=
  if plus then nick.toList ++ nicks else nicks.filter fun n => some n ≠ nick

def Known.hear (k : Known) (e : ToldMode) : Known where
  flags f := if (f, e.1.2) ∈ flagLetters ++ localLetters then e.1.1 else k.flags f
  limit := if e.1.2 = 'l' then if e.1.1 then (atoi (e.2.getD [])).toNat else 0 else k.limit
  key := if e.1.2 = 'k' then if e.1.1 then e.2.getD [] else [] else k.key
  ops := if e.1.2 = 'o' then hearNick e.1.1 e.2 k.ops else k.ops
  voices := if e.1.2 = 'v' then hearNick e.1.1 e.2 k.voices else k.voices

def modesHeard (passes : List (Flushed Client)) : Option (List ToldMode) :=
  (((passes.flatMap (·.sent)).filter (·.kind = .channel)).mapM fun m => deal takesParam m.letters m.params).map
    List.flatten

structure Channel.Removes (names : Names Client) (chan : Channel Client) (e : ToldMode) : Prop where
  key : e.1 = (false, 'k') → e.2 = some chan.mode.key
  op : e.1 = (false, 'o') → ∃ m ∈ chan.members, m.status.chanop = true ∧ e.2 = some (names.name m.user)
  voice : e.1 = (false, 'v') → ∃ m ∈ chan.members, m.status.voice = true ∧ e.2 = some (names.name m.user)

def ReportsReset (names : Names Client) (chan : Channel Client) (w : ModeWork Client) : Prop :=
  (∀ pass ∈ w.passes, pass.buffers.fit = true) ∧
    ∃ told, modesHeard w.passes = some told ∧ told.foldl Known.hear (chan.known names) = w.chan.known names ∧
      ∀ e ∈ told, chan.Removes names e

/-! ### What a pass tells -/

/-- Some joins are still hidden when `D` goes. -/
def leavesHidden (view : ChannelView) (rem : Flags) : Bool :=
  rem .delJoins && !(view.mode .delJoins || view.mode .wasDelJoins) && view.delayed

inductive Leads (view : ChannelView) (rem : Flags) : ToldMode → Prop where
  | flag {l : Flag × Char} : l ∈ flagLetters → rem l.1 = true → Leads view rem ((false, l.2), none)
  | gone : rem .wasDelJoins = true → leavesHidden view rem = false → Leads view rem ((false, 'd'), none)
  | found : leavesHidden view rem = true → Leads view rem ((true, 'd'), none)

def Slot.told (names : Names Client) (slot : Slot Client) : ToldMode :=
  ((false, slot.arg.letter), shownParam names false [] slot)

def letterCount (rem : Flags) : Nat := flagLetters.countP fun l => rem l.1

structure Slot.Gone (names : Names Client) (slot : Slot Client) : Prop where
  add : slot.add = false
  save : slot.save = false
  limit : slot.arg.isLimit = false
  short : slot.arg.size names false ≤ 15

structure Waits (names : Names Client) (mb : ModeBuf Client) (held : List (Slot Client)) : Prop where
  holds : Holds mb held
  dest : mb.dest = resetDest
  add : mb.add = .none
  gone : ∀ slot ∈ held, slot.Gone names

variable {names : Names Client} {view : ChannelView} {mb : ModeBuf Client} {held : List (Slot Client)}

theorem putOff_short {room : Nat} (short : ∀ slot ∈ held, slot.arg.size names false ≤ 15)
    (enough : 16 * held.length ≤ room) : putOff names false room held = [] := by
  induction held generalizing room with
  | nil => rfl
  | cons slot held ih =>
    have here := short slot List.mem_cons_self
    rw [List.length_cons] at enough
    rw [putOff, if_neg (by omega)]
    exact ih (fun slot mem => short slot (List.mem_cons_of_mem _ mem)) (by omega)

theorem Waits.fitting (waits : Waits names mb held) : mb.fitting names = held ∧ mb.putOff names = [] := by
  obtain ⟨holds, dest, -, gone⟩ := waits
  have room : mb.room = 312 := by rw [ModeBuf.room, dest]; rfl
  have few : held.length ≤ 6 := holds.few
  have all : Channels.putOff names false mb.room held = [] :=
    putOff_short (fun slot mem => (gone slot mem).short) (by omega)
  have noKey : mb.dest.noKey = false := by rw [dest]; rfl
  rw [holds.fitting_eq.1, holds.fitting_eq.2, noKey]
  exact ⟨fitting_all all, all⟩

theorem localLetters_told (add : mb.add = .none) :
    addLetters localLetters (hiddenJoins view mb).2 = (if leavesHidden view mb.rem then ['d'] else []) ∧
      remLetters localLetters (hiddenJoins view mb).2 =
        if mb.rem .wasDelJoins && !leavesHidden view mb.rem then ['d'] else [] := by
  have found : (mb.rem .delJoins && !(view.mode .delJoins || view.mode .wasDelJoins) && view.delayed) =
      leavesHidden view mb.rem := rfl
  rw [hiddenJoins, found, add]
  cases leavesHidden view mb.rem with
  | true => simp [addLetters, remLetters, localLetters]
  | false => cases was : mb.rem .wasDelJoins <;> simp [addLetters, remLetters, localLetters, was, add]

theorem shownParam_gone {slot : Slot Client} (limitbuf : List Char) (gone : slot.arg.isLimit = false) :
    shownParam names false limitbuf slot = shownParam names false [] slot := by
  obtain ⟨add, arg, free, save⟩ := slot
  cases arg with
  | uint n => cases gone
  | client => rfl
  | string mode text => cases mode <;> rfl

theorem mem_tail (add : mb.add = .none) (plus : Bool) (word : Char × Option (List Char)) :
    word ∈ mb.tail names view plus .channel ↔ word = ('d', none) ∧
      (if plus then leavesHidden view mb.rem else mb.rem .wasDelJoins && !leavesHidden view mb.rem) = true := by
  obtain ⟨added, removed⟩ := @localLetters_told _ view mb add
  cases plus with
  | true =>
    simp only [ModeBuf.tail, if_true, added]
    cases leavesHidden view mb.rem <;> simp
  | false =>
    simp only [ModeBuf.tail, Bool.false_eq_true, if_false, removed]
    cases mb.rem .wasDelJoins && !leavesHidden view mb.rem <;> simp

theorem Waits.mem_sentEntries (waits : Waits names mb held) (e : ToldMode) :
    e ∈ mb.sentEntries names view .channel ↔ Leads view mb.rem e ∨ ∃ slot ∈ held, slot.told names = e := by
  have none_added : mb.simple true = [] := by simp [ModeBuf.simple, addLetters, waits.add]
  have removed (c : Char) : c ∈ mb.simple false ↔ ∃ l ∈ flagLetters, mb.rem l.1 = true ∧ l.2 = c := by
    simp only [ModeBuf.simple, remLetters, waits.add]
    simp [and_assoc]
  have param (slot : Slot Client) (mem : slot ∈ held) :
      MessageKind.channel.param names mb.dest.noKey mb.dest.bounce (lastLimit [] mb.slots) slot =
        shownParam names false [] slot := by
    rw [waits.dest]
    exact shownParam_gone _ (waits.gone slot mem).limit
  have side (plus : Bool) : MessageKind.channel.side plus = plus := by cases plus <;> rfl
  rw [ModeBuf.sentEntries, mem_entries, waits.fitting.1]
  simp only [side]
  constructor
  · rintro ⟨plus, ⟨c, mem, rfl⟩ | ⟨slot, mem, at_side, rfl⟩ | ⟨word, mem, rfl⟩⟩
    · cases plus with
      | true =>
        rw [none_added] at mem
        cases mem
      | false =>
        obtain ⟨l, listed, set, rfl⟩ := (removed c).mp mem
        exact .inl (.flag listed set)
    · rw [← at_side, (waits.gone slot mem).add, param slot mem]
      exact .inr ⟨slot, mem, rfl⟩
    · obtain ⟨rfl, told⟩ := (mem_tail waits.add plus word).mp mem
      cases plus with
      | true => exact .inl (.found told)
      | false =>
        simp only [Bool.false_eq_true, if_false, Bool.and_eq_true, Bool.not_eq_true'] at told
        exact .inl (.gone told.1 told.2)
  · rintro (lead | ⟨slot, mem, rfl⟩)
    · cases lead with
      | flag listed set => exact ⟨false, .inl ⟨_, (removed _).mpr ⟨_, listed, set, rfl⟩, rfl⟩⟩
      | gone set seen =>
        refine ⟨false, .inr (.inr ⟨('d', none), (mem_tail waits.add false _).mpr ⟨rfl, ?_⟩, rfl⟩)⟩
        simp [set, seen]
      | found hidden => exact ⟨true, .inr (.inr ⟨('d', none), (mem_tail waits.add true _).mpr ⟨rfl, hidden⟩, rfl⟩)⟩
    · have add := (waits.gone slot mem).add
      exact ⟨false, .inr (.inl ⟨slot, mem, add, by rw [param slot mem]; rfl⟩)⟩

theorem Waits.line (waits : Waits names mb held) (busy : mb.idle = false) :
    ∃ m, (flushPass names view mb).sent.filter (·.kind = .channel) = [m] ∧
      deal takesParam m.letters m.params = some (mb.sentEntries names view .channel) := by
  have kinds : mb.dest.shownKinds ++ mb.dest.serverKinds = [.hack3, .channel] := by rw [waits.dest]; rfl
  have limits : LimitsSet mb held := by
    refine ⟨fun slot mem limit => ?_, by rw [waits.add]; rfl⟩
    rw [(waits.gone slot mem).limit] at limit
    cases limit
  have kept : mb.losesLimit names = false := by rw [ModeBuf.losesLimit, waits.dest]; rfl
  have sent : MessageKind.channel ∈ mb.dest.shownKinds ++ mb.dest.serverKinds := by rw [kinds]; decide
  have written := (deal_written (sent_fit limits waits.holds sent kept).2 : deal takesParam _ _ = some (mb.sentEntries names view .channel))
  rw [flushPass_sent names view waits.holds busy, kinds]
  refine ⟨_, rfl, ?_⟩
  rw [spell_letters, spell_params, ← waits.holds.slots]
  exact written

structure Tells (names : Names Client) (view : ChannelView) (rem : Flags) (passes : List (Flushed Client))
    (slots : List (Slot Client)) : Prop where
  heard : ∃ told, modesHeard passes = some told ∧ ∀ e, e ∈ told ↔ Leads view rem e ∨ ∃ slot ∈ slots, slot.told names = e
  fits : (∀ pass ∈ passes, pass.buffers.fit = true) ↔ letterCount rem + min maxModeParams slots.length ≤ 19

theorem Waits.fewModes (waits : Waits names mb held) :
    mb.fewModes names = true ↔ letterCount mb.rem + held.length ≤ 19 := by
  have down : ∀ slot ∈ held, slot.add = false := fun slot mem => (waits.gone slot mem).add
  have added : held.countP (fun slot => slot.add) = 0 :=
    List.countP_eq_zero.mpr fun slot mem => by simp [down slot mem]
  have removed : held.countP (fun slot => !slot.add) = held.length :=
    List.countP_eq_length.mpr fun slot mem => by simp [down slot mem]
  simp [ModeBuf.fewModes, waits.fitting.1, waits.add, waits.dest, added, removed, letterCount, resetDest, Dest.none]

theorem Waits.tells (waits : Waits names mb held) : Tells names view mb.rem [flushPass names view mb] held := by
  have few : min maxModeParams held.length = held.length := Nat.min_eq_right waits.holds.few
  refine ⟨?_, ?_⟩
  · cases idle : mb.idle with
    | true =>
      rw [flushPass_idle names view idle]
      refine ⟨[], rfl, fun e => ?_⟩
      simp only [ModeBuf.idle, Bool.and_eq_true, Flags.isNone_iff, decide_eq_true_eq, waits.holds.count] at idle
      obtain ⟨⟨-, rem⟩, count⟩ := idle
      rw [List.eq_nil_of_length_eq_zero count, rem]
      simp only [List.not_mem_nil, false_iff, false_and, exists_false, or_false]
      rintro (⟨-, set⟩ | ⟨set, -⟩ | hidden) <;> contradiction
    | false =>
      refine ⟨mb.sentEntries names view .channel, ?_, waits.mem_sentEntries⟩
      obtain ⟨m, only, dealt⟩ := waits.line idle
      rw [modesHeard, List.flatMap_singleton, only, List.mapM_cons, List.mapM_nil, dealt]
      exact congrArg some (List.append_nil _)
  · rw [few]
    simp only [List.mem_singleton, forall_eq, letters_fit, waits.fewModes]

theorem not_leads_none (e : ToldMode) : ¬ Leads view .none e := by
  rintro (⟨-, set⟩ | ⟨set, -⟩ | hidden) <;> contradiction

theorem modesHeard_append {passes passes' : List (Flushed Client)} {told told' : List ToldMode}
    (first : modesHeard passes = some told) (second : modesHeard passes' = some told') :
    modesHeard (passes ++ passes') = some (told ++ told') := by
  obtain ⟨lines, dealt, rfl⟩ := Option.map_eq_some_iff.mp first
  obtain ⟨lines', dealt', rfl⟩ := Option.map_eq_some_iff.mp second
  refine Option.map_eq_some_iff.mpr ⟨lines ++ lines', ?_, List.flatten_append⟩
  rw [List.flatMap_append, List.filter_append, List.mapM_append, dealt, dealt']
  rfl

theorem Tells.append {view' : ChannelView} {rem : Flags} {passes passes' : List (Flushed Client)}
    {front slots : List (Slot Client)} (first : Tells names view rem passes front) (full : maxModeParams ≤ front.length)
    (second : Tells names view' .none passes' slots) : Tells names view rem (passes ++ passes') (front ++ slots) := by
  obtain ⟨told, heard, mem⟩ := first.heard
  obtain ⟨told', heard', mem'⟩ := second.heard
  refine ⟨⟨told ++ told', modesHeard_append heard heard', fun e => ?_⟩, ?_⟩
  · rw [List.mem_append, mem, mem']
    simp only [not_leads_none, false_or, List.mem_append, or_and_right, exists_or, or_assoc]
  · have small : letterCount .none + min maxModeParams slots.length ≤ 19 := by
      have none_left : letterCount .none = 0 := by decide
      have six : maxModeParams = 6 := rfl
      omega
    rw [List.forall_mem_append, first.fits, second.fits, List.length_append, Nat.min_eq_left full,
      Nat.min_eq_left (Nat.le_add_right_of_le full)]
    exact and_iff_left small

theorem Waits.after (waits : Waits names mb held) : Waits names (flushPass names view mb).mbuf [] := by
  obtain ⟨-, add, -⟩ := flushPass_settles names view mb
  have holds := flushPass_holds names view waits.holds
  rw [waits.fitting.2] at holds
  refine ⟨holds, ?_, add, fun _ mem => absurd mem List.not_mem_nil⟩
  unfold flushPass
  split
  · exact waits.dest
  · obtain ⟨add, rem, kept, -⟩ := hiddenJoins_keeps view mb
    dsimp only
    rw [kept]
    dsimp only
    rw [waits.dest]
    rfl

/-! ### The run -/

def Channel.freed (chan : Channel Client) (rem : Flags) : Flags := fun f =>
  chan.mode.mode f || (f = .wasDelJoins && leavesHidden chan.view rem)

theorem settled_gone (add : mb.add = .none) :
    settled view mb = fun f => view.mode f || (f = .wasDelJoins && leavesHidden view mb.rem) := by
  funext f
  by_cases was : f = .wasDelJoins
  · rw [was, settled_wasDelJoins, add]
    cases set : view.mode .wasDelJoins <;> simp [leavesHidden, set]
  · rw [settled_other view mb was]
    simp [was]

inductive Stage (names : Names Client) (base : Channel Client) (rem : Flags) (w : ModeWork Client)
    (held named : List (Slot Client)) : Prop where
  | waiting : w.chan = base → w.passes = [] → w.mbuf.rem = rem → named = held → Stage names base rem w held named
  | told {front : List (Slot Client)} : w.chan = base.setFlags (base.freed rem) → w.mbuf.rem = .none →
      maxModeParams ≤ front.length → named = front ++ held → Tells names base.view rem w.passes front →
      Stage names base rem w held named

structure Wiping (names : Names Client) (base : Channel Client) (rem : Flags) (w : ModeWork Client)
    (held named : List (Slot Client)) : Prop where
  waits : Waits names w.mbuf held
  stage : Stage names base rem w held named

variable {base : Channel Client} {rem : Flags} {w : ModeWork Client} {named : List (Slot Client)}

theorem Stage.length_le (stage : Stage names base rem w held named) : held.length ≤ named.length := by
  cases stage with
  | waiting _ _ _ same => rw [same]
  | told _ _ _ same => rw [same, List.length_append]; exact Nat.le_add_left _ _

theorem Wiping.flush (wiping : Wiping names base rem w held named) :
    Tells names base.view rem (w.passes ++ [flushPass names w.chan.view w.mbuf]) named ∧
      w.chan.setFlags (flushPass names w.chan.view w.mbuf).view.mode = base.setFlags (base.freed rem) := by
  have settles := (flushPass_settles names w.chan.view w.mbuf).1
  have tells : Tells names w.chan.view w.mbuf.rem _ held := wiping.waits.tells
  rw [settles, settled_gone wiping.waits.add]
  cases wiping.stage with
  | waiting chan passes removed same =>
    rw [removed] at tells ⊢
    rw [chan] at tells ⊢
    rw [passes, same]
    exact ⟨tells, rfl⟩
  | told chan removed full same before =>
    rw [removed] at tells ⊢
    rw [same]
    refine ⟨before.append full tells, ?_⟩
    rw [chan]
    refine congrArg base.setFlags (funext fun f => ?_)
    simp [leavesHidden, Channel.view]

theorem Wiping.push (wiping : Wiping names base rem w held named) (room : held.length < maxModeParams)
    {slot : Slot Client} (gone : slot.Gone names) : ∃ held', held'.length < maxModeParams ∧
      Wiping names base rem (w.put (w.mbuf.push names w.chan.view slot)) held' (named ++ [slot]) := by
  obtain ⟨waits, stage⟩ := wiping
  let mb' : ModeBuf Client := { w.mbuf with args := w.mbuf.args.set w.mbuf.count (some slot), count := w.mbuf.count + 1 }
  have waits' : Waits names mb' (held ++ [slot]) := by
    refine ⟨waits.holds.push room gone.save, waits.dest, waits.add, fun s mem => ?_⟩
    rcases List.mem_append.mp mem with mem | mem
    · exact waits.gone s mem
    · exact List.mem_singleton.mp mem ▸ gone
  have stage' : Stage names base rem ⟨w.chan, mb', w.passes⟩ (held ++ [slot]) (named ++ [slot]) := by
    cases stage with
    | waiting chan passes removed same => exact .waiting chan passes removed (by rw [same])
    | told chan removed full same tells => exact .told chan removed full (by rw [same, List.append_assoc]) tells
  have deop : maxModeParams - (if w.mbuf.dest.deop then 1 else 0) = maxModeParams := by rw [waits.dest]; rfl
  by_cases full : maxModeParams ≤ w.mbuf.count + 1
  · have value : w.mbuf.push names w.chan.view slot =
        ((flushPass names w.chan.view mb').mbuf, [flushPass names w.chan.view mb']) := if_pos (by rw [deop]; exact full)
    have wiping' : Wiping names base rem ⟨w.chan, mb', w.passes⟩ (held ++ [slot]) (named ++ [slot]) := ⟨waits', stage'⟩
    obtain ⟨tells, chan⟩ := wiping'.flush
    have whole : maxModeParams ≤ (named ++ [slot]).length := by
      have count := waits'.holds.count
      have behind := stage'.length_le
      exact Nat.le_trans (Nat.le_trans full (Nat.le_of_eq count)) behind
    have removed := (flushPass_settles names w.chan.view mb').2.2
    have waits'' : Waits names (flushPass names w.chan.view mb').mbuf [] := waits'.after
    dsimp only at tells chan
    rw [value]
    generalize flushPass names w.chan.view mb' = pass at *
    exact ⟨[], Nat.zero_lt_succ _, waits'', .told chan removed whole (List.append_nil _).symm tells⟩
  · have value : w.mbuf.push names w.chan.view slot = (mb', []) := if_neg (by rw [deop]; exact full)
    have same : w.put (mb', []) = ⟨w.chan, mb', w.passes⟩ := by rw [ModeWork.put, List.append_nil]; rfl
    rw [value, same]
    refine ⟨held ++ [slot], ?_, waits', stage'⟩
    rw [← waits'.holds.count]
    exact Nat.lt_of_not_le full

def memberSlots (m : Membership Client) : List (Slot Client) :=
  (if m.status.chanop then [⟨false, .client .chanop m.user m.opLevel, false, false⟩] else []) ++
    if m.status.voice then [⟨false, .client .voice m.user m.opLevel, false, false⟩] else []

theorem client_gone (short : ∀ c, (names.name c).length ≤ nickLen) (which : MemberMode) (who : Client) (opLevel : Nat) :
    Slot.Gone names ⟨false, .client which who opLevel, false, false⟩ :=
  ⟨rfl, rfl, rfl, Nat.max_le.mpr ⟨by decide, short who⟩⟩

theorem Wiping.drop (short : ∀ c, (names.name c).length ≤ nickLen) (wiping : Wiping names base rem w held named)
    (room : held.length < maxModeParams) (m : Membership Client) : ∃ held', held'.length < maxModeParams ∧
      Wiping names base rem (dropModes names w m) held' (named ++ memberSlots m) := by
  have client (which : MemberMode) {w : ModeWork Client} {held named : List (Slot Client)}
      (wiping : Wiping names base rem w held named) (room : held.length < maxModeParams) :=
    wiping.push room (client_gone short which m.user m.opLevel)
  unfold dropModes memberSlots
  cases m.status.chanop with
  | true =>
    obtain ⟨held', room', wiping'⟩ := client .chanop wiping room
    cases m.status.voice with
    | true =>
      obtain ⟨held'', room'', wiping''⟩ := client .voice wiping' room'
      rw [List.append_assoc] at wiping''
      exact ⟨held'', room'', wiping''⟩
    | false => exact ⟨held', room', wiping'⟩
  | false =>
    cases m.status.voice with
    | true => exact client .voice wiping room
    | false => exact ⟨held, room, by simpa using wiping⟩

theorem Wiping.members (short : ∀ c, (names.name c).length ≤ nickLen) (wiping : Wiping names base rem w held named)
    (room : held.length < maxModeParams) (members : List (Membership Client)) :
    ∃ held', Wiping names base rem (members.foldl (dropModes names) w) held' (named ++ members.flatMap memberSlots) := by
  induction members generalizing w held named with
  | nil => exact ⟨held, by simpa using wiping⟩
  | cons m members ih =>
    obtain ⟨held', room', wiping'⟩ := wiping.drop short room m
    rw [List.foldl_cons, List.flatMap_cons, ← List.append_assoc]
    exact ih wiping' room'

theorem Wiping.demote (wiping : Wiping names base rem w held named) : Wiping names { base with members := demoted base.members }
    rem { w with chan := { w.chan with members := demoted base.members } } held named := by
  have view : Channel.view { base with members := demoted base.members } = base.view := by
    simp [Channel.view, findDelayedJoins, demoted, Function.comp_def]
  refine ⟨wiping.waits, ?_⟩
  cases wiping.stage with
  | waiting chan passes removed same => exact .waiting (by rw [chan]) passes removed same
  | told chan removed full same tells =>
    refine .told ?_ removed full same (by rw [view]; exact tells)
    have freed : Channel.freed { base with members := demoted base.members } rem = base.freed rem := by
      funext f
      rw [Channel.freed, view, Channel.freed]
    rw [chan, freed]
    rfl

theorem Wiping.ends (wiping : Wiping names base rem w held named) : ∃ w', w.call names .flush = some w' ∧
    Tells names base.view rem w'.passes named ∧ w'.chan = base.setFlags (base.freed rem) := by
  obtain ⟨tells, chan⟩ := wiping.flush
  have empty : (flushPass names w.chan.view w.mbuf).mbuf.count = 0 := wiping.waits.after.holds.count
  refine ⟨⟨w.chan.setFlags (flushPass names w.chan.view w.mbuf).view.mode, (flushPass names w.chan.view w.mbuf).mbuf,
    w.passes ++ [flushPass names w.chan.view w.mbuf]⟩, ?_, tells, chan⟩
  have once : modebufFlushInt names (w.mbuf.count + 1) w.chan.view w.mbuf = some [flushPass names w.chan.view w.mbuf] :=
    if_pos empty
  rw [ModeWork.call, ModeCall.run, modebufFlush, once]
  rfl

/-! ### The strings -/

def emptied (which : StringMode) : Slot Client := ⟨false, .string which [], false, false⟩

theorem cleared_emptied (which : StringMode) (strings : List StringMode) :
    (strings.map (@emptied Client)).map (Slot.cleared which) = strings.map emptied := by
  simp [Slot.cleared, emptied, Function.comp_def]

theorem Holds.cleared (holds : Holds mb held) (which : StringMode) :
    Holds { mb with args := mb.args.map (Option.map (Slot.cleared which)) } (held.map (Slot.cleared which)) where
  args := (congrArg (List.map _) holds.args).trans (packed_map _ held maxModeParams)
  count := holds.count.trans (List.length_map _).symm
  few := (List.length_map _).trans_le holds.few
  unsaved := by
    intro slot mem
    obtain ⟨s, inside, rfl⟩ := List.mem_map.mp mem
    have unsaved := holds.unsaved s inside
    obtain ⟨add, arg, free, save⟩ := s
    cases arg <;> exact unsaved

structure Queued (names : Names Client) (rem : Flags) (w : ModeWork Client) (strings : List StringMode) : Prop where
  waits : Waits names w.mbuf (strings.map emptied)
  passes : w.passes = []
  rem : w.mbuf.rem = rem

theorem Queued.reset {strings : List StringMode} (queued : Queued names rem w strings) (room : strings.length < 5)
    (which : StringMode) (text : List Char) :
    Queued names rem (resetString names which text w) (strings ++ if text ≠ [] then [which] else []) ∧
      (resetString names which text w).chan =
        if text ≠ [] then { w.chan with mode := w.chan.mode.clear which } else w.chan := by
  by_cases some_text : text ≠ []
  · rw [resetString, if_pos some_text, if_pos some_text, if_pos some_text]
    obtain ⟨⟨holds, dest, add, gone⟩, passes, removed⟩ := queued
    let slot : Slot Client := ⟨false, .string which text, false, false⟩
    have count : w.mbuf.count < 5 := by rw [holds.count, List.length_map]; exact room
    have value : w.mbuf.push names w.chan.view slot =
        ({ w.mbuf with args := w.mbuf.args.set w.mbuf.count (some slot), count := w.mbuf.count + 1 }, []) := by
      refine if_neg ?_
      rw [dest]
      exact Nat.not_le_of_lt (Nat.succ_lt_succ count)
    have fits : (strings.map (@emptied Client)).length < maxModeParams := by rw [List.length_map]; exact Nat.lt_succ_of_lt room
    have pushed := @Holds.push _ _ _ holds fits slot rfl
    have string : w.string names false which text false = w.put (w.mbuf.push names w.chan.view slot) := rfl
    rw [string, value]
    have same : ((strings.map emptied ++ [slot]).map (Slot.cleared which)) = (strings ++ [which]).map emptied := by
      rw [List.map_append, cleared_emptied, List.map_append]
      simp [slot, Slot.cleared, emptied]
    have whole := pushed.cleared which
    rw [same] at whole
    refine ⟨⟨⟨whole, dest, add, ?_⟩, ?_, removed⟩, rfl⟩
    · intro slot mem
      obtain ⟨which, -, rfl⟩ := List.mem_map.mp mem
      exact ⟨rfl, rfl, rfl, by cases which <;> exact Nat.zero_le _⟩
    · rw [ModeWork.clear, ModeWork.put, passes]
      rfl
  · rw [resetString, if_neg some_text, if_neg some_text, if_neg some_text, List.append_nil]
    exact ⟨queued, rfl⟩

/-! ### The reset as a whole -/

def Channel.gone (chan : Channel Client) : Flags := fun f =>
  chan.mode.mode f && (f.simple || f = .wasDelJoins) || (f = .limit && chan.mode.limit ≠ 0)

def Channel.strings (chan : Channel Client) : List StringMode :=
  (if chan.mode.key ≠ [] then [.key] else []) ++ (if chan.mode.upass ≠ [] then [.upass] else []) ++
    if chan.mode.apass ≠ [] then [.apass] else []

def Channel.goneSlots (chan : Channel Client) : List (Slot Client) :=
  chan.strings.map emptied ++ chan.members.flatMap memberSlots

/-- The channel after the reset, but for `MODE_WASDELJOINS`. -/
def Channel.wiped (chan : Channel Client) (creation : Int) : Channel Client :=
  { chan with
    creationTime := creation
    mode := ⟨fun f => chan.mode.mode f && (f = .burstAdded || f = .wasDelJoins), 0, [], [], []⟩
    members := demoted chan.members }

theorem startReset_eq (sptr : Client) (localChannel : Bool) (creation : Int) (chan : Channel Client) :
    startReset names sptr localChannel creation chan =
      ⟨{ chan with
          creationTime := creation
          mode := { chan.mode with
            mode := fun f => chan.mode.mode f && (f = .burstAdded || f = .wasDelJoins)
            limit := 0 } },
        { modebufInit sptr localChannel resetDest with rem := chan.gone }, []⟩ := by
  let gone : Flags := fun f => chan.mode.mode f && (f.simple || f = .wasDelJoins)
  have flags : modebufMode (modebufInit sptr localChannel resetDest) false chan.mode.mode =
      { modebufInit sptr localChannel resetDest with rem := gone } := by
    by_cases nothing : gone.isNone = true
    · have empty : gone = .none := (Flags.isNone_iff gone).mp nothing
      refine (if_pos nothing).trans ?_
      rw [empty]
      rfl
    · exact if_neg nothing
  rw [startReset, ModeWork.flags, flags, dropLimit]
  by_cases unlimited : chan.mode.limit = 0
  · have same : chan.gone = gone := by funext f; simp [Channel.gone, gone, unlimited]
    rw [if_neg (not_not_intro unlimited), same]
    rfl
  · have more : chan.gone = gone.or (.only .limit) := by funext f; simp [Channel.gone, gone, unlimited]
    rw [if_pos unlimited, more]
    rfl

theorem joinReset_run (short : ∀ c, (names.name c).length ≤ nickLen) (sptr : Client) (localChannel : Bool)
    (creation : Int) (chan : Channel Client) : ∃ w, joinReset names sptr localChannel creation chan = some w ∧
      Tells names (chan.wiped creation).view chan.gone w.passes chan.goneSlots ∧
      w.chan = (chan.wiped creation).setFlags ((chan.wiped creation).freed chan.gone) := by
  have shape := @startReset_eq _ names sptr localChannel creation chan
  unfold joinReset
  generalize startReset names sptr localChannel creation chan = start at shape ⊢
  have queued : Queued names chan.gone start [] := by
    rw [shape]
    exact ⟨⟨⟨rfl, rfl, Nat.zero_le _, fun _ mem => absurd mem List.not_mem_nil⟩, rfl, rfl,
      fun _ mem => absurd mem List.not_mem_nil⟩, rfl, rfl⟩
  obtain ⟨key, key_chan⟩ := queued.reset (by decide) .key chan.mode.key
  obtain ⟨upass, upass_chan⟩ := key.reset (by split <;> decide) .upass chan.mode.upass
  obtain ⟨apass, apass_chan⟩ := upass.reset (by split <;> split <;> decide) .apass chan.mode.apass
  have at_base : (resetString names .apass chan.mode.apass (resetString names .upass chan.mode.upass
      (resetString names .key chan.mode.key start))).chan = { chan.wiped creation with members := chan.members } := by
    rw [apass_chan, upass_chan, key_chan, shape]
    by_cases no_key : chan.mode.key = [] <;> by_cases no_upass : chan.mode.upass = [] <;>
      by_cases no_apass : chan.mode.apass = [] <;> simp [no_key, no_upass, no_apass, Mode.clear, Channel.wiped]
  have few : chan.strings.length ≤ 3 := by
    unfold Channel.strings
    split <;> split <;> split <;> decide
  obtain ⟨held, done⟩ := Wiping.members short ⟨apass.waits, .waiting at_base apass.passes apass.rem rfl⟩
    (by rw [List.length_map]; exact Nat.lt_of_le_of_lt few (by decide)) chan.members
  exact done.demote.ends

def Channel.goneArgs (chan : Channel Client) : Nat :=
  chan.strings.length + chan.members.countP (·.status.chanop) + chan.members.countP (·.status.voice)

theorem length_goneSlots (chan : Channel Client) : chan.goneSlots.length = chan.goneArgs := by
  have members (l : List (Membership Client)) : (l.flatMap memberSlots).length =
      l.countP (·.status.chanop) + l.countP (·.status.voice) := by
    induction l with
    | nil => rfl
    | cons m l ih =>
      rw [List.flatMap_cons, List.length_append, ih, List.countP_cons, List.countP_cons, memberSlots]
      cases m.status.chanop <;> cases m.status.voice <;> simp <;> omega
  rw [Channel.goneSlots, List.length_append, List.length_map, members, Channel.goneArgs, Nat.add_assoc]

theorem mem_goneSlots {chan : Channel Client} {slot : Slot Client} : slot ∈ chan.goneSlots ↔
    (∃ which ∈ chan.strings, emptied which = slot) ∨ ∃ m ∈ chan.members,
      m.status.chanop = true ∧ slot = ⟨false, .client .chanop m.user m.opLevel, false, false⟩ ∨
      m.status.voice = true ∧ slot = ⟨false, .client .voice m.user m.opLevel, false, false⟩ := by
  simp only [Channel.goneSlots, List.mem_append, List.mem_map, List.mem_flatMap, memberSlots]
  refine or_congr_right (exists_congr fun m => and_congr_right fun _ => ?_)
  cases m.status.chanop <;> cases m.status.voice <;> simp

/-! ### What is heard -/

/-- The names of users are no longer than `NICKLEN`. -/
structure NickNames (Client : Type) extends Names Client where
  short : ∀ c, (name c).length ≤ nickLen

theorem lettered_d (f : Flag) : (f, 'd') ∈ flagLetters ++ localLetters ↔ f = .wasDelJoins := by
  cases f <;> decide

theorem exists_letter {f : Flag} (simple : f.simple = true) : ∃ l ∈ flagLetters, l.1 = f := by
  revert simple
  cases f <;> decide

/-- All that is heard is removed, but for the `d` of hidden joins. -/
def Removing (view : ChannelView) (rem : Flags) (told : List ToldMode) : Prop :=
  ∀ e ∈ told, e.1.1 = true → e.1.2 = 'd' ∧ leavesHidden view rem = true

theorem removing_told {chan : Channel Client} {told : List ToldMode}
    (mem : ∀ e, e ∈ told ↔ Leads view rem e ∨ ∃ slot ∈ chan.goneSlots, slot.told names = e) : Removing view rem told := by
  intro e inside plus
  rcases (mem e).mp inside with lead | ⟨slot, -, rfl⟩
  · cases lead with
    | flag => cases plus
    | gone => cases plus
    | found hidden => exact ⟨rfl, hidden⟩
  · cases plus

theorem Removing.down {told : List ToldMode} (removing : Removing view rem told) {e : ToldMode} (mem : e ∈ told)
    (other : e.1.2 ≠ 'd') : e.1.1 = false := by
  by_contra plus
  exact other (removing e mem (Bool.eq_true_of_not_eq_false plus)).1

section
variable {told : List ToldMode} (removing : Removing view rem told) (k : Known)
include removing

/-- What its letters reset is reset behind all that is heard. -/
theorem heard_field {β : Type} (field : Known → β) (z : β) (hits : Char → Prop) (not_d : ¬ hits 'd')
    (sets : ∀ (k : Known) (e : ToldMode), e.1.1 = false → hits e.1.2 → field (k.hear e) = z)
    (keeps : ∀ (k : Known) (e : ToldMode), ¬ hits e.1.2 → field (k.hear e) = field k) (named : field k ≠ z → ∃ e ∈ told, hits e.1.2) :
    field (told.foldl Known.hear k) = z := by
  obtain ⟨later, never⟩ := foldl_field Known.hear field z (fun e : ToldMode => hits e.1.2)
    (fun e mem here k => sets k e (removing.down mem fun d => not_d (d ▸ here)) here) (fun e _ silent k => keeps k e silent) k
  by_cases any : ∃ e ∈ told, hits e.1.2
  · exact later any
  · by_contra set
    rw [never fun e mem here => any ⟨e, mem, here⟩] at set
    exact any (named set)

theorem heard_nicks {letter : Char} (not_d : letter ≠ 'd') (field : Known → List (List Char))
    (hears : ∀ (k : Known) (e : ToldMode), field (k.hear e) = if e.1.2 = letter then hearNick e.1.1 e.2 (field k) else field k)
    (named : ∀ n ∈ field k, ((false, letter), some n) ∈ told) : field (told.foldl Known.hear k) = [] := by
  refine List.eq_nil_iff_forall_not_mem.mpr fun n still => ?_
  obtain ⟨later, never⟩ := foldl_field Known.hear (fun k => n ∈ field k) False (fun e => e = ((false, letter), some n))
    (fun e _ same k => by
      subst same
      simp [hears, hearNick])
    (fun e mem other k => by
      rw [hears]
      by_cases lettered : e.1.2 = letter
      · have down := removing.down mem (lettered ▸ not_d)
        have differs : some n ≠ e.2 := fun same => other (Prod.ext (Prod.ext down lettered) same.symm)
        simp [hearNick, lettered, down, differs]
      · rw [if_neg lettered]) k
  by_cases any : ∃ e ∈ told, e = ((false, letter), some n)
  · exact of_eq_false (later any) still
  · have known : n ∈ field k := (never fun e mem here => any ⟨e, mem, here⟩) ▸ still
    exact any ⟨_, named n known, rfl⟩

end

def ToldAll (names : Names Client) (chan : Channel Client) (view : ChannelView) (told : List ToldMode) : Prop :=
  ∀ e, e ∈ told ↔ Leads view chan.gone e ∨ ∃ slot ∈ chan.goneSlots, slot.told names = e

section
variable {chan : Channel Client} {told : List ToldMode} (mem : ToldAll names chan view told)
include mem

theorem ToldAll.slot {e : ToldMode} (inside : e ∈ told) (no_flag : ∀ l ∈ flagLetters ++ localLetters, l.2 ≠ e.1.2) :
    ∃ slot ∈ chan.goneSlots, slot.told names = e := by
  rcases (mem e).mp inside with lead | slots
  · exfalso
    cases lead with
    | flag listed => exact no_flag _ (List.mem_append_left _ listed) rfl
    | gone => exact no_flag (.wasDelJoins, 'd') (by decide) rfl
    | found => exact no_flag (.wasDelJoins, 'd') (by decide) rfl
  · exact slots

theorem ToldAll.hidden {e : ToldMode} (inside : e ∈ told) (d : e.1.2 = 'd') : e.1.1 = leavesHidden view chan.gone := by
  rcases (mem e).mp inside with lead | ⟨slot, -, rfl⟩
  · cases lead with
    | flag listed =>
      have never : ∀ l ∈ flagLetters, l.2 ≠ 'd' := by decide
      exact absurd d (never _ listed)
    | gone _ hidden => exact hidden.symm
    | found hidden => exact hidden.symm
  · have never (arg : ModeArg Client) : arg.letter ≠ 'd' := by
      cases arg with
      | client which => cases which <;> simp [ModeArg.letter]
      | string which => cases which <;> simp [ModeArg.letter]
      | uint => simp [ModeArg.letter]
    exact absurd d (never slot.arg)

/-- The `d` is heard as the reset leaves it, unless it was set before: then the reset keeps it and reports it gone. -/
theorem ToldAll.heard_hidden (k : Known) (same : k.flags .wasDelJoins = chan.mode.mode .wasDelJoins) :
    (told.foldl Known.hear k).flags .wasDelJoins = leavesHidden view chan.gone := by
  obtain ⟨later, never⟩ := foldl_field Known.hear (·.flags .wasDelJoins) (leavesHidden view chan.gone)
    (fun e : ToldMode => e.1.2 = 'd')
    (fun e inside d k => by
      rw [← mem.hidden inside d]
      exact if_pos (d ▸ by decide))
    (fun e _ other k => if_neg (by
      simp [flagLetters, localLetters]
      exact other)) k
  by_cases any : ∃ e ∈ told, e.1.2 = 'd'
  · exact later any
  · have silent : ∀ e ∈ told, e.1.2 ≠ 'd' := fun e inside d => any ⟨e, inside, d⟩
    rw [never silent, same]
    cases hidden : leavesHidden view chan.gone with
    | true => exact absurd rfl (silent ((true, 'd'), none) ((mem _).mpr (.inl (.found hidden))))
    | false =>
      cases set : chan.mode.mode .wasDelJoins with
      | false => rfl
      | true =>
        have gone : chan.gone .wasDelJoins = true := by simp [Channel.gone, set]
        exact absurd rfl (silent ((false, 'd'), none) ((mem _).mpr (.inl (.gone gone hidden))))

theorem ToldAll.key_told (keyed : chan.mode.key ≠ []) : ((false, 'k'), some []) ∈ told := by
  refine (mem _).mpr (.inr ⟨emptied .key, mem_goneSlots.mpr (.inl ⟨.key, ?_, rfl⟩), rfl⟩)
  simp [Channel.strings, keyed]

theorem ToldAll.sources (unkeyed : chan.mode.key = []) {e : ToldMode} {letter : Char} (inside : e ∈ told)
    (here : e.1 = (false, letter)) (no_flag : ∀ l ∈ flagLetters ++ localLetters, l.2 ≠ letter) :
    letter ∈ ['U', 'A'] ∨ ∃ m ∈ chan.members, e.2 = some (names.name m.user) ∧
      (letter = 'o' ∧ m.status.chanop = true ∨ letter = 'v' ∧ m.status.voice = true) := by
  have same : e.1.2 = letter := congrArg Prod.snd here
  obtain ⟨slot, listed, rfl⟩ := mem.slot inside fun l listed => same ▸ no_flag l listed
  rcases mem_goneSlots.mp listed with ⟨which, queued, rfl⟩ | ⟨m, member, ⟨op, rfl⟩ | ⟨voice, rfl⟩⟩
  · left
    rw [← same]
    cases which with
    | key => simp [Channel.strings, unkeyed] at queued
    | ban => simp [Channel.strings] at queued
    | upass => exact List.mem_cons_self
    | apass => exact List.mem_cons_of_mem _ List.mem_cons_self
  · exact .inr ⟨m, member, rfl, .inl ⟨same.symm, op⟩⟩
  · exact .inr ⟨m, member, rfl, .inr ⟨same.symm, voice⟩⟩

theorem ToldAll.removes (unkeyed : chan.mode.key = []) {e : ToldMode} (inside : e ∈ told) : chan.Removes names e := by
  refine ⟨fun here => ?_, fun here => ?_, fun here => ?_⟩
  · rcases mem.sources unkeyed inside here (by decide) with pass | ⟨-, -, -, ⟨o, -⟩ | ⟨v, -⟩⟩
    · exact absurd pass (by decide)
    · exact absurd o (by decide)
    · exact absurd v (by decide)
  · rcases mem.sources unkeyed inside here (by decide) with pass | ⟨m, member, nick, ⟨-, op⟩ | ⟨v, -⟩⟩
    · exact absurd pass (by decide)
    · exact ⟨m, member, op, nick⟩
    · exact absurd v (by decide)
  · rcases mem.sources unkeyed inside here (by decide) with pass | ⟨m, member, nick, ⟨o, -⟩ | ⟨-, voice⟩⟩
    · exact absurd pass (by decide)
    · exact absurd o (by decide)
    · exact ⟨m, member, voice, nick⟩

end

/-- What the members know is reset, hidden joins apart. -/
theorem ToldAll.resets {chan : Channel Client} {told : List ToldMode} (mem : ToldAll names chan view told) :
    told.foldl Known.hear (chan.known names) =
      ⟨fun f => f = .wasDelJoins && leavesHidden view chan.gone, 0, [], [], []⟩ := by
  have removing : Removing view chan.gone told := removing_told mem
  have lettered {f : Flag} (set : chan.gone f = true) (l : Flag × Char) (listed : l ∈ flagLetters) (here : l.1 = f) :
      ((false, l.2), none) ∈ told := (mem _).mpr (.inl (.flag listed (here ▸ set)))
  have member {which : MemberMode} {m : Membership Client} (seen : m ∈ chan.seen)
      (dropped : (⟨false, .client which m.user m.opLevel, false, false⟩ : Slot Client) ∈ memberSlots m) :
      ((false, (ModeArg.client which m.user m.opLevel).letter), some (names.name m.user)) ∈ told :=
    (mem _).mpr (.inr ⟨_, List.mem_append_right _ (List.mem_flatMap.mpr ⟨m, List.mem_of_mem_filter seen, dropped⟩), rfl⟩)
  refine Known.ext (funext fun f => ?_) ?_ ?_ ?_ ?_
  · by_cases was : f = .wasDelJoins
    · subst was
      have same : (chan.known names).flags .wasDelJoins = chan.mode.mode .wasDelJoins := by simp [Channel.known]
      exact (mem.heard_hidden _ same).trans (by simp)
    · refine (heard_field removing _ (·.flags f) false (fun c => (f, c) ∈ flagLetters ++ localLetters)
        (fun d => was ((lettered_d f).mp d)) (fun k e down here => (if_pos here).trans down)
        (fun k e other => if_neg other) fun set => ?_).trans (by simp [was])
      have known : chan.mode.mode f = true ∧ f.simple = true := by simpa [Channel.known, was] using set
      obtain ⟨l, listed, rfl⟩ := exists_letter known.2
      have gone : chan.gone l.1 = true := by simp [Channel.gone, known]
      exact ⟨_, lettered gone l listed rfl, List.mem_append_left _ listed⟩
  · refine heard_field removing _ (·.limit) 0 (· = 'l') (by decide)
      (fun k e down here => (if_pos here).trans (if_neg (Bool.eq_false_iff.mp down))) (fun k e other => if_neg other)
      fun limited => ?_
    have gone : chan.gone .limit = true := by
      have set : chan.mode.limit ≠ 0 := limited
      simp [Channel.gone, set]
    exact ⟨_, lettered gone (.limit, 'l') (by decide) rfl, rfl⟩
  · refine heard_field removing _ (·.key) [] (· = 'k') (by decide)
      (fun k e down here => (if_pos here).trans (if_neg (Bool.eq_false_iff.mp down))) (fun k e other => if_neg other)
      fun keyed => ⟨_, mem.key_told keyed, rfl⟩
  · refine heard_nicks removing _ (by decide : 'o' ≠ 'd') (·.ops) (fun _ _ => rfl) fun n known => ?_
    obtain ⟨m, op, rfl⟩ := List.mem_map.mp known
    obtain ⟨seen, op⟩ := List.mem_filter.mp op
    exact @member .chanop m seen (by simp [memberSlots, op])
  · refine heard_nicks removing _ (by decide : 'v' ≠ 'd') (·.voices) (fun _ _ => rfl) fun n known => ?_
    obtain ⟨m, voice, rfl⟩ := List.mem_map.mp known
    obtain ⟨seen, voice⟩ := List.mem_filter.mp voice
    exact @member .voice m seen (by simp [memberSlots, voice])

theorem wiped_known (chan : Channel Client) (creation : Int) (flags : Flags) :
    ((chan.wiped creation).setFlags flags).known names =
      ⟨fun f => flags f && (f.simple || f = .wasDelJoins), 0, [], [], []⟩ := by
  have none_left (which : Status → Bool) (dropped : ∀ m : Membership Client, which { m.status with chanop := false, voice := false } = false) :
      (((chan.wiped creation).setFlags flags).seen.filter fun m => which m.status) = [] := by
    refine List.filter_eq_nil_iff.mpr fun m seen => ?_
    obtain ⟨m, -, rfl⟩ := List.mem_map.mp (List.mem_of_mem_filter seen : m ∈ demoted chan.members)
    simp [dropped]
  exact Known.ext rfl rfl rfl (congrArg (List.map _) (none_left (·.chanop) fun _ => rfl))
    (congrArg (List.map _) (none_left (·.voice) fun _ => rfl))

/-- The local members hear of a reset what it does just when no key was set, no hidden joins were left from before and
the letters of the first pass fit. -/
theorem join_reset_reported (names : NickNames Client) (sptr : Client) (localChannel : Bool) (creation : Int)
    (chan : Channel Client) :
    (∃ w, joinReset names.toNames sptr localChannel creation chan = some w ∧ ReportsReset names.toNames chan w) ↔
      chan.mode.key = [] ∧ chan.mode.mode .wasDelJoins = false ∧
        letterCount chan.gone + min maxModeParams chan.goneArgs ≤ 19 := by
  obtain ⟨w, run, ⟨⟨told, heard, mem⟩, fits⟩, after⟩ := joinReset_run names.short sptr localChannel creation chan
  have whole : ToldAll names.toNames chan (chan.wiped creation).view told := mem
  rw [length_goneSlots] at fits
  have same : told.foldl Known.hear (chan.known names.toNames) = w.chan.known names.toNames ↔
      chan.mode.mode .wasDelJoins = false := by
    rw [after, wiped_known, whole.resets]
    constructor
    · intro same
      have here := congrFun (congrArg Known.flags same) .wasDelJoins
      cases set : chan.mode.mode .wasDelJoins with
      | false => rfl
      | true => simp [Channel.freed, Channel.wiped, leavesHidden, Channel.view, set] at here
    · intro unset
      refine Known.ext (funext fun f => ?_) rfl rfl rfl rfl
      by_cases was : f = .wasDelJoins
      · subst was
        simp [Channel.freed, Channel.wiped, unset]
      · cases f <;> simp [Channel.freed, Channel.wiped, Flag.simple] at was ⊢
  constructor
  · rintro ⟨w', found, fit, _, dealt, leads, removes⟩
    obtain rfl := Option.some.inj (run.symm.trans found)
    obtain rfl := Option.some.inj (dealt.symm.trans heard)
    refine ⟨?_, same.mp leads, fits.mp fit⟩
    by_contra keyed
    have empty : some [] = some chan.mode.key := (removes _ (whole.key_told keyed)).key rfl
    exact keyed (Option.some.inj empty).symm
  · rintro ⟨unkeyed, unset, few⟩
    exact ⟨w, run, fits.mpr few, told, heard, same.mpr unset, fun e inside => whole.removes unkeyed inside⟩

def keyedChannel : Channel Unit := ⟨0, ⟨.none, 0, ['x'], [], []⟩, [], []⟩

theorem keyed_reset_misreported : ¬ ∀ (names : NickNames Unit) (localChannel : Bool) (creation : Int) (chan : Channel Unit),
    ∃ w, joinReset names.toNames () localChannel creation chan = some w ∧ ReportsReset names.toNames chan w := by
  intro all
  let names : NickNames Unit := ⟨⟨fun _ => ['a'], fun _ => ['A', 'B']⟩, fun _ => (by decide : 1 ≤ nickLen)⟩
  obtain ⟨w, run, -, told, heard, -, removes⟩ := all names true 0 keyedChannel
  have said : (joinReset names.toNames () true 0 keyedChannel).bind (fun w => modesHeard w.passes) =
      some [((false, 'k'), some [])] := by decide
  rw [run, Option.bind_some, heard] at said
  have empty := (removes ((false, 'k'), some []) (by rw [Option.some.inj said]; exact List.mem_cons_self)).key rfl
  exact absurd empty (by decide)

end Ircd.Channels

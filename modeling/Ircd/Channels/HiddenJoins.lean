import Ircd.Channels.ModeBufRuns

/-! A channel whose modes are changed through a `ModeBuf`.

A flush looks at the channel it is about: when `D` goes and some joins are still hidden it sets
`MODE_WASDELJOINS`, when `D` comes it takes that away. So each call of a `modebuf_` function may
change the flags of the channel, and the next call finds them changed.
-/

set_option autoImplicit false

namespace Ircd.Channels

variable {Client : Type}

def findDelayedJoins (chan : Channel Client) : Bool := chan.members.any (·.status.delayed)

def Channel.view (chan : Channel Client) : ChannelView := ⟨chan.mode.mode, findDelayedJoins chan⟩

def Channel.setFlags (chan : Channel Client) (flags : Flags) : Channel Client :=
  { chan with mode := { chan.mode with mode := flags } }

@[simp] theorem Channel.setFlags_mode (chan : Channel Client) (flags : Flags) : (chan.setFlags flags).mode.mode = flags := rfl

@[simp] theorem Channel.setFlags_self (chan : Channel Client) : chan.setFlags chan.mode.mode = chan := rfl

@[simp] theorem Channel.setFlags_setFlags (chan : Channel Client) (flags flags' : Flags) :
    (chan.setFlags flags).setFlags flags' = chan.setFlags flags' := rfl

def lastView (view : ChannelView) (passes : List (Flushed Client)) : ChannelView := (passes.getLast?.map (·.view)).getD view

def settled (view : ChannelView) (mb : ModeBuf Client) : Flags := (hiddenJoins view mb).1.mode

theorem hiddenJoins_delayed (view : ChannelView) (mb : ModeBuf Client) : (hiddenJoins view mb).1.delayed = view.delayed := by
  unfold hiddenJoins
  dsimp only
  split <;> split <;> rfl

variable {mb : ModeBuf Client}

theorem settled_congr (view : ChannelView) {mb' : ModeBuf Client} (add : mb'.add .delJoins = mb.add .delJoins)
    (rem : mb'.rem .delJoins = mb.rem .delJoins) : settled view mb' = settled view mb := by
  unfold settled hiddenJoins
  rw [rem]
  dsimp only
  split
  · simp only [Flags.or_apply, Flags.only_apply, reduceCtorEq, decide_false, Bool.or_false, add]
    split <;> rfl
  · simp only [add]
    split <;> rfl

theorem settled_other (view : ChannelView) (mb : ModeBuf Client) {f : Flag} (other : f ≠ .wasDelJoins) :
    settled view mb f = view.mode f := by
  unfold settled hiddenJoins
  dsimp only
  split <;> split <;> simp [other]

theorem settled_wasDelJoins (view : ChannelView) (mb : ModeBuf Client) :
    settled view mb .wasDelJoins =
      ((view.mode .wasDelJoins || mb.rem .delJoins && !view.mode .delJoins && view.delayed) && !mb.add .delJoins) := by
  unfold settled hiddenJoins
  dsimp only
  split <;> rename_i set
  · simp only [Bool.and_eq_true, Bool.not_eq_true', Bool.or_eq_false_iff] at set
    obtain ⟨⟨rem, now, was⟩, delayed⟩ := set
    rw [rem, now, was, delayed]
    cases add : mb.add .delJoins <;> simp [add]
  · have unset : (view.mode .wasDelJoins || mb.rem .delJoins && !view.mode .delJoins && view.delayed) =
        view.mode .wasDelJoins := by
      revert set
      cases view.mode .wasDelJoins <;> cases mb.rem .delJoins <;> cases view.mode .delJoins <;>
        cases view.delayed <;> simp
    rw [unset]
    cases add : mb.add .delJoins <;> cases was : view.mode .wasDelJoins <;> simp [was]

theorem settled_plain (view : ChannelView) (add : mb.add .delJoins = false) (rem : mb.rem .delJoins = false) :
    settled view mb = view.mode := by
  funext f
  by_cases was : f = .wasDelJoins
  · rw [was, settled_wasDelJoins, add, rem]
    simp
  · exact settled_other view mb was

theorem Flags.isNone_iff (f : Flags) : f.isNone = true ↔ f = .none := by
  constructor
  · intro none_set
    funext g
    have listed : g ∈ Flag.all := by cases g <;> decide
    exact (Bool.not_eq_true' _).mp (List.all_eq_true.mp none_set g listed)
  · rintro rfl
    decide

theorem flushPass_settles (names : Names Client) (view : ChannelView) (mb : ModeBuf Client) :
    (flushPass names view mb).view = ⟨settled view mb, view.delayed⟩ ∧
      (flushPass names view mb).mbuf.add = .none ∧ (flushPass names view mb).mbuf.rem = .none := by
  unfold flushPass
  split <;> rename_i idle
  · simp only [Bool.and_eq_true, Flags.isNone_iff] at idle
    obtain ⟨⟨add, rem⟩, -⟩ := idle
    refine ⟨?_, add, rem⟩
    rw [settled_plain view (by rw [add]; rfl) (by rw [rem]; rfl)]
  · refine ⟨?_, rfl, rfl⟩
    rw [settled, ← hiddenJoins_delayed view mb]

theorem flushPass_plain (names : Names Client) (view : ChannelView) (add : mb.add = .none) (rem : mb.rem = .none) :
    (flushPass names view mb).view = view := by
  rw [(flushPass_settles names view mb).1, settled_plain view (by rw [add]; rfl) (by rw [rem]; rfl)]

theorem modebufFlushInt_plain (names : Names Client) {fuel : Nat} {view : ChannelView}
    {passes : List (Flushed Client)} (add : mb.add = .none) (rem : mb.rem = .none)
    (flushes : modebufFlushInt names fuel view mb = some passes) :
    ∀ pass ∈ passes, pass.view = view ∧ pass.mbuf.add = .none ∧ pass.mbuf.rem = .none := by
  induction fuel generalizing mb passes with
  | zero => cases flushes
  | succ fuel ih =>
    obtain ⟨-, add', rem'⟩ := flushPass_settles names view mb
    have same := flushPass_plain names view add rem
    rw [modebufFlushInt] at flushes
    split at flushes
    · obtain rfl := Option.some.inj flushes
      intro pass mem
      obtain rfl := List.mem_singleton.mp mem
      exact ⟨same, add', rem'⟩
    · obtain ⟨later, rest, rfl⟩ := Option.map_eq_some_iff.mp flushes
      intro pass mem
      rcases List.mem_cons.mp mem with rfl | mem
      · exact ⟨same, add', rem'⟩
      · rw [same] at rest
        exact ih add' rem' rest pass mem

theorem modebufFlush_settles (names : Names Client) {view : ChannelView} {mb' : ModeBuf Client}
    {passes : List (Flushed Client)} (flushes : modebufFlush names view mb = some (mb', passes)) :
    lastView view passes = ⟨settled view mb, view.delayed⟩ ∧ mb'.add = .none ∧ mb'.rem = .none := by
  obtain ⟨all, goes, same⟩ := Option.map_eq_some_iff.mp flushes
  obtain ⟨rfl, rfl⟩ := Prod.mk.inj same
  obtain ⟨first, add, rem⟩ := flushPass_settles names view mb
  rw [modebufFlushInt] at goes
  split at goes
  · obtain rfl := Option.some.inj goes
    exact ⟨first, add, rem⟩
  · obtain ⟨later, rest, rfl⟩ := Option.map_eq_some_iff.mp goes
    have behind := modebufFlushInt_plain names add rem rest
    cases ends : later.getLast? with
    | none =>
      obtain rfl := List.getLast?_eq_none_iff.mp ends
      exact ⟨first, add, rem⟩
    | some last =>
      obtain ⟨same, add', rem'⟩ := behind last (List.mem_of_getLast? ends)
      have whole : (flushPass names view mb :: later).getLast? = some last := by
        rw [List.getLast?_cons, ends]
        rfl
      rw [lastView, whole]
      exact ⟨same.trans first, add', rem'⟩

structure ModeWork (Client : Type) where
  chan : Channel Client
  mbuf : ModeBuf Client
  passes : List (Flushed Client)

/-- A call of one of the `modebuf_` functions, which may flush. -/
def ModeWork.call (names : Names Client) (w : ModeWork Client) (call : ModeCall Client) : Option (ModeWork Client) :=
  (call.run names w.chan.view w.mbuf).map fun result =>
    ⟨w.chan.setFlags (lastView w.chan.view result.2).mode, result.1, w.passes ++ result.2⟩

def ModeWork.settled (w : ModeWork Client) : Flags := Channels.settled w.chan.view w.mbuf

def ModeCall.plain : ModeCall Client → Bool
  | .mode _ _ | .flush => false
  | _ => true

theorem modebufMode_delJoins (mb : ModeBuf Client) (add : Bool) (mode : Flags) :
    (modebufMode mb add mode).add .delJoins = (if mode .delJoins then add else mb.add .delJoins) ∧
      (modebufMode mb add mode).rem .delJoins = if mode .delJoins then !add else mb.rem .delJoins := by
  unfold modebufMode
  dsimp only
  split <;> rename_i none_set
  · have unset := congrFun ((Flags.isNone_iff _).mp none_set) .delJoins
    have unset' : mode .delJoins = false := by simpa [Flag.simple] using unset
    rw [unset']
    exact ⟨rfl, rfl⟩
  · cases set : mode .delJoins <;> cases add <;> simp [Flag.simple, set]

inductive ModeWork.After (w w' : ModeWork Client) : Prop where
  | waiting (chan : w'.chan = w.chan) (add : w'.mbuf.add = w.mbuf.add)
      (rem : w'.mbuf.rem .delJoins = w.mbuf.rem .delJoins)
  | flushed (chan : w'.chan = w.chan.setFlags w.settled) (add : w'.mbuf.add = .none) (rem : w'.mbuf.rem = .none)

theorem push_after (names : Names Client) (view : ChannelView) (mb : ModeBuf Client) (slot : Slot Client) :
    lastView view (mb.push names view slot).2 = view ∧ (mb.push names view slot).1.add = mb.add ∧
        (mb.push names view slot).1.rem = mb.rem ∨
      lastView view (mb.push names view slot).2 = ⟨settled view mb, view.delayed⟩ ∧
        (mb.push names view slot).1.add = .none ∧ (mb.push names view slot).1.rem = .none := by
  let mb' : ModeBuf Client := { mb with args := mb.args.set mb.count (some slot), count := mb.count + 1 }
  by_cases full : maxModeParams - (if mb.dest.deop then 1 else 0) ≤ mb.count + 1
  · have value : mb.push names view slot = ((flushPass names view mb').mbuf, [flushPass names view mb']) := if_pos full
    have same : settled view mb' = settled view mb := settled_congr view rfl rfl
    rw [value, ← same]
    exact .inr (flushPass_settles names view mb')
  · have value : mb.push names view slot = (mb', []) := if_neg full
    rw [value]
    exact .inl ⟨rfl, rfl, rfl⟩

variable {w : ModeWork Client}

theorem ModeWork.call_plain {names : Names Client} {w' : ModeWork Client} {call : ModeCall Client}
    (plain : call.plain = true) (calls : w.call names call = some w') : w.After w' := by
  obtain ⟨result, runs, rfl⟩ := Option.map_eq_some_iff.mp calls
  have pushed (slot : Slot Client) (same : w.mbuf.push names w.chan.view slot = result) :
      w.After ⟨w.chan.setFlags (lastView w.chan.view result.2).mode, result.1, w.passes ++ result.2⟩ := by
    subst same
    rcases push_after names w.chan.view w.mbuf slot with ⟨view, add, rem⟩ | ⟨view, add, rem⟩
    · exact .waiting (by dsimp only; rw [view]; rfl) add (by dsimp only; rw [rem])
    · exact .flushed (by dsimp only; rw [view]; rfl) add rem
  cases call with
  | mode add flags => cases plain
  | flush => cases plain
  | uint add limit =>
    cases add with
    | true => exact pushed _ (Option.some.inj runs)
    | false =>
      obtain rfl := Option.some.inj runs
      exact .waiting rfl rfl (by simp [modebufModeUint])
  | string add which text free => exact pushed _ (Option.some.inj runs)
  | client add which who opLevel => exact pushed _ (Option.some.inj runs)
  | bounced deop =>
    obtain rfl := Option.some.inj runs
    exact .waiting rfl rfl rfl

theorem ModeWork.call_flush {names : Names Client} {w' : ModeWork Client} (calls : w.call names .flush = some w') :
    w'.chan = w.chan.setFlags w.settled ∧ w'.mbuf.add = .none ∧ w'.mbuf.rem = .none := by
  obtain ⟨result, runs, rfl⟩ := Option.map_eq_some_iff.mp calls
  obtain ⟨view, add, rem⟩ := modebufFlush_settles names runs
  refine ⟨?_, add, rem⟩
  dsimp only
  rw [view]
  rfl

theorem ModeWork.After.settled_eq {w' : ModeWork Client} (after : w.After w') : w'.settled = w.settled := by
  cases after with
  | waiting chan add rem =>
    unfold ModeWork.settled
    rw [chan]
    exact settled_congr _ (congrFun add _) rem
  | flushed chan add rem =>
    have plain : w'.settled = w'.chan.mode.mode := settled_plain _ (by rw [add]; rfl) (by rw [rem]; rfl)
    rw [plain, chan]
    rfl

theorem ModeWork.After.chan_eq {w' : ModeWork Client} (after : w.After w') :
    w'.chan = w.chan.setFlags w'.chan.mode.mode := by
  cases after with
  | waiting chan => rw [chan]; rfl
  | flushed chan => rw [chan]; rfl

theorem ModeWork.call_some {names : Names Client} {l : List (Slot Client)} (waiting : Waiting names w.mbuf l)
    {call : ModeCall Client} (small : call.Small names) :
    ∃ w' l', w.call names call = some w' ∧ Waiting names w'.mbuf l' := by
  obtain ⟨mb', passes, left, -, runs, waiting', -⟩ := run_delivers w.chan.view waiting small
  exact ⟨_, left, by rw [ModeWork.call, runs]; rfl, waiting'⟩

end Ircd.Channels

import Ircd.Channels.DelayedJoins

/-! `MODE_LIMIT` and the limit of a channel: one is set if and only if the other is not zero.

The parser changes both or none of them. A BURST that wipes the modes out takes the flag away and leaves the
limit, so the letters of the line have to set things right.
-/

set_option autoImplicit false

namespace Ircd.Channels
open Ircd.Text

variable {Client : Type}

def Channel.limits (chan : Channel Client) : Bool × Nat := (chan.mode.mode .limit, chan.mode.limit)

def Channel.Agrees (chan : Channel Client) : Prop := chan.mode.mode .limit = true ↔ chan.mode.limit ≠ 0

theorem Channel.Agrees.of_limits {chan chan' : Channel Client} (agrees : chan.Agrees)
    (same : chan'.limits = chan.limits) : chan'.Agrees := by
  obtain ⟨flag, limit⟩ := Prod.mk.inj same
  rw [Channel.Agrees, flag, limit]
  exact agrees

section
variable {w w' : ModeWork Client}

theorem setFlags_limits (chan : Channel Client) {flags : Flags} (same : flags .limit = chan.mode.mode .limit) :
    (chan.setFlags flags).limits = chan.limits :=
  congrArg (fun flag => (flag, chan.mode.limit)) same

theorem ModeWork.settled_limits (w : ModeWork Client) : (w.chan.setFlags w.settled).limits = w.chan.limits :=
  setFlags_limits w.chan (settled_other _ _ (by decide))

theorem ModeWork.After.limits (after : w.After w') : w'.chan.limits = w.chan.limits := by
  cases after with
  | waiting chan add rem => rw [chan]
  | flushed chan add rem => rw [chan, ModeWork.settled_limits]

theorem flush_limits {names : Names Client} (calls : w.call names .flush = some w') :
    w'.chan.limits = w.chan.limits := by
  rw [(ModeWork.call_flush calls).1, ModeWork.settled_limits]

variable (names : Names Client) (w : ModeWork Client)

@[simp] theorem uint_limits (add : Bool) (limit : Nat) : (w.uint names add limit).chan.limits = w.chan.limits :=
  (@ModeWork.call_plain _ w names _ (.uint add limit) rfl rfl).limits

@[simp] theorem string_limits (add : Bool) (which : StringMode) (text : List Char) (free : Bool) :
    (w.string names add which text free).chan.limits = w.chan.limits :=
  (@ModeWork.call_plain _ w names _ (.string add which text free) rfl rfl).limits

@[simp] theorem client_limits (add : Bool) (which : MemberMode) (who : Client) (opLevel : Nat) :
    (w.client names add which who opLevel).chan.limits = w.chan.limits :=
  (@ModeWork.call_plain _ w names _ (.client add which who opLevel) rfl rfl).limits

theorem foldl_limits {α β : Type} {chan : β → Channel Client} {f : β → α → β}
    (step : ∀ s a, (chan (f s a)).limits = (chan s).limits) (l : List α) (s : β) :
    (chan (l.foldl f s)).limits = (chan s).limits := by
  induction l generalizing s with
  | nil => rfl
  | cons a l ih => exact (ih _).trans (step s a)

end

structure ModeState.Spares (st st' : ModeState Client) : Prop where
  limits : st'.chan.limits = st.chan.limits
  done : st'.done.limit = st.done.limit
  add : st'.add .limit = st.add .limit
  del : st'.del .limit = st.del .limit

section
variable {site : ModeSite Client} {source : ModeSource Client} {flags : SourceFlags}
  {st st' st'' : ModeState Client}

theorem ModeState.Spares.refl (st : ModeState Client) : st.Spares st := ⟨rfl, rfl, rfl, rfl⟩

theorem ModeState.Spares.optional (spares : st.Spares st') (allowed : Bool) :
    st.Spares (if allowed then st' else st) := by
  cases allowed with
  | true => exact spares
  | false => exact .refl st

theorem parseString_spares {which : StringMode} {old : Mode → List Char}
    {permitted : ModeState Client → List Char → Bool} {allow : Done → Dir → Option Done}
    {refused : ParseState Client → List Char → Bool} {apply : ParseState Client → List Char → ParseState Client}
    (allows : ∀ done dir, ∀ done' ∈ allow done dir, done'.limit = done.limit)
    (applies : ∀ p arg, (apply p arg).chan.limits = p.chan.limits ∧ (apply p arg).done = p.done ∧
      (apply p arg).add = p.add ∧ (apply p arg).del = p.del) :
    st.Spares (st.parseString site source flags which old permitted allow refused apply) := by
  unfold ModeState.parseString
  split
  · exact .refl st
  cases st.args with
  | nil => exact .refl st
  | cons arg rest =>
    dsimp only
    split
    · exact ⟨rfl, rfl, rfl, rfl⟩
    split
    · exact ⟨rfl, rfl, rfl, rfl⟩
    next done allowed =>
    have marked : st.Spares { st with args := rest, maxArgs := st.maxArgs - 1, done := done } :=
      ⟨rfl, allows _ _ done allowed, rfl, rfl⟩
    split
    · exact marked
    generalize pushed : (if flags.bounce then
      if old st.chan.mode ≠ [] then _ else _
      else _ : ModeWork Client) = w
    have limits : w.chan.limits = st.chan.limits := by
      rw [← pushed]
      split
      · split
        · exact string_limits ..
        · exact string_limits ..
      · exact string_limits ..
    split
    · obtain ⟨same, same_done, add, del⟩ := applies ({ st with
        args := rest, maxArgs := st.maxArgs - 1, done := done }.setWork w).toParseState arg
      exact ⟨same.trans limits, (congrArg (·.limit) same_done).trans marked.done, congrFun add _, congrFun del _⟩
    · exact ⟨limits, marked.done, rfl, rfl⟩

theorem parseKey_spares : st.Spares (st.parseKey site source flags) := by
  refine parseString_spares (fun done dir done' allowed => ?_) fun p arg => ?_
  · obtain ⟨_, _, rfl⟩ := Option.map_eq_some_iff.mp allowed
    rfl
  · unfold applyKey
    split <;> exact ⟨rfl, rfl, rfl, rfl⟩

theorem parseUpass_spares : st.Spares (st.parseUpass site source flags) := by
  refine parseString_spares (fun done dir done' allowed => ?_) fun p arg => ?_
  · obtain ⟨_, _, rfl⟩ := Option.map_eq_some_iff.mp allowed
    rfl
  · unfold applyUpass
    split <;> exact ⟨rfl, rfl, rfl, rfl⟩

theorem parseApass_spares [DecidableEq Client] : st.Spares (st.parseApass site source flags) := by
  refine parseString_spares (fun done dir done' allowed => ?_) fun p arg => ?_
  · obtain ⟨_, _, rfl⟩ := Option.map_eq_some_iff.mp allowed
    rfl
  · have applied : (applyApass flags.toParseFlags p arg).chan.limits = p.chan.limits ∧
        (applyApass flags.toParseFlags p arg).done = p.done ∧ (applyApass flags.toParseFlags p arg).add = p.add ∧
        (applyApass flags.toParseFlags p arg).del = p.del := by
      unfold applyApass
      split
      · split <;> exact ⟨rfl, rfl, rfl, rfl⟩
      · exact ⟨rfl, rfl, rfl, rfl⟩
    unfold setManager
    split
    · exact applied
    · exact applied

theorem parseBan_spares : st.Spares (st.parseBan site source flags) := by
  unfold ModeState.parseBan
  cases st.args with
  | nil => exact .refl st
  | cons arg rest =>
    dsimp only
    split
    · exact .refl st
    split
    · exact ⟨rfl, rfl, rfl, rfl⟩
    · exact ⟨rfl, rfl, rfl, rfl⟩

theorem parseClient_spares [DecidableEq Client] (mode : MemberMode) :
    st.Spares (st.parseClient site source flags mode) := by
  unfold ModeState.parseClient
  split
  · exact .refl st
  cases st.args with
  | nil => exact .refl st
  | cons arg rest =>
    dsimp only
    split
    · exact ⟨rfl, rfl, rfl, rfl⟩
    split
    · exact ⟨rfl, rfl, rfl, rfl⟩
    · exact ⟨rfl, rfl, rfl, rfl⟩

theorem modeParseMode_spares {f : Flag} (simple : f ≠ .limit) :
    st.Spares { st with toParseState := modeParseMode flags.toParseFlags f st.toParseState } := by
  unfold modeParseMode
  have apart : f.excludes .limit = false := by cases f <;> rfl
  split
  · exact .refl st
  split
  · exact ⟨rfl, rfl, by simp [apart, simple.symm], by simp [apart, simple.symm]⟩
  · exact ⟨rfl, rfl, by simp [simple.symm], by simp [simple.symm]⟩

theorem simpleFlag_limit {c : Char} {f : Flag} (flag : simpleFlag c = some f) : f ≠ .limit := by
  unfold simpleFlag at flag
  split at flag <;> first | (obtain rfl := Option.some.inj flag; decide) | cases flag

theorem letter_spares [DecidableEq Client] (st : ModeState Client) {c : Char} (other : c ≠ 'l') :
    st.Spares (st.letter site source flags c) := by
  have flag {f : Flag} (simple : f ≠ .limit) : st.Spares (if flags.outsider then st
      else { st with toParseState := modeParseMode flags.toParseFlags f st.toParseState }) := by
    split
    · exact .refl st
    · exact modeParseMode_spares simple
  by_cases special : c ∈ specialLetters
  · simp only [specialLetters, List.mem_cons, List.not_mem_nil, or_false] at special
    rcases special with rfl | rfl | rfl | rfl | rfl | rfl | rfl | rfl | rfl
    · exact ⟨rfl, rfl, rfl, rfl⟩
    · exact ⟨rfl, rfl, rfl, rfl⟩
    · exact absurd rfl other
    · exact parseKey_spares
    · exact parseApass_spares.optional _
    · exact parseUpass_spares.optional _
    · exact parseBan_spares
    · exact parseClient_spares .chanop
    · exact parseClient_spares .voice
  · simp only [specialLetters, List.mem_cons, List.not_mem_nil, or_false, not_or] at special
    obtain ⟨plus, minus, limit, key, apass, upass, ban, op, voice⟩ := special
    unfold ModeState.letter
    dsimp only
    rw [if_neg plus, if_neg minus, if_neg limit, if_neg key, if_neg apass, if_neg upass]
    split
    · exact (flag (by decide)).optional _
    split
    · exact (flag (by decide)).optional _
    split
    next f known => exact flag (simpleFlag_limit known)
    · exact .refl st

structure ModeState.Limited (st : ModeState Client) : Prop where
  agrees : st.chan.Agrees
  add : st.add .limit = false
  del : st.del .limit = false

theorem ModeState.Spares.limited (spares : st.Spares st') (limited : st.Limited) : st'.Limited :=
  ⟨limited.agrees.of_limits spares.limits, spares.add.trans limited.add, spares.del.trans limited.del⟩

theorem limitValue_limited {tLimit : Nat} (some_limit : st.dir = .add → tLimit ≠ 0) (limited : st.Limited) :
    (st.limitValue site flags tLimit).Limited := by
  unfold ModeState.limitValue
  split
  · exact limited
  split
  · exact limited
  split
  · exact limited
  split
  · exact limited
  have done : ({ st with done := { st.done with limit := true } } : ModeState Client).Limited :=
    ⟨limited.agrees, limited.add, limited.del⟩
  dsimp only
  split
  · exact done
  split
  · exact ⟨done.agrees.of_limits (uint_limits site.names _ _ _), limited.add, limited.del⟩
  split
  next adding => exact ⟨iff_of_true (by simp) (some_limit adding), limited.add, limited.del⟩
  · exact ⟨iff_of_false (by simp) (fun some => some rfl), limited.add, limited.del⟩

theorem parseLimit_limited (kept : flags.wipeout = false) (limited : st.Limited) :
    (st.parseLimit site source flags).Limited := by
  obtain ⟨⟨chan, args, dir, done, add, del, changes⟩, mbuf, passes, maxArgs⟩ := st
  unfold ModeState.parseLimit
  cases dir with
  | del => exact limitValue_limited nofun limited
  | add =>
    dsimp only
    split
    · exact limited
    cases args with
    | nil => exact limited
    | cons arg rest =>
      have taken : ModeState.Limited ⟨⟨chan, rest, .add, done, add, del, changes⟩, mbuf, passes, maxArgs - 1⟩ :=
        ⟨limited.agrees, limited.add, limited.del⟩
      dsimp only
      split
      · exact taken
      split
      · exact taken
      next useful =>
        refine limitValue_limited (fun _ zero => useful ?_) taken
        rw [kept, zero]
        rfl

theorem line_limited [DecidableEq Client] (kept : flags.wipeout = false) (limited : st.Limited)
    (modestr : List Char) : (modestr.foldl (ModeState.letter site source flags) st).Limited := by
  induction modestr generalizing st with
  | nil => exact limited
  | cons c modestr ih =>
    refine ih ?_
    by_cases limit : c = 'l'
    · subst limit
      exact parseLimit_limited kept limited
    · exact (letter_spares st limit).limited limited

theorem strings_limited [DecidableEq Client] (kept : flags.wipeout = false) (limited : st.Limited) (fuel : Nat)
    (modestr : List Char) :
    (st.strings site source fuel flags modestr).1.Limited ∧
      (st.strings site source fuel flags modestr).2.1.wipeout = false := by
  induction fuel generalizing st modestr with
  | zero => exact ⟨limited, kept⟩
  | succ fuel ih =>
    rw [ModeState.strings]
    split
    · exact ⟨limited, kept⟩
    have line := @line_limited _ site source flags st _ kept limited modestr
    generalize modestr.foldl (ModeState.letter site source flags) st = st₁ at line
    dsimp only
    split
    · exact ⟨line, kept⟩
    split
    · exact ⟨line, kept⟩
    next arg rest _ =>
      have stamped (chan : Channel Client) (same : chan.limits = st₁.chan.limits) (mbuf : ModeBuf Client) :
          ({ st₁ with args := rest, chan := chan, mbuf := mbuf } : ModeState Client).Limited :=
        ⟨line.agrees.of_limits same, line.add, line.del⟩
      split
      · split
        · exact ⟨stamped st₁.chan rfl st₁.mbuf, kept⟩
        split
        · exact ⟨stamped { st₁.chan with creationTime := atoi arg } rfl st₁.mbuf, kept⟩
        split
        · split
          · exact ⟨stamped st₁.chan rfl { st₁.mbuf with add := .none, rem := .none, count := 0 }, kept⟩
          · exact ⟨stamped st₁.chan rfl (st₁.mbuf.bounced (!source.server)), kept⟩
        · exact ⟨stamped st₁.chan rfl st₁.mbuf, kept⟩
      split
      · exact ⟨line, kept⟩
      · exact ih (stamped st₁.chan rfl st₁.mbuf) arg

theorem simple_limits (add : st.add .limit = false) (del : st.del .limit = false) :
    (st.simple flags).chan.limits = st.chan.limits := by
  unfold ModeState.simple
  dsimp only
  split
  · refine setFlags_limits _ ?_
    change (st.chan.mode.mode .limit && !st.del .limit || st.add .limit) = st.chan.mode.mode .limit
    rw [add, del, Bool.or_false, Bool.not_false, Bool.and_true]
  · rfl

theorem limits_optional (b : Bool) {w w' : ModeWork Client} (same : w'.chan.limits = w.chan.limits) :
    (if b then w' else w).chan.limits = w.chan.limits := by
  cases b with
  | true => exact same
  | false => rfl

theorem wipeout_limits (site : ModeSite Client) (st : ModeState Client) :
    (st.wipeout site).chan.limits = st.chan.limits := by
  unfold ModeState.wipeout
  exact (limits_optional _ (string_limits ..)).trans <| (limits_optional _ (string_limits ..)).trans <|
    (limits_optional _ (string_limits ..)).trans (limits_optional _ (uint_limits ..))

theorem banTurn_limits (site : ModeSite Client) (source : ModeSource Client) (flags : SourceFlags)
    (s : BanWalk Client) (ban : Ban) : (s.turn site source flags ban).work.chan.limits = s.work.chan.limits := by
  unfold BanWalk.turn
  dsimp only
  split
  · rfl
  split
  · split <;> exact string_limits ..
  split
  · split
    · rfl
    split
    · rfl
    · exact string_limits ..
  · rfl

theorem processBans_limits (site : ModeSite Client) (source : ModeSource Client) (flags : SourceFlags)
    (st : ModeState Client) : (st.processBans site source flags).chan.limits = st.chan.limits :=
  @foldl_limits _ _ _ (fun s : BanWalk Client => s.work.chan) _ (banTurn_limits site source flags)
    st.chan.banlist ⟨st.work, [], [], 0, 0⟩

theorem checkDelayedJoins_limits (chan : Channel Client) : (checkDelayedJoins chan).limits = chan.limits := by
  unfold checkDelayedJoins
  split
  · rfl
  · exact setFlags_limits chan (by simp)

theorem effect_limits [DecidableEq Client] (chan : Channel Client) (change : CliChange Client)
    (member : Membership Client) : (effect chan change member).limits = chan.limits := by
  unfold effect
  cases change.dir with
  | add =>
    dsimp only
    split
    · exact checkDelayedJoins_limits _
    · rfl
  | del => rfl

theorem processClient_limits [DecidableEq Client] (site : ModeSite Client) (source : ModeSource Client)
    (flags : SourceFlags) (st : ModeState Client) (change : CliChange Client) :
    (st.processClient site source flags change).chan.limits = st.chan.limits := by
  unfold ModeState.processClient
  split
  · rfl
  next member found =>
  split
  · rfl
  split
  · rfl
  split
  · rfl
  dsimp only
  refine (client_limits ..).trans ?_
  have levelled : (if change.dir = .add ∧ change.mode = .chanop then
      st.chan.mapMember change.client fun m => { m with opLevel := opLevelFor source st change }
      else st.chan).limits = st.chan.limits := by
    split <;> rfl
  split
  · exact (effect_limits ..).trans levelled
  · exact levelled

theorem finish_limits [DecidableEq Client] (site : ModeSite Client) (source : ModeSource Client)
    (flags : SourceFlags) (add : st.add .limit = false) (del : st.del .limit = false) :
    (st.finish site source flags).chan.limits = st.chan.limits := by
  have wiped (st : ModeState Client) :
      (if flags.wipeout then st.wipeout site else st).chan.limits = st.chan.limits := by
    split
    · exact wipeout_limits site st
    · rfl
  have banned (st : ModeState Client) :
      (if st.done.banClean then st.processBans site source flags else st).chan.limits = st.chan.limits := by
    split
    · exact processBans_limits site source flags st
    · rfl
  unfold ModeState.finish
  split
  · rfl
  · have processed := @foldl_limits _ _ _ (fun st : ModeState Client => st.chan) _
      (processClient_limits site source flags)
    exact (processed _ _).trans <| (banned _).trans <| (wiped _).trans (@simple_limits _ flags st add del)

theorem start_limited {work : ModeWork Client} (agrees : work.chan.Agrees) (args : List (List Char)) :
    (ModeState.start work args).Limited := ⟨agrees, rfl, rfl⟩

theorem parseModes_agrees [DecidableEq Client] (kept : flags.wipeout = false) {work : ModeWork Client}
    (agrees : work.chan.Agrees) (modestr : List Char) (args : List (List Char)) :
    (parseModes site source flags work modestr args).1.chan.Agrees := by
  obtain ⟨limited, -⟩ := @strings_limited _ site source flags _ _ kept (start_limited agrees args)
    (args.length + 1) modestr
  generalize result : (ModeState.start work args).strings site source (args.length + 1) flags modestr = r at limited
  rw [parseModes_of result]
  split
  · exact limited.agrees
  · exact limited.agrees.of_limits (finish_limits site source _ limited.add limited.del)

theorem modeMessage_agrees [DecidableEq Client] {chan : Channel Client} (agrees : chan.Agrees)
    (handler : ModeHandler) (dest : Dest) {modestr : List Char} {args : List (List Char)} {w : ModeWork Client}
    (message : modeMessage site handler source dest chan modestr args = some w) : w.chan.Agrees := by
  have kept : handler.flags.wipeout = false := by cases handler <;> rfl
  unfold modeMessage at message
  dsimp only at message
  have parsed := @parseModes_agrees _ site { source with server := handler.fromServer } handler.flags _ kept
    ⟨chan, modebufInit source.sptr site.localChannel dest, []⟩ agrees modestr args
  split at message
  · exact parsed.of_limits (flush_limits message)
  · obtain rfl := Option.some.inj message
    exact parsed

end

inductive LimitChange where
  | unset
  | set (limit : Nat)
  deriving DecidableEq, Repr

def LimitChange.result : LimitChange → Bool × Nat
  | .unset => (false, 0)
  | .set limit => (true, limit)

def LimitChange.taken (limits : Bool × Nat) : LimitChange → Bool
  | .unset => limits.2 ≠ 0
  | .set limit => !(limits.1 && limits.2 < limit)

/-- A number that is negative as an `int` asks for nothing, nor does `+l` without one. -/
def limitChange (item : Item) : Option LimitChange :=
  if item.letter ≠ 'l' then none
  else
    match item.dir with
    | .del => some .unset
    | .add =>
      item.arg.bind fun arg =>
        let tLimit := strtoul arg % 2 ^ 32
        if asInt tLimit < 0 then none else some (.set tLimit)

def changedLimits (limits : Bool × Nat) (changes : List LimitChange) : Bool × Nat :=
  ((changes.find? (LimitChange.taken limits)).map LimitChange.result).getD limits

def ModeState.limitState (st : ModeState Client) : (Bool × Nat) × Bool := (st.chan.limits, st.done.limit)

def limitStep (s : (Bool × Nat) × Bool) (change : Option LimitChange) : (Bool × Nat) × Bool :=
  match change with
  | some change => if !s.2 && change.taken s.1 then (change.result, true) else s
  | none => s

theorem limitSteps_done (changes : List (Option LimitChange)) (limits : Bool × Nat) :
    changes.foldl limitStep (limits, true) = (limits, true) := by
  induction changes with
  | nil => rfl
  | cons change changes ih => cases change <;> exact ih

theorem limitSteps_eq (items : List Item) (limits : Bool × Nat) :
    ((items.map limitChange).foldl limitStep (limits, false)).1 =
      changedLimits limits (items.filterMap limitChange) := by
  induction items with
  | nil => rfl
  | cons item items ih =>
    rw [List.map_cons, List.foldl_cons, List.filterMap_cons]
    cases asked : limitChange item with
    | none => exact ih
    | some change =>
      rw [limitStep]
      by_cases taken : change.taken limits = true
      · rw [if_pos (by rw [taken]; rfl), limitSteps_done, changedLimits,
          List.find?_cons_of_pos taken]
        rfl
      · rw [if_neg (by simpa using taken), ih, changedLimits, changedLimits, List.find?_cons_of_neg taken]

section
variable {site : ModeSite Client} {source : ModeSource Client} {st : ModeState Client}

def Dir.limitChange (dir : Dir) (tLimit : Nat) : LimitChange :=
  match dir with
  | .add => .set tLimit
  | .del => .unset

theorem limitValue_wipes {tLimit : Nat} (own : st.dir = .del → tLimit = st.chan.mode.limit) :
    (st.limitValue site (burstSourceFlags true true) tLimit).limitState =
      limitStep st.limitState (some (st.dir.limitChange tLimit)) := by
  have allowed : (burstSourceFlags true true).outsider = false ∧ (burstSourceFlags true true).burst = true ∧
      (burstSourceFlags true true).mbuf = true ∧ (burstSourceFlags true true).set = true := ⟨rfl, rfl, rfl, rfl⟩
  obtain ⟨inside, burst, mbuf, set⟩ := allowed
  unfold ModeState.limitValue
  rw [inside, burst, mbuf, set]
  cases noted : st.done.limit with
  | true =>
    have same : limitStep st.limitState (some (st.dir.limitChange tLimit)) = st.limitState := by
      simp [limitStep, ModeState.limitState, noted]
    rw [same]
    simp
  | false =>
    have first : st.limitState = (st.chan.limits, false) := congrArg (Prod.mk _) noted
    obtain ⟨⟨chan, args, dir, done, add, del, changes⟩, buffer, passes, maxArgs⟩ := st
    cases dir with
    | add =>
      by_cases smaller : chan.mode.mode .limit = true ∧ chan.mode.limit < tLimit
      · simp [first, limitStep, Dir.limitChange, LimitChange.taken, Channel.limits, smaller]
      · have taken : LimitChange.taken chan.limits (.set tLimit) = true := by
          rw [LimitChange.taken, Bool.not_eq_true']
          exact Bool.eq_false_of_not_eq_true fun both =>
            smaller ((Bool.and_eq_true_iff.mp both).imp_right of_decide_eq_true)
        have step : limitStep (chan.limits, false) (some (.set tLimit)) = ((true, tLimit), true) := by
          rw [limitStep, taken]
          rfl
        rw [first, Dir.limitChange, step, if_neg Bool.false_ne_true, if_neg (fun both => nomatch both.1),
          if_neg (fun both => smaller both.2), if_neg Bool.false_ne_true]
        simp [ModeState.limitState, Channel.limits, ModeState.setWork]
    | del =>
      obtain rfl := own rfl
      by_cases none : chan.mode.limit = 0
      · simp [first, limitStep, Dir.limitChange, LimitChange.taken, Channel.limits, none]
      · have taken : LimitChange.taken chan.limits .unset = true := decide_eq_true none
        have step : limitStep (chan.limits, false) (some .unset) = ((false, 0), true) := by
          rw [limitStep, taken]
          rfl
        rw [first, Dir.limitChange, step, if_neg Bool.false_ne_true, if_neg (fun both => none both.2),
          if_neg (fun both => Nat.lt_irrefl _ both.2.2), if_neg Bool.false_ne_true]
        simp [ModeState.limitState, Channel.limits, ModeState.setWork]

/-- `l` is read as any other letter with a parameter, and taken if it is the first to be. -/
theorem parseLimit_wipes (remote : source.server = true) :
    (st.parseLimit site source (burstSourceFlags true true)).limitState =
      limitStep st.limitState
        (limitChange ⟨st.dir, 'l', if takesArg st.dir 'l' then st.args.head? else none⟩) := by
  obtain ⟨⟨chan, args, dir, done, add, del, changes⟩, buffer, passes, maxArgs⟩ := st
  unfold ModeState.parseLimit
  cases dir with
  | del => exact limitValue_wipes fun _ => rfl
  | add =>
    dsimp only
    rw [tooMany_server remote, if_neg Bool.false_ne_true]
    cases args with
    | nil => rfl
    | cons arg rest =>
      dsimp only
      have asked : limitChange ⟨.add, 'l', if takesArg .add 'l' then (arg :: rest).head? else none⟩ =
          if asInt (strtoul arg % 2 ^ 32) < 0 then none else some (.set (strtoul arg % 2 ^ 32)) := rfl
      rw [asked]
      split
      · rfl
      · exact limitValue_wipes nofun

theorem letter_wipes [DecidableEq Client] (remote : source.server = true) (st : ModeState Client) (c : Char) :
    (st.letter site source (burstSourceFlags true true) c).limitState =
      limitStep st.limitState (limitChange ⟨st.dir, c, if takesArg st.dir c then st.args.head? else none⟩) := by
  by_cases limit : c = 'l'
  · subst limit
    exact parseLimit_wipes remote
  · have spares := @letter_spares _ site source (burstSourceFlags true true) _ st c limit
    rw [limitChange, if_pos limit]
    exact Prod.ext spares.limits spares.done

theorem line_wipes [DecidableEq Client] (remote : source.server = true) (st : ModeState Client)
    (modestr : List Char) :
    (modestr.foldl (ModeState.letter site source (burstSourceFlags true true)) st).limitState =
      ((lineItems st.dir st.args modestr).map limitChange).foldl limitStep st.limitState := by
  induction modestr generalizing st with
  | nil => rfl
  | cons c modestr ih =>
    obtain ⟨-, dir, args, -⟩ := letter_spec site source (burstSourceFlags true true) st c
    rw [List.foldl_cons, ih, letter_wipes remote, dir, args remote]
    rfl

theorem processClient_args [DecidableEq Client] (source : ModeSource Client) (flags : SourceFlags)
    (st : ModeState Client) (change : CliChange Client) :
    (st.processClient site source flags change).args = st.args := by
  unfold ModeState.processClient
  split
  · rfl
  split
  · rfl
  split
  · rfl
  split
  · rfl
  · rfl

theorem finish_args [DecidableEq Client] (source : ModeSource Client) (flags : SourceFlags)
    (st : ModeState Client) : (st.finish site source flags).args = st.args := by
  have simple : (st.simple flags).args = st.args := by
    unfold ModeState.simple
    dsimp only
    split <;> rfl
  have wiped (st : ModeState Client) : (if flags.wipeout then st.wipeout site else st).args = st.args := by
    split <;> rfl
  have banned (st : ModeState Client) :
      (if st.done.banClean then st.processBans site source flags else st).args = st.args := by split <;> rfl
  have processed (changes : List (CliChange Client)) (st : ModeState Client) :
      (changes.foldl (ModeState.processClient site source flags) st).args = st.args := by
    induction changes generalizing st with
    | nil => rfl
    | cons change changes ih => exact (ih _).trans (processClient_args source flags st change)
  unfold ModeState.finish
  split
  · rfl
  · exact (processed _ _).trans <| (banned _).trans <| (wiped _).trans simple

theorem line_unasked [DecidableEq Client] (flags : SourceFlags) (st : ModeState Client) (modestr : List Char)
    (add : st.add .limit = false) (del : st.del .limit = false) :
    (modestr.foldl (ModeState.letter site source flags) st).add .limit = false ∧
      (modestr.foldl (ModeState.letter site source flags) st).del .limit = false := by
  induction modestr generalizing st with
  | nil => exact ⟨add, del⟩
  | cons c modestr ih =>
    rw [List.foldl_cons]
    by_cases limit : c = 'l'
    · subst limit
      have reads := @parseLimit_reads _ site source flags st
      exact ih _ ((congrFun reads.add _).trans add) ((congrFun reads.del _).trans del)
    · have spares := @letter_spares _ site source flags _ st c limit
      exact ih _ (spares.add.trans add) (spares.del.trans del)

theorem parseModes_wipes [DecidableEq Client] (remote : source.server = true) (work : ModeWork Client)
    {modestr : List Char} (some_letter : modestr ≠ []) (args : List (List Char)) :
    (parseModes site source (burstSourceFlags true true) work modestr args).1.chan.limits =
        changedLimits work.chan.limits ((lineItems .add args modestr).filterMap limitChange) ∧
      (parseModes site source (burstSourceFlags true true) work modestr args).1.args = lineRest .add args modestr := by
  have line := @line_wipes _ site source _ remote (ModeState.start work args) modestr
  have unasked := @line_unasked _ site source _ (burstSourceFlags true true) (ModeState.start work args) modestr
    rfl rfl
  have rest := (line_spec site source (burstSourceFlags true true) (ModeState.start work args) modestr).args remote
  have strings : (ModeState.start work args).strings site source (args.length + 1) (burstSourceFlags true true)
      modestr =
      (modestr.foldl (ModeState.letter site source (burstSourceFlags true true)) (ModeState.start work args),
        burstSourceFlags true true, .applied) := by
    rw [ModeState.strings, if_neg some_letter]
    rfl
  have heeded : Verdict.applied ≠ Verdict.ignored := by decide
  rw [parseModes_of strings, if_neg heeded, finish_args, finish_limits site source _ unasked.1 unasked.2]
  refine ⟨?_, rest⟩
  exact (congrArg Prod.fst line).trans (limitSteps_eq _ _)

def burstChanges : Nat → List (List Char) → List (List LimitChange)
  | 0, _ => []
  | _, [] => []
  | fuel + 1, param :: rest =>
    if peek param = '+' then
      (lineItems .add rest param).filterMap limitChange :: burstChanges fuel (lineRest .add rest param)
    else burstChanges fuel rest

/-- Each string takes one change at most, on the limits that the strings before it have left. -/
theorem burstWork_wipes [DecidableEq Client] (remote : source.server = true) (fuel : Nat) (w : ModeWork Client)
    (params : List (List Char)) :
    (burstWork site source true true fuel w params).chan.limits =
      (burstChanges fuel params).foldl changedLimits w.chan.limits := by
  induction fuel generalizing w params with
  | zero => cases params <;> rfl
  | succ fuel ih =>
    cases params with
    | nil => rfl
    | cons param rest =>
      rw [burstWork, burstChanges]
      split
      next sign =>
        have some_letter : param ≠ [] := by
          rintro rfl
          exact absurd sign (by decide)
        obtain ⟨limits, args⟩ := @parseModes_wipes _ site source _ remote w param some_letter rest
        rw [List.foldl_cons, ← limits, ← args]
        exact ih _ _
      · split
        · exact ih _ _
        · exact ih _ _

theorem burstWork_agrees [DecidableEq Client] (set : Bool) (fuel : Nat) {w : ModeWork Client}
    (agrees : w.chan.Agrees) (params : List (List Char)) :
    (burstWork site source set false fuel w params).chan.Agrees := by
  induction fuel generalizing w params with
  | zero => cases params <;> exact agrees
  | succ fuel ih =>
    cases params with
    | nil => exact agrees
    | cons param rest =>
      rw [burstWork]
      split
      · exact ih (parseModes_agrees rfl agrees param rest) _
      · dsimp only
        split
        · refine ih ?_ rest
          exact agrees
        · refine ih ?_ rest
          exact agrees

end

def Mends : Bool × Nat → List (List LimitChange) → Prop
  | limits, [] => limits.1 = true ∨ limits.2 = 0
  | limits, changes :: later =>
    changes.find? (LimitChange.taken limits) ≠ some (.set 0) ∧ Mends (changedLimits limits changes) later

/-- A zero that is taken stays: no number is smaller, and there is nothing to take away. -/
theorem zero_stays (strings : List (List LimitChange)) : strings.foldl changedLimits (true, 0) = (true, 0) := by
  induction strings with
  | nil => rfl
  | cons changes strings ih =>
    have same : changedLimits (true, 0) changes = (true, 0) := by
      unfold changedLimits
      cases found : changes.find? (LimitChange.taken (true, 0)) with
      | none => rfl
      | some change =>
        have taken := List.find?_some found
        cases change with
        | unset => exact absurd taken (by decide)
        | set limit =>
          have zero : limit = 0 := by simpa [LimitChange.taken] using taken
          rw [zero]
          rfl
    rw [List.foldl_cons, same, ih]

theorem changedLimits_told {limits : Bool × Nat} (told : limits.1 = true → limits.2 ≠ 0)
    {changes : List LimitChange} (nonzero : changes.find? (LimitChange.taken limits) ≠ some (.set 0)) :
    (changedLimits limits changes).1 = true → (changedLimits limits changes).2 ≠ 0 := by
  unfold changedLimits
  cases found : changes.find? (LimitChange.taken limits) with
  | none => exact told
  | some change =>
    cases change with
    | unset => exact nofun
    | set limit =>
      intro _ zero
      obtain rfl : limit = 0 := zero
      exact nonzero found

theorem mends_iff {limits : Bool × Nat} (told : limits.1 = true → limits.2 ≠ 0)
    (strings : List (List LimitChange)) :
    ((strings.foldl changedLimits limits).1 = true ↔ (strings.foldl changedLimits limits).2 ≠ 0) ↔
      Mends limits strings := by
  induction strings generalizing limits with
  | nil =>
    rw [Mends, List.foldl_nil]
    constructor
    · intro agrees
      by_cases zero : limits.2 = 0
      · exact .inr zero
      · exact .inl (agrees.mpr zero)
    · rintro (flag | zero)
      · exact iff_of_true flag (told flag)
      · exact iff_of_false (fun flag => told flag zero) (fun some => some zero)
  | cons changes later ih =>
    rw [Mends, List.foldl_cons]
    by_cases zero : changes.find? (LimitChange.taken limits) = some (.set 0)
    · have stuck : changedLimits limits changes = (true, 0) := by
        rw [changedLimits, zero]
        rfl
      rw [stuck, zero_stays]
      exact iff_of_false (fun agrees => agrees.mp rfl rfl) (fun mends => mends.1 zero)
    · rw [ih (changedLimits_told told zero)]
      exact (and_iff_right zero).symm

end Ircd.Channels

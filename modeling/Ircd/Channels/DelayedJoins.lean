import Ircd.Channels.SourceBurst
import Ircd.Channels.Clearmode
import Ircd.Channels.RejectedMode

/-! `MODE_WASDELJOINS` of a channel: it is set while `D` is not and somebody who joined under it is still
hidden.

The flag is settled by a flush, and in between the buffer knows what is still to be done. Pushes into
the buffer are calm: they may settle the flag and do nothing else about it.
-/

set_option autoImplicit false

namespace Ircd.Channels
open Ircd.Text

variable {Client : Type}

def Channel.Hides (chan : Channel Client) : Prop :=
  chan.mode.mode .wasDelJoins = (!chan.mode.mode .delJoins && findDelayedJoins chan)

/-! ### Calm steps -/

/-- The flag stays or is settled, and `D` does not get in the buffer. -/
structure ModeWork.Calm (w w' : ModeWork Client) : Prop where
  time : w'.chan.creationTime = w.chan.creationTime
  delJoins : w'.chan.mode.mode .delJoins = w.chan.mode.mode .delJoins
  hidden : findDelayedJoins w'.chan = findDelayedJoins w.chan
  settled : w'.settled .wasDelJoins = w.settled .wasDelJoins
  was : w'.chan.mode.mode .wasDelJoins = w.chan.mode.mode .wasDelJoins ∨
    w'.chan.mode.mode .wasDelJoins = w.settled .wasDelJoins
  add : w'.mbuf.add .delJoins = true → w.mbuf.add .delJoins = true
  rem : w'.mbuf.rem .delJoins = true → w.mbuf.rem .delJoins = true

section
variable {w w' w'' : ModeWork Client}

theorem ModeWork.Calm.refl (w : ModeWork Client) : w.Calm w := ⟨rfl, rfl, rfl, rfl, .inl rfl, id, id⟩

theorem ModeWork.Calm.trans (calm : w.Calm w') (calm' : w'.Calm w'') : w.Calm w'' where
  time := calm'.time.trans calm.time
  delJoins := calm'.delJoins.trans calm.delJoins
  hidden := calm'.hidden.trans calm.hidden
  settled := calm'.settled.trans calm.settled
  was := by
    rcases calm'.was with same | settled
    · rw [same]
      exact calm.was
    · exact .inr (settled.trans calm.settled)
  add := calm.add ∘ calm'.add
  rem := calm.rem ∘ calm'.rem

theorem ModeWork.settled_was (w : ModeWork Client) :
    w.settled .wasDelJoins =
      ((w.chan.mode.mode .wasDelJoins ||
        w.mbuf.rem .delJoins && !w.chan.mode.mode .delJoins && findDelayedJoins w.chan) && !w.mbuf.add .delJoins) :=
  settled_wasDelJoins _ _

theorem ModeWork.After.calm (after : w.After w') : w.Calm w' := by
  have settled := congrFun after.settled_eq .wasDelJoins
  cases after with
  | waiting chan add rem =>
    exact ⟨by rw [chan], by rw [chan], by rw [chan], settled, .inl (by rw [chan]), by rw [add]; exact id,
      by rw [rem]; exact id⟩
  | flushed chan add rem =>
    exact ⟨by rw [chan]; rfl, by rw [chan]; exact settled_other _ _ (by decide), by rw [chan]; rfl, settled,
      .inr (by rw [chan]; rfl), by rw [add]; exact nofun, by rw [rem]; exact nofun⟩

structure Channel.Beside (chan chan' : Channel Client) : Prop where
  time : chan'.creationTime = chan.creationTime
  delJoins : chan'.mode.mode .delJoins = chan.mode.mode .delJoins
  was : chan'.mode.mode .wasDelJoins = chan.mode.mode .wasDelJoins
  hidden : findDelayedJoins chan' = findDelayedJoins chan

theorem Channel.Beside.refl (chan : Channel Client) : chan.Beside chan := ⟨rfl, rfl, rfl, rfl⟩

theorem Channel.Beside.trans {chan chan' chan'' : Channel Client} (first : chan.Beside chan')
    (second : chan'.Beside chan'') : chan.Beside chan'' :=
  ⟨second.time.trans first.time, second.delJoins.trans first.delJoins, second.was.trans first.was,
    second.hidden.trans first.hidden⟩

theorem Channel.Beside.calm {chan' : Channel Client} (beside : w.chan.Beside chan')
    (passes : List (Flushed Client)) : w.Calm ⟨chan', w.mbuf, passes⟩ where
  time := beside.time
  delJoins := beside.delJoins
  hidden := beside.hidden
  settled := by rw [ModeWork.settled_was, ModeWork.settled_was, beside.delJoins, beside.was, beside.hidden]
  was := .inl beside.was
  add := id
  rem := id

theorem ModeWork.uint_calm (names : Names Client) (w : ModeWork Client) (add : Bool) (limit : Nat) :
    w.Calm (w.uint names add limit) :=
  (@ModeWork.call_plain _ w names _ (.uint add limit) rfl rfl).calm

theorem ModeWork.string_calm (names : Names Client) (w : ModeWork Client) (add : Bool) (which : StringMode)
    (text : List Char) (free : Bool) : w.Calm (w.string names add which text free) :=
  (@ModeWork.call_plain _ w names _ (.string add which text free) rfl rfl).calm

theorem ModeWork.client_calm (names : Names Client) (w : ModeWork Client) (add : Bool) (which : MemberMode)
    (who : Client) (opLevel : Nat) : w.Calm (w.client names add which who opLevel) :=
  (@ModeWork.call_plain _ w names _ (.client add which who opLevel) rfl rfl).calm

end

/-! ### The letters -/

structure ModeState.Reads (source : ModeSource Client) (st st' : ModeState Client) (args : List (List Char)) : Prop where
  calm : st.work.Calm st'.work
  add : st'.add = st.add
  del : st'.del = st.del
  dir : st'.dir = st.dir
  args : source.server = true → st'.args = args

section
variable {site : ModeSite Client} {source : ModeSource Client} {flags : SourceFlags} {st st' : ModeState Client}
  {args : List (List Char)}

theorem ModeState.Reads.refl (source : ModeSource Client) (st : ModeState Client) : st.Reads source st st.args :=
  ⟨.refl _, rfl, rfl, rfl, fun _ => rfl⟩

theorem ModeState.Reads.trans {st'' : ModeState Client} {args' : List (List Char)} (first : st.Reads source st' args)
    (second : st'.Reads source st'' args') : st.Reads source st'' args' where
  calm := first.calm.trans second.calm
  add := second.add.trans first.add
  del := second.del.trans first.del
  dir := second.dir.trans first.dir
  args := second.args

theorem setWork_reads {w : ModeWork Client} (calm : st.work.Calm w) : st.Reads source (st.setWork w) st.args :=
  ⟨calm, rfl, rfl, rfl, fun _ => rfl⟩

theorem setChan_reads {chan : Channel Client} (beside : st.chan.Beside chan) :
    st.Reads source { st with chan := chan } st.args :=
  ⟨beside.calm st.passes, rfl, rfl, rfl, fun _ => rfl⟩

theorem setDone_reads (done : Done) : st.Reads source { st with done := done } st.args :=
  ⟨.refl _, rfl, rfl, rfl, fun _ => rfl⟩

theorem take_reads {rest : List (List Char)} (maxArgs : Nat) :
    st.Reads source { st with args := rest, maxArgs := maxArgs } rest :=
  ⟨.refl _, rfl, rfl, rfl, fun _ => rfl⟩

theorem tooMany_server (remote : source.server = true) (st : ModeState Client) : source.tooMany st = false := by
  rw [ModeSource.tooMany, ModeSource.myUser, remote]
  rfl

theorem setMode_beside (chan : Channel Client) {mode : Mode} (delJoins : mode.mode .delJoins = chan.mode.mode .delJoins)
    (was : mode.mode .wasDelJoins = chan.mode.mode .wasDelJoins) : chan.Beside { chan with mode := mode } :=
  ⟨rfl, delJoins, was, rfl⟩

theorem limitValue_reads (tLimit : Nat) : st.Reads source (st.limitValue site flags tLimit) st.args := by
  unfold ModeState.limitValue
  split
  · exact .refl source st
  split
  · exact .refl source st
  split
  · exact .refl source st
  split
  · exact .refl source st
  have done := @setDone_reads _ source st { st.done with limit := true }
  dsimp only
  split
  · exact done
  have pushed := done.trans (setWork_reads
    (ModeWork.uint_calm site.names _ (decide (st.dir = .add)) tLimit))
  split
  · exact pushed
  · refine pushed.trans ?_
    split
    · exact setChan_reads (setMode_beside _ (by simp) (by simp))
    · exact setChan_reads (setMode_beside _ (by simp) (by simp))

theorem ModeState.Reads.of_args (reads : st.Reads source st' args) {args' : List (List Char)}
    (same : source.server = true → args = args') : st.Reads source st' args' :=
  { reads with args := fun remote => (reads.args remote).trans (same remote) }

/-- A parameter that is not taken: the source is a user of this server, or there is none. -/
theorem untaken_reads (untaken : source.tooMany st = true) (args : List (List Char)) : st.Reads source st args :=
  ⟨.refl _, rfl, rfl, rfl, fun remote => by rw [tooMany_server remote] at untaken; cases untaken⟩

theorem parseLimit_reads : st.Reads source (st.parseLimit site source flags) (nextArgs st.dir 'l' st.args) := by
  obtain ⟨⟨chan, args, dir, done, add, del, changes⟩, mbuf, passes, maxArgs⟩ := st
  unfold ModeState.parseLimit
  cases dir with
  | del => exact limitValue_reads _
  | add =>
    dsimp only
    split
    next untaken => exact untaken_reads untaken _
    cases args with
    | nil => exact .refl source _
    | cons arg rest =>
      have taken := @take_reads _ source ⟨⟨chan, arg :: rest, .add, done, add, del, changes⟩, mbuf, passes, maxArgs⟩
        rest (maxArgs - 1)
      dsimp only
      split
      · exact taken
      split
      · exact taken
      · exact taken.trans (limitValue_reads _)

structure Applies (st st' : ParseState Client) : Prop where
  beside : st.chan.Beside st'.chan
  add : st'.add = st.add
  del : st'.del = st.del
  dir : st'.dir = st.dir
  args : st'.args = st.args

theorem Applies.reads {p : ParseState Client} (applies : Applies st.toParseState p) :
    st.Reads source { st with toParseState := p } st.args :=
  ⟨applies.beside.calm st.passes, applies.add, applies.del, applies.dir, fun _ => applies.args⟩

theorem parseString_reads {which : StringMode} {old : Mode → List Char}
    {permitted : ModeState Client → List Char → Bool} {allow : Done → Dir → Option Done}
    {refused : ParseState Client → List Char → Bool} {apply : ParseState Client → List Char → ParseState Client}
    (applies : ∀ p arg, Applies p (apply p arg)) :
    st.Reads source (st.parseString site source flags which old permitted allow refused apply) st.args.tail := by
  unfold ModeState.parseString
  split
  next untaken => exact untaken_reads untaken _
  cases args : st.args with
  | nil => exact (ModeState.Reads.refl source st).of_args fun _ => args
  | cons arg rest =>
    have taken := @take_reads _ source st rest (st.maxArgs - 1)
    dsimp only
    split
    · exact taken
    split
    · exact taken
    next done _ =>
    have marked := taken.trans (setDone_reads done)
    split
    · exact marked
    have pushed := marked.trans (setWork_reads (w := if flags.bounce then
      if old st.chan.mode ≠ [] then st.work.string site.names false which (old st.chan.mode) false
      else st.work.string site.names true which arg false
      else st.work.string site.names (decide (st.dir = .add)) which arg false) ?_)
    split
    · exact pushed.trans (applies _ _).reads
    · exact pushed
    · split
      · split
        · exact ModeWork.string_calm _ _ _ _ _ _
        · exact ModeWork.string_calm _ _ _ _ _ _
      · exact ModeWork.string_calm _ _ _ _ _ _

theorem applyKey_applies (p : ParseState Client) (arg : List Char) : Applies p (applyKey p arg) := by
  unfold applyKey
  split <;> exact ⟨setMode_beside _ rfl rfl, rfl, rfl, rfl, rfl⟩

theorem applyUpass_applies (p : ParseState Client) (arg : List Char) : Applies p (applyUpass p arg) := by
  unfold applyUpass
  split <;> exact ⟨setMode_beside _ rfl rfl, rfl, rfl, rfl, rfl⟩

theorem map_hidden {chan : Channel Client} {f : Membership Client → Membership Client}
    (same : ∀ m, (f m).status.delayed = m.status.delayed) : chan.Beside { chan with members := chan.members.map f } :=
  ⟨rfl, rfl, rfl, by unfold findDelayedJoins; rw [List.any_map]; exact congrArg _ (funext same)⟩

theorem applyApass_applies (flags : ParseFlags) (p : ParseState Client) (arg : List Char) :
    Applies p (applyApass flags p arg) := by
  unfold applyApass
  split
  · split
    · exact ⟨setMode_beside _ rfl rfl, rfl, rfl, rfl, rfl⟩
    · exact ⟨.refl _, rfl, rfl, rfl, rfl⟩
  · have levels (chan : Channel Client) : chan.Beside { chan with members := resetLevels chan.members } :=
      map_hidden fun m => by split <;> rfl
    have cleared : p.chan.Beside (p.setMode { p.mode with apass := [], upass := [] }).chan := setMode_beside _ rfl rfl
    exact ⟨cleared.trans (levels _), rfl, rfl, rfl, rfl⟩

theorem setManager_applies [DecidableEq Client] (source : ModeSource Client) (p : ParseState Client) : Applies p (setManager source p) := by
  unfold setManager
  split
  · refine ⟨map_hidden fun m => ?_, rfl, rfl, rfl, rfl⟩
    split <;> rfl
  · exact ⟨.refl _, rfl, rfl, rfl, rfl⟩

theorem Applies.trans {p p' p'' : ParseState Client} (first : Applies p p') (second : Applies p' p'') : Applies p p'' :=
  ⟨first.beside.trans second.beside, second.add.trans first.add, second.del.trans first.del,
    second.dir.trans first.dir, second.args.trans first.args⟩

theorem parseBan_reads : st.Reads source (st.parseBan site source flags) st.args.tail := by
  unfold ModeState.parseBan
  cases args : st.args with
  | nil => exact (ModeState.Reads.refl source st).of_args fun _ => args
  | cons arg rest =>
    have taken := @take_reads _ source st rest (st.maxArgs - 1)
    dsimp only
    split
    next untaken => exact untaken_reads untaken _
    split
    · exact taken
    · exact (taken.trans (setDone_reads { st.done with banClean := true })).trans (setChan_reads ⟨rfl, rfl, rfl, rfl⟩)

theorem parseClient_reads [DecidableEq Client] {mode : MemberMode} :
    st.Reads source (st.parseClient site source flags mode) st.args.tail := by
  unfold ModeState.parseClient
  split
  next untaken => exact untaken_reads untaken _
  cases args : st.args with
  | nil => exact (ModeState.Reads.refl source st).of_args fun _ => args
  | cons arg rest =>
    dsimp only
    split
    · exact take_reads _
    split
    · exact take_reads _
    · exact ⟨.refl _, rfl, rfl, rfl, fun _ => rfl⟩

/-- What the letters of a mode string ask for `D`, behind those that have asked already. -/
def delJoinsAsked : Dir → Option Dir → List Char → Option Dir
  | _, asked, [] => asked
  | dir, asked, c :: rest => delJoinsAsked (nextDir dir c) (if c = 'D' then some dir else asked) rest

structure ModeState.Asked (st : ModeState Client) (asked : Option Dir) : Prop where
  add : st.add .delJoins = decide (asked = some .add)
  del : st.del .delJoins = decide (asked = some .del)
  wasAdd : st.add .wasDelJoins = false
  wasDel : st.del .wasDelJoins = false

theorem ModeState.Reads.asked (reads : st.Reads source st' args) {asked : Option Dir} (now : st.Asked asked) :
    st'.Asked asked :=
  ⟨(congrFun reads.add _).trans now.add, (congrFun reads.del _).trans now.del,
    (congrFun reads.add _).trans now.wasAdd, (congrFun reads.del _).trans now.wasDel⟩

structure ModeState.Letter (source : ModeSource Client) (flags : SourceFlags) (st st' : ModeState Client) (c : Char) :
    Prop where
  calm : st.work.Calm st'.work
  dir : st'.dir = nextDir st.dir c
  args : source.server = true → st'.args = nextArgs st.dir c st.args
  asked : flags.mbuf = true → flags.outsider = false → ∀ asked, st.Asked asked →
    st'.Asked (if c = 'D' then some st.dir else asked)

theorem ModeState.Reads.letter {c : Char} (reads : st.Reads source st' (nextArgs st.dir c st.args))
    (unsigned : nextDir st.dir c = st.dir) (other : c ≠ 'D') : st.Letter source flags st' c where
  calm := reads.calm
  dir := reads.dir.trans unsigned.symm
  args := reads.args
  asked := fun _ _ asked now => by rw [if_neg other]; exact reads.asked now

theorem modeParseMode_letter {c : Char} {f : Flag} (unsigned : nextDir st.dir c = st.dir)
    (plain : nextArgs st.dir c st.args = st.args) (flag : f = .delJoins ↔ c = 'D') (simple : f ≠ .wasDelJoins) :
    st.Letter source flags
      (if flags.outsider then st
        else { st with toParseState := modeParseMode flags.toParseFlags f st.toParseState }) c := by
  by_cases refused : flags.outsider = true
  · rw [if_pos refused]
    exact ⟨.refl _, unsigned.symm, fun _ => plain.symm, fun _ taken => by rw [refused] at taken; cases taken⟩
  rw [if_neg refused]
  unfold modeParseMode
  cases mbuf : flags.mbuf with
  | false => exact ⟨.refl _, unsigned.symm, fun _ => plain.symm, fun there => by rw [mbuf] at there; cases there⟩
  | true =>
    obtain ⟨⟨chan, args, dir, done, add, del, changes⟩, mbuf, passes, maxArgs⟩ := st
    cases dir with
    | add =>
      refine ⟨.refl _, unsigned.symm, fun _ => plain.symm, fun _ _ asked now => ?_⟩
      obtain ⟨adds, dels, wasAdd, wasDel⟩ := now
      dsimp only at adds dels wasAdd wasDel
      have apart : f.excludes .delJoins = false ∧ f.excludes .wasDelJoins = false := by cases f <;> exact ⟨rfl, rfl⟩
      by_cases here : c = 'D'
      · obtain rfl := flag.mpr here
        constructor <;> simp [here, apart, wasAdd, wasDel]
      · have other : Flag.delJoins ≠ f := fun same => here (flag.mp same.symm)
        constructor <;> simp [here, other, apart, adds, dels, wasAdd, wasDel, simple.symm]
    | del =>
      refine ⟨.refl _, unsigned.symm, fun _ => plain.symm, fun _ _ asked now => ?_⟩
      obtain ⟨adds, dels, wasAdd, wasDel⟩ := now
      dsimp only at adds dels wasAdd wasDel
      by_cases here : c = 'D'
      · obtain rfl := flag.mpr here
        constructor <;> simp [here, wasAdd, wasDel]
      · have other : Flag.delJoins ≠ f := fun same => here (flag.mp same.symm)
        constructor <;> simp [here, other, adds, dels, wasAdd, wasDel, simple.symm]

theorem simpleFlag_delJoins {c : Char} {f : Flag} (flag : simpleFlag c = some f) :
    (f = .delJoins ↔ c = 'D') ∧ f ≠ .wasDelJoins := by
  unfold simpleFlag at flag
  split at flag <;> first | (obtain rfl := Option.some.inj flag; decide) | cases flag

theorem parseKey_reads : st.Reads source (st.parseKey site source flags) st.args.tail :=
  parseString_reads applyKey_applies

theorem parseUpass_reads : st.Reads source (st.parseUpass site source flags) st.args.tail :=
  parseString_reads applyUpass_applies

theorem parseApass_reads [DecidableEq Client] : st.Reads source (st.parseApass site source flags) st.args.tail :=
  parseString_reads fun p arg => (applyApass_applies flags.toParseFlags p arg).trans (setManager_applies source _)

theorem optional_letter {c : Char} {allowed : Bool} (letter : st.Letter source flags st' c)
    (server : source.server = true → allowed = true) (unsigned : nextDir st.dir c = st.dir) (other : c ≠ 'D') :
    st.Letter source flags (if allowed then st' else st) c := by
  cases allowed with
  | true => exact letter
  | false =>
    exact ⟨.refl _, unsigned.symm, fun remote => absurd (server remote) Bool.false_ne_true,
      fun _ _ _ now => by rw [if_neg other]; exact now⟩

theorem unsigned_letter {c : Char} (plus : c ≠ '+') (minus : c ≠ '-') (dir : Dir) : nextDir dir c = dir := by
  rw [nextDir, if_neg plus, if_neg minus]

theorem letter_spec [DecidableEq Client] (site : ModeSite Client) (source : ModeSource Client) (flags : SourceFlags)
    (st : ModeState Client) (c : Char) : st.Letter source flags (st.letter site source flags c) c := by
  have sign {dir : Dir} (not_flag : c ≠ 'D') (plain : nextArgs st.dir c st.args = st.args)
      (signed : nextDir st.dir c = dir) : st.Letter source flags { st with dir := dir } c :=
    ⟨.refl _, signed.symm, fun _ => plain.symm, fun _ _ _ now => by
      rw [if_neg not_flag]
      exact ⟨now.add, now.del, now.wasAdd, now.wasDel⟩⟩
  have server {b : Bool} (remote : source.server = true) : (source.server || b) = true := by rw [remote]; rfl
  by_cases special : c ∈ specialLetters
  · simp only [specialLetters, List.mem_cons, List.not_mem_nil, or_false] at special
    rcases special with rfl | rfl | rfl | rfl | rfl | rfl | rfl | rfl | rfl
    · exact sign (by decide) rfl rfl
    · exact sign (by decide) rfl rfl
    · exact parseLimit_reads.letter rfl (by decide)
    · exact parseKey_reads.letter rfl (by decide)
    · exact optional_letter (parseApass_reads.letter rfl (by decide)) server rfl (by decide)
    · exact optional_letter (parseUpass_reads.letter rfl (by decide)) server rfl (by decide)
    · exact parseBan_reads.letter rfl (by decide)
    · exact parseClient_reads.letter rfl (by decide)
    · exact parseClient_reads.letter rfl (by decide)
  · simp only [specialLetters, List.mem_cons, List.not_mem_nil, or_false, not_or] at special
    obtain ⟨plus, minus, limit, key, apass, upass, ban, op, voice⟩ := special
    have unsigned := unsigned_letter plus minus st.dir
    have plain : nextArgs st.dir c st.args = st.args := by simp [nextArgs, takesArg, limit, key, apass, upass, ban, op, voice]
    unfold ModeState.letter
    dsimp only
    rw [if_neg plus, if_neg minus, if_neg limit, if_neg key, if_neg apass, if_neg upass]
    split
    next oper =>
      subst oper
      exact optional_letter (modeParseMode_letter unsigned plain (by decide) (by decide)) server unsigned (by decide)
    split
    next ssl =>
      subst ssl
      exact optional_letter (modeParseMode_letter unsigned plain (by decide) (by decide))
        (fun remote => by rw [remote]; rfl) unsigned (by decide)
    split
    next f flag =>
      obtain ⟨is_delJoins, simple⟩ := simpleFlag_delJoins flag
      exact modeParseMode_letter unsigned plain is_delJoins simple
    next unknown =>
      have other : c ≠ 'D' := by rintro rfl; cases unknown
      exact ⟨.refl _, unsigned.symm, fun _ => plain.symm, fun _ _ _ now => by rw [if_neg other]; exact now⟩

structure ModeState.Line (source : ModeSource Client) (flags : SourceFlags) (st st' : ModeState Client)
    (modestr : List Char) : Prop where
  calm : st.work.Calm st'.work
  args : source.server = true → st'.args = lineRest st.dir st.args modestr
  asked : flags.mbuf = true → flags.outsider = false → ∀ asked, st.Asked asked →
    st'.Asked (delJoinsAsked st.dir asked modestr)

theorem line_spec [DecidableEq Client] (site : ModeSite Client) (source : ModeSource Client) (flags : SourceFlags)
    (st : ModeState Client) (modestr : List Char) :
    st.Line source flags (modestr.foldl (ModeState.letter site source flags) st) modestr := by
  induction modestr generalizing st with
  | nil => exact ⟨.refl _, fun _ => rfl, fun _ _ _ now => now⟩
  | cons c modestr ih =>
    obtain ⟨calm, dir, args, asked⟩ := letter_spec site source flags st c
    obtain ⟨calm', args', asked'⟩ := ih (st.letter site source flags c)
    rw [List.foldl_cons]
    refine ⟨calm.trans calm', fun remote => ?_, fun mbuf taken old now => ?_⟩
    · rw [args' remote, dir, args remote]
      rfl
    · have behind := asked' mbuf taken _ (asked mbuf taken old now)
      rw [dir] at behind
      exact behind

end

/-! ### What the parser makes of them -/

/-- The flag is settled right, and it is not set without somebody who is hidden. -/
structure ModeWork.Sound (w : ModeWork Client) : Prop where
  was : w.chan.mode.mode .wasDelJoins = true → findDelayedJoins w.chan = true
  settled : w.settled .wasDelJoins = (!w.chan.mode.mode .delJoins && findDelayedJoins w.chan)

section
variable {w w' : ModeWork Client}

theorem ModeWork.Calm.sound (calm : w.Calm w') (sound : w.Sound) : w'.Sound where
  was := by
    rw [calm.hidden]
    rcases calm.was with same | settled
    · rw [same]
      exact sound.was
    · rw [settled, sound.settled]
      exact fun both => (Bool.and_eq_true_iff.mp both).2
  settled := by rw [calm.settled, calm.delJoins, calm.hidden, sound.settled]

structure Channel.Reveals (chan chan' : Channel Client) : Prop where
  delJoins : chan'.mode.mode .delJoins = chan.mode.mode .delJoins
  hidden : findDelayedJoins chan' = true → findDelayedJoins chan = true
  was : chan'.mode.mode .wasDelJoins = (chan.mode.mode .wasDelJoins && findDelayedJoins chan')

theorem ModeWork.Sound.reveals {chan' : Channel Client} (sound : w.Sound) (reveals : w.chan.Reveals chan')
    (passes : List (Flushed Client)) : ModeWork.Sound ⟨chan', w.mbuf, passes⟩ := by
  obtain ⟨delJoins, hidden, was⟩ := reveals
  obtain ⟨needs, settled⟩ := sound
  refine ⟨fun set => ?_, ?_⟩
  · rw [was] at set
    exact (Bool.and_eq_true_iff.mp set).2
  · rw [ModeWork.settled_was] at settled ⊢
    dsimp only
    rw [delJoins, was]
    revert settled needs hidden
    cases w.chan.mode.mode .wasDelJoins <;> cases w.chan.mode.mode .delJoins <;> cases findDelayedJoins w.chan <;>
      cases findDelayedJoins chan' <;> cases w.mbuf.rem .delJoins <;> cases w.mbuf.add .delJoins <;> simp

theorem ModeWork.Sound.flush {names : Names Client} (sound : w.Sound) (calls : w.call names .flush = some w') :
    w'.chan.Hides := by
  obtain ⟨chan, -, -⟩ := ModeWork.call_flush calls
  have delJoins : w.settled .delJoins = w.chan.mode.mode .delJoins := settled_other _ _ (by decide)
  rw [chan, Channel.Hides, Channel.setFlags_mode, delJoins, sound.settled]
  rfl

theorem simple_mbuf (st : ModeState Client) (flags : SourceFlags) :
    let mode := st.chan.mode.mode .delJoins
    let adds := st.add .delJoins && !(mode && !st.del .delJoins)
    (st.simple flags).mbuf.add .delJoins =
        (adds || st.mbuf.add .delJoins && !(st.del .delJoins && mode)) ∧
      (st.simple flags).mbuf.rem .delJoins =
        ((st.mbuf.rem .delJoins || st.del .delJoins && mode) && !adds) := by
  let mbuf := modebufMode st.mbuf false fun f => st.del f && st.chan.mode.mode f
  let added := st.add.without (st.chan.mode.mode.without st.del)
  have same : (st.simple flags).mbuf = modebufMode mbuf true added := by
    unfold ModeState.simple
    dsimp only
    split <;> rfl
  obtain ⟨add, rem⟩ := modebufMode_delJoins st.mbuf false fun f => st.del f && st.chan.mode.mode f
  obtain ⟨add', rem'⟩ := modebufMode_delJoins mbuf true added
  have table : ∀ adds dels mode add rem : Bool,
      (if adds && !(mode && !dels) then true else if dels && mode then false else add) =
          (adds && !(mode && !dels) || add && !(dels && mode)) ∧
        (if adds && !(mode && !dels) then !true else if dels && mode then !false else rem) =
          ((rem || dels && mode) && !(adds && !(mode && !dels))) := by decide
  rw [same, add', rem', add, rem]
  exact table _ _ _ _ _

theorem simple_sound {st : ModeState Client} {flags : SourceFlags} (sound : st.work.Sound) (set : flags.set = true)
    {asked : Option Dir} (now : st.Asked asked) : (st.simple flags).work.Sound := by
  obtain ⟨was, settled⟩ := sound
  obtain ⟨add, rem⟩ := simple_mbuf st flags
  have chan : (st.simple flags).chan = st.chan.setFlags ((st.chan.mode.mode.without st.del).or st.add) := by
    unfold ModeState.simple
    dsimp only
    rw [if_pos set]
    rfl
  have delJoins : (st.simple flags).chan.mode.mode .delJoins =
      (st.chan.mode.mode .delJoins && !st.del .delJoins || st.add .delJoins) := by rw [chan]; rfl
  have was' : (st.simple flags).chan.mode.mode .wasDelJoins = st.chan.mode.mode .wasDelJoins := by
    rw [chan]
    simp [now.wasAdd, now.wasDel]
  have hidden : findDelayedJoins (st.simple flags).chan = findDelayedJoins st.chan := by rw [chan]; rfl
  have apart : (st.add .delJoins && st.del .delJoins) = false := by
    rw [now.add, now.del]
    cases asked with
    | none => rfl
    | some dir => cases dir <;> rfl
  refine ⟨?_, ?_⟩
  · change (st.simple flags).chan.mode.mode .wasDelJoins = true → findDelayedJoins (st.simple flags).chan = true
    rw [was', hidden]
    exact was
  · rw [ModeWork.settled_was] at settled ⊢
    dsimp only [ModeState.work] at was settled ⊢
    rw [was', hidden, delJoins, add, rem]
    revert was settled apart
    cases st.chan.mode.mode .wasDelJoins <;> cases st.chan.mode.mode .delJoins <;> cases findDelayedJoins st.chan <;>
      cases st.add .delJoins <;> cases st.del .delJoins <;> simp

theorem ModeWork.Calm.optional {w w' w'' : ModeWork Client} (calm : w.Calm w') (b : Bool) (push : w'.Calm w'') :
    w.Calm (if b then w'' else w') := by
  cases b with
  | true => exact calm.trans push
  | false => exact calm

theorem wipeout_calm (site : ModeSite Client) (st : ModeState Client) : st.work.Calm (st.wipeout site).work := by
  unfold ModeState.wipeout
  dsimp only
  refine ModeWork.Calm.optional ?_ _ (ModeWork.string_calm _ _ _ _ _ _)
  refine ModeWork.Calm.optional ?_ _ (ModeWork.string_calm _ _ _ _ _ _)
  refine ModeWork.Calm.optional ?_ _ (ModeWork.string_calm _ _ _ _ _ _)
  exact ModeWork.Calm.optional (.refl _) _ (ModeWork.uint_calm _ _ _ _)

theorem banTurn_calm (site : ModeSite Client) (source : ModeSource Client) (flags : SourceFlags) (s : BanWalk Client)
    (ban : Ban) : s.work.Calm (s.turn site source flags ban).work := by
  unfold BanWalk.turn
  dsimp only
  split
  · exact .refl _
  split
  · split <;> exact ModeWork.string_calm _ _ _ _ _ _
  split
  · split
    · exact .refl _
    split
    · exact .refl _
    · exact ModeWork.string_calm _ _ _ _ _ _
  · exact .refl _

theorem foldl_calm {α β : Type} {work : β → ModeWork Client} {f : β → α → β}
    (step : ∀ s a, (work s).Calm (work (f s a))) (l : List α) (s : β) : (work s).Calm (work (l.foldl f s)) := by
  induction l generalizing s with
  | nil => exact .refl _
  | cons a l ih => exact (step s a).trans (ih _)

theorem processBans_calm (site : ModeSite Client) (source : ModeSource Client) (flags : SourceFlags)
    (st : ModeState Client) : st.work.Calm (st.processBans site source flags).work := by
  have walk := @foldl_calm _ _ _ BanWalk.work _ (banTurn_calm site source flags) st.chan.banlist ⟨st.work, [], [], 0, 0⟩
  have linked (w : ModeWork Client) (banlist : List Ban) :
      w.Calm ⟨{ w.chan with banlist := banlist }, w.mbuf, w.passes⟩ :=
    (⟨rfl, rfl, rfl, rfl⟩ : w.chan.Beside { w.chan with banlist := banlist }).calm w.passes
  exact walk.trans (linked _ _)

/-! ### Members that come out -/

variable [DecidableEq Client]

variable {f : Membership Client → Membership Client}

theorem mapMembership_hidden {client : Client} {members : List (Membership Client)}
    (same : ∀ m, members.find? (·.user = client) = some m → (f m).status.delayed = m.status.delayed) :
    (mapMembership client f members).any (·.status.delayed) = members.any (·.status.delayed) := by
  induction members with
  | nil => rfl
  | cons m members ih =>
    unfold mapMembership
    by_cases here : m.user = client
    · rw [if_pos here, List.any_cons, List.any_cons, same m (List.find?_cons_of_pos (by simpa using here))]
    · rw [if_neg here, List.any_cons, List.any_cons, ih fun m' found => same m' ?_]
      rw [List.find?_cons_of_neg (by simpa using here)]
      exact found

theorem mapMembership_find {client : Client} (user : ∀ m, (f m).user = m.user)
    (members : List (Membership Client)) :
    (mapMembership client f members).find? (·.user = client) = (members.find? (·.user = client)).map f := by
  induction members with
  | nil => rfl
  | cons m members ih =>
    unfold mapMembership
    by_cases here : m.user = client
    · rw [if_pos here, List.find?_cons_of_pos (by simpa [user] using here),
        List.find?_cons_of_pos (by simpa using here)]
      rfl
    · rw [if_neg here, List.find?_cons_of_neg (by simpa using here), List.find?_cons_of_neg (by simpa using here), ih]

theorem Channel.member_map (chan : Channel Client) (client : Client) (user : ∀ m, (f m).user = m.user) :
    (chan.mapMember client f).member client = (chan.member client).map f :=
  mapMembership_find user chan.members

theorem mapMember_beside {chan : Channel Client} {client : Client}
    (same : ∀ m, chan.member client = some m → (f m).status.delayed = m.status.delayed) :
    chan.Beside (chan.mapMember client f) :=
  ⟨rfl, rfl, rfl, mapMembership_hidden same⟩

omit [DecidableEq Client] in
theorem checkDelayedJoins_spec (chan : Channel Client) :
    (checkDelayedJoins chan).mode.mode .delJoins = chan.mode.mode .delJoins ∧
      findDelayedJoins (checkDelayedJoins chan) = findDelayedJoins chan ∧
      (checkDelayedJoins chan).mode.mode .wasDelJoins =
        (chan.mode.mode .wasDelJoins && findDelayedJoins chan) := by
  unfold checkDelayedJoins
  split
  next some_hidden => exact ⟨rfl, rfl, by rw [findDelayedJoins, some_hidden, Bool.and_true]⟩
  next none_hidden =>
    refine ⟨by simp, rfl, ?_⟩
    rw [findDelayedJoins, Bool.eq_false_of_not_eq_true none_hidden]
    simp

omit [DecidableEq Client] in
theorem Channel.Beside.reveals {chan chan' : Channel Client} (beside : chan.Beside chan')
    (was : chan.mode.mode .wasDelJoins = true → findDelayedJoins chan = true) : chan.Reveals chan' where
  delJoins := beside.delJoins
  hidden := by rw [beside.hidden]; exact id
  was := by
    rw [beside.was, beside.hidden]
    revert was
    cases chan.mode.mode .wasDelJoins <;> simp

theorem mapMembership_shrinks {client : Client}
    (shrinks : ∀ m, (f m).status.delayed = true → m.status.delayed = true) (members : List (Membership Client))
    (hidden : (mapMembership client f members).any (·.status.delayed) = true) :
    members.any (·.status.delayed) = true := by
  induction members with
  | nil => cases hidden
  | cons m members ih =>
    rw [List.any_cons, Bool.or_eq_true]
    unfold mapMembership at hidden
    split at hidden
    · rw [List.any_cons, Bool.or_eq_true] at hidden
      exact hidden.imp_left (shrinks m)
    · rw [List.any_cons, Bool.or_eq_true] at hidden
      exact hidden.imp_right ih

theorem revealDelayedJoin_reveals (chan : Channel Client) (client : Client) :
    chan.Reveals (revealDelayedJoin chan client) := by
  obtain ⟨delJoins, hidden, was⟩ := checkDelayedJoins_spec (chan.mapMember client Membership.revealed)
  refine ⟨delJoins, ?_, by rw [revealDelayedJoin, was, hidden]; rfl⟩
  rw [revealDelayedJoin, hidden]
  exact mapMembership_shrinks (fun _ out => absurd out Bool.false_ne_true) chan.members

omit [DecidableEq Client] in
theorem checkDelayedJoins_members (chan : Channel Client) : (checkDelayedJoins chan).members = chan.members := by
  unfold checkDelayedJoins
  split <;> rfl

omit [DecidableEq Client] in
theorem Channel.Reveals.beside {chan chan' chan'' : Channel Client} (reveals : chan.Reveals chan')
    (beside : chan'.Beside chan'') : chan.Reveals chan'' where
  delJoins := beside.delJoins.trans reveals.delJoins
  hidden := by rw [beside.hidden]; exact reveals.hidden
  was := by rw [beside.was, beside.hidden]; exact reveals.was

theorem effect_reveals {chan : Channel Client} (change : CliChange Client) {member : Membership Client}
    (found : ∀ m, chan.member change.client = some m → m.status = member.status)
    (was : chan.mode.mode .wasDelJoins = true → findDelayedJoins chan = true) :
    chan.Reveals (effect chan change member) := by
  unfold effect
  cases change.dir with
  | del =>
    dsimp only
    refine (mapMember_beside fun m _ => ?_).reveals was
    cases change.mode <;> rfl
  | add =>
    dsimp only
    split
    next hidden =>
      refine (revealDelayedJoin_reveals chan change.client).beside (mapMember_beside fun m out => ?_)
      have cleared : (chan.mapMember change.client Membership.revealed).member change.client = some m := by
        unfold revealDelayedJoin Channel.member at out
        rw [checkDelayedJoins_members] at out
        exact out
      have user : ∀ m : Membership Client, m.revealed.user = m.user := fun _ => rfl
      rw [chan.member_map change.client user] at cleared
      obtain ⟨m', -, rfl⟩ := Option.map_eq_some_iff.mp cleared
      cases change.mode <;> rfl
    next seen =>
      refine (mapMember_beside fun m same => ?_).reveals was
      rw [found m same]
      revert seen
      cases change.mode <;> cases delayed : member.status.delayed <;> cases zombie : member.status.zombie <;>
        simp [Status.change, delayed, zombie]

theorem processClient_spec (site : ModeSite Client) (source : ModeSource Client) (flags : SourceFlags)
    (st : ModeState Client) (change : CliChange Client) :
    (st.work.Sound → (st.processClient site source flags change).work.Sound) ∧
      (flags.set = false → st.work.Calm (st.processClient site source flags change).work) := by
  unfold ModeState.processClient
  cases found : st.chan.member change.client with
  | none => exact ⟨id, fun _ => .refl _⟩
  | some member =>
    dsimp only
    split
    · exact ⟨id, fun _ => .refl _⟩
    split
    · exact ⟨id, fun _ => .refl _⟩
    split
    · exact ⟨id, fun _ => .refl _⟩
    -- the level, which is set whether the change is set or not
    generalize levelled : (if change.dir = .add ∧ change.mode = .chanop then
      st.chan.mapMember change.client fun m => { m with opLevel := opLevelFor source st change } else st.chan) = chan
    have beside : st.chan.Beside chan := by
      rw [← levelled]
      split
      · exact mapMember_beside fun _ _ => rfl
      · exact .refl st.chan
    have status : ∀ m, chan.member change.client = some m → m.status = member.status := by
      intro m there
      rw [← levelled] at there
      split at there
      · rw [Channel.member_map, found] at there
        · obtain rfl := Option.some.inj there
          rfl
        · exact fun _ => rfl
      · rw [Option.some.inj (there.symm.trans found)]
    have push (w : ModeWork Client) := ModeWork.client_calm site.names w (decide (change.dir = .add)) change.mode
      change.client change.opLevel
    have calm := beside.calm (w := st.work) st.passes
    cases set : flags.set with
    | false => exact ⟨(calm.trans (push _)).sound, fun _ => calm.trans (push _)⟩
    | true =>
      refine ⟨fun sound => (push _).sound ?_, nofun⟩
      have sound := calm.sound sound
      exact sound.reveals (effect_reveals change status sound.was) st.passes

/-- The part of `mode_parse` behind its loop leaves the flag settled right when the modes are set, and is calm
behind the simple modes when they are not. -/
theorem finish_spec (site : ModeSite Client) (source : ModeSource Client) {flags : SourceFlags} {st : ModeState Client}
    (mbuf : flags.mbuf = true) (taken : flags.outsider = false) :
    ((st.simple flags).work.Sound → (st.finish site source flags).work.Sound) ∧
      (flags.set = false → (st.simple flags).work.Calm (st.finish site source flags).work) := by
  unfold ModeState.finish
  rw [mbuf, taken, if_neg (by decide)]
  generalize wiped : (if flags.wipeout then (st.simple flags).wipeout site else st.simple flags) = st₁
  have calm₁ : (st.simple flags).work.Calm st₁.work := by
    rw [← wiped]
    split
    · exact wipeout_calm site _
    · exact .refl _
  dsimp only
  rw [wiped]
  generalize banned : (if st₁.done.banClean then st₁.processBans site source flags else st₁) = st₂
  have calm₂ : st₁.work.Calm st₂.work := by
    rw [← banned]
    split
    · exact processBans_calm site source flags st₁
    · exact .refl _
  refine ⟨fun sound => ?_, fun unset => ?_⟩
  · have sound₂ := (calm₁.trans calm₂).sound sound
    generalize st₂.cliChange = changes
    clear banned calm₂
    induction changes generalizing st₂ with
    | nil => exact sound₂
    | cons change changes ih => exact ih _ ((processClient_spec site source flags st₂ change).1 sound₂)
  · exact (calm₁.trans calm₂).trans
      (foldl_calm (fun st change => (processClient_spec site source flags st change).2 unset) st₂.cliChange st₂)

theorem finish_sound (site : ModeSite Client) (source : ModeSource Client) {flags : SourceFlags} {st : ModeState Client}
    (set : flags.mbuf = true → flags.set = true)
    (now : flags.mbuf = true → flags.outsider = false → ∃ asked, st.Asked asked) (sound : st.work.Sound) :
    (st.finish site source flags).work.Sound := by
  cases mbuf : flags.mbuf with
  | false =>
    unfold ModeState.finish
    rw [mbuf]
    exact sound
  | true =>
    cases taken : flags.outsider with
    | true =>
      unfold ModeState.finish
      rw [mbuf, taken]
      exact sound
    | false =>
      obtain ⟨asked, now⟩ := now mbuf taken
      exact (finish_spec site source mbuf taken).1 (simple_sound sound (set mbuf) now)

inductive ModeState.Outcome (flags : SourceFlags) (st : ModeState Client) :
    ModeState Client × SourceFlags × Verdict → Prop where
  | applied : Outcome flags st (st, flags, .applied)
  | earlier (time : Int) :
      Outcome flags st ({ st with chan := { st.chan with creationTime := time } }, flags, .applied)
  | ignored :
      Outcome flags st ({ st with mbuf := { st.mbuf with add := .none, rem := .none, count := 0 } }, flags, .ignored)
  | bounced (deop : Bool) :
      Outcome flags st ({ st with mbuf := st.mbuf.bounced deop }, { flags with set := false, bounce := true }, .bounced)

theorem strings_spec (site : ModeSite Client) (source : ModeSource Client) (flags : SourceFlags) (fuel : Nat)
    (st : ModeState Client) (modestr : List Char) :
    ∃ st' : ModeState Client, st.work.Calm st'.work ∧
      (flags.mbuf = true → flags.outsider = false → (∃ asked, st.Asked asked) → ∃ asked, st'.Asked asked) ∧
      st'.Outcome flags (st.strings site source fuel flags modestr) ∧
      (source.server = false ∨ flags.set = false ∨ flags.burst = true →
        (st.strings site source fuel flags modestr).2.2 = .applied) := by
  induction fuel generalizing st modestr with
  | zero => exact ⟨st, .refl _, fun _ _ => id, .applied, fun _ => rfl⟩
  | succ fuel ih =>
    rw [ModeState.strings]
    split
    · exact ⟨st, .refl _, fun _ _ => id, .applied, fun _ => rfl⟩
    have line := line_spec site source flags st modestr
    generalize modestr.foldl (ModeState.letter site source flags) st = st₁ at line
    obtain ⟨calm, -, asked⟩ := line
    have asked (mbuf : flags.mbuf = true) (taken : flags.outsider = false) : (∃ asked, st.Asked asked) →
        ∃ asked, st₁.Asked asked := fun ⟨old, now⟩ => ⟨_, asked mbuf taken old now⟩
    dsimp only
    split
    · exact ⟨st₁, calm, asked, .applied, fun _ => rfl⟩
    next more =>
    split
    · exact ⟨st₁, calm, asked, .applied, fun _ => rfl⟩
    next arg rest _ =>
      split
      next ts =>
        refine ⟨{ st₁ with args := rest }, calm, fun mbuf taken now => ?_, ?_⟩
        · obtain ⟨old, now⟩ := asked mbuf taken now
          exact ⟨old, now.add, now.del, now.wasAdd, now.wasDel⟩
        · split
          · exact ⟨.applied, fun _ => rfl⟩
          next set =>
          split
          · exact ⟨.earlier _, fun _ => rfl⟩
          split
          · have kept : ¬(source.server = false ∨ flags.set = false ∨ flags.burst = true) := by
              rintro (here | unset | burst)
              · rw [ts.1] at here
                cases here
              · exact set (by rw [unset]; rfl)
              · exact more burst
            split
            · exact ⟨.ignored, fun other => absurd other kept⟩
            · exact ⟨.bounced _, fun other => absurd other kept⟩
          · exact ⟨.applied, fun _ => rfl⟩
      split
      · exact ⟨st₁, calm, asked, .applied, fun _ => rfl⟩
      · obtain ⟨st', calm', asked', outcome⟩ := ih { st₁ with args := rest } arg
        refine ⟨st', calm.trans calm', fun mbuf taken now => ?_, outcome⟩
        obtain ⟨old, now⟩ := asked mbuf taken now
        exact asked' mbuf taken ⟨old, now.add, now.del, now.wasAdd, now.wasDel⟩

def newerTime (time : Int) : List (List Char) → Bool
  | [ts] => isDigit (peek ts) && decide (time < atoi ts)
  | _ => false

theorem strings_strict (site : ModeSite Client) {source : ModeSource Client} {flags : SourceFlags} (fuel : Nat)
    (st : ModeState Client) (modestr : List Char) (remote : source.server = true) (strict : flags.strict = true)
    (burst : flags.burst = false) (mbuf : flags.mbuf = true) (taken : flags.outsider = false) {asked : Option Dir}
    (now : st.Asked asked) :
    ∃ st' : ModeState Client, st.work.Calm st'.work ∧ st'.Asked (delJoinsAsked st.dir asked modestr) ∧
      st'.Outcome flags (st.strings site source (fuel + 1) flags modestr) ∧
      ((st.strings site source (fuel + 1) flags modestr).2.2 = .bounced ↔
        flags.set = true ∧ source.bursting = false ∧ modestr ≠ [] ∧
          newerTime st.chan.creationTime (lineRest st.dir st.args modestr) = true) := by
  rw [ModeState.strings]
  split
  next none => exact ⟨st, .refl _, by rw [none]; exact now, .applied, nofun, fun goes => absurd none goes.2.2.1⟩
  next some_letters =>
  obtain ⟨calm, args, asks⟩ := line_spec site source flags st modestr
  have args := args remote
  have asks := asks mbuf taken asked now
  have time := calm.time
  generalize modestr.foldl (ModeState.letter site source flags) st = st₁ at calm args asks time
  rw [← args]
  dsimp only [ModeState.work] at time
  rw [if_neg (fun set => Bool.false_ne_true (burst.symm.trans set))]
  cases rest : st₁.args with
  | nil => exact ⟨st₁, calm, asks, .applied, nofun, fun goes => absurd goes.2.2.2 Bool.false_ne_true⟩
  | cons ts more =>
    dsimp only
    split
    next last =>
      obtain ⟨-, rfl, digit⟩ := last
      have newer : newerTime st.chan.creationTime [ts] = decide (st₁.chan.creationTime < atoi ts) := by
        rw [newerTime, digit, time, Bool.true_and]
      refine ⟨{ st₁ with args := [] }, calm, ⟨asks.add, asks.del, asks.wasAdd, asks.wasDel⟩, ?_⟩
      rw [newer, decide_eq_true_eq]
      cases set : flags.set with
      | false => exact ⟨.applied, nofun, nofun⟩
      | true =>
        rw [if_neg (by decide)]
        split
        next older => exact ⟨.earlier _, nofun, fun goes => absurd goes.2.2.2 (not_lt.mpr older.2.le)⟩
        split
        next later =>
          cases source.bursting with
          | true => exact ⟨.ignored, nofun, nofun⟩
          | false =>
            rw [if_neg Bool.false_ne_true]
            exact ⟨.bounced _, fun _ => ⟨rfl, rfl, some_letters, later⟩, fun _ => rfl⟩
        next same => exact ⟨.applied, nofun, fun goes => absurd goes.2.2.2 same⟩
    next not_last =>
      have older : newerTime st.chan.creationTime (ts :: more) = false := by
        unfold newerTime
        split
        next only =>
          obtain ⟨rfl, rfl⟩ := List.cons.inj only
          rw [Bool.and_eq_false_iff]
          exact .inl (Bool.eq_false_of_not_eq_true fun digit => not_last ⟨remote, rfl, digit⟩)
        next => rfl
      rw [strict, Bool.true_or, if_pos rfl]
      exact ⟨st₁, calm, asks, .applied, nofun, fun goes => by rw [older] at goes; exact absurd goes.2.2.2 Bool.false_ne_true⟩

end

/-! ### A message -/

section
variable [DecidableEq Client] {site : ModeSite Client} {source : ModeSource Client} {chan : Channel Client}

structure ModeWork.Fresh (w : ModeWork Client) : Prop where
  add : w.mbuf.add .delJoins = false
  rem : w.mbuf.rem .delJoins = false

omit [DecidableEq Client] in
theorem fresh_init (chan : Channel Client) (source : Client) (localChannel : Bool) (dest : Dest) :
    ModeWork.Fresh ⟨chan, modebufInit source localChannel dest, []⟩ := ⟨rfl, rfl⟩

omit [DecidableEq Client] in
theorem ModeWork.Fresh.settled {w : ModeWork Client} (fresh : w.Fresh) :
    w.settled .wasDelJoins = w.chan.mode.mode .wasDelJoins := by
  rw [ModeWork.settled_was, fresh.add, fresh.rem]
  simp

omit [DecidableEq Client] in
theorem ModeWork.Calm.fresh {w w' : ModeWork Client} (calm : w.Calm w') (fresh : w.Fresh) : w'.Fresh where
  add := Bool.eq_false_of_not_eq_true fun set => by
    have before := calm.add set
    rw [fresh.add] at before
    cases before
  rem := Bool.eq_false_of_not_eq_true fun set => by
    have before := calm.rem set
    rw [fresh.rem] at before
    cases before

omit [DecidableEq Client] in
theorem ModeWork.Fresh.sound {w : ModeWork Client} (fresh : w.Fresh) (hides : w.chan.Hides) : w.Sound where
  was := by
    rw [hides]
    exact fun both => (Bool.and_eq_true_iff.mp both).2
  settled := fresh.settled.trans hides

omit [DecidableEq Client] in
theorem ModeWork.Sound.hides {w : ModeWork Client} (sound : w.Sound) (fresh : w.Fresh) : w.chan.Hides :=
  fresh.settled.symm.trans sound.settled

omit [DecidableEq Client] in
theorem start_asked (work : ModeWork Client) (args : List (List Char)) : (ModeState.start work args).Asked none :=
  ⟨rfl, rfl, rfl, rfl⟩

/-- Modes that are not set, of which those about `D` are asked for: the flag is cleared if `D` is to come. -/
theorem unset_settled {flags : SourceFlags} {st : ModeState Client} (fresh : st.work.Fresh)
    (hides : st.chan.Hides) (unset : flags.set = false) (mbuf : flags.mbuf = true) (taken : flags.outsider = false)
    {asked : Option Dir} (now : st.Asked asked) {w : ModeWork Client}
    (calls : (st.finish site source flags).work.call site.names .flush = some w) :
    w.chan.Hides ↔ (st.chan.mode.mode .wasDelJoins = true → asked ≠ some .add) := by
  have calm : (st.simple flags).work.Calm (st.finish site source flags).work := (finish_spec site source mbuf taken).2 unset
  obtain ⟨chan, -, -⟩ := ModeWork.call_flush calls
  obtain ⟨add, rem⟩ := simple_mbuf st flags
  have same : (st.simple flags).chan = st.chan := by
    unfold ModeState.simple
    dsimp only
    rw [unset, if_neg Bool.false_ne_true]
    rfl
  have delJoins : w.chan.mode.mode .delJoins = st.chan.mode.mode .delJoins := by
    rw [chan, Channel.setFlags_mode]
    exact (settled_other _ _ (by decide)).trans (calm.delJoins.trans (by dsimp only [ModeState.work]; rw [same]))
  have hidden : findDelayedJoins w.chan = findDelayedJoins st.chan := by
    rw [chan]
    exact calm.hidden.trans (by dsimp only [ModeState.work]; rw [same])
  have was : w.chan.mode.mode .wasDelJoins = (st.chan.mode.mode .wasDelJoins && !(asked = some .add)) := by
    rw [chan, Channel.setFlags_mode, calm.settled, ModeWork.settled_was]
    dsimp only [ModeState.work]
    have addFresh : st.mbuf.add .delJoins = false := fresh.add
    have remFresh : st.mbuf.rem .delJoins = false := fresh.rem
    have sets : st.chan.mode.mode .delJoins = true → st.chan.mode.mode .wasDelJoins = false := by
      intro set
      rw [hides, set]
      rfl
    rw [same, add, rem, now.add, now.del, addFresh, remFresh]
    revert sets
    cases st.chan.mode.mode .wasDelJoins <;> cases st.chan.mode.mode .delJoins <;> cases findDelayedJoins st.chan <;>
      rcases asked with - | - | - <;> simp
  unfold Channel.Hides at hides ⊢
  rw [delJoins, hidden, was, ← hides]
  cases st.chan.mode.mode .wasDelJoins <;> simp

theorem parseModes_of {flags : SourceFlags} {work : ModeWork Client} {modestr : List Char}
    {args : List (List Char)} {r : ModeState Client × SourceFlags × Verdict}
    (strings : (ModeState.start work args).strings site source (args.length + 1) flags modestr = r) :
    (parseModes site source flags work modestr args).1 =
      if r.2.2 = .ignored then r.1 else r.1.finish site source r.2.1 := by
  unfold parseModes
  rw [strings]
  cases verdict : r.2.2 <;> simp [verdict]

theorem parseModes_sound {flags : SourceFlags} (set : flags.mbuf = true → flags.set = true) {work : ModeWork Client}
    (sound : work.Sound) (applied : source.server = false ∨ flags.burst = true) (modestr : List Char)
    (args : List (List Char)) : (parseModes site source flags work modestr args).1.work.Sound := by
  obtain ⟨st, calm, asked, outcome, verdict⟩ :=
    strings_spec site source flags (args.length + 1) (ModeState.start work args) modestr
  have verdict := verdict (applied.imp_right .inr)
  have asked (mbuf : flags.mbuf = true) (taken : flags.outsider = false) := asked mbuf taken ⟨none, start_asked work args⟩
  have sound : st.work.Sound := calm.sound sound
  generalize result : (ModeState.start work args).strings site source (args.length + 1) flags modestr = r at outcome verdict
  rw [parseModes_of result]
  cases outcome with
  | applied => exact finish_sound site source set asked sound
  | earlier time =>
    refine finish_sound site source set (fun mbuf taken => ?_) ⟨sound.was, sound.settled⟩
    obtain ⟨old, now⟩ := asked mbuf taken
    exact ⟨old, now.add, now.del, now.wasAdd, now.wasDel⟩
  | ignored => cases verdict
  | bounced deop => cases verdict

def ModeHandler.bounces (handler : ModeHandler) (bursting : Bool) (time : Int) (modestr : List Char)
    (args : List (List Char)) : Bool :=
  match handler with
  | .bounce => true
  | .server => !bursting && modestr ≠ [] && newerTime time (lineRest .add args modestr)
  | _ => false

omit [DecidableEq Client] in
theorem Channel.Hides.of_calm {w w' : ModeWork Client} (hides : w.chan.Hides) (fresh : w.Fresh) (calm : w.Calm w') :
    w'.chan.Hides :=
  (calm.sound (fresh.sound hides)).hides (calm.fresh fresh)

theorem parseModes_unbuffered {flags : SourceFlags} (mbuf : flags.mbuf = false) (set : flags.set = false)
    {work : ModeWork Client} (fresh : work.Fresh) (sound : work.Sound) (modestr : List Char)
    (args : List (List Char)) :
    (parseModes site source flags work modestr args).1.work.Fresh ∧
      (parseModes site source flags work modestr args).1.work.Sound := by
  obtain ⟨st, calm, -, outcome, verdict⟩ :=
    strings_spec site source flags (args.length + 1) (ModeState.start work args) modestr
  have verdict := verdict (.inr (.inl set))
  have fresh : st.work.Fresh := calm.fresh fresh
  have sound : st.work.Sound := calm.sound sound
  have unbuffered (st : ModeState Client) : st.finish site source flags = st := by
    unfold ModeState.finish
    rw [mbuf]
    rfl
  generalize result : (ModeState.start work args).strings site source (args.length + 1) flags modestr = r
    at outcome verdict
  rw [parseModes_of result]
  cases outcome with
  | applied =>
    rw [if_neg nofun, unbuffered]
    exact ⟨fresh, sound⟩
  | earlier time =>
    rw [if_neg nofun, unbuffered]
    exact ⟨⟨fresh.add, fresh.rem⟩, ⟨sound.was, sound.settled⟩⟩
  | ignored => cases verdict
  | bounced deop => cases verdict

/-- A line of a server: the flag is not what it is for if the line is bounced and asks for `D`. -/
theorem server_hides {flags : SourceFlags} (mbuf : flags.mbuf = true) (taken : flags.outsider = false)
    (strict : flags.strict = true) (burst : flags.burst = false) (remote : source.server = true)
    {work : ModeWork Client} (fresh : work.Fresh) (hides : work.chan.Hides) {modestr : List Char}
    {args : List (List Char)} {w : ModeWork Client}
    (calls : (parseModes site source flags work modestr args).1.work.call site.names .flush = some w) :
    w.chan.Hides ↔
      ((flags.set = true → source.bursting = false ∧ modestr ≠ [] ∧
          newerTime work.chan.creationTime (lineRest .add args modestr) = true) →
        work.chan.mode.mode .wasDelJoins = true → delJoinsAsked .add none modestr ≠ some .add) := by
  obtain ⟨st, calm, asked, outcome, bounced⟩ := strings_strict site args.length (ModeState.start work args) modestr
    remote strict burst mbuf taken (start_asked work args)
  obtain ⟨-, -, -, -, unset⟩ := strings_spec site source flags (args.length + 1) (ModeState.start work args) modestr
  have kept : st.chan.mode.mode .wasDelJoins = work.chan.mode.mode .wasDelJoins := by
    rcases calm.was with same | settled
    · exact same
    · exact settled.trans fresh.settled
  have now : st.chan.Hides := hides.of_calm fresh calm
  have fresh : st.work.Fresh := calm.fresh fresh
  generalize result : (ModeState.start work args).strings site source (args.length + 1) flags modestr = r
    at outcome bounced unset
  rw [parseModes_of result] at calls
  rw [← kept]
  -- modes that are taken leave the flag settled right
  have taken_over (st' : ModeState Client) (set : flags.set = true) (sound : st'.work.Sound) {asked : Option Dir}
      (now : st'.Asked asked) (here : r.2.2 ≠ .bounced)
      (calls : (st'.finish site source flags).work.call site.names .flush = some w) :
      w.chan.Hides ↔ ((flags.set = true → source.bursting = false ∧ modestr ≠ [] ∧
          newerTime work.chan.creationTime (lineRest .add args modestr) = true) →
        st.chan.mode.mode .wasDelJoins = true → delJoinsAsked .add none modestr ≠ some .add) := by
    refine iff_of_true ((finish_sound site source (fun _ => set) (fun _ _ => ⟨asked, now⟩) sound).flush calls) ?_
    intro goes
    exact absurd (bounced.mpr ⟨set, goes set⟩) here
  -- and modes that are not leave it alone, unless they ask for `D`
  have left_alone (st' : ModeState Client) (flags' : SourceFlags) (same : st'.chan.mode = st.chan.mode)
      (members : st'.chan.members = st.chan.members) (fresh : st'.work.Fresh) (unset : flags'.set = false)
      (mbuf : flags'.mbuf = true) (taken : flags'.outsider = false) (goes : flags.set = true → source.bursting = false ∧
        modestr ≠ [] ∧ newerTime work.chan.creationTime (lineRest .add args modestr) = true)
      (now' : st'.Asked (delJoinsAsked .add none modestr))
      (calls : (st'.finish site source flags').work.call site.names .flush = some w) :
      w.chan.Hides ↔ ((flags.set = true → source.bursting = false ∧ modestr ≠ [] ∧
          newerTime work.chan.creationTime (lineRest .add args modestr) = true) →
        st.chan.mode.mode .wasDelJoins = true → delJoinsAsked .add none modestr ≠ some .add) := by
    have hides : st'.chan.Hides := by
      unfold Channel.Hides findDelayedJoins
      rw [same, members]
      exact now
    rw [← same]
    exact (unset_settled fresh hides unset mbuf taken now' calls).trans
      ⟨fun settled _ => settled, fun settled => settled goes⟩
  cases outcome with
  | applied =>
    rw [if_neg nofun] at calls
    cases set : flags.set with
    | true =>
      rw [set] at taken_over
      exact taken_over st rfl (fresh.sound now) asked nofun calls
    | false =>
      rw [set] at left_alone
      exact left_alone st flags rfl rfl fresh set mbuf taken nofun asked calls
  | earlier time =>
    rw [if_neg nofun] at calls
    have asked' : ModeState.Asked { st with chan := { st.chan with creationTime := time } }
        (delJoinsAsked .add none modestr) := ⟨asked.add, asked.del, asked.wasAdd, asked.wasDel⟩
    have sound := fresh.sound now
    cases set : flags.set with
    | true =>
      rw [set] at taken_over
      exact taken_over { st with chan := { st.chan with creationTime := time } } rfl
        ⟨sound.was, sound.settled⟩ asked' nofun calls
    | false =>
      rw [set] at left_alone
      exact left_alone { st with chan := { st.chan with creationTime := time } } flags rfl rfl
        ⟨fresh.add, fresh.rem⟩ set mbuf taken nofun asked' calls
  | ignored =>
    have set : flags.set = true := by
      by_contra not_set
      cases unset (.inr (.inl (Bool.eq_false_of_not_eq_true not_set)))
    rw [if_pos rfl] at calls
    have dropped : (ModeState.work { st with mbuf := { st.mbuf with add := .none, rem := .none, count := 0 } }).Fresh :=
      ⟨rfl, rfl⟩
    refine iff_of_true ((dropped.sound now).flush calls) fun goes => ?_
    cases bounced.mpr ⟨set, goes set⟩
  | bounced deop =>
    rw [if_neg nofun] at calls
    exact left_alone { st with mbuf := st.mbuf.bounced deop } { flags with set := false, bounce := true } rfl rfl
      ⟨fresh.add, fresh.rem⟩ rfl mbuf taken (fun _ => (bounced.mp rfl).2) ⟨asked.add, asked.del, asked.wasAdd, asked.wasDel⟩ calls

/-- A mode message: the flag is what it is for, unless the message is bounced and asks for `D` while the flag
is set. -/
theorem modeMessage_hides (handler : ModeHandler) (dest : Dest) (hides : chan.Hides) {modestr : List Char}
    {args : List (List Char)} {w : ModeWork Client}
    (message : modeMessage site handler source dest chan modestr args = some w) :
    w.chan.Hides ↔ (handler.bounces source.bursting chan.creationTime modestr args = true →
      chan.mode.mode .wasDelJoins = true → delJoinsAsked .add none modestr ≠ some .add) := by
  unfold modeMessage at message
  dsimp only at message
  have fresh := fresh_init chan source.sptr site.localChannel dest
  have mine {handler : ModeHandler} (set : handler.flags.set = true) (local_source : handler.fromServer = false)
      (calls : ((parseModes site { source with server := handler.fromServer } handler.flags
        ⟨chan, modebufInit source.sptr site.localChannel dest, []⟩ modestr args).1.work.call site.names .flush) = some w) :
      w.chan.Hides :=
    (parseModes_sound (fun _ => set) (fresh.sound hides) (.inl local_source) modestr args).flush calls
  cases handler with
  | chanop => exact iff_of_true (mine rfl rfl message) nofun
  | localOper => exact iff_of_true (mine rfl rfl message) nofun
  | oper => exact iff_of_true (mine rfl rfl message) nofun
  | outsider member =>
    obtain rfl := Option.some.inj message
    have mbuf : (ModeHandler.outsider member).flags.mbuf = false := rfl
    obtain ⟨fresh, sound⟩ := parseModes_unbuffered mbuf rfl fresh (fresh.sound hides) modestr args
    exact iff_of_true (sound.hides fresh) nofun
  | server =>
    refine (server_hides rfl rfl rfl rfl rfl fresh hides message).trans ?_
    simp [ModeHandler.bounces, ModeHandler.flags, and_assoc]
  | bounce =>
    refine (server_hides rfl rfl rfl rfl rfl fresh hides message).trans ?_
    simp [ModeHandler.bounces, ModeHandler.flags]

end

end Ircd.Channels

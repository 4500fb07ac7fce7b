import Ircd.Channels.ModeParse

/-! A MODE line of a server whose timestamp is newer than the channel.

`mode_parse` reads the timestamp behind the letters. By then a limit, a key and the passes have
been set, and the bans of the line are linked into the list of the channel. The line is bounced or
ignored with the channel as it was only if no letter has changed it before.
-/

set_option autoImplicit false

namespace Ircd.Channels
open Ircd.Text

variable {Client : Type}

/-- The flags of `ms_mode` for a line that is taken from a server. -/
def serverFlags : ParseFlags := ⟨true, true, false, false, false, true⟩

/-! ### The letters of a line -/

structure Item where
  dir : Dir
  letter : Char
  arg : Option (List Char)

def takesArg (dir : Dir) (c : Char) : Bool := c = 'l' && dir = .add || c ∈ ['k', 'A', 'U', 'b', 'o', 'v']

def nextDir (dir : Dir) (c : Char) : Dir := if c = '+' then .add else if c = '-' then .del else dir

def nextArgs (dir : Dir) (c : Char) (args : List (List Char)) : List (List Char) :=
  if takesArg dir c then args.tail else args

def lineItems : Dir → List (List Char) → List Char → List Item
  | _, _, [] => []
  | dir, args, c :: rest =>
    ⟨dir, c, if takesArg dir c then args.head? else none⟩ :: lineItems (nextDir dir c) (nextArgs dir c args) rest

def lineRest : Dir → List (List Char) → List Char → List (List Char)
  | _, args, [] => args
  | dir, args, c :: rest => lineRest (nextDir dir c) (nextArgs dir c args) rest

/-! ### Letters that change nothing -/

def limitQuiet (m : Mode) (it : Item) : Bool :=
  match it.dir, it.arg with
  | .del, _ => m.limit = 0
  | .add, none => true
  | .add, some arg =>
    asInt (strtoul arg % 2 ^ 32) < 0 || strtoul arg % 2 ^ 32 = 0 || strtoul arg % 2 ^ 32 = m.limit

/-- All the letters that are acted on, after their `DONE_` bits, are quiet. -/
def passQuiet (letter : Char) (quiet : Dir → List Char → Bool) : DonePass → List Item → Bool
  | _, [] => true
  | done, it :: rest =>
    match (if it.letter = letter then it.arg else none) with
    | none => passQuiet letter quiet done rest
    | some arg =>
      match done.allow it.dir with
      | some done => quiet it.dir arg && passQuiet letter quiet done rest
      | none => passQuiet letter quiet done rest

def keyQuiet (m : Mode) (dir : Dir) (arg : List Char) : Bool :=
  !isCleanKey arg || match dir with
    | .add => ircdStrcmp m.key arg = 0
    | .del => m.key = []

def upassQuiet (m : Mode) (dir : Dir) (arg : List Char) : Bool :=
  !isCleanKey arg || match dir with
    | .add => ircdStrcmp m.upass arg = 0
    | .del => m.upass = []

def apassQuiet (chan : Channel Client) (dir : Dir) (arg : List Char) : Bool :=
  !isCleanKey arg || match dir with
    | .add => ircdStrcmp chan.mode.apass arg = 0 || chan.mode.apass ≠ []
    | .del => chan.mode.apass = [] && chan.mode.upass = [] &&
        chan.members.all fun m => !m.status.chanop || m.opLevel = maxOpLevel

def banText (it : Item) : Option (List Char) :=
  (it.arg.map (·.takeWhile (· ≠ ' '))).filter fun text => !(text = [] || peek text = ':')

/-- The ban that `mode_parse_ban` makes of a mask. -/
def lineBan (world : World Client) (dir : Dir) (text : List Char) : Ban :=
  ⟨world.banMask text, ['*'], world.now,
    ⟨world.isIpMask (world.banMask text), false, false, dir = .del, dir = .add, false, false⟩⟩

def banQuiet (world : World Client) (banlist : List Ban) (it : Item) : Bool :=
  match (if it.letter = 'b' then banText it else none) with
  | none => true
  | some text =>
    match it.dir with
    | .add => banlist.any fun ban => world.covers ban (lineBan world .add text)
    | .del => !banlist.any fun ban => world.covers (lineBan world .del text) ban

/-- The member and the level that a letter is about, as `mode_parse_client` reads them. -/
def itemChange (world : World Client) (it : Item) : Option (CliChange Client) :=
  match (if it.letter = 'o' ∨ it.letter = 'v' then it.arg else none) with
  | none => none
  | some arg =>
    let levelled : Bool := arg[5]? = some ':'
    (world.findNUser (if levelled then arg.take 5 else arg)).map fun client =>
      ⟨it.dir, if it.letter = 'o' then .chanop else .voice,
        if levelled then (atoi (arg.drop 6) % 2 ^ 16).toNat else maxOpLevel + 1, client⟩

def lineChanges [DecidableEq Client] (world : World Client) (items : List Item) (changes : List (CliChange Client)) :
    List (CliChange Client) :=
  items.foldl (fun changes it => match itemChange world it with
    | some change => enterChange change changes
    | none => changes) changes

def opQuiet [DecidableEq Client] (members : List (Membership Client)) (change : CliChange Client) : Bool :=
  change.dir = .del || change.mode = .voice || members.all fun m =>
    m.user ≠ change.client || m.status.chanop ||
      m.opLevel = if change.opLevel ≤ maxOpLevel then change.opLevel else maxOpLevel

/-- No letter of the line changes the channel before the timestamp is read. -/
structure Quiet [DecidableEq Client] (world : World Client) (bursting : Bool) (chan : Channel Client)
    (modestr : List Char) (args : List (List Char)) : Prop where
  limit : ∀ it ∈ lineItems .add args modestr, it.letter = 'l' → limitQuiet chan.mode it = true
  key : passQuiet 'k' (keyQuiet chan.mode) ⟨false, false⟩ (lineItems .add args modestr) = true
  apass : passQuiet 'A' (apassQuiet chan) ⟨false, false⟩ (lineItems .add args modestr) = true
  upass : passQuiet 'U' (upassQuiet chan.mode) ⟨false, false⟩ (lineItems .add args modestr) = true
  bans : bursting = true → ∀ it ∈ lineItems .add args modestr, banQuiet world chan.banlist it = true
  ops : bursting = false → ∀ change ∈ lineChanges world (lineItems .add args modestr) [],
    opQuiet chan.members change = true

def Channel.Settled (chan : Channel Client) : Prop := ∀ ban ∈ chan.banlist, ban.onlyIpMask = ban

structure Unchanged (chan chan' : Channel Client) : Prop where
  mode : chan'.mode = chan.mode
  members : chan'.members = chan.members
  bans : chan'.banlist = chan.banlist

/-! ### One letter -/

section
variable [DecidableEq Client]

/-- The bans in the list of the channel while a line is read: those of the channel, with marks, and
behind them those of the line. -/
def BansKept (chan : Channel Client) (banlist : List Ban) : Prop :=
  ∃ old new, banlist = old ++ new ∧ old.map Ban.onlyIpMask = chan.banlist ∧
    (∀ ban ∈ old, ban.flags.add = false ∧ (ban.flags.del = false → ban.onlyIpMask = ban)) ∧
    ∀ ban ∈ new, ban.flags.add = true

structure Kept (chan : Channel Client) (bursting : Bool) (st : ParseState Client) : Prop where
  mode : st.chan.mode = chan.mode
  members : st.chan.members = chan.members
  time : st.chan.creationTime = chan.creationTime
  bans : st.chan.banlist = chan.banlist ∧ (st.done.banClean = true → bursting = true) ∨
    st.done.banClean = true ∧ bursting = false ∧ BansKept chan st.chan.banlist

def Reads (st st' : ParseState Client) (args : List (List Char)) : Prop := st'.dir = st.dir ∧ st'.args = args

omit [DecidableEq Client] in
theorem parseLimitValue_reads (flags : ParseFlags) (st : ParseState Client) (tLimit : Nat) :
    Reads st (parseLimitValue flags st tLimit) st.args := by
  unfold parseLimitValue Reads
  split
  · exact ⟨rfl, rfl⟩
  · split
    · exact ⟨rfl, rfl⟩
    · split
      · exact ⟨rfl, rfl⟩
      · dsimp only
        split
        · exact ⟨rfl, rfl⟩
        · cases st.dir <;> exact ⟨rfl, rfl⟩

omit [DecidableEq Client] in
theorem modeParseLimit_reads (flags : ParseFlags) (st : ParseState Client) :
    Reads st (modeParseLimit flags st) (if st.dir = .add then st.args.tail else st.args) := by
  obtain ⟨chan, args, dir, done, add, del, changes⟩ := st
  cases dir with
  | del => exact parseLimitValue_reads flags _ _
  | add =>
    cases args with
    | nil => exact ⟨rfl, rfl⟩
    | cons arg rest =>
      unfold modeParseLimit
      dsimp only
      split
      · exact ⟨rfl, rfl⟩
      · split
        · exact ⟨rfl, rfl⟩
        · exact parseLimitValue_reads flags ⟨chan, rest, .add, done, add, del, changes⟩ _

omit [DecidableEq Client] in
theorem parsePass_reads {flags : ParseFlags} {allow : Done → Dir → Option Done}
    {refused : ParseState Client → List Char → Bool} {apply : ParseState Client → List Char → ParseState Client}
    (keeps : ∀ st arg, Reads st (apply st arg) st.args) (st : ParseState Client) :
    Reads st (parsePass flags allow refused apply st) st.args.tail := by
  unfold parsePass
  cases args : st.args with
  | nil => exact ⟨rfl, args⟩
  | cons arg rest =>
    dsimp only
    cases allow st.done st.dir with
    | none => exact ⟨rfl, rfl⟩
    | some done =>
      dsimp only
      split
      · exact ⟨rfl, rfl⟩
      · exact keeps { st with args := rest, done := done } arg

omit [DecidableEq Client] in
theorem applyKey_reads (st : ParseState Client) (arg : List Char) : Reads st (applyKey st arg) st.args := by
  obtain ⟨chan, args, dir, done, add, del, changes⟩ := st
  cases dir <;> exact ⟨rfl, rfl⟩

omit [DecidableEq Client] in
theorem applyUpass_reads (st : ParseState Client) (arg : List Char) : Reads st (applyUpass st arg) st.args := by
  obtain ⟨chan, args, dir, done, add, del, changes⟩ := st
  cases dir <;> exact ⟨rfl, rfl⟩

omit [DecidableEq Client] in
theorem applyApass_reads (flags : ParseFlags) (st : ParseState Client) (arg : List Char) :
    Reads st (applyApass flags st arg) st.args := by
  obtain ⟨chan, args, dir, done, add, del, changes⟩ := st
  cases dir with
  | add =>
    unfold applyApass
    dsimp only
    split <;> exact ⟨rfl, rfl⟩
  | del => exact ⟨rfl, rfl⟩

omit [DecidableEq Client] in
theorem modeParseBan_reads (world : World Client) (st : ParseState Client) :
    Reads st (modeParseBan world st) st.args.tail := by
  unfold modeParseBan
  cases args : st.args with
  | nil => exact ⟨rfl, args⟩
  | cons arg rest =>
    dsimp only
    split <;> exact ⟨rfl, rfl⟩

theorem modeParseClient_reads (world : World Client) (flags : ParseFlags) (mode : MemberMode) (st : ParseState Client) :
    Reads st (modeParseClient world flags mode st) st.args.tail := by
  unfold modeParseClient
  cases args : st.args with
  | nil => exact ⟨rfl, args⟩
  | cons arg rest =>
    dsimp only
    split <;> exact ⟨rfl, rfl⟩

omit [DecidableEq Client] in
theorem modeParseMode_reads (flags : ParseFlags) (f : Flag) (st : ParseState Client) :
    Reads st (modeParseMode flags f st) st.args := by
  obtain ⟨chan, args, dir, done, add, del, changes⟩ := st
  unfold modeParseMode
  split
  · exact ⟨rfl, rfl⟩
  · cases dir <;> exact ⟨rfl, rfl⟩

def specialLetters : List Char := ['+', '-', 'l', 'k', 'A', 'U', 'b', 'o', 'v']

theorem parseLetter_other (world : World Client) (flags : ParseFlags) (st : ParseState Client) {c : Char}
    (other : c ∉ specialLetters) :
    parseLetter world flags st c = st ∨ ∃ f, parseLetter world flags st c = modeParseMode flags f st := by
  simp only [specialLetters, List.mem_cons, List.not_mem_nil, or_false, not_or] at other
  obtain ⟨plus, minus, limit, key, apass, upass, ban, op, voice⟩ := other
  unfold parseLetter
  simp only [plus, minus, limit, key, apass, upass, ban, op, voice, if_false]
  cases simpleFlag c with
  | none => exact .inl rfl
  | some f => exact .inr ⟨f, rfl⟩

theorem parseLetter_reads (world : World Client) (flags : ParseFlags) (st : ParseState Client) (c : Char) :
    (parseLetter world flags st c).dir = nextDir st.dir c ∧
      (parseLetter world flags st c).args = nextArgs st.dir c st.args := by
  by_cases special : c ∈ specialLetters
  · simp only [specialLetters, List.mem_cons, List.not_mem_nil, or_false] at special
    rcases special with rfl | rfl | rfl | rfl | rfl | rfl | rfl | rfl | rfl
    · exact ⟨rfl, rfl⟩
    · exact ⟨rfl, rfl⟩
    · have reads := modeParseLimit_reads flags st
      refine ⟨reads.1, reads.2.trans ?_⟩
      cases st.dir <;> rfl
    · exact parsePass_reads applyKey_reads st
    · exact parsePass_reads (applyApass_reads flags) st
    · exact parsePass_reads applyUpass_reads st
    · exact modeParseBan_reads world st
    · exact modeParseClient_reads world flags .chanop st
    · exact modeParseClient_reads world flags .voice st
  · have plain : nextDir st.dir c = st.dir ∧ nextArgs st.dir c st.args = st.args := by
      simp only [specialLetters, List.mem_cons, List.not_mem_nil, or_false, not_or] at special
      simp [nextDir, nextArgs, takesArg, special]
    rw [plain.1, plain.2]
    rcases parseLetter_other world flags st special with same | ⟨f, flag⟩
    · rw [same]
      exact ⟨rfl, rfl⟩
    · rw [flag]
      exact modeParseMode_reads flags f st

/-! ### One quiet letter -/

variable {chan : Channel Client} {st : ParseState Client}

omit [DecidableEq Client] in
theorem modeParseLimit_quiet (mode : st.chan.mode = chan.mode)
    (quiet : limitQuiet chan.mode ⟨st.dir, 'l', if takesArg st.dir 'l' then st.args.head? else none⟩ = true) :
    modeParseLimit serverFlags st = { st with args := nextArgs st.dir 'l' st.args } := by
  obtain ⟨_, args, dir, done, add, del, changes⟩ := st
  dsimp only at mode
  cases dir with
  | del =>
    have none_set : chan.mode.limit = 0 := by simpa [limitQuiet] using quiet
    simp [modeParseLimit, parseLimitValue, ParseState.mode, mode, none_set, nextArgs, takesArg]
  | add =>
    cases args with
    | nil => rfl
    | cons arg rest =>
      simp only [limitQuiet, takesArg, decide_true, Bool.and_self, Bool.true_or, if_true, List.head?_cons,
        Bool.or_eq_true, decide_eq_true_eq] at quiet
      simp only [modeParseLimit, ParseState.mode, mode, serverFlags, nextArgs, takesArg]
      rcases quiet with (negative | zero) | same
      · simp [-Nat.reducePow, negative]
      · simp [-Nat.reducePow, zero]
      · simp [-Nat.reducePow, same]

omit [DecidableEq Client] in
theorem parsePass_quiet {allow : Done → Dir → Option Done} {refused : ParseState Client → List Char → Bool}
    {apply : ParseState Client → List Char → ParseState Client} {arg : List Char} {rest : List (List Char)}
    (args : st.args = arg :: rest) {done : Done} (allowed : allow st.done st.dir = some done) (quiet : isCleanKey arg = false ∨ refused { st with args := rest, done := done } arg = true ∨
      apply { st with args := rest, done := done } arg = { st with args := rest, done := done }) :
    parsePass serverFlags allow refused apply st = { st with args := rest, done := done } := by
  unfold parsePass
  rw [args]
  simp only [allowed, serverFlags, Bool.not_true, Bool.or_false]
  rcases quiet with unclean | refuses | same
  · simp [unclean]
  · simp [refuses]
  · split
    · rfl
    · exact same

omit [DecidableEq Client] in
theorem keyQuiet_spec (mode : st.chan.mode = chan.mode) {arg : List Char}
    (quiet : keyQuiet chan.mode st.dir arg = true) :
    isCleanKey arg = false ∨ keyRefused serverFlags st arg = true ∨ applyKey st arg = st := by
  obtain ⟨⟨time, current, members, bans⟩, args, dir, done, add, del, changes⟩ := st
  dsimp only at mode
  subst mode
  simp only [keyQuiet, Bool.or_eq_true, Bool.not_eq_true'] at quiet
  rcases quiet with unclean | same
  · exact .inl unclean
  · cases dir with
    | add => exact .inr (.inl (by simp [keyRefused, noChange, serverFlags, ParseState.mode, of_decide_eq_true same]))
    | del =>
      have empty : chan.mode.key = [] := of_decide_eq_true same
      exact .inr (.inr (by simp [applyKey, ParseState.setMode, ParseState.mode, ← empty]))

omit [DecidableEq Client] in
theorem upassQuiet_spec (mode : st.chan.mode = chan.mode) {arg : List Char}
    (quiet : upassQuiet chan.mode st.dir arg = true) :
    isCleanKey arg = false ∨ upassRefused serverFlags st arg = true ∨ applyUpass st arg = st := by
  obtain ⟨⟨time, current, members, bans⟩, args, dir, done, add, del, changes⟩ := st
  dsimp only at mode
  subst mode
  simp only [upassQuiet, Bool.or_eq_true, Bool.not_eq_true'] at quiet
  rcases quiet with unclean | same
  · exact .inl unclean
  · cases dir with
    | add => exact .inr (.inl (by simp [upassRefused, noChange, serverFlags, ParseState.mode, of_decide_eq_true same]))
    | del =>
      have empty : chan.mode.upass = [] := of_decide_eq_true same
      exact .inr (.inr (by simp [applyUpass, ParseState.setMode, ParseState.mode, ← empty]))

omit [DecidableEq Client] in
theorem resetLevels_quiet {members : List (Membership Client)}
    (levels : ∀ m ∈ members, m.status.chanop = false ∨ m.opLevel = maxOpLevel) : resetLevels members = members := by
  unfold resetLevels
  refine (List.map_congr_left fun m mem => ?_).trans (List.map_id members)
  rcases levels m mem with plain | top
  · simp [plain]
  · simp [← top]

theorem clearPasses {m : Mode} (apass : m.apass = []) (upass : m.upass = []) :
    (⟨m.mode, m.limit, m.key, [], []⟩ : Mode) = m := by
  obtain ⟨flags, limit, key, _, _⟩ := m
  dsimp only at apass upass
  rw [apass, upass]

omit [DecidableEq Client] in
theorem apassQuiet_spec (mode : st.chan.mode = chan.mode) (members : st.chan.members = chan.members)
    {arg : List Char} (quiet : apassQuiet chan st.dir arg = true) :
    isCleanKey arg = false ∨ apassRefused serverFlags st arg = true ∨ applyApass serverFlags st arg = st := by
  obtain ⟨⟨time, current, here, bans⟩, args, dir, done, add, del, changes⟩ := st
  dsimp only at mode members
  subst mode members
  simp only [apassQuiet, Bool.or_eq_true, Bool.not_eq_true'] at quiet
  rcases quiet with unclean | same
  · exact .inl unclean
  · cases dir with
    | add =>
      simp only [Bool.or_eq_true, decide_eq_true_eq] at same
      rcases same with equal | other
      · exact .inr (.inl (by simp [apassRefused, noChange, serverFlags, ParseState.mode, equal]))
      · exact .inr (.inr (by simp [applyApass, serverFlags, ParseState.mode, other]))
    | del =>
      simp only [Bool.and_eq_true, decide_eq_true_eq, List.all_eq_true, Bool.or_eq_true, Bool.not_eq_true'] at same
      obtain ⟨⟨apass, upass⟩, levels⟩ := same
      refine .inr (.inr ?_)
      simp only [applyApass, ParseState.setMode, ParseState.mode, resetLevels_quiet levels]
      rw [clearPasses apass upass]

/-! Bans of the line are entered behind those of the channel. -/

omit [DecidableEq Client] in
theorem modeParseBan_eq (world : World Client) (st : ParseState Client) :
    modeParseBan world st =
      match banText ⟨st.dir, 'b', st.args.head?⟩ with
      | none => { st with args := st.args.tail }
      | some text => { st with
          args := st.args.tail
          done := { st.done with banClean := true }
          chan := { st.chan with
            banlist := applyBan world (if st.done.banClean then st.chan.banlist else st.chan.banlist.map Ban.clean)
              (lineBan world st.dir text) } } := by
  obtain ⟨chan, args, dir, done, add, del, changes⟩ := st
  cases args with
  | nil => rfl
  | cons arg rest =>
    unfold modeParseBan banText
    dsimp only
    split
    · rename_i skip
      simp only [List.head?_cons, Option.map_some, Option.filter, skip]
      rfl
    · rename_i usable
      simp only [List.head?_cons, Option.map_some, Option.filter, Bool.not_eq_true _ ▸ usable]
      rfl

/-- The marks that `apply_ban` sets on a ban that the new one covers. -/
def markCovered (world : World Client) (newban ban : Ban) : Ban :=
  if world.covers newban ban then { ban with flags := { ban.flags with overlapped := true, del := true } } else ban

omit [DecidableEq Client] in
theorem markCovered_flags (world : World Client) (newban ban : Ban) :
    (markCovered world newban ban).flags.add = ban.flags.add ∧
      ((markCovered world newban ban).flags.del = false → markCovered world newban ban = ban) := by
  unfold markCovered
  split
  · exact ⟨rfl, nofun⟩
  · exact ⟨rfl, fun _ => rfl⟩

omit [DecidableEq Client] in
theorem markCovered_onlyIpMask (world : World Client) (newban : Ban) (l : List Ban) :
    (l.map (markCovered world newban)).map Ban.onlyIpMask = l.map Ban.onlyIpMask := by
  rw [List.map_map]
  apply List.map_congr_left
  intro ban _
  simp only [Function.comp_apply, markCovered]
  split <;> rfl

omit [DecidableEq Client] in
theorem applyBan_eq (world : World Client) (banlist : List Ban) (newban : Ban) :
    applyBan world banlist newban =
      if newban.flags.add then
        if banlist.any fun ban => world.covers ban newban && !ban.flags.del then banlist
        else banlist.map (markCovered world newban) ++ [newban]
      else banlist.map (markCovered world newban) := rfl

omit [DecidableEq Client] in
theorem BansKept.apply {banlist : List Ban} (kept : BansKept chan banlist) (world : World Client) (newban : Ban) :
    BansKept chan (applyBan world banlist newban) := by
  obtain ⟨old, new, rfl, same, plain, added⟩ := kept
  have front := (markCovered_onlyIpMask world newban old).trans same
  have front_marks : ∀ ban ∈ old.map (markCovered world newban),
      ban.flags.add = false ∧ (ban.flags.del = false → ban.onlyIpMask = ban) := by
    intro ban mem
    obtain ⟨before, there, rfl⟩ := List.mem_map.mp mem
    obtain ⟨add, unmarked⟩ := markCovered_flags world newban before
    refine ⟨add.trans (plain before there).1, fun kept => ?_⟩
    rw [unmarked kept]
    rw [unmarked kept] at kept
    exact (plain before there).2 kept
  have back_marks : ∀ ban ∈ new.map (markCovered world newban), ban.flags.add = true := by
    intro ban mem
    obtain ⟨before, there, rfl⟩ := List.mem_map.mp mem
    exact (markCovered_flags world newban before).1.trans (added before there)
  rw [applyBan_eq]
  cases adds : newban.flags.add with
  | false =>
    simp only [Bool.false_eq_true, if_false, List.map_append]
    exact ⟨_, _, rfl, front, front_marks, back_marks⟩
  | true =>
    simp only [if_true]
    split
    · exact ⟨old, new, rfl, same, plain, added⟩
    · rw [List.map_append, List.append_assoc]
      refine ⟨_, _, rfl, front, front_marks, ?_⟩
      intro ban mem
      rcases List.mem_append.mp mem with mem | mem
      · exact back_marks ban mem
      · rw [List.mem_singleton.mp mem, adds]

def bouncedBan (ban : Ban) : Option Ban :=
  if ban.flags.add then none else if ban.flags.del then some ban.onlyIpMask else some ban

theorem bouncedBan_front {l : List Ban}
    (plain : ∀ ban ∈ l, ban.flags.add = false ∧ (ban.flags.del = false → ban.onlyIpMask = ban)) :
    l.filterMap bouncedBan = l.map Ban.onlyIpMask := by
  induction l with
  | nil => rfl
  | cons ban l ih =>
    have rest := ih fun b mem => plain b (List.mem_cons_of_mem ban mem)
    obtain ⟨here, unmarked⟩ := plain ban List.mem_cons_self
    have one : bouncedBan ban = some ban.onlyIpMask := by
      cases del : ban.flags.del with
      | true => simp [bouncedBan, here, del]
      | false => simp [bouncedBan, here, del, unmarked del]
    rw [List.filterMap_cons_some one, List.map_cons, rest]

omit [DecidableEq Client] in
theorem BansKept.process {banlist : List Ban} (kept : BansKept chan banlist) {flags : ParseFlags}
    (bounced : flags.set = false) : modeProcessBans flags banlist = chan.banlist := by
  obtain ⟨old, new, rfl, same, plain, added⟩ := kept
  have back : new.filterMap bouncedBan = [] := by
    apply List.filterMap_eq_nil_iff.mpr
    intro ban mem
    simp [bouncedBan, added ban mem]
  have processed : modeProcessBans flags (old ++ new) = (old ++ new).filterMap bouncedBan := by
    unfold modeProcessBans bouncedBan
    simp only [bounced, Bool.false_eq_true, if_false]
  rw [processed, List.filterMap_append, back, List.append_nil, bouncedBan_front plain, same]

theorem onlyIpMask_clean {ban : Ban} (settled : ban.onlyIpMask = ban) : ban.clean = ban := by
  rw [← settled]
  rfl

omit [DecidableEq Client] in
theorem Channel.Settled.clean (settled : chan.Settled) :
    chan.banlist.map Ban.clean = chan.banlist :=
  (List.map_congr_left fun ban mem => onlyIpMask_clean (settled ban mem)).trans (List.map_id _)

omit [DecidableEq Client] in
theorem Channel.Settled.bansKept (settled : chan.Settled) : BansKept chan chan.banlist := by
  refine ⟨chan.banlist, [], (List.append_nil _).symm, ?_, ?_, fun _ => nofun⟩
  · exact (List.map_congr_left fun ban mem => settled ban mem).trans (List.map_id _)
  · intro ban mem
    have same := settled ban mem
    refine ⟨?_, fun _ => same⟩
    rw [← same]
    rfl

variable {world : World Client}

omit [DecidableEq Client] in
theorem applyBan_quiet (settled : chan.Settled) {dir : Dir} {text : List Char} (quiet : (match dir with
      | .add => chan.banlist.any fun ban => world.covers ban (lineBan world .add text)
      | .del => !chan.banlist.any fun ban => world.covers (lineBan world .del text) ban) = true) :
    applyBan world chan.banlist (lineBan world dir text) = chan.banlist := by
  rw [applyBan_eq]
  cases dir with
  | add =>
    obtain ⟨ban, mem, covers⟩ := List.any_eq_true.mp quiet
    have unmarked : ban.flags.del = false := by
      rw [← settled ban mem]
      rfl
    have covered : (chan.banlist.any fun ban => world.covers ban (lineBan world .add text) && !ban.flags.del) = true :=
      List.any_eq_true.mpr ⟨ban, mem, by simp [covers, unmarked]⟩
    rw [if_pos (by simp [lineBan]), if_pos covered]
  | del =>
    rw [if_neg (by simp [lineBan])]
    refine (List.map_congr_left fun ban mem => ?_).trans (List.map_id _)
    have uncovered : world.covers (lineBan world .del text) ban = false := by
      simp only [Bool.not_eq_true', List.any_eq_false, Bool.not_eq_true] at quiet
      exact quiet ban mem
    simp [markCovered, uncovered]

def itemAt (st : ParseState Client) (c : Char) : Item :=
  ⟨st.dir, c, if takesArg st.dir c then st.args.head? else none⟩

structure Pending (world : World Client) (chan : Channel Client) (bursting : Bool) (st : ParseState Client) (items : List Item) : Prop where
  kept : Kept chan bursting st
  limit : ∀ it ∈ items, it.letter = 'l' → limitQuiet chan.mode it = true
  key : passQuiet 'k' (keyQuiet chan.mode) st.done.key items = true
  apass : passQuiet 'A' (apassQuiet chan) st.done.apass items = true
  upass : passQuiet 'U' (upassQuiet chan.mode) st.done.upass items = true
  bans : bursting = true → ∀ it ∈ items, banQuiet world chan.banlist it = true

variable {items : List Item}

theorem passQuiet_skip {letter : Char} {quiet : Dir → List Char → Bool} {done : DonePass} {it : Item}
    (other : it.letter ≠ letter) :
    passQuiet letter quiet done (it :: items) = passQuiet letter quiet done items := by
  simp [passQuiet, other]

theorem passQuiet_cons {letter : Char} {quiet : Dir → List Char → Bool} {done : DonePass} {dir : Dir}
    {arg : List Char} (all : passQuiet letter quiet done (⟨dir, letter, some arg⟩ :: items) = true) :
    (done.allow dir = none ∧ passQuiet letter quiet done items = true) ∨
      ∃ done', done.allow dir = some done' ∧ quiet dir arg = true ∧ passQuiet letter quiet done' items = true := by
  simp only [passQuiet, if_true] at all
  cases allowed : done.allow dir with
  | none => exact .inl ⟨rfl, by simpa [allowed] using all⟩
  | some done' =>
    simp only [allowed, Bool.and_eq_true] at all
    exact .inr ⟨done', rfl, all⟩

variable {bursting : Bool}

omit [DecidableEq Client] in
theorem Pending.next {st' : ParseState Client} {it : Item}
    (pending : Pending world chan bursting st (it :: items)) (kept : Kept chan bursting st')
    (key : st'.done.key = st.done.key) (apass : st'.done.apass = st.done.apass)
    (upass : st'.done.upass = st.done.upass) (other : it.letter ∉ ['k', 'A', 'U']) :
    Pending world chan bursting st' items := by
  simp only [List.mem_cons, List.not_mem_nil, or_false, not_or] at other
  refine ⟨kept, fun it mem => pending.limit it (List.mem_cons_of_mem _ mem), ?_, ?_, ?_,
    fun burst it mem => pending.bans burst it (List.mem_cons_of_mem _ mem)⟩
  · rw [key, ← passQuiet_skip other.1]
    exact pending.key
  · rw [apass, ← passQuiet_skip other.2.1]
    exact pending.apass
  · rw [upass, ← passQuiet_skip other.2.2]
    exact pending.upass

omit [DecidableEq Client] in
theorem Kept.congr {st' : ParseState Client} (kept : Kept chan bursting st) (same : st'.chan = st.chan)
    (clean : st'.done.banClean = st.done.banClean) : Kept chan bursting st' := by
  refine ⟨?_, ?_, ?_, ?_⟩
  · rw [same]
    exact kept.mode
  · rw [same]
    exact kept.members
  · rw [same]
    exact kept.time
  · rw [same, clean]
    exact kept.bans

omit [DecidableEq Client] in
theorem Pending.ban (settled : chan.Settled) (pending : Pending world chan bursting st (itemAt st 'b' :: items)) :
    Pending world chan bursting (modeParseBan world st) items ∧ (modeParseBan world st).cliChange = st.cliChange := by
  have kept := pending.kept
  have quiet (burst : bursting = true) := pending.bans burst (itemAt st 'b') List.mem_cons_self
  have none_else : (itemAt st 'b').letter ∉ ['k', 'A', 'U'] := by simp [itemAt]
  rw [modeParseBan_eq]
  cases read : banText ⟨st.dir, 'b', st.args.head?⟩ with
  | none => exact ⟨pending.next (kept.congr rfl rfl) rfl rfl rfl none_else, rfl⟩
  | some text =>
    have text_at : banText (itemAt st 'b') = some text := by
      simpa [itemAt, takesArg] using read
    refine ⟨pending.next ⟨kept.mode, kept.members, kept.time, ?_⟩ rfl rfl rfl none_else, rfl⟩
    have cleaned : (if st.done.banClean then st.chan.banlist else st.chan.banlist.map Ban.clean) = chan.banlist ∧
        bursting = true ∨ bursting = false ∧
          BansKept chan (if st.done.banClean then st.chan.banlist else st.chan.banlist.map Ban.clean) := by
      rcases kept.bans with ⟨same, burst⟩ | ⟨later, link, bans⟩
      · rw [same, settled.clean, ite_self]
        cases bursting with
        | true => exact .inl ⟨rfl, rfl⟩
        | false => exact .inr ⟨rfl, settled.bansKept⟩
      · rw [later, if_pos rfl]
        exact .inr ⟨link, bans⟩
    rcases cleaned with ⟨same, burst⟩ | ⟨link, bans⟩
    · refine .inl ⟨?_, fun _ => burst⟩
      change applyBan world _ _ = chan.banlist
      rw [same]
      apply applyBan_quiet settled
      have chosen : (if (itemAt st 'b').letter = 'b' then banText (itemAt st 'b') else none) = some text :=
        (if_pos rfl).trans text_at
      have all := quiet burst
      unfold banQuiet at all
      rw [chosen] at all
      exact all
    · exact .inr ⟨rfl, link, bans.apply world _⟩

omit [DecidableEq Client] in
theorem parsePass_pending (field : Done → DonePass) (put : Done → DonePass → Done)
    (allow : Done → Dir → Option Done) (refused : ParseState Client → List Char → Bool)
    (apply : ParseState Client → List Char → ParseState Client) {letter : Char} {quiet : Dir → List Char → Bool}
    (kept : Kept chan bursting st)
    (allow_eq : ∀ done dir, allow done dir = ((field done).allow dir).map (put done))
    (field_put : ∀ done pass, field (put done pass) = pass)
    (clean_put : ∀ done pass, (put done pass).banClean = done.banClean) (quiet_spec : ∀ st arg, Kept chan bursting st → quiet st.dir arg = true →
      isCleanKey arg = false ∨ refused st arg = true ∨ apply st arg = st)
    (all : passQuiet letter quiet (field st.done) (⟨st.dir, letter, st.args.head?⟩ :: items) = true) :
    ∃ done, parsePass serverFlags allow refused apply st = { st with args := st.args.tail, done := done } ∧
      (done = st.done ∨ ∃ pass, done = put st.done pass) ∧ passQuiet letter quiet (field done) items = true := by
  obtain ⟨here, args, dir, done, add, del, changes⟩ := st
  cases args with
  | nil => exact ⟨done, rfl, .inl rfl, by simpa [passQuiet] using all⟩
  | cons arg rest =>
    rcases passQuiet_cons all with ⟨blocked, left⟩ | ⟨pass, allowed, quiet_arg, left⟩
    · refine ⟨done, ?_, .inl rfl, left⟩
      have none_allowed : allow done dir = none := by rw [allow_eq, blocked]; rfl
      simp only [parsePass, none_allowed]
      rfl
    · have some_allowed : allow done dir = some (put done pass) := by rw [allow_eq, allowed]; rfl
      refine ⟨put done pass, ?_, .inr ⟨pass, rfl⟩, by rw [field_put]; exact left⟩
      apply parsePass_quiet rfl some_allowed
      apply quiet_spec
      · exact kept.congr rfl (clean_put done pass)
      · exact quiet_arg

theorem Pending.pass {c : Char} (pending : Pending world chan bursting st (itemAt st c :: items))
    (which : c ∈ ['k', 'A', 'U']) :
    Pending world chan bursting (parseLetter world serverFlags st c) items ∧
      (parseLetter world serverFlags st c).cliChange = st.cliChange := by
  have limit := fun it mem => pending.limit it (List.mem_cons_of_mem (itemAt st c) mem)
  have bans := fun burst it mem => pending.bans burst it (List.mem_cons_of_mem (itemAt st c) mem)
  have kept := pending.kept
  simp only [List.mem_cons, List.not_mem_nil, or_false] at which
  rcases which with rfl | rfl | rfl
  · obtain ⟨done, parsed, from_done, key⟩ := parsePass_pending Done.key (fun done pass => { done with key := pass })
      allowKey (keyRefused serverFlags) applyKey kept (fun _ _ => rfl) (fun _ _ => rfl) (fun _ _ => rfl)
      (fun st arg kept quiet => keyQuiet_spec kept.mode quiet) pending.key
    have others : done.apass = st.done.apass ∧ done.upass = st.done.upass ∧ done.banClean = st.done.banClean := by
      rcases from_done with rfl | ⟨pass, rfl⟩ <;> exact ⟨rfl, rfl, rfl⟩
    have result : parseLetter world serverFlags st 'k' = { st with args := st.args.tail, done := done } := parsed
    have apass := (passQuiet_skip (by simp [itemAt])).symm.trans pending.apass
    have upass := (passQuiet_skip (by simp [itemAt])).symm.trans pending.upass
    rw [← others.1] at apass
    rw [← others.2.1] at upass
    rw [result]
    exact ⟨⟨kept.congr rfl others.2.2, limit, key, apass, upass, bans⟩, rfl⟩
  · obtain ⟨done, parsed, from_done, apass⟩ := parsePass_pending Done.apass (fun done pass => { done with apass := pass })
      allowApass (apassRefused serverFlags) (applyApass serverFlags) kept (fun _ _ => rfl) (fun _ _ => rfl)
      (fun _ _ => rfl) (fun st arg kept quiet => apassQuiet_spec kept.mode kept.members quiet) pending.apass
    have others : done.key = st.done.key ∧ done.upass = st.done.upass ∧ done.banClean = st.done.banClean := by
      rcases from_done with rfl | ⟨pass, rfl⟩ <;> exact ⟨rfl, rfl, rfl⟩
    have result : parseLetter world serverFlags st 'A' = { st with args := st.args.tail, done := done } := parsed
    have key := (passQuiet_skip (by simp [itemAt])).symm.trans pending.key
    have upass := (passQuiet_skip (by simp [itemAt])).symm.trans pending.upass
    rw [← others.1] at key
    rw [← others.2.1] at upass
    rw [result]
    exact ⟨⟨kept.congr rfl others.2.2, limit, key, apass, upass, bans⟩, rfl⟩
  · obtain ⟨done, parsed, from_done, upass⟩ := parsePass_pending Done.upass (fun done pass => { done with upass := pass })
      allowUpass (upassRefused serverFlags) applyUpass kept (fun _ _ => rfl) (fun _ _ => rfl) (fun _ _ => rfl)
      (fun st arg kept quiet => upassQuiet_spec kept.mode quiet) pending.upass
    have others : done.key = st.done.key ∧ done.apass = st.done.apass ∧ done.banClean = st.done.banClean := by
      rcases from_done with rfl | ⟨pass, rfl⟩ <;> exact ⟨rfl, rfl, rfl⟩
    have result : parseLetter world serverFlags st 'U' = { st with args := st.args.tail, done := done } := parsed
    have key := (passQuiet_skip (by simp [itemAt])).symm.trans pending.key
    have apass := (passQuiet_skip (by simp [itemAt])).symm.trans pending.apass
    rw [← others.1] at key
    rw [← others.2.1] at apass
    rw [result]
    exact ⟨⟨kept.congr rfl others.2.2, limit, key, apass, upass, bans⟩, rfl⟩

def nextChanges (world : World Client) (changes : List (CliChange Client)) (it : Item) : List (CliChange Client) :=
  match itemChange world it with
  | some change => enterChange change changes
  | none => changes

theorem modeParseClient_changes (world : World Client) (st : ParseState Client) (mode : MemberMode) :
    modeParseClient world serverFlags mode st = { st with
      args := st.args.tail
      cliChange := nextChanges world st.cliChange
        ⟨st.dir, if mode = .chanop then 'o' else 'v', st.args.head?⟩ } := by
  obtain ⟨here, args, dir, done, add, del, changes⟩ := st
  cases args with
  | nil => cases mode <;> rfl
  | cons arg rest =>
    unfold modeParseClient nextChanges itemChange
    cases mode <;> simp [serverFlags] <;>
      cases world.findNUser (if arg[5]? = some ':' then arg.take 5 else arg) <;> rfl

theorem Pending.letter {c : Char} (settled : chan.Settled)
    (pending : Pending world chan bursting st (itemAt st c :: items)) :
    Pending world chan bursting (parseLetter world serverFlags st c) items ∧
      (parseLetter world serverFlags st c).cliChange = nextChanges world st.cliChange (itemAt st c) := by
  have no_change (other : c ≠ 'o' ∧ c ≠ 'v') : nextChanges world st.cliChange (itemAt st c) = st.cliChange := by
    simp [nextChanges, itemChange, itemAt, other]
  by_cases special : c ∈ specialLetters
  · simp only [specialLetters, List.mem_cons, List.not_mem_nil, or_false] at special
    rcases special with rfl | rfl | rfl | rfl | rfl | rfl | rfl | rfl | rfl
    · exact ⟨pending.next (pending.kept.congr rfl rfl) rfl rfl rfl (by simp [itemAt]), rfl⟩
    · exact ⟨pending.next (pending.kept.congr rfl rfl) rfl rfl rfl (by simp [itemAt]), rfl⟩
    · have result : parseLetter world serverFlags st 'l' = { st with args := nextArgs st.dir 'l' st.args } :=
        modeParseLimit_quiet pending.kept.mode (pending.limit _ List.mem_cons_self rfl)
      rw [result, no_change (by decide)]
      exact ⟨pending.next (pending.kept.congr rfl rfl) rfl rfl rfl (by simp [itemAt]), rfl⟩
    · rw [no_change (by decide)]
      exact pending.pass (by decide)
    · rw [no_change (by decide)]
      exact pending.pass (by decide)
    · rw [no_change (by decide)]
      exact pending.pass (by decide)
    · rw [no_change (by decide)]
      exact pending.ban settled
    · have result : parseLetter world serverFlags st 'o' = _ := modeParseClient_changes world st .chanop
      rw [result]
      exact ⟨pending.next (pending.kept.congr rfl rfl) rfl rfl rfl (by simp [itemAt]), rfl⟩
    · have result : parseLetter world serverFlags st 'v' = _ := modeParseClient_changes world st .voice
      rw [result]
      exact ⟨pending.next (pending.kept.congr rfl rfl) rfl rfl rfl (by simp [itemAt]), rfl⟩
  · have other : c ∉ ['k', 'A', 'U'] ∧ c ≠ 'o' ∧ c ≠ 'v' := by
      simp only [specialLetters, List.mem_cons, List.not_mem_nil, or_false, not_or] at special ⊢
      obtain ⟨_, _, _, key, apass, upass, _, op, voice⟩ := special
      exact ⟨⟨key, apass, upass⟩, op, voice⟩
    rw [no_change other.2]
    rcases parseLetter_other world serverFlags st special with same | ⟨f, flag⟩
    · rw [same]
      exact ⟨pending.next pending.kept rfl rfl rfl other.1, rfl⟩
    · rw [flag]
      have keeps : (modeParseMode serverFlags f st).chan = st.chan ∧ (modeParseMode serverFlags f st).done = st.done ∧
          (modeParseMode serverFlags f st).cliChange = st.cliChange := by
        unfold modeParseMode
        cases st.dir <;> exact ⟨rfl, rfl, rfl⟩
      obtain ⟨same, done, changes⟩ := keeps
      exact ⟨pending.next (pending.kept.congr same (by rw [done])) (by rw [done]) (by rw [done]) (by rw [done]) other.1,
        changes⟩

theorem Pending.line (settled : chan.Settled) (modestr : List Char)
    (pending : Pending world chan bursting st (lineItems st.dir st.args modestr)) :
    Kept chan bursting (modestr.foldl (parseLetter world serverFlags) st) ∧
      (modestr.foldl (parseLetter world serverFlags) st).cliChange =
        lineChanges world (lineItems st.dir st.args modestr) st.cliChange ∧
      (modestr.foldl (parseLetter world serverFlags) st).args = lineRest st.dir st.args modestr := by
  induction modestr generalizing st with
  | nil => exact ⟨pending.kept, rfl, rfl⟩
  | cons c rest ih =>
    obtain ⟨next, changes⟩ := pending.letter settled
    obtain ⟨dir, args⟩ := parseLetter_reads world serverFlags st c
    rw [← dir, ← args] at next
    obtain ⟨kept, all_changes, left⟩ := ih next
    refine ⟨kept, ?_, ?_⟩
    · rw [List.foldl_cons, all_changes, changes, dir, args]
      rfl
    · rw [List.foldl_cons, left, dir, args]
      rfl

/-! ### The end of the line -/

theorem changeMember_quiet {flags : ParseFlags} (bounced : flags.set = false) {change : CliChange Client}
    {members : List (Membership Client)} (quiet : opQuiet members change = true) :
    (members.map fun m => if m.user = change.client then changeMember flags change m else m) = members := by
  refine (List.map_congr_left fun m mem => ?_).trans (List.map_id members)
  by_cases self : m.user = change.client
  · rw [if_pos self]
    unfold changeMember
    split
    · rfl
    · rename_i changes
      simp only [bounced, Bool.false_eq_true, if_false]
      by_cases opped : change.dir = .add ∧ change.mode = .chanop
      · simp only [opQuiet, opped.1, opped.2, Bool.or_eq_true, decide_eq_true_eq, List.all_eq_true] at quiet
        have level := (quiet.resolve_left (by simp)) m mem
        have plain : m.status.chanop = false := by
          simpa [Status.has, opped.1, opped.2] using changes
        have same : m.opLevel = if change.opLevel ≤ maxOpLevel then change.opLevel else maxOpLevel := by
          simpa [self, plain] using level
        rw [if_pos opped, ← same]
        rfl
      · rw [if_neg opped]
        rfl
  · rw [if_neg self]
    rfl

theorem modeProcessClients_quiet {flags : ParseFlags} (bounced : flags.set = false) {changes : List (CliChange Client)}
    {members : List (Membership Client)} (quiet : ∀ change ∈ changes, opQuiet members change = true) :
    modeProcessClients flags changes members = members := by
  unfold modeProcessClients
  induction changes with
  | nil => rfl
  | cons change rest ih =>
    rw [List.foldl_cons, changeMember_quiet bounced (quiet change List.mem_cons_self)]
    exact ih fun other mem => quiet other (List.mem_cons_of_mem change mem)

end

/-- A server that knows nobody, and a channel of timestamp 7 with one ban. -/
def strangers : World Nat := ⟨fun _ => none, id, fun _ => false, fun a b => a.banstr = b.banstr, 0⟩

def bannedChannel : Channel Nat :=
  ⟨7, ⟨.only .secret, 0, [], [], []⟩, [], [⟨['x'], ['*'], 0, ⟨false, false, false, false, false, false, false⟩⟩]⟩

theorem bannedChannel_settled : bannedChannel.Settled := by
  intro ban mem
  simp only [bannedChannel, List.mem_singleton] at mem
  subst mem
  rfl

end Ircd.Channels

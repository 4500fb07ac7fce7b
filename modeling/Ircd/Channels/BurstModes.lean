import Ircd.Channels.Modes
import Ircd.Channels.ModeParse
import Ircd.Text.Lines

/-! The modes of a burst: what `mode_parse` makes of the text of `channel_modes`.

Every letter of the text stands for one merge rule, so that the channel that was received
and the one that was there meet field by field.
-/

set_option autoImplicit false

namespace Ircd.Channels
open Ircd.Text

variable {Client : Type} [DecidableEq Client]

/-- The flags of `ms_burst` for a timestamp that is accepted. -/
def burstFlags (wipeout : Bool) : ParseFlags := ⟨true, true, true, wipeout, false, true⟩

structure SameButFlags (st st' : ParseState Client) : Prop where
  chan : st'.chan = st.chan
  args : st'.args = st.args
  dir : st'.dir = st.dir
  done : st'.done = st.done
  cliChange : st'.cliChange = st.cliChange

omit [DecidableEq Client] in
theorem SameButFlags.refl (st : ParseState Client) : SameButFlags st st := ⟨rfl, rfl, rfl, rfl, rfl⟩

omit [DecidableEq Client] in
theorem SameButFlags.trans {a b c : ParseState Client} (first : SameButFlags a b) (second : SameButFlags b c) :
    SameButFlags a c :=
  ⟨second.chan.trans first.chan, second.args.trans first.args, second.dir.trans first.dir,
    second.done.trans first.done, second.cliChange.trans first.cliChange⟩

theorem parseLetter_simple (world : World Client) (flags : ParseFlags) (st : ParseState Client) {c : Char} {f : Flag}
    (letter : simpleFlag c = some f) : parseLetter world flags st c = modeParseMode flags f st := by
  have special : ∀ d ∈ ['+', '-', 'l', 'k', 'A', 'U', 'b', 'o', 'v'], simpleFlag d = none := by decide
  have other : ∀ d ∈ ['+', '-', 'l', 'k', 'A', 'U', 'b', 'o', 'v'], c ≠ d := by
    rintro d mem rfl
    exact absurd (letter.symm.trans (special c mem)) nofun
  simp only [List.forall_mem_cons, List.not_mem_nil, false_implies, implies_true, and_true] at other
  obtain ⟨plus, minus, limit, key, apass, upass, ban, op, voice⟩ := other
  simp [parseLetter, plus, minus, limit, key, apass, upass, ban, op, voice, letter]

theorem parseLetter_registered (world : World Client) (flags : ParseFlags) (st : ParseState Client) :
    parseLetter world flags st 'r' = st := by
  simp [parseLetter, simpleFlag]

variable {st : ParseState Client}

omit [DecidableEq Client] in
theorem modeParseMode_add {flags : ParseFlags} (buffered : flags.mbuf = true) (f : Flag) (adding : st.dir = .add) :
    modeParseMode flags f st =
      { st with
        add := (st.add.or (.only f)).without f.excludes
        del := (st.del.without (.only f)).or f.excludes } := by
  simp [modeParseMode, buffered, adding]

/-- A table of letters that name their flags, `r` apart, without `+s` and `+p`. -/
def PlainTable (table : List (Flag × Char)) : Prop :=
  ∀ entry ∈ table, (entry = (.registered, 'r') ∨ simpleFlag entry.2 = some entry.1 ∧ entry.1 ≠ .registered) ∧
    entry.1 ≠ .secret ∧ entry.1 ≠ .priv

instance (table : List (Flag × Char)) : Decidable (PlainTable table) :=
  inferInstanceAs (Decidable (∀ entry ∈ table, _))

theorem fold_letters (world : World Client) (flags : ParseFlags) (buffered : flags.mbuf = true) (m : Mode)
    (table : List (Flag × Char)) (plain : PlainTable table) (st : ParseState Client) (adding : st.dir = .add) :
    ∃ st', (letters m table).foldl (parseLetter world flags) st = st' ∧ SameButFlags st st' ∧
      (∀ g, st'.add g = (st.add g || table.any fun entry => entry.1 = g && g ≠ .registered && m.mode g)) ∧
      ∀ g, st'.del g = (st.del g && !table.any fun entry => entry.1 = g && g ≠ .registered && m.mode g) := by
  induction table generalizing st with
  | nil => exact ⟨st, rfl, .refl st, by simp, by simp⟩
  | cons entry table ih =>
    obtain ⟨f, c⟩ := entry
    have plain_rest : PlainTable table := fun entry mem => plain entry (List.mem_cons_of_mem _ mem)
    obtain ⟨named, not_secret, not_priv⟩ := plain (f, c) List.mem_cons_self
    by_cases set : m.mode f = true
    · have text : letters m ((f, c) :: table) = c :: letters m table := by simp [letters, set]
      rcases named with ignored | ⟨letter, not_registered⟩
      · obtain ⟨rfl, rfl⟩ := Prod.mk.inj ignored
        obtain ⟨st', folded, same, added, deleted⟩ := ih plain_rest st adding
        have unlisted (g : Flag) : (((Flag.registered, 'r') :: table).any fun entry =>
            entry.1 = g && g ≠ .registered && m.mode g) =
            table.any fun entry => entry.1 = g && g ≠ .registered && m.mode g := by
          by_cases here : g = .registered
          · simp [here]
          · simp [here, Ne.symm here]
        refine ⟨st', ?_, same, ?_, ?_⟩
        · rw [text, List.foldl_cons, parseLetter_registered, folded]
        · intro g
          rw [added, unlisted]
        · intro g
          rw [deleted, unlisted]
      · have excluded : f.excludes = Flags.none := by
          cases f <;> first | rfl | exact absurd rfl not_secret | exact absurd rfl not_priv
        have step := modeParseMode_add buffered f adding
        obtain ⟨st', folded, same, added, deleted⟩ := ih plain_rest (modeParseMode flags f st) (by rw [step]; exact adding)
        refine ⟨st', ?_, ?_, ?_, ?_⟩
        · rw [text, List.foldl_cons, parseLetter_simple world flags st letter, folded]
        · apply SameButFlags.trans _ same
          rw [step]
          exact ⟨rfl, rfl, rfl, rfl, rfl⟩
        · intro g
          rw [added, step]
          by_cases here : g = f
          · subst here
            simp [excluded, not_registered, set]
          · simp [excluded, here, Ne.symm here]
        · intro g
          rw [deleted, step]
          by_cases here : g = f
          · subst here
            simp [excluded, not_registered, set]
          · simp [excluded, here, Ne.symm here]
    · have text : letters m ((f, c) :: table) = letters m table := by simp [letters, set]
      obtain ⟨st', folded, same, added, deleted⟩ := ih plain_rest st adding
      have unlisted (g : Flag) : (((f, c) :: table).any fun entry => entry.1 = g && g ≠ .registered && m.mode g) =
          table.any fun entry => entry.1 = g && g ≠ .registered && m.mode g := by
        by_cases here : g = f
        · subst here
          simp [set]
        · simp [Ne.symm here]
      refine ⟨st', ?_, same, ?_, ?_⟩
      · rw [text, folded]
      · intro g
        rw [added, unlisted]
      · intro g
        rw [deleted, unlisted]

/-- The letters but `s` and `p` that a server is sent. -/
def plainLetters : List (Flag × Char) := firstLetters ++ (.delJoins, 'D') :: lastLetters

theorem simpleLetters_forServer (m : Mode) : simpleLetters forServer m =
    (if m.mode .secret then ['s'] else if m.mode .priv then ['p'] else []) ++ letters m plainLetters := by
  have joined : letters m plainLetters =
      letters m firstLetters ++ ((if m.mode .delJoins then ['D'] else []) ++ letters m lastLetters) := by
    by_cases set : m.mode .delJoins = true <;> simp [plainLetters, letters, set]
  rw [joined, simpleLetters]
  simp [forServer]

theorem fold_hidden (world : World Client) (flags : ParseFlags) (buffered : flags.mbuf = true) (m : Mode)
    (exclusive : ¬ (m.mode .secret = true ∧ m.mode .priv = true)) (st : ParseState Client) (adding : st.dir = .add)
    (no_add : st.add = .none) (no_del : st.del = .none) :
    ∃ st', (if m.mode .secret then ['s'] else if m.mode .priv then ['p'] else []).foldl (parseLetter world flags) st =
        st' ∧ SameButFlags st st' ∧ (∀ g, st'.add g = ((g = .secret || g = .priv) && m.mode g)) ∧
      ∀ g, st'.del g = (g = .priv && m.mode .secret || g = .secret && m.mode .priv) := by
  by_cases secret : m.mode .secret = true
  · have not_priv : m.mode .priv = false := by
      rw [← Bool.not_eq_true]
      exact fun priv => exclusive ⟨secret, priv⟩
    refine ⟨modeParseMode flags .secret st, ?_, ?_, ?_, ?_⟩
    · rw [if_pos secret, List.foldl_cons, List.foldl_nil, parseLetter_simple world flags st rfl]
    · rw [modeParseMode_add buffered .secret adding]
      exact ⟨rfl, rfl, rfl, rfl, rfl⟩
    · intro g
      rw [modeParseMode_add buffered .secret adding]
      cases g <;> simp [no_add, Flag.excludes, secret, not_priv]
    · intro g
      rw [modeParseMode_add buffered .secret adding]
      cases g <;> simp [no_del, Flag.excludes, secret, not_priv]
  · by_cases priv : m.mode .priv = true
    · refine ⟨modeParseMode flags .priv st, ?_, ?_, ?_, ?_⟩
      · rw [if_neg secret, if_pos priv, List.foldl_cons, List.foldl_nil, parseLetter_simple world flags st rfl]
      · rw [modeParseMode_add buffered .priv adding]
        exact ⟨rfl, rfl, rfl, rfl, rfl⟩
      · intro g
        rw [modeParseMode_add buffered .priv adding]
        cases g <;> simp [no_add, Flag.excludes, secret, priv]
      · intro g
        rw [modeParseMode_add buffered .priv adding]
        cases g <;> simp [no_del, Flag.excludes, secret, priv]
    · refine ⟨st, ?_, .refl st, ?_, ?_⟩
      · rw [if_neg secret, if_neg priv, List.foldl_nil]
      · intro g
        cases g <;> simp [no_add, secret, priv]
      · intro g
        simp [no_del, secret, priv]

theorem fold_simpleLetters (world : World Client) (flags : ParseFlags) (buffered : flags.mbuf = true) (m : Mode)
    (exclusive : ¬ (m.mode .secret = true ∧ m.mode .priv = true)) (st : ParseState Client) (adding : st.dir = .add)
    (no_add : st.add = .none) (no_del : st.del = .none) :
    ∃ st', (simpleLetters forServer m).foldl (parseLetter world flags) st = st' ∧ SameButFlags st st' ∧
      (∀ g, st'.add g = (g.simple && g ≠ .registered && m.mode g)) ∧
      ∀ g, st'.del g = (g = .priv && m.mode .secret || g = .secret && m.mode .priv) := by
  obtain ⟨first, folded_first, same_first, added_first, deleted_first⟩ :=
    fold_hidden world flags buffered m exclusive st adding no_add no_del
  obtain ⟨last, folded_last, same_last, added_last, deleted_last⟩ :=
    fold_letters world flags buffered m plainLetters (by decide) first (same_first.dir.trans adding)
  refine ⟨last, ?_, same_first.trans same_last, ?_, ?_⟩
  · rw [simpleLetters_forServer, List.foldl_append, folded_first, folded_last]
  · intro g
    rw [added_last, added_first]
    cases g <;> simp [plainLetters, firstLetters, lastLetters, Flag.simple]
  · intro g
    rw [deleted_last, deleted_first]
    cases g <;> simp [plainLetters, firstLetters, lastLetters]

/-- The limit of a burst is the smaller one, where `limited` says that the old one counts. -/
def mergeLimit (limited : Bool) (old new : Nat) : Nat :=
  if new = 0 then old else if limited = true ∧ old < new then old else new

def mergePass (old new : List Char) : List Char :=
  if new = [] then old else if old ≠ [] ∧ ircdStrcmp old new ≤ 0 then old else new

def ParseState.advance (st : ParseState Client) (rest : List (List Char)) (done : Done) (m : Mode) : ParseState Client :=
  { st with args := rest, done := done, chan := { st.chan with mode := m } }

/-- The flags are the same, `MODE_LIMIT` apart. -/
def SameButLimit (old new : Flags) : Prop := ∀ f, f ≠ .limit → new f = old f

variable {rest : List (List Char)}

theorem parseLetter_limit (world : World Client) (wipeout : Bool) {n : Nat} (adding : st.dir = .add)
    (args : st.args = Nat.toDigits 10 n :: rest) (some_limit : n ≠ 0) (small : n < 2 ^ 31)
    (fresh : st.done.limit = false) :
    ∃ done mode, SameButLimit st.mode.mode mode ∧ parseLetter world (burstFlags wipeout) st 'l' =
      st.advance rest { st.done with limit := done }
        { st.mode with mode := mode, limit := mergeLimit (st.mode.mode .limit) st.mode.limit n } := by
  have value : strtoul (Nat.toDigits 10 n) % 2 ^ 32 = n := by
    rw [strtoul_toDigits (by omega)]
    omega
  have positive : ¬ asInt n < 0 := by
    simp only [asInt]
    split <;> omega
  obtain ⟨⟨creation, ⟨mode, limit, key, upass, apass⟩, members, banlist⟩, _, _, ⟨_, _, _, _, _⟩, _, _, _⟩ := st
  dsimp only at adding args fresh
  subst adding args fresh
  by_cases same : wipeout = false ∧ n = limit
  · obtain ⟨rfl, rfl⟩ := same
    refine ⟨false, mode, fun _ _ => rfl, ?_⟩
    simp [-Nat.reducePow, parseLetter, modeParseLimit, value, positive, burstFlags, ParseState.mode, ParseState.advance, mergeLimit]
  · by_cases lower : mode .limit = true ∧ limit < n
    · have merged : mergeLimit true limit n = limit := by rw [mergeLimit, if_neg some_limit, if_pos ⟨rfl, lower.2⟩]
      refine ⟨false, mode, fun _ _ => rfl, ?_⟩
      simp [-Nat.reducePow, parseLetter, modeParseLimit, parseLimitValue, value, positive, burstFlags, ParseState.mode,
        ParseState.advance, merged, lower.1, lower.2]
    · have merged : mergeLimit (mode .limit) limit n = n := by rw [mergeLimit, if_neg some_limit, if_neg lower]
      have replaced (set : mode .limit = true) : n ≤ limit := Nat.le_of_not_lt fun less => lower ⟨set, less⟩
      refine ⟨true, mode.or (.only .limit), fun f other => by simp [ParseState.mode, other], ?_⟩
      simp [-Nat.reducePow, parseLetter, modeParseLimit, parseLimitValue, value, positive, burstFlags, ParseState.mode,
        ParseState.setMode, ParseState.advance, merged, some_limit, same]
      exact replaced

/-- A key or pass that `channel_modes` sends. -/
structure CleanPass (arg : List Char) : Prop where
  clean : isCleanKey arg = true
  byte : ∀ c ∈ arg, c.toNat < 256

variable {arg : List Char}

theorem CleanPass.length_le (pass : CleanPass arg) : arg.length ≤ keyLen := by
  have clean := pass.clean
  simp only [isCleanKey, Bool.and_eq_true, decide_eq_true_eq] at clean
  exact clean.2

theorem CleanPass.exists_cons (pass : CleanPass arg) :
    ∃ c rest, arg = c :: rest ∧ 32 < c.toNat ∧ c.toNat < 256 := by
  have clean := pass.clean
  simp only [isCleanKey, Bool.and_eq_true, decide_eq_true_eq] at clean
  obtain ⟨c, rest, rfl⟩ := List.exists_cons_of_ne_nil clean.1.1.1
  have printable := List.all_eq_true.mp clean.1.2 c (by simp)
  simp only [Bool.and_eq_true, decide_eq_true_eq] at printable
  exact ⟨c, rest, rfl, printable.1, pass.byte c List.mem_cons_self⟩

theorem CleanPass.strcmp_nil (pass : CleanPass arg) : ircdStrcmp [] arg ≠ 0 := by
  obtain ⟨c, rest, rfl, printable, byte⟩ := pass.exists_cons
  intro zero
  have same := charValue_inj (by decide) (toLower_byte byte) (Int.sub_eq_zero.mp zero)
  rw [toLower_eq_nul.mp same.symm] at printable
  exact absurd printable (by decide)

omit [DecidableEq Client] in
theorem parsePass_burst (wipeout : Bool) {allow : Done → Dir → Option Done}
    {refused : ParseState Client → List Char → Bool} {apply : ParseState Client → List Char → ParseState Client}
    (get : Mode → List Char) (set : Mode → List Char → Mode) {done : Done} (args : st.args = arg :: rest)
    (allowed : allow st.done st.dir = some done) (pass : CleanPass arg) (refuses : refused { st with args := rest, done := done } arg =
      (burstKeeps (burstFlags wipeout) (get st.mode) arg || noChange (burstFlags wipeout) .add (get st.mode) arg))
    (applies : apply { st with args := rest, done := done } arg = st.advance rest done (set st.mode arg))
    (set_get : set st.mode (get st.mode) = st.mode) :
    parsePass (burstFlags wipeout) allow refused apply st =
      st.advance rest done (set st.mode (mergePass (get st.mode) arg)) := by
  obtain ⟨c, tail, shape, _⟩ := pass.exists_cons
  have some_arg : arg ≠ [] := by rw [shape]; exact List.cons_ne_nil c tail
  by_cases keeps : get st.mode ≠ [] ∧ ircdStrcmp (get st.mode) arg ≤ 0
  · have merged : mergePass (get st.mode) arg = get st.mode := by rw [mergePass, if_neg some_arg, if_pos keeps]
    have kept : burstKeeps (burstFlags wipeout) (get st.mode) arg = true := by
      simp [burstKeeps, burstFlags, keeps.1, keeps.2]
    rw [kept, Bool.true_or] at refuses
    rw [merged, set_get]
    simp only [parsePass, args, allowed, refuses, Bool.or_true, Bool.true_or, if_true]
    rfl
  · have merged : mergePass (get st.mode) arg = arg := by rw [mergePass, if_neg some_arg, if_neg keeps]
    have not_kept : burstKeeps (burstFlags wipeout) (get st.mode) arg = false := by
      rw [← Bool.not_eq_true]
      simpa [burstKeeps, burstFlags] using keeps
    have changed : noChange (burstFlags wipeout) .add (get st.mode) arg = false := by
      rw [← Bool.not_eq_true]
      intro same
      have zero : ircdStrcmp (get st.mode) arg = 0 := by
        simp only [noChange, Bool.and_eq_true, decide_eq_true_eq] at same
        exact same.2
      by_cases empty : get st.mode = []
      · rw [empty] at zero
        exact pass.strcmp_nil zero
      · exact keeps ⟨empty, Int.le_of_eq zero⟩
    rw [not_kept, changed, Bool.false_or] at refuses
    rw [merged, ← applies]
    simp [parsePass, args, allowed, refuses, pass.clean, burstFlags]

theorem parseLetter_key (world : World Client) (wipeout : Bool) (adding : st.dir = .add)
    (args : st.args = arg :: rest) (fresh : st.done.key.add = false) (pass : CleanPass arg) :
    parseLetter world (burstFlags wipeout) st 'k' =
      st.advance rest { st.done with key := { st.done.key with add := true } }
        { st.mode with key := mergePass st.mode.key arg } := by
  apply parsePass_burst wipeout Mode.key (fun m key => { m with key := key }) args _ pass
  · simp [keyRefused, keySet, burstFlags, ParseState.mode, adding]
  · simp [applyKey, adding, ParseState.setMode, ParseState.mode, ParseState.advance, List.take_of_length_le pass.length_le]
  · rfl
  · simp [allowKey, DonePass.allow, adding, fresh]

theorem parseLetter_upass (world : World Client) (wipeout : Bool) (adding : st.dir = .add)
    (args : st.args = arg :: rest) (fresh : st.done.upass.add = false) (pass : CleanPass arg) :
    parseLetter world (burstFlags wipeout) st 'U' =
      st.advance rest { st.done with upass := { st.done.upass with add := true } }
        { st.mode with upass := mergePass st.mode.upass arg } := by
  apply parsePass_burst wipeout Mode.upass (fun m upass => { m with upass := upass }) args _ pass
  · simp [upassRefused, keySet, burstFlags, ParseState.mode, adding, Bool.or_comm]
  · simp [applyUpass, adding, ParseState.setMode, ParseState.mode, ParseState.advance,
      List.take_of_length_le pass.length_le]
  · rfl
  · simp [allowUpass, DonePass.allow, adding, fresh]

theorem parseLetter_apass (world : World Client) (wipeout : Bool) (adding : st.dir = .add)
    (args : st.args = arg :: rest) (fresh : st.done.apass.add = false) (pass : CleanPass arg) :
    parseLetter world (burstFlags wipeout) st 'A' =
      st.advance rest { st.done with apass := { st.done.apass with add := true } }
        { st.mode with apass := mergePass st.mode.apass arg } := by
  apply parsePass_burst wipeout Mode.apass (fun m apass => { m with apass := apass }) args _ pass
  · simp [apassRefused, burstFlags, ParseState.mode, adding, Bool.or_comm]
  · simp [applyApass, burstFlags, adding, ParseState.setMode, ParseState.mode, ParseState.advance,
      List.take_of_length_le pass.length_le]
  · rfl
  · simp [allowApass, DonePass.allow, adding, fresh]

/-- What the parameter letters make of the modes of a channel, `MODE_LIMIT` apart. -/
def mergeParameters (old new : Mode) : Mode :=
  { mode := old.mode
    limit := mergeLimit (old.mode .limit) old.limit new.limit
    key := mergePass old.key new.key
    upass := mergePass old.upass new.upass
    apass := mergePass old.apass new.apass }

@[simp] theorem mergeLimit_zero (limited : Bool) (old : Nat) : mergeLimit limited old 0 = old := by simp [mergeLimit]

@[simp] theorem mergePass_nil (old : List Char) : mergePass old [] = old := by simp [mergePass]

theorem fold_limit (world : World Client) (wipeout : Bool) {n : Nat} (adding : st.dir = .add)
    (args : st.args = (parameter 'l' (n ≠ 0) (Nat.toDigits 10 n)).map (·.2) ++ rest) (small : n < 2 ^ 31)
    (fresh : st.done.limit = false) :
    ∃ done mode, SameButLimit st.mode.mode mode ∧
      ((parameter 'l' (n ≠ 0) (Nat.toDigits 10 n)).map (·.1)).foldl (parseLetter world (burstFlags wipeout)) st =
        st.advance rest { st.done with limit := done }
          { st.mode with mode := mode, limit := mergeLimit (st.mode.mode .limit) st.mode.limit n } := by
  by_cases none : n = 0
  · subst none
    refine ⟨st.done.limit, st.mode.mode, fun _ _ => rfl, ?_⟩
    have args : st.args = rest := args
    rw [mergeLimit_zero, ← args]
    rfl
  · simp only [parameter, none, ne_eq, not_false_eq_true, decide_true, if_true, List.map_cons, List.map_nil,
      List.cons_append, List.nil_append] at args ⊢
    exact parseLetter_limit world wipeout adding args none small fresh

theorem fold_pass (world : World Client) (wipeout : Bool) {letter : Char} {pass : List Char} {done : Done}
    {m : Mode} (clean : pass ≠ [] → CleanPass pass)
    (args : st.args = (parameter letter (pass ≠ []) pass).map (·.2) ++ rest) (step : CleanPass pass → st.args = pass :: rest →
      parseLetter world (burstFlags wipeout) st letter = st.advance rest done m) (same : pass = [] → m = st.mode) :
    ∃ last, ((parameter letter (pass ≠ []) pass).map (·.1)).foldl (parseLetter world (burstFlags wipeout)) st =
      st.advance rest last m ∧ (last = st.done ∨ last = done) := by
  by_cases none : pass = []
  · subst none
    have args : st.args = rest := args
    refine ⟨st.done, ?_, .inl rfl⟩
    rw [same rfl, ← args]
    rfl
  · simp only [parameter, none, ne_eq, not_false_eq_true, decide_true, if_true, List.map_cons, List.map_nil,
      List.cons_append, List.nil_append] at args ⊢
    exact ⟨done, step (clean none) args, .inr rfl⟩

theorem Mode.Valid.pass {m : Mode} (valid : m.Valid) {pass : List Char} (clean : pass = [] ∨ isCleanKey pass = true)
    (part : pass ⊆ m.key ++ m.upass ++ m.apass) (some_pass : pass ≠ []) : CleanPass pass :=
  ⟨clean.resolve_left some_pass, fun c mem => valid.byte c (part mem)⟩

theorem fold_key (world : World Client) (wipeout : Bool) (st : ParseState Client) {key : List Char}
    (adding : st.dir = .add) (fresh : st.done.key.add = false) (clean : key ≠ [] → CleanPass key)
    (args : st.args = (parameter 'k' (key ≠ []) key).map (·.2) ++ rest) :
    ∃ last, ((parameter 'k' (key ≠ []) key).map (·.1)).foldl (parseLetter world (burstFlags wipeout)) st =
      st.advance rest last { st.mode with key := mergePass st.mode.key key } ∧
      last.apass = st.done.apass ∧ last.upass = st.done.upass := by
  obtain ⟨last, folded, changed⟩ := fold_pass world wipeout clean args
    (fun pass args => parseLetter_key world wipeout adding args fresh pass) (by rintro rfl; rw [mergePass_nil])
  refine ⟨last, folded, ?_⟩
  rcases changed with rfl | rfl <;> exact ⟨rfl, rfl⟩

theorem fold_apass (world : World Client) (wipeout : Bool) (st : ParseState Client) {apass : List Char}
    (adding : st.dir = .add) (fresh : st.done.apass.add = false) (clean : apass ≠ [] → CleanPass apass)
    (args : st.args = (parameter 'A' (apass ≠ []) apass).map (·.2) ++ rest) :
    ∃ last, ((parameter 'A' (apass ≠ []) apass).map (·.1)).foldl (parseLetter world (burstFlags wipeout)) st =
      st.advance rest last { st.mode with apass := mergePass st.mode.apass apass } ∧ last.upass = st.done.upass := by
  obtain ⟨last, folded, changed⟩ := fold_pass world wipeout clean args
    (fun pass args => parseLetter_apass world wipeout adding args fresh pass) (by rintro rfl; rw [mergePass_nil])
  refine ⟨last, folded, ?_⟩
  rcases changed with rfl | rfl <;> rfl

theorem fold_upass (world : World Client) (wipeout : Bool) (st : ParseState Client) {upass : List Char}
    (adding : st.dir = .add) (fresh : st.done.upass.add = false) (clean : upass ≠ [] → CleanPass upass)
    (args : st.args = (parameter 'U' (upass ≠ []) upass).map (·.2) ++ rest) :
    ∃ last, ((parameter 'U' (upass ≠ []) upass).map (·.1)).foldl (parseLetter world (burstFlags wipeout)) st =
      st.advance rest last { st.mode with upass := mergePass st.mode.upass upass } := by
  obtain ⟨last, folded, -⟩ := fold_pass world wipeout clean args
    (fun pass args => parseLetter_upass world wipeout adding args fresh pass) (by rintro rfl; rw [mergePass_nil])
  exact ⟨last, folded⟩

theorem fold_parameters (world : World Client) (wipeout : Bool) {m : Mode} (valid : m.Valid)
    (st : ParseState Client) (adding : st.dir = .add)
    (args : st.args = (parameters forServer m).map (·.2) ++ rest) (fresh : st.done = (startState st.chan []).done) :
    ∃ done mode, SameButLimit st.mode.mode mode ∧
      ((parameters forServer m).map (·.1)).foldl (parseLetter world (burstFlags wipeout)) st =
        st.advance rest done { mergeParameters st.mode m with mode := mode } := by
  have split : parameters forServer m = parameter 'l' (m.limit ≠ 0) (Nat.toDigits 10 m.limit) ++
      (parameter 'k' (m.key ≠ []) m.key ++ (parameter 'A' (m.apass ≠ []) m.apass ++
        parameter 'U' (m.upass ≠ []) m.upass)) := by
    simp [parameters, forServer]
  simp only [split, List.map_append, List.append_assoc] at args
  obtain ⟨limit_done, mode, same, after_limit⟩ :=
    fold_limit world wipeout adding args valid.limit_lt (by rw [fresh]; rfl)
  obtain ⟨key_done, after_key, key_apass, key_upass⟩ :=
    fold_key world wipeout (st.advance _ { st.done with limit := limit_done } { st.mode with
      mode := mode, limit := mergeLimit (st.mode.mode .limit) st.mode.limit m.limit }) adding
      (by show st.done.key.add = false; rw [fresh]; rfl) (valid.pass valid.key (by simp)) (@rfl _ (_ ++ (_ ++ _)))
  obtain ⟨apass_done, after_apass, apass_upass⟩ :=
    fold_apass world wipeout (st.advance _ key_done { mergeParameters st.mode m with
      mode := mode, upass := st.mode.upass, apass := st.mode.apass }) adding
      (by show key_done.apass.add = false; rw [key_apass]; show st.done.apass.add = false; rw [fresh]; rfl)
      (valid.pass valid.apass (by simp)) (@rfl _ (_ ++ ((parameter 'U' (m.upass ≠ []) m.upass).map (·.2) ++ rest)))
  obtain ⟨upass_done, after_upass⟩ :=
    fold_upass world wipeout (st.advance _ apass_done { mergeParameters st.mode m with
      mode := mode, upass := st.mode.upass }) adding
      (by show apass_done.upass.add = false; rw [apass_upass]; show key_done.upass.add = false
          rw [key_upass]; show st.done.upass.add = false; rw [fresh]; rfl)
      (valid.pass valid.upass (by simp)) (@rfl _ (_ ++ rest))
  refine ⟨upass_done, mode, same, ?_⟩
  rw [split, List.map_append, List.map_append, List.map_append, List.foldl_append, List.foldl_append, List.foldl_append,
    after_limit, after_key]
  exact (congrArg (fun reached => List.foldl _ reached _) after_apass).trans after_upass

def words (s : List Char) : List (List Char) := (s.splitOn ' ').filter (· ≠ [])

/-- The simple flags of a channel that has read a burst: those of the burst are added, and
`+s` and `+p` push each other out. -/
def mergeSimple (old new : Flags) (f : Flag) : Bool :=
  f.simple && f ≠ .registered && new f || old f && !(f = .priv && new .secret || f = .secret && new .priv)

theorem words_intercalate {parts : List (List Char)} (nonempty : ∀ part ∈ parts, part ≠ [])
    (unbroken : ∀ part ∈ parts, ' ' ∉ part) : words ([' '].intercalate parts) = parts :=
  strtok_intercalate nonempty unbroken

theorem CleanPass.printable (pass : CleanPass arg) {c : Char} (mem : c ∈ arg) : 32 < c.toNat := by
  have clean := pass.clean
  simp only [isCleanKey, Bool.and_eq_true, decide_eq_true_eq] at clean
  have whole : arg.take (keyLen + 1) = arg := List.take_of_length_le (Nat.le_succ_of_le pass.length_le)
  rw [whole] at clean
  have printable := List.all_eq_true.mp clean.1.2 c mem
  simp only [Bool.and_eq_true, decide_eq_true_eq] at printable
  exact printable.1

theorem CleanPass.blank (pass : CleanPass arg) : ' ' ∉ arg :=
  fun blank => absurd (pass.printable blank) (by decide)

theorem CleanPass.nul (pass : CleanPass arg) : nul ∉ arg :=
  fun mem => absurd (pass.printable mem) (by decide)

theorem parameters_words {m : Mode} (valid : m.Valid) :
    words (channelModes forServer m).2 = (parameters forServer m).map (·.2) := by
  have single : ∀ part ∈ (parameters forServer m).map (·.2), part ≠ [] ∧ ' ' ∉ part := by
    intro part mem
    have digits (n : Nat) : Nat.toDigits 10 n ≠ [] ∧ ' ' ∉ Nat.toDigits 10 n :=
      ⟨Nat.toDigits_ne_nil, fun blank => absurd (isDigit_of_mem_toDigits blank) (by decide)⟩
    have pass {letter : Char} {pass : List Char} (clean : pass ≠ [] → CleanPass pass)
        (mem : part ∈ (parameter letter (pass ≠ []) pass).map (·.2)) : part ≠ [] ∧ ' ' ∉ part := by
      by_cases none : pass = []
      · simp [parameter, none] at mem
      · have here : part = pass := by simpa [parameter, none] using mem
        rw [here]
        exact ⟨none, (clean none).blank⟩
    simp only [parameters, forServer, Bool.or_true, if_true, List.map_append, List.mem_append, Bool.true_or] at mem
    rcases mem with ((limit | key) | apass) | upass
    · by_cases none : m.limit = 0
      · simp [parameter, none] at limit
      · have here : part = Nat.toDigits 10 m.limit := by simpa [parameter, none] using limit
        rw [here]
        exact digits m.limit
    · exact pass (valid.pass valid.key (by simp)) key
    · exact pass (valid.pass valid.apass (by simp)) apass
    · exact pass (valid.pass valid.upass (by simp)) upass
  exact words_intercalate (fun part mem => (single part mem).1) (fun part mem => (single part mem).2)

theorem modeParse_burst (world : World Client) (bursting wipeout : Bool) (chan : Channel Client) {m : Mode}
    (valid : m.Valid) (rest : List (List Char)) :
    ∃ result, modeParse world bursting (burstFlags wipeout) chan (channelModes forServer m).1
        (words (channelModes forServer m).2 ++ rest) = (result, .applied) ∧ result.args = rest ∧
      (∀ f, f ≠ .limit → result.mode.mode f = mergeSimple chan.mode.mode m.mode f) ∧
      result.mode = { mergeParameters chan.mode m with mode := result.mode.mode } := by
  obtain ⟨simple, simple_folded, same, added, deleted⟩ := fold_simpleLetters world (burstFlags wipeout) rfl m
    valid.exclusive (startState chan (words (channelModes forServer m).2 ++ rest)) rfl rfl rfl
  obtain ⟨done, mode, kept, folded⟩ := fold_parameters world wipeout valid simple same.dir
    (same.args.trans (by rw [parameters_words valid]; rfl)) same.done
  have whole : (channelModes forServer m).1.foldl (parseLetter world (burstFlags wipeout))
      (startState chan (words (channelModes forServer m).2 ++ rest)) =
      simple.advance rest done { mergeParameters simple.mode m with mode := mode } := by
    rw [channelModes, List.foldl_cons, List.foldl_append, ← folded, ← simple_folded]
    rfl
  have before : simple.mode = chan.mode := congrArg Channel.mode same.chan
  rw [before] at whole kept
  refine ⟨finish (burstFlags wipeout) (simple.advance rest done { mergeParameters chan.mode m with mode := mode }),
    ?_, rfl, ?_, rfl⟩
  · simp only [modeParse, whole]
    rw [if_pos (.inl rfl)]
  · intro f other
    show (mode f && !simple.del f || simple.add f) = _
    rw [added, deleted, kept f other, mergeSimple, Bool.or_comm]

end Ircd.Channels

import Ircd.Channels.MemberCodec

/-! The lines of `send_channel_modes`, read by `ms_burst`: what their parameters are and what each
line does to a channel that believes its timestamp.
-/

set_option autoImplicit false

namespace Ircd.Channels
open Ircd.Text Ircd.Numnicks

variable {Client : Type}

structure OnlyMode (st st' : ParseState Client) : Prop where
  chan : st'.chan = { st.chan with mode := st'.chan.mode }
  dir : st'.dir = st.dir
  banClean : st'.done.banClean = st.done.banClean
  changes : st'.cliChange = st.cliChange

theorem OnlyMode.refl (st : ParseState Client) : OnlyMode st st := ⟨rfl, rfl, rfl, rfl⟩

theorem OnlyMode.trans {a b c : ParseState Client} (first : OnlyMode a b) (second : OnlyMode b c) : OnlyMode a c := by
  refine ⟨?_, second.dir.trans first.dir, second.banClean.trans first.banClean, second.changes.trans first.changes⟩
  rw [second.chan, first.chan]

theorem parseLimitValue_onlyMode (flags : ParseFlags) (st : ParseState Client) (tLimit : Nat) :
    OnlyMode st (parseLimitValue flags st tLimit) := by
  obtain ⟨chan, args, dir, done, add, del, changes⟩ := st
  unfold parseLimitValue
  split
  · exact .refl _
  · split
    · exact ⟨rfl, rfl, rfl, rfl⟩
    · split
      · exact ⟨rfl, rfl, rfl, rfl⟩
      · dsimp only
        split
        · exact ⟨rfl, rfl, rfl, rfl⟩
        · cases dir <;> exact ⟨rfl, rfl, rfl, rfl⟩

theorem modeParseLimit_onlyMode (flags : ParseFlags) (st : ParseState Client) : OnlyMode st (modeParseLimit flags st) := by
  obtain ⟨chan, args, dir, done, add, del, changes⟩ := st
  cases dir with
  | del => exact parseLimitValue_onlyMode flags _ _
  | add =>
    cases args with
    | nil => exact .refl _
    | cons arg rest =>
      unfold modeParseLimit
      dsimp only
      split
      · exact ⟨rfl, rfl, rfl, rfl⟩
      · split
        · exact ⟨rfl, rfl, rfl, rfl⟩
        · have more := parseLimitValue_onlyMode flags ⟨chan, rest, .add, done, add, del, changes⟩ (strtoul arg % 2 ^ 32)
          exact ⟨more.chan, more.dir, more.banClean, more.changes⟩

theorem parsePass_onlyMode {flags : ParseFlags} {allow : Done → Dir → Option Done}
    {refused : ParseState Client → List Char → Bool} {apply : ParseState Client → List Char → ParseState Client}
    {st : ParseState Client} (clean : ∀ {done}, allow st.done st.dir = some done → done.banClean = st.done.banClean)
    (applies : ∀ (st' : ParseState Client) arg, st'.dir = st.dir → OnlyMode st' (apply st' arg)) :
    OnlyMode st (parsePass flags allow refused apply st) := by
  unfold parsePass
  cases args : st.args with
  | nil => exact .refl st
  | cons arg rest =>
    dsimp only
    cases allowed : allow st.done st.dir with
    | none => exact ⟨rfl, rfl, rfl, rfl⟩
    | some done =>
      have taken : OnlyMode st { st with args := rest, done := done } := ⟨rfl, rfl, clean allowed, rfl⟩
      dsimp only
      split
      · exact taken
      · exact taken.trans (applies { st with args := rest, done := done } arg rfl)

theorem parseLetter_onlyMode [DecidableEq Client] (world : World Client) (flags : ParseFlags) {st : ParseState Client}
    (adding : st.dir = .add) {c : Char} (plain : c ∉ ['-', 'b', 'o', 'v']) : OnlyMode st (parseLetter world flags st c) := by
  obtain ⟨chan, args, dir, done, add, del, changes⟩ := st
  dsimp only at adding
  subst adding
  have done_clean {pass : Option DonePass} {put : DonePass → Done} {after : Done}
      (some_done : pass.map put = some after) (keeps : ∀ p, (put p).banClean = done.banClean) :
      after.banClean = done.banClean := by
    obtain ⟨p, _, rfl⟩ := Option.map_eq_some_iff.mp some_done
    exact keeps p
  have pass {flags : ParseFlags} {allow : Done → Dir → Option Done} {refused : ParseState Client → List Char → Bool}
      {apply : ParseState Client → List Char → ParseState Client}
      (clean : ∀ {after}, allow done .add = some after → after.banClean = done.banClean)
      (applies : ∀ (chan : Channel Client) args done add del changes arg,
        OnlyMode ⟨chan, args, .add, done, add, del, changes⟩ (apply ⟨chan, args, .add, done, add, del, changes⟩ arg)) :
      OnlyMode ⟨chan, args, .add, done, add, del, changes⟩
        (parsePass flags allow refused apply ⟨chan, args, .add, done, add, del, changes⟩) := by
    apply parsePass_onlyMode clean
    rintro ⟨chan, args, dir, done, add, del, changes⟩ arg rfl
    exact applies chan args done add del changes arg
  simp only [List.mem_cons, List.not_mem_nil, or_false, not_or] at plain
  obtain ⟨minus, ban, op, voice⟩ := plain
  unfold parseLetter
  simp only [minus, ban, op, voice, if_false]
  split
  · exact .refl _
  · split
    · exact modeParseLimit_onlyMode flags _
    · split
      · exact pass (fun allowed => done_clean allowed fun _ => rfl) fun _ _ _ _ _ _ _ => ⟨rfl, rfl, rfl, rfl⟩
      · split
        · refine pass (fun allowed => done_clean allowed fun _ => rfl) fun _ _ _ _ _ _ _ => ?_
          unfold applyApass
          dsimp only
          split
          · exact ⟨rfl, rfl, rfl, rfl⟩
          · exact .refl _
        · split
          · exact pass (fun allowed => done_clean allowed fun _ => rfl) fun _ _ _ _ _ _ _ => ⟨rfl, rfl, rfl, rfl⟩
          · split
            · unfold modeParseMode
              split <;> exact ⟨rfl, rfl, rfl, rfl⟩
            · exact .refl _

theorem foldl_onlyMode [DecidableEq Client] (world : World Client) (flags : ParseFlags) {text : List Char}
    (plain : ∀ c ∈ text, c ∉ ['-', 'b', 'o', 'v']) {st : ParseState Client} (adding : st.dir = .add) :
    OnlyMode st (text.foldl (parseLetter world flags) st) := by
  induction text generalizing st with
  | nil => exact .refl st
  | cons c rest ih =>
    have here := parseLetter_onlyMode world flags adding (plain c List.mem_cons_self)
    exact here.trans (ih (fun d mem => plain d (List.mem_cons_of_mem c mem)) (here.dir.trans adding))

theorem channelModes_letters (m : Mode) : ∀ c ∈ (channelModes forServer m).1, c ∉ ['-', 'b', 'o', 'v', ' '] := by
  have table (entries : List (Flag × Char)) (good : ∀ e ∈ entries, e.2 ∉ ['-', 'b', 'o', 'v', ' ']) :
      ∀ c ∈ letters m entries, c ∉ ['-', 'b', 'o', 'v', ' '] := by
    intro c mem
    obtain ⟨e, inside, shape⟩ := List.mem_filterMap.mp mem
    split at shape
    · cases shape
      exact good e inside
    · cases shape
  have single {c d : Char} (good : d ∉ ['-', 'b', 'o', 'v', ' ']) (mem : c ∈ [d]) : c ∉ ['-', 'b', 'o', 'v', ' '] := by
    rw [List.mem_singleton.mp mem]
    exact good
  have param {c d : Char} {present : Bool} {text : List Char} (good : d ∉ ['-', 'b', 'o', 'v', ' '])
      (mem : c ∈ (parameter d present text).map (·.1)) : c ∉ ['-', 'b', 'o', 'v', ' '] := by
    unfold parameter at mem
    split at mem
    · exact single good mem
    · cases mem
  intro c mem
  simp only [channelModes, simpleLetters, parameters, forServer, List.mem_cons, List.mem_append, List.map_append,
    Bool.false_and, Bool.false_eq_true, if_false] at mem
  rcases mem with rfl | (((hidden | first) | joins) | last) | ((limit | key) | apass) | upass
  · decide
  · split at hidden
    · exact single (by decide) hidden
    · split at hidden
      · exact single (by decide) hidden
      · cases hidden
  · exact table firstLetters (by decide) c first
  · split at joins
    · exact single (by decide) joins
    · cases joins
  · exact table lastLetters (by decide) c last
  · exact param (by decide) limit
  · exact param (by decide) key
  · exact param (by decide) apass
  · exact param (by decide) upass

theorem modeParse_onlyMode [DecidableEq Client] (world : World Client) (bursting wipeout : Bool) (chan : Channel Client)
    (m : Mode) (args : List (List Char)) :
    (modeParse world bursting (burstFlags wipeout) chan (channelModes forServer m).1 args).1.chan =
      { chan with mode := (modeParse world bursting (burstFlags wipeout) chan (channelModes forServer m).1 args).1.chan.mode } := by
  have plain : ∀ c ∈ (channelModes forServer m).1, c ∉ ['-', 'b', 'o', 'v'] := by
    intro c mem bad
    apply channelModes_letters m c mem
    simp only [List.mem_cons, List.not_mem_nil, or_false] at bad
    rcases bad with rfl | rfl | rfl | rfl <;> decide
  have folded := foldl_onlyMode world (burstFlags wipeout) plain (rfl : (startState chan args).dir = .add)
  have applied : (modeParse world bursting (burstFlags wipeout) chan (channelModes forServer m).1 args).1 =
      finish (burstFlags wipeout) ((channelModes forServer m).1.foldl (parseLetter world (burstFlags wipeout)) (startState chan args)) := by
    simp only [modeParse]
    rw [if_pos (.inl rfl)]
  rw [applied]
  generalize (channelModes forServer m).1.foldl (parseLetter world (burstFlags wipeout)) (startState chan args) = st at folded ⊢
  have clean : st.done.banClean = false := folded.banClean
  have none_changed : st.cliChange = [] := folded.changes
  have same := folded.chan
  simp only [finish, burstFlags, Bool.not_true, Bool.false_eq_true, if_false, if_true, clean, none_changed, modeProcessClients,
    List.foldl_nil]
  rw [same]
  rfl

def Sender.modeWords (s : Sender Client) : List (List Char) :=
  if (channelModes forServer s.chan.mode).1.length ≤ 1 then []
  else (channelModes forServer s.chan.mode).1 :: (parameters forServer s.chan.mode).map (·.2)

def nickWords (tokens : List (List Char)) : List (List Char) :=
  if tokens = [] then [] else [[','].intercalate tokens]

def banWords (bans : List Ban) : List (List Char) :=
  if bans = [] then [] else ['%' :: [' '].intercalate (bans.map (·.banstr))]

theorem cons_intercalate (sep : Char) {parts : List (List Char)} (some_part : parts ≠ []) :
    sep :: [sep].intercalate parts = parts.flatMap (sep :: ·) := by
  induction parts with
  | nil => exact absurd rfl some_part
  | cons part parts ih =>
    cases parts with
    | nil => simp [List.intercalate]
    | cons next parts =>
      have more := ih (List.cons_ne_nil next parts)
      rw [List.flatMap_cons, ← more, List.intercalate_cons_cons]
      simp

theorem nickText_words (tokens : List (List Char)) : nickText tokens = (nickWords tokens).flatMap (' ' :: ·) := by
  cases tokens with
  | nil => rfl
  | cons token tokens =>
    cases tokens with
    | nil => simp [nickText, nickWords, List.intercalate]
    | cons next tokens =>
      have behind := cons_intercalate ',' (List.cons_ne_nil next tokens)
      simp only [nickText, nickWords, if_neg (List.cons_ne_nil token _), List.flatMap_cons, List.flatMap_nil, List.append_nil]
      rw [List.intercalate_cons_cons, ← List.flatMap_cons, ← behind]
      simp

theorem modes_words (s : Sender Client) : s.modes = s.modeWords.flatMap (' ' :: ·) := by
  unfold Sender.modes Sender.modeWords
  dsimp only
  split
  · rfl
  · have nonempty : ∀ part ∈ (parameters forServer s.chan.mode).map (·.2), part ≠ [] := by
      rw [← parameters_words s.valid]
      intro part mem
      simpa using (List.mem_filter.mp mem).2
    have text : (channelModes forServer s.chan.mode).2 = [' '].intercalate ((parameters forServer s.chan.mode).map (·.2)) := rfl
    rw [text, List.flatMap_cons]
    generalize (parameters forServer s.chan.mode).map (·.2) = parts at nonempty
    cases parts with
    | nil => simp [List.intercalate]
    | cons part parts =>
      have some_text : [' '].intercalate (part :: parts) ≠ [] := by
        have here := nonempty part List.mem_cons_self
        cases parts with
        | nil => simpa [List.intercalate] using here
        | cons next parts =>
          rw [List.intercalate_cons_cons]
          simp [here]
      rw [if_neg some_text, cons_intercalate ' ' (List.cons_ne_nil part parts)]

def Sender.words (s : Sender Client) (first : Bool) : List (List Char) :=
  s.chname :: Nat.toDigits 10 s.chan.creationTime.toNat :: if first then s.modeWords else []

theorem header_words (s : Sender Client) (first : Bool) :
    s.header ++ (if first then s.modes else []) = s.server ++ ' ' :: ['B'] ++ (s.words first).flatMap (' ' :: ·) := by
  cases first with
  | true => simp [Sender.header, Sender.words, modes_words]
  | false => simp [Sender.header, Sender.words]

theorem parameters_middle {m : Mode} (valid : m.Valid) {part : List Char}
    (mem : part ∈ (parameters forServer m).map (·.2)) : MiddleWord part ∧ part.length ≤ 23 := by
  have pass {letter : Char} {pass : List Char} (clean : pass = [] ∨ isCleanKey pass = true)
      (mem : part ∈ (parameter letter (pass ≠ []) pass).map (·.2)) (byte : ∀ c ∈ pass, c.toNat < 256) :
      MiddleWord part ∧ part.length ≤ 23 := by
    by_cases none : pass = []
    · simp [parameter, none] at mem
    · have here : part = pass := by simpa [parameter, none] using mem
      have good : CleanPass pass := ⟨clean.resolve_left none, byte⟩
      have shape := clean.resolve_left none
      simp only [isCleanKey, Bool.and_eq_true, decide_eq_true_eq] at shape
      rw [here]
      exact ⟨⟨none, good.blank, shape.1.1.2⟩, good.length_le⟩
  simp only [parameters, forServer, Bool.or_true, if_true, List.map_append, List.mem_append, Bool.true_or] at mem
  rcases mem with ((limit | key) | apass) | upass
  · by_cases none : m.limit = 0
    · simp [parameter, none] at limit
    · have here : part = Nat.toDigits 10 m.limit := by simpa [parameter, none] using limit
      have small := length_printed (Nat.lt_trans valid.limit_lt (by decide))
      rw [here]
      exact ⟨printed_middle m.limit, by omega⟩
  · exact pass valid.key key fun c inside => valid.byte c (by simp [inside])
  · exact pass valid.apass apass fun c inside => valid.byte c (by simp [inside])
  · exact pass valid.upass upass fun c inside => valid.byte c (by simp [inside])

theorem length_parameters (m : Mode) : (parameters forServer m).length ≤ 4 := by
  have single (letter : Char) (present : Bool) (text : List Char) : (parameter letter present text).length ≤ 1 := by
    unfold parameter
    split <;> simp
  have limit := single 'l' (m.limit ≠ 0) (Nat.toDigits 10 m.limit)
  have key := single 'k' (m.key ≠ []) m.key
  have apass := single 'A' (m.apass ≠ []) m.apass
  have upass := single 'U' (m.upass ≠ []) m.upass
  simp only [parameters, forServer, Bool.or_true, if_true, List.length_append, Bool.true_or]
  omega

theorem length_letters (m : Mode) : (channelModes forServer m).1.length ≤ 21 := by
  have table (entries : List (Flag × Char)) : (letters m entries).length ≤ entries.length := List.length_filterMap_le _ _
  have hidden : (if m.mode .secret then ['s'] else if m.mode .priv then ['p'] else []).length ≤ 1 := by
    split
    · simp
    · split <;> simp
  have joins : (if m.mode .delJoins then ['D'] else if forServer.myUser && m.mode .wasDelJoins then ['d'] else []).length ≤ 1 := by
    split
    · simp
    · split <;> simp
  have first := table firstLetters
  have last := table lastLetters
  have params := length_parameters m
  have counts : firstLetters.length = 5 ∧ lastLetters.length = 9 := by decide
  simp only [channelModes, simpleLetters, List.length_cons, List.length_append, List.length_map]
  omega

theorem modeWords_middle (s : Sender Client) {word : List Char} (mem : word ∈ s.modeWords) : MiddleWord word := by
  unfold Sender.modeWords at mem
  split at mem
  · cases mem
  · rcases List.mem_cons.mp mem with rfl | param
    · refine ⟨List.cons_ne_nil _ _, fun blank => ?_, by simp [channelModes]⟩
      exact channelModes_letters s.chan.mode ' ' blank (by decide)
    · exact (parameters_middle s.valid param).1

theorem words_middle (s : Sender Client) (first : Bool) {word : List Char} (mem : word ∈ s.words first) : MiddleWord word := by
  simp only [Sender.words, List.mem_cons] at mem
  rcases mem with rfl | rfl | mode
  · refine ⟨?_, s.chname_word, by rw [s.chname_global]; decide⟩
    intro none
    have global := s.chname_global
    rw [none] at global
    exact absurd global (by decide)
  · exact printed_middle _
  · split at mode
    · exact modeWords_middle s mode
    · cases mode

theorem length_modeWords (s : Sender Client) : s.modeWords.length ≤ 5 := by
  have params := length_parameters s.chan.mode
  unfold Sender.modeWords
  split
  · simp
  · simp only [List.length_cons, List.length_map]
    omega

theorem length_modes (s : Sender Client) : s.modes.length ≤ 118 := by
  have sum {parts : List (List Char)} (short : ∀ part ∈ parts, part.length ≤ 23) :
      (parts.flatMap (' ' :: ·)).length ≤ 24 * parts.length := by
    induction parts with
    | nil => simp
    | cons part parts ih =>
      have here := short part List.mem_cons_self
      have more := ih fun other mem => short other (List.mem_cons_of_mem part mem)
      simp only [List.flatMap_cons, List.length_append, List.length_cons]
      omega
  rw [modes_words]
  unfold Sender.modeWords
  split
  · simp
  · have params := length_parameters s.chan.mode
    have total := sum fun part mem => (parameters_middle s.valid mem).2
    have letters := length_letters s.chan.mode
    rw [List.length_map] at total
    simp only [List.flatMap_cons, List.length_append, List.length_cons]
    omega

theorem length_header (s : Sender Client) : s.header.length ≤ 226 := by
  have server := s.server_short
  have chname := s.chname_short
  have time := s.time_lt
  have digits : (Nat.toDigits 10 s.chan.creationTime.toNat).length ≤ 20 := length_printed (by omega)
  simp only [Sender.header, List.length_append, List.length_cons, List.length_nil]
  omega

theorem putBans_behind (bans : List Ban) {mb : List Char} (fits : mb.length ≤ lineLen) :
    ∃ put, bans = put ++ (putBans false bans mb).1 ∧
      (putBans false bans mb).2 = mb ++ (put.map (·.banstr)).flatMap (' ' :: ·) ∧
      (putBans false bans mb).2.length ≤ lineLen := by
  induction bans generalizing mb with
  | nil => exact ⟨[], rfl, by simp [putBans], fits⟩
  | cons ban rest ih =>
    unfold putBans
    simp only [Bool.false_eq_true, if_false, List.nil_append, Nat.add_zero]
    split
    · exact ⟨[], rfl, by simp, fits⟩
    · rename_i room
      have longer : (mb ++ ' ' :: ban.banstr).length ≤ lineLen := by
        simp only [bufleft] at room
        simp only [List.length_append, List.length_cons]
        omega
      obtain ⟨put, split, text, short⟩ := ih longer
      refine ⟨ban :: put, ?_, ?_, short⟩
      · rw [List.cons_append, ← split]
      · rw [text]
        simp

theorem putBans_line (bans : List Ban) {mb : List Char} (fits : mb.length ≤ lineLen) :
    ∃ put, bans = put ++ (putBans true bans mb).1 ∧
      (putBans true bans mb).2 = mb ++ (if put = [] then [] else ' ' :: ':' :: '%' :: [' '].intercalate (put.map (·.banstr))) ∧
      (putBans true bans mb).2.length ≤ lineLen ∧
      (bans ≠ [] → (∀ ban ∈ bans, ban.banstr.length ≤ 90) → mb.length ≤ 344 → put ≠ []) := by
  cases bans with
  | nil => exact ⟨[], rfl, by simp [putBans], fits, fun some_ban => absurd rfl some_ban⟩
  | cons ban rest =>
    unfold putBans
    simp only [if_true]
    split
    · rename_i full
      refine ⟨[], rfl, by simp, fits, fun _ short room => ?_⟩
      have here := short ban List.mem_cons_self
      simp only [bufleft, lineLen] at full
      omega
    · rename_i room
      have longer : (mb ++ ' ' :: ([':', '%'] ++ ban.banstr)).length ≤ lineLen := by
        simp only [bufleft] at room
        simp only [List.length_append, List.length_cons, List.length_nil]
        omega
      obtain ⟨put, split, text, short⟩ := putBans_behind rest longer
      refine ⟨ban :: put, ?_, ?_, short, fun _ _ _ => List.cons_ne_nil ban put⟩
      · rw [List.cons_append, ← split]
      · rw [text, if_neg (List.cons_ne_nil ban put), List.map_cons]
        cases put with
        | nil => simp [List.intercalate]
        | cons next put =>
          have behind := cons_intercalate ' ' (List.cons_ne_nil next.banstr (put.map (·.banstr)))
          rw [List.map_cons, List.intercalate_cons_cons, ← behind]
          simp

theorem nickWords_middle {tokens : List (List Char)} (words : ∀ token ∈ tokens, NickWord token) {word : List Char}
    (mem : word ∈ nickWords tokens) : MiddleWord word ∧ peek word ∈ convert2y := by
  unfold nickWords at mem
  split at mem
  · cases mem
  · rename_i some_token
    obtain ⟨token, rest, rfl⟩ := List.exists_cons_of_ne_nil some_token
    rw [List.mem_singleton] at mem
    subst mem
    have good := words token List.mem_cons_self
    have some_char : token ≠ [] := by
      rintro rfl
      exact absurd good.first (by decide)
    obtain ⟨c, text, shape⟩ := List.exists_cons_of_ne_nil some_char
    have head : ∃ behind, [','].intercalate (token :: rest) = c :: behind := by
      cases rest with
      | nil => exact ⟨text, by simp [List.intercalate, shape]⟩
      | cons next rest => exact ⟨_, by rw [List.intercalate_cons_cons, shape]; rfl⟩
    obtain ⟨behind, whole⟩ := head
    have first : c ∈ convert2y := by
      have start := good.first
      rw [shape] at start
      exact start
    refine ⟨⟨by rw [whole]; exact List.cons_ne_nil c behind, ?_, ?_⟩, by rw [whole]; exact first⟩
    · intro blank
      have inside : ' ' ∈ (token :: rest).flatMap (',' :: ·) := by
        rw [← cons_intercalate ',' some_token]
        exact List.mem_cons_of_mem ',' blank
      obtain ⟨part, part_mem, char_mem⟩ := List.mem_flatMap.mp inside
      rcases List.mem_cons.mp char_mem with bad | bad
      · exact absurd bad (by decide)
      · exact (words part part_mem).unbroken.2 bad
    · rw [whole, peek_cons]
      exact (convert2y_plain c first).2.1

theorem lineParams_sent (s : Sender Client) (first : Bool) {tokens : List (List Char)}
    (words : ∀ token ∈ tokens, NickWord token) (put : List Ban) :
    lineParams (s.header ++ (if first then s.modes else []) ++ nickText tokens ++
        (if put = [] then [] else ' ' :: ':' :: '%' :: [' '].intercalate (put.map (·.banstr)))) =
      s.words first ++ nickWords tokens ++ banWords put := by
  have middle : ∀ word ∈ s.words first ++ nickWords tokens, MiddleWord word := by
    intro word mem
    rcases List.mem_append.mp mem with header | nicks
    · exact words_middle s first header
    · exact (nickWords_middle words nicks).1
  have room : (s.words first ++ nickWords tokens).length < maxPara := by
    have modes := length_modeWords s
    have nicks : (nickWords tokens).length ≤ 1 := by
      unfold nickWords
      split <;> simp
    have params : (if first then s.modeWords else []).length ≤ 5 := by split <;> simp [modes]
    simp only [Sender.words, maxPara, List.length_append, List.length_cons]
    omega
  rw [header_words, nickText_words, List.append_assoc _ _ ((nickWords tokens).flatMap _), ← List.flatMap_append]
  by_cases none : put = []
  · simp only [none, if_true, List.append_nil, banWords]
    have some_word : ∃ rest, (s.words first ++ nickWords tokens).flatMap (' ' :: ·) = ' ' :: rest := ⟨_, rfl⟩
    obtain ⟨rest, shape⟩ := some_word
    rw [shape, lineParams_command s.server_word (by decide) (by decide), ← shape, splitParams_words maxPara middle room]
  · rw [if_neg none, banWords, if_neg none]
    have whole : s.server ++ ' ' :: ['B'] ++ (s.words first ++ nickWords tokens).flatMap (' ' :: ·) ++
        ' ' :: ':' :: '%' :: [' '].intercalate (put.map (·.banstr)) =
        commandLine s.server ['B'] (s.words first ++ nickWords tokens) ('%' :: [' '].intercalate (put.map (·.banstr))) := by
      simp [commandLine, joinParams]
    rw [whole, lineParams_commandLine s.server_word (by decide) (by decide) middle room]

section
variable [DecidableEq Client]

/-- The modes after a line with the modes `m`, `MODE_LIMIT` apart. -/
def Merged (old new result : Mode) : Prop :=
  (∀ f, f ≠ .limit → result.mode f = mergeSimple old.mode new.mode f) ∧
    result = { mergeParameters old new with mode := result.mode }

variable {tokens : List (List Char)}

omit [DecidableEq Client] in
theorem readNicks_tokens {link : Link Client} {base : Status} {st : NickState} {entries : List (Entry Client)}
    (words : ∀ token ∈ tokens, NickWord token)
    (read : tokens.foldl (readNick link base true) (⟨base, -1⟩, []) = (st, entries)) :
    readNicks link base true ([','].intercalate tokens) = entries := by
  have some_char : ∀ token ∈ tokens, token ≠ [] := by
    rintro token mem rfl
    exact absurd (words [] mem).first (by decide)
  rw [readNicks, strtok_intercalate some_char fun token mem => (words token mem).unbroken.1, read]

theorem burstParams_bans (link : Link Client) (wipeout : Bool) {fuel : Nat} (st : BurstState Client) (put : List Ban)
    (enough : (banWords put).length ≤ fuel) :
    ∃ banlist, burstParams link true wipeout fuel st (banWords put) =
      { st with chan := { st.chan with banlist := banlist } } := by
  unfold banWords at enough ⊢
  split
  · refine ⟨st.chan.banlist, ?_⟩
    cases fuel <;> rfl
  · rename_i some_ban
    rw [if_neg some_ban] at enough
    obtain ⟨fuel, rfl⟩ := Nat.exists_eq_add_of_lt enough
    refine ⟨readBans link st.chan.banlist ('%' :: [' '].intercalate (put.map (·.banstr))), ?_⟩
    simp only [burstParams, peek_cons, if_true]
    rw [if_neg (by decide)]
    cases fuel <;> rfl

theorem burstParams_nicks (link : Link Client) (wipeout : Bool) {fuel : Nat} (chan : Channel Client)
    (put : List Ban) {st : NickState} {entries : List (Entry Client)} (words : ∀ token ∈ tokens, NickWord token) (read : tokens.foldl (readNick link (baseMode (chan.mode.mode .delJoins)) true)
      (⟨baseMode (chan.mode.mode .delJoins), -1⟩, []) = (st, entries))
    (enough : (nickWords tokens ++ banWords put).length ≤ fuel) :
    ∃ banlist, burstParams link true wipeout fuel ⟨chan, []⟩ (nickWords tokens ++ banWords put) =
      ⟨{ chan with members := entries.foldl joinMember chan.members, banlist := banlist }, entries⟩ := by
  cases tokens with
  | nil =>
    have none : entries = [] := (congrArg Prod.snd read).symm
    rw [none]
    exact burstParams_bans link wipeout ⟨chan, []⟩ put enough
  | cons token tokens =>
    have inside : [','].intercalate (token :: tokens) ∈ nickWords (token :: tokens) := by simp [nickWords]
    have good := nickWords_middle words inside
    have plain := convert2y_plain _ good.2
    have shape : nickWords (token :: tokens) = [[','].intercalate (token :: tokens)] := if_neg (List.cons_ne_nil token tokens)
    rw [shape, List.singleton_append, List.length_cons] at enough
    rw [shape, List.singleton_append]
    obtain ⟨fuel, rfl⟩ := Nat.exists_eq_add_of_lt enough
    simp only [burstParams]
    rw [if_neg plain.2.2.2.1, if_neg plain.2.2.2.2, readNicks_tokens words read]
    obtain ⟨banlist, result⟩ := burstParams_bans link wipeout
      ⟨{ chan with members := entries.foldl joinMember chan.members }, [] ++ entries⟩ put
      (by omega : (banWords put).length ≤ (banWords put).length + fuel)
    exact ⟨banlist, result⟩

omit [DecidableEq Client] in
theorem noModes {m : Mode} (none : (channelModes forServer m).1.length ≤ 1) :
    (∀ f, f.simple = true → m.mode f = false) ∧ m.limit = 0 ∧ m.key = [] ∧ m.apass = [] ∧ m.upass = [] := by
  have no_letters : simpleLetters forServer m = [] ∧ parameters forServer m = [] := by
    simp only [channelModes, List.length_cons, List.length_append, List.length_map] at none
    exact ⟨List.length_eq_zero_iff.mp (by omega), List.length_eq_zero_iff.mp (by omega)⟩
  obtain ⟨no_simple, no_params⟩ := no_letters
  simp only [simpleLetters, List.append_eq_nil_iff] at no_simple
  obtain ⟨⟨⟨hidden, first⟩, joins⟩, last⟩ := no_simple
  have unset {table : List (Flag × Char)} (none : letters m table = []) {f : Flag} {c : Char} (mem : (f, c) ∈ table) :
      m.mode f = false := by
    rw [letters, List.filterMap_eq_nil_iff] at none
    simpa using none (f, c) mem
  have secret : m.mode .secret = false := by
    rw [← Bool.not_eq_true]
    exact fun on => by simp [on] at hidden
  have priv : m.mode .priv = false := by
    rw [← Bool.not_eq_true]
    exact fun on => by simp [on, secret] at hidden
  have delJoins : m.mode .delJoins = false := by
    rw [← Bool.not_eq_true]
    exact fun on => by simp [on] at joins
  have absent {letter : Char} {present : Bool} {text : List Char} (none : parameter letter present text = []) :
      present = false := by
    rw [← Bool.not_eq_true]
    exact fun on => by simp [parameter, on] at none
  simp only [parameters, List.append_eq_nil_iff] at no_params
  obtain ⟨⟨⟨limit, key⟩, apass⟩, upass⟩ := no_params
  refine ⟨?_, by simpa using absent limit, by simpa using absent key, by simpa using absent apass,
    by simpa using absent upass⟩
  intro f letter
  cases f with
  | secret => exact secret
  | priv => exact priv
  | delJoins => exact delJoins
  | limit => cases letter
  | burstAdded => cases letter
  | wasDelJoins => cases letter
  | moderated | topicLimit | inviteOnly | noPrivMsgs | registered => exact unset first (by simp [firstLetters]; rfl)
  | regOnly | noColor | noCtcp | sslOnly | operOnly | moderateNoReg | noNotice | noQuitParts | msgNonWeb =>
    exact unset last (by simp [lastLetters]; rfl)

omit [DecidableEq Client] in
theorem Merged.none {m : Mode} (none : (channelModes forServer m).1.length ≤ 1) (old : Mode) : Merged old m old := by
  obtain ⟨simple, limit, key, apass, upass⟩ := noModes none
  refine ⟨?_, ?_⟩
  · intro f _
    have secret := simple .secret rfl
    have priv := simple .priv rfl
    cases on : f.simple with
    | true => simp [mergeSimple, simple f on, secret, priv]
    | false => simp [mergeSimple, on, secret, priv]
  · simp [mergeParameters, limit, key, apass, upass]

/-- What a line does to a channel that believes it, between its preparation and its clean-up. -/
theorem burstParams_line (link : Link Client) (s : Sender Client) (wipeout first : Bool) {fuel : Nat}
    (chan : Channel Client) (put : List Ban) (nicks : ∀ token ∈ tokens, NickWord token)
    {entries : Status → List (Entry Client)} (read : ∀ base, ∃ st, tokens.foldl (readNick link base true) (⟨base, -1⟩, []) =
      (st, entries base))
    (enough : ((if first then s.modeWords else []) ++ (nickWords tokens ++ banWords put)).length ≤ fuel) :
    ∃ mode joins banlist, (if first then Merged chan.mode s.chan.mode mode else mode = chan.mode) ∧
      burstParams link true wipeout fuel ⟨chan, []⟩ ((if first then s.modeWords else []) ++ (nickWords tokens ++ banWords put)) =
        ⟨⟨chan.creationTime, mode, (entries (baseMode joins)).foldl joinMember chan.members, banlist⟩, entries (baseMode joins)⟩ := by
  have behind (mode : Mode) {fuel : Nat} (enough : (nickWords tokens ++ banWords put).length ≤ fuel) :
      ∃ joins banlist, burstParams link true wipeout fuel ⟨{ chan with mode := mode }, []⟩ (nickWords tokens ++ banWords put) =
        ⟨⟨chan.creationTime, mode, (entries (baseMode joins)).foldl joinMember chan.members, banlist⟩, entries (baseMode joins)⟩ := by
    obtain ⟨st, reads⟩ := read (baseMode (mode.mode .delJoins))
    obtain ⟨banlist, result⟩ := burstParams_nicks link wipeout { chan with mode := mode } put nicks reads enough
    exact ⟨_, banlist, result⟩
  cases first with
  | false =>
    obtain ⟨base, banlist, result⟩ := behind chan.mode enough
    exact ⟨chan.mode, base, banlist, rfl, result⟩
  | true =>
    simp only [if_true] at enough ⊢
    unfold Sender.modeWords at enough ⊢
    by_cases none : (channelModes forServer s.chan.mode).1.length ≤ 1
    · rw [if_pos none] at enough ⊢
      obtain ⟨base, banlist, result⟩ := behind chan.mode enough
      exact ⟨chan.mode, base, banlist, .none none chan.mode, result⟩
    · rw [if_neg none] at enough ⊢
      rw [List.cons_append, List.length_cons, List.length_append] at enough
      obtain ⟨fuel, rfl⟩ := Nat.exists_eq_add_of_lt enough
      obtain ⟨result, parsed, left, merged⟩ := modeParse_burst link.world false wipeout chan s.valid (nickWords tokens ++ banWords put)
      have only := modeParse_onlyMode link.world false wipeout chan s.chan.mode
        (words (channelModes forServer s.chan.mode).2 ++ (nickWords tokens ++ banWords put))
      rw [parsed] at only
      rw [parameters_words s.valid] at parsed
      obtain ⟨base, banlist, rest⟩ := behind result.chan.mode
        (by rw [List.length_map]; omega : (nickWords tokens ++ banWords put).length ≤
          ((parameters forServer s.chan.mode).map (·.2)).length + (nickWords tokens ++ banWords put).length + fuel)
      have here : (burstParseFlags true wipeout) = burstFlags wipeout := rfl
      refine ⟨result.chan.mode, base, banlist, merged, ?_⟩
      rw [List.cons_append, burstParams, if_pos (by rfl), here, parsed]
      simp only
      rw [left, only]
      exact rest

structure LineText (link : Link Client) (s : Sender Client) (first : Bool) (line : List Char) (now : List (Membership Client))
    (put : List Ban) : Prop where
  fits : line.length ≤ lineLen
  text : ∃ tokens : List (List Char), line = s.header ++ (if first then s.modes else []) ++ nickText tokens ++
      (if put = [] then [] else ' ' :: ':' :: '%' :: [' '].intercalate (put.map (·.banstr))) ∧
    (∀ token ∈ tokens, NickWord token) ∧
    tokens.length = now.length ∧
    ∀ base, ∃ st, tokens.foldl (readNick link base true) (⟨base, -1⟩, []) = (st, now.filterMap (heard link s base))

def wipedBy (chan : Channel Client) (timestamp : Int) : Bool := chan.creationTime = 0 || chan.creationTime > timestamp

def Applied (link : Link Client) (s : Sender Client) (first : Bool) (now : List (Membership Client)) (chan : Channel Client)
    (result : BurstState Client) : Prop :=
  let wiped := wipedBy chan s.chan.creationTime
  let ready := prepare wiped s.chan.creationTime chan
  ∃ mode joins banlist, (if first then Merged ready.mode s.chan.mode mode else mode = ready.mode) ∧
    result = ⟨cleanUp true wiped ⟨s.chan.creationTime, mode,
      (now.filterMap (heard link s (baseMode joins))).foldl joinMember ready.members, banlist⟩,
      now.filterMap (heard link s (baseMode joins))⟩

structure LineParams (link : Link Client) (s : Sender Client) (first : Bool) (now : List (Membership Client))
    (put : List Ban) (params : List (List Char)) : Prop where
  some_param : now ≠ [] ∨ put ≠ [] → params ≠ []
  modes : params.dropWhile (peek · ≠ '+') = [] ∨
    ∃ args, params.dropWhile (peek · ≠ '+') = (channelModes forServer s.chan.mode).1 :: args
  nothing : params = [] → first = true → (channelModes forServer s.chan.mode).1.length ≤ 1
  applied : ∀ chan : Channel Client, chan.creationTime = 0 ∨ s.chan.creationTime ≤ chan.creationTime →
    Applied link s first now chan (readBurst link chan s.chan.creationTime params)

theorem banWords_plain (put : List Ban) : ∀ word ∈ banWords put, peek word ≠ '+' := by
  intro word mem
  unfold banWords at mem
  split at mem
  · cases mem
  · rw [List.mem_singleton.mp mem, peek_cons]
    decide

theorem nickWords_plain (words : ∀ token ∈ tokens, NickWord token) :
    ∀ word ∈ nickWords tokens, peek word ≠ '+' :=
  fun _ mem => (convert2y_plain _ (nickWords_middle words mem).2).2.2.2.1

theorem LineText.params {link : Link Client} {s : Sender Client} {first : Bool} {line : List Char}
    {now : List (Membership Client)} {put : List Ban} (written : LineText link s first line now put) :
    ∃ params, lineParams (sentLine line) = s.chname :: Nat.toDigits 10 s.chan.creationTime.toNat :: params ∧
      LineParams link s first now put params := by
  obtain ⟨fits, tokens, shape, nicks, count, read⟩ := written
  have sent : sentLine line = line := List.take_of_length_le fits
  have no_plus : (nickWords tokens ++ banWords put).dropWhile (peek · ≠ '+') = [] := by
    rw [List.dropWhile_eq_nil_iff]
    intro word mem
    rcases List.mem_append.mp mem with nick | ban
    · simpa using nickWords_plain nicks word nick
    · simpa using banWords_plain put word ban
  refine ⟨(if first then s.modeWords else []) ++ (nickWords tokens ++ banWords put), ?_, ?_, ?_, ?_, ?_⟩
  · rw [sent, shape, lineParams_sent s first nicks put]
    simp [Sender.words]
  · rintro busy none
    simp only [List.append_eq_nil_iff] at none
    have no_ban : put = [] := by
      by_contra some_ban
      exact absurd none.2.2 (by simp [banWords, some_ban])
    have some_member := busy.resolve_right fun some_ban => some_ban no_ban
    have no_token : tokens = [] := by
      by_contra some_token
      exact absurd none.2.1 (by simp [nickWords, some_token])
    rw [no_token] at count
    exact some_member (List.length_eq_zero_iff.mp count.symm)
  · cases first with
    | false => exact .inl no_plus
    | true =>
      simp only [if_true, Sender.modeWords]
      split
      · exact .inl no_plus
      · refine .inr ⟨(parameters forServer s.chan.mode).map (·.2) ++ (nickWords tokens ++ banWords put), ?_⟩
        rw [List.cons_append, List.dropWhile_cons_of_neg]
        simp [channelModes]
  · intro none on
    subst on
    by_contra some_modes
    simp [Sender.modeWords, some_modes] at none
  · intro chan believes
    have set : (wipedBy chan s.chan.creationTime || decide (chan.creationTime = s.chan.creationTime)) = true := by
      simp only [wipedBy, Bool.or_eq_true, decide_eq_true_eq]
      omega
    have time : (prepare (wipedBy chan s.chan.creationTime) s.chan.creationTime chan).creationTime = s.chan.creationTime := by
      cases wiped : wipedBy chan s.chan.creationTime with
      | true => rfl
      | false =>
        rw [wiped, Bool.false_or, decide_eq_true_eq] at set
        exact set
    obtain ⟨mode, base, banlist, merged, result⟩ := burstParams_line link s (wipedBy chan s.chan.creationTime) first
      (prepare (wipedBy chan s.chan.creationTime) s.chan.creationTime chan) put nicks read (Nat.le_refl _)
    rw [time] at result
    refine ⟨mode, base, banlist, merged, ?_⟩
    have unfolded : readBurst link chan s.chan.creationTime ((if first then s.modeWords else []) ++ (nickWords tokens ++ banWords put)) =
        let st := burstParams link (wipedBy chan s.chan.creationTime || decide (chan.creationTime = s.chan.creationTime))
          (wipedBy chan s.chan.creationTime) ((if first then s.modeWords else []) ++ (nickWords tokens ++ banWords put)).length
          ⟨prepare (wipedBy chan s.chan.creationTime) s.chan.creationTime chan, []⟩
          ((if first then s.modeWords else []) ++ (nickWords tokens ++ banWords put))
        ⟨cleanUp (wipedBy chan s.chan.creationTime || decide (chan.creationTime = s.chan.creationTime))
          (wipedBy chan s.chan.creationTime) st.chan, st.entries⟩ := rfl
    rw [unfolded, set, result]

end

end Ircd.Channels

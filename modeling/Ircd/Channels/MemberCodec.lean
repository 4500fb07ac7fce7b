import Ircd.Channels.SendModes
import Mathlib.Data.List.TakeWhile

/-! The members of a channel through the lines of `send_channel_modes` and back by `ms_burst`.

While a line is written, the reader of what is written so far is in step with the writer: in the
same mode and, among ops, at the same level. A new line starts both of them over.
-/

set_option autoImplicit false

namespace Ircd.Channels
open Ircd.Text Ircd.Numnicks

variable {Client : Type}

def wireMode (base : Status) (flags : Bool × Bool) : Status :=
  let base := if flags.2 then base.voiced else base
  if flags.1 then base.opped else base

def wireLevel (m : Membership Client) : Int := if m.status.chanop then m.opLevel else -1

theorem readFlags_nil (base : Status) (fuel : Nat) (reset : Bool) (st : NickState) : readFlags base fuel reset st [] = st := by
  cases fuel <;> rfl

theorem readFlags_level (base : Status) {fuel : Nat} (some_fuel : 0 < fuel) (reset : Bool) (st : NickState) (n : Nat)
    (fits : (if st.opLevel = -1 then 0 else st.opLevel) + n ≤ maxOpLevel) :
    readFlags base fuel reset st (Nat.toDigits 10 n) =
      ⟨(if decide (st.opLevel = -1) && reset then base else st.mode).opped, (if st.opLevel = -1 then 0 else st.opLevel) + n⟩ := by
  obtain ⟨fuel, rfl⟩ := Nat.exists_eq_add_of_lt some_fuel
  obtain ⟨c, rest, shape, digit⟩ := toDigits_eq_cons n
  have not_o : c ≠ 'o' := by
    rintro rfl
    exact absurd digit (by decide)
  have not_v : c ≠ 'v' := by
    rintro rfl
    exact absurd digit (by decide)
  have value : readNumber 0 (c :: rest) = n := by rw [← shape, readNumber_toDigits]
  have no_more : rest.dropWhile isDigit = [] := by
    rw [List.dropWhile_eq_nil_iff]
    intro d mem
    exact isDigit_of_mem_toDigits (n := n) (by rw [shape]; exact List.mem_cons_of_mem c mem)
  have not_above : ¬ (if st.opLevel = -1 then 0 else st.opLevel) + (n : Int) > maxOpLevel := by omega
  rw [shape, Nat.zero_add, readFlags, if_neg not_o, if_neg not_v, if_pos digit]
  simp only [value, no_more, readFlags_nil, decide_eq_true_eq, if_neg not_above]

/-- The flags of a pass put the reader into its mode, whatever it was in; without voice a level
must be the first one. -/
theorem readFlags_absolute (base : Status) (sendOplevels : Bool) (m : Membership Client) (st : NickState) {flags : List Char}
    (written : absoluteFlags sendOplevels m = ':' :: flags) (some_flag : m.status.chanop = true ∨ m.status.voice = true)
    (first : m.status.voice = false → st.opLevel = -1)
    (level : m.status.chanop = true → m.opLevel ≤ maxOpLevel ∧ (sendOplevels = false → m.opLevel = maxOpLevel)) :
    readFlags base flags.length true st flags =
      ⟨wireMode base (m.status.chanop, m.status.voice), wireLevel m⟩ := by
  have shape : flags = (if m.status.voice then ['v'] else []) ++
      if m.status.chanop then if sendOplevels then Nat.toDigits 10 m.opLevel else ['o'] else [] := by
    simpa [absoluteFlags] using written.symm
  have some_digit : 0 < (Nat.toDigits 10 m.opLevel).length := List.length_pos_iff.mpr Nat.toDigits_ne_nil
  subst shape
  cases voice : m.status.voice with
  | true =>
    cases op : m.status.chanop with
    | false => simp [readFlags, wireMode, wireLevel, op]
    | true =>
      obtain ⟨small, all_same⟩ := level op
      cases sendOplevels with
      | true =>
        simp only [if_true, List.cons_append, List.nil_append, List.length_cons, readFlags, if_neg (by decide : 'v' ≠ 'o')]
        rw [readFlags_level base some_digit false _ m.opLevel (by simpa using small)]
        simp [wireMode, wireLevel, op]
      | false =>
        have same := all_same rfl
        simp [readFlags, wireMode, wireLevel, op, same]
  | false =>
    have unread := first voice
    have op : m.status.chanop = true := by simpa [voice] using some_flag
    obtain ⟨small, all_same⟩ := level op
    cases sendOplevels with
    | true =>
      simp only [op, if_true, Bool.false_eq_true, if_false, List.nil_append]
      rw [readFlags_level base some_digit true st m.opLevel (by simpa [unread] using small)]
      simp [wireMode, wireLevel, op, unread]
    | false =>
      have same := all_same rfl
      simp [readFlags, wireMode, wireLevel, op, same]

variable {cur : Cursor Client}

theorem put_new (new : cur.newMode = true) (m : Membership Client) :
    cur.put m = (absoluteFlags cur.sendOplevels m,
      { cur with
        newMode := false
        lastOplevel := if m.status.chanop && cur.sendOplevels then m.opLevel else cur.lastOplevel }) := by
  rw [Cursor.put, if_pos new]

variable {m : Membership Client}

theorem put_changed (old : cur.newMode = false)
    (changed : cur.sendOplevels = true ∧ 1 < cur.flagCnt ∧ cur.lastOplevel ≠ m.opLevel)
    (above : cur.lastOplevel ≤ m.opLevel) (small : m.opLevel ≤ maxOpLevel) :
    cur.put m = (':' :: Nat.toDigits 10 (m.opLevel - cur.lastOplevel), { cur with lastOplevel := m.opLevel }) := by
  have increment : (m.opLevel + 2 ^ 32 - cur.lastOplevel) % 2 ^ 32 = m.opLevel - cur.lastOplevel := by
    have bound : maxOpLevel = 999 := rfl
    omega
  rw [Cursor.put, if_neg (by simp [old]), if_pos (by simp [changed]), increment]

theorem put_same (old : cur.newMode = false)
    (same : ¬ (cur.sendOplevels = true ∧ 1 < cur.flagCnt ∧ cur.lastOplevel ≠ m.opLevel)) :
    cur.put m = ([], cur) := by
  rw [Cursor.put, if_neg (by simp [old]), if_neg (by simpa using same)]

structure InStep (base : Status) (cur : Cursor Client) (st : NickState) : Prop where
  plain : cur.flagCnt = 0 → cur.newMode = false
  unread : cur.flagCnt < 2 ∨ cur.flagCnt = 2 ∧ cur.newMode = true → st.opLevel = -1
  mode : cur.newMode = false → st.mode = wireMode base (currentFlags cur.flagCnt)
  level : cur.newMode = false → 1 < cur.flagCnt →
    st.opLevel = if cur.sendOplevels then cur.lastOplevel else maxOpLevel

structure Ready (cur : Cursor Client) (m : Membership Client) : Prop where
  pass : cur.flagCnt < 4
  flags : (m.status.chanop, m.status.voice) = currentFlags cur.flagCnt
  level : m.status.chanop = true → m.opLevel ≤ maxOpLevel ∧ (cur.sendOplevels = false → m.opLevel = maxOpLevel)
  above : 1 < cur.flagCnt → cur.newMode = false → cur.sendOplevels = true → cur.lastOplevel ≤ m.opLevel

theorem Ready.chanop_iff (ready : Ready cur m) :
    m.status.chanop = true ↔ 1 < cur.flagCnt := by
  have pass := ready.pass
  have flags := congrArg Prod.fst ready.flags
  simp only at flags
  rw [flags]
  obtain ⟨n, _⟩ := cur
  match n, pass with
  | 0, _ => simp [currentFlags]
  | 1, _ => simp [currentFlags]
  | 2, _ => simp [currentFlags]
  | 3, _ => simp [currentFlags]

def readSuffix (base : Status) (st : NickState) : List Char → NickState
  | [] => st
  | _ :: flags => readFlags base flags.length true st flags

/-- What is written behind a nick gives the reader the modes of the member, and the two stay in
step. -/
theorem readSuffix_put {base : Status} {st : NickState} (step : InStep base cur st) (ready : Ready cur m) :
    readSuffix base st (cur.put m).1 = ⟨wireMode base (m.status.chanop, m.status.voice), wireLevel m⟩ ∧
      InStep base (cur.put m).2 ⟨wireMode base (m.status.chanop, m.status.voice), wireLevel m⟩ := by
  have is_op := ready.chanop_iff
  by_cases new : cur.newMode = true
  · have past : cur.flagCnt ≠ 0 := fun zero => by simp [step.plain zero] at new
    have some_flag : m.status.chanop = true ∨ m.status.voice = true := by
      by_cases op : 1 < cur.flagCnt
      · exact .inl (is_op.mpr op)
      · have one : cur.flagCnt = 1 := by omega
        have flags := ready.flags
        rw [one, currentFlags] at flags
        exact .inr (congrArg Prod.snd flags)
    have first : m.status.voice = false → st.opLevel = -1 := by
      intro quiet
      apply step.unread
      by_cases op : 1 < cur.flagCnt
      · refine .inr ⟨?_, new⟩
        have pass := ready.pass
        have flags := congrArg Prod.snd ready.flags
        simp only [quiet] at flags
        by_contra other
        have three : cur.flagCnt = 3 := by omega
        rw [three] at flags
        cases flags
      · exact .inl (by omega)
    rw [put_new new]
    refine ⟨readFlags_absolute base cur.sendOplevels m st rfl some_flag first ready.level, fun _ => rfl, ?_, ?_, ?_⟩
    · rintro (low | ⟨_, absurd_new⟩)
      · have not_op : ¬ m.status.chanop = true := fun op => by
          have := is_op.mp op
          simp only at low
          omega
        simp [wireLevel, not_op]
      · cases absurd_new
    · intro _
      rw [ready.flags]
    · intro _ op
      have opped : m.status.chanop = true := is_op.mpr op
      cases send : cur.sendOplevels with
      | true => simp [wireLevel, opped]
      | false => simp [wireLevel, opped, (ready.level opped).2 send]
  · have old : cur.newMode = false := by simpa using new
    have same_mode : st.mode = wireMode base (m.status.chanop, m.status.voice) := by
      rw [step.mode old, ready.flags]
    by_cases changed : cur.sendOplevels = true ∧ 1 < cur.flagCnt ∧ cur.lastOplevel ≠ m.opLevel
    · obtain ⟨send, op, differs⟩ := changed
      have opped : m.status.chanop = true := is_op.mpr op
      have above := ready.above op old send
      have small := (ready.level opped).1
      have level : st.opLevel = cur.lastOplevel := by rw [step.level old op, send, if_pos rfl]
      have read : st.opLevel ≠ -1 := by omega
      rw [put_changed old ⟨send, op, differs⟩ above small]
      refine ⟨?_, fun zero => by simp only at zero; omega, ?_, fun _ => by rw [ready.flags], ?_⟩
      · have some_digit : 0 < (Nat.toDigits 10 (m.opLevel - cur.lastOplevel)).length :=
          List.length_pos_iff.mpr Nat.toDigits_ne_nil
        have sum : (if st.opLevel = -1 then 0 else st.opLevel) + ((m.opLevel - cur.lastOplevel : Nat) : Int) = m.opLevel := by
          rw [if_neg read, level]
          omega
        show readFlags base _ true st _ = _
        rw [readFlags_level base some_digit true st _ (by rw [sum]; exact_mod_cast small), sum]
        simp [read, same_mode, wireMode, wireLevel, opped, Status.opped]
      · simp only
        rintro (low | ⟨_, absurd_new⟩)
        · omega
        · rw [old] at absurd_new
          cases absurd_new
      · intro _ _
        simp [wireLevel, opped, send]
    · have level : st.opLevel = wireLevel m := by
        by_cases op : 1 < cur.flagCnt
        · have opped : m.status.chanop = true := is_op.mpr op
          rw [step.level old op, wireLevel, if_pos opped]
          cases send : cur.sendOplevels with
          | true =>
            have same : cur.lastOplevel = m.opLevel := by simpa [send, op] using changed
            simp [same]
          | false => simp [(ready.level opped).2 send]
        · have not_op : ¬ m.status.chanop = true := fun opped => op (is_op.mp opped)
          rw [step.unread (.inl (by omega)), wireLevel, if_neg not_op]
      have whole : st = ⟨wireMode base (m.status.chanop, m.status.voice), wireLevel m⟩ := by
        rw [← same_mode, ← level]
      rw [put_same old changed, ← whole]
      exact ⟨rfl, step⟩

theorem convert2y_plain : ∀ c ∈ convert2y, c ≠ ',' ∧ c ≠ ':' ∧ c ≠ ' ' ∧ c ≠ '+' ∧ c ≠ '%' := by decide

theorem digit_plain {c : Char} (digit : isDigit c = true) : c ≠ ',' ∧ c ≠ ' ' := by
  refine ⟨?_, ?_⟩ <;>
  · rintro rfl
    exact absurd digit (by decide)

theorem put_suffix (cur : Cursor Client) (m : Membership Client) :
    ((cur.put m).1 = [] ∨ ∃ flags, (cur.put m).1 = ':' :: flags) ∧ ∀ c ∈ (cur.put m).1, c ≠ ',' ∧ c ≠ ' ' := by
  have digits (n : Nat) (c : Char) (mem : c ∈ Nat.toDigits 10 n) : c ≠ ',' ∧ c ≠ ' ' :=
    digit_plain (isDigit_of_mem_toDigits mem)
  unfold Cursor.put
  split
  · refine ⟨.inr ⟨_, rfl⟩, ?_⟩
    intro c mem
    simp only [absoluteFlags, List.mem_cons, List.mem_append] at mem
    rcases mem with rfl | voice | level
    · decide
    · have here : c = 'v' := by
        split at voice
        · simpa using voice
        · cases voice
      subst here
      decide
    · split at level
      · split at level
        · exact digits _ c level
        · have here : c = 'o' := by simpa using level
          subst here
          decide
      · cases level
  · split
    · refine ⟨.inr ⟨_, rfl⟩, ?_⟩
      intro c mem
      rcases List.mem_cons.mp mem with rfl | level
      · decide
      · exact digits _ c level
    · exact ⟨.inl rfl, fun _ => (by rintro ⟨⟩)⟩

theorem length_level {n : Nat} (small : n ≤ maxOpLevel) : (Nat.toDigits 10 n).length ≤ 3 := by
  rw [Nat.length_toDigits_le_iff (by decide) (by decide)]
  exact Nat.lt_of_le_of_lt small (by decide)

theorem length_put (ready : Ready cur m) : (cur.put m).1.length ≤ 5 := by
  by_cases new : cur.newMode = true
  · have voice : (if m.status.voice then ['v'] else []).length ≤ 1 := by split <;> simp
    have level : (if m.status.chanop then if cur.sendOplevels then Nat.toDigits 10 m.opLevel else ['o'] else []).length ≤ 3 := by
      split
      · rename_i op
        split
        · exact length_level (ready.level op).1
        · simp
      · simp
    rw [put_new new]
    simp only [absoluteFlags, List.length_cons, List.length_append]
    omega
  · have old : cur.newMode = false := by simpa using new
    by_cases changed : cur.sendOplevels = true ∧ 1 < cur.flagCnt ∧ cur.lastOplevel ≠ m.opLevel
    · have small := (ready.level (ready.chanop_iff.mpr changed.2.1)).1
      have digits := length_level (Nat.le_trans (Nat.sub_le m.opLevel cur.lastOplevel) small)
      rw [put_changed old changed (ready.above changed.2.1 old changed.1) small, List.length_cons]
      omega
    · rw [put_same old changed]
      exact Nat.zero_le 5

def nickText : List (List Char) → List Char
  | [] => []
  | token :: tokens => ' ' :: (token ++ tokens.flatMap (',' :: ·))

theorem nickText_append (tokens : List (List Char)) (token : List Char) :
    nickText (tokens ++ [token]) = nickText tokens ++ (if tokens = [] then ' ' else ',') :: token := by
  cases tokens with
  | nil => simp [nickText]
  | cons first rest => simp [nickText]

structure NickWord (token : List Char) : Prop where
  first : peek token ∈ convert2y
  unbroken : ',' ∉ token ∧ ' ' ∉ token

def heard (link : Link Client) (s : Sender Client) (base : Status) (m : Membership Client) : Option (Entry Client) :=
  ((link.world.findNUser (s.numnick m.user)).filter link.behind).map fun user =>
    ⟨user, wireMode base (m.status.chanop, m.status.voice), wireLevel m⟩

structure Written (link : Link Client) (s : Sender Client) (mb : List Char) (line : OutLine) (tokens : List (List Char))
    (st : Status → NickState) (members : List (Membership Client)) : Prop where
  text : line.mb = mb ++ nickText tokens
  first : line.first = decide (tokens = [])
  read : ∀ base, tokens.foldl (readNick link base true) (⟨base, -1⟩, []) = (st base, members.filterMap (heard link s base))
  words : ∀ token ∈ tokens, NickWord token
  count : tokens.length = members.length
  fits : line.mb.length ≤ lineLen

theorem NumNick.head {text : List Char} (numeric : NumNick text) : peek text ∈ convert2y := by
  obtain ⟨c, rest, rfl⟩ := List.exists_cons_of_ne_nil numeric.nonempty
  exact numeric.digits c List.mem_cons_self

variable {s : Sender Client}

theorem readNick_put (link : Link Client) {base : Status} {st : NickState} (step : InStep base cur st)
    (entries : List (Entry Client)) (mem : m ∈ s.chan.members) (ready : Ready cur m) :
    readNick link base true (st, entries) (s.numnick m.user ++ (cur.put m).1) =
      (⟨wireMode base (m.status.chanop, m.status.voice), wireLevel m⟩, entries ++ (heard link s base m).toList) := by
  have unbroken : ∀ c ∈ s.numnick m.user, (decide (c ≠ ':')) = true := by
    intro c inside
    simpa using (convert2y_plain c ((s.numnicks m mem).digits c inside)).2.1
  have read := (readSuffix_put step ready).1
  have entry : heard link s base m = ((link.world.findNUser (s.numnick m.user)).filter link.behind).map fun user =>
      ⟨user, (readSuffix base st (cur.put m).1).mode, (readSuffix base st (cur.put m).1).opLevel⟩ := by
    rw [read]
    rfl
  rw [entry, ← read]
  obtain ⟨none | ⟨flags, some_flags⟩, _⟩ := put_suffix cur m
  · rw [none, List.append_nil]
    simp only [readNick]
    rw [List.takeWhile_eq_self_iff.mpr unbroken, List.dropWhile_eq_nil_iff.mpr unbroken]
    cases link.world.findNUser (s.numnick m.user) with
    | none => simp [readSuffix]
    | some user => cases behind : link.behind user <;> simp [behind, readSuffix, Option.filter]
  · rw [some_flags]
    simp only [readNick]
    rw [List.takeWhile_append_of_pos unbroken, List.dropWhile_append_of_pos unbroken, List.takeWhile_cons_of_neg (by simp),
      List.append_nil, List.dropWhile_cons_of_neg (by simp)]
    cases link.world.findNUser (s.numnick m.user) with
    | none => simp [readSuffix]
    | some user => cases behind : link.behind user <;> simp [behind, readSuffix, Option.filter]

theorem Written.put {link : Link Client} {mb : List Char} {line : OutLine} {tokens : List (List Char)}
    {st : Status → NickState} {members : List (Membership Client)}
    (written : Written link s mb line tokens st members) (step : ∀ base, InStep base cur (st base))
    (mem : m ∈ s.chan.members) (ready : Ready cur m) (room : 11 ≤ bufleft line.mb) :
    Written link s mb
        ⟨line.mb ++ (if line.first then ' ' else ',') :: (s.numnick m.user ++ (cur.put m).1), false⟩
        (tokens ++ [s.numnick m.user ++ (cur.put m).1])
        (fun base => ⟨wireMode base (m.status.chanop, m.status.voice), wireLevel m⟩) (members ++ [m]) := by
  have numeric := s.numnicks m mem
  refine ⟨?_, ?_, ?_, ?_, ?_, ?_⟩
  · rw [nickText_append, written.text, written.first, List.append_assoc]
    simp
  · simp
  · intro base
    rw [List.foldl_append, written.read, List.foldl_cons, List.foldl_nil, readNick_put link (step base) _ mem ready,
      List.filterMap_append]
    cases entry : heard link s base m <;> simp [entry]
  · intro token inside
    rcases List.mem_append.mp inside with before | here
    · exact written.words token before
    · rw [List.mem_singleton.mp here]
      obtain ⟨c, rest, shape⟩ := List.exists_cons_of_ne_nil numeric.nonempty
      have plain : ∀ c ∈ s.numnick m.user ++ (cur.put m).1, c ≠ ',' ∧ c ≠ ' ' := by
        intro c mem_c
        rcases List.mem_append.mp mem_c with digit | flag
        · have ok := convert2y_plain c (numeric.digits c digit)
          exact ⟨ok.1, ok.2.2.1⟩
        · exact (put_suffix cur m).2 c flag
      refine ⟨?_, fun comma => (plain _ comma).1 rfl, fun blank => (plain _ blank).2 rfl⟩
      have head := numeric.head
      rw [shape] at head ⊢
      exact head
  · simp [written.count]
  · have short := numeric.short
    have flags := length_put ready
    have before := written.fits
    simp only [bufleft] at room
    simp only [List.length_append, List.length_cons]
    omega

def inPass (flagCnt : Nat) (members : List (Membership Client)) : List (Membership Client) :=
  members.filter fun m => (m.status.chanop, m.status.voice) = currentFlags flagCnt

def Sender.ops (qsort : Qsort Client) (s : Sender Client) : List (Membership Client) :=
  qsort.sort (s.chan.members.filter (·.status.chanop))

def isLowOp (m : Membership Client) : Bool := m.status.chanop && m.opLevel < maxOpLevel

/-- The members that are still to be written, where `members` are left in the pass. -/
def Sender.left (qsort : Qsort Client) (s : Sender Client) (flagCnt : Nat) (members : List (Membership Client)) :
    List (Membership Client) :=
  match flagCnt with
  | 0 => inPass 0 members ++ (inPass 1 s.chan.members ++ (inPass 2 (s.ops qsort) ++ inPass 3 (s.ops qsort)))
  | 1 => inPass 1 members ++ (inPass 2 (s.ops qsort) ++ inPass 3 (s.ops qsort))
  | 2 => inPass 2 members ++ inPass 3 (s.ops qsort)
  | 3 => inPass 3 members
  | _ => []

/-- The passes so far, where `members` are left in this one. -/
structure Underway (qsort : Qsort Client) (s : Sender Client) (cur : Cursor Client)
    (members : List (Membership Client)) : Prop where
  known : ∀ m ∈ members, m ∈ s.chan.members
  counted : cur.flagCnt = 0 → cur.opped = [] ∧ (cur.sendOplevels || members.any isLowOp) = s.chan.members.any isLowOp
  stored : cur.flagCnt = 1 → cur.opped ++ members.filter (·.status.chanop) = s.chan.members.filter (·.status.chanop)
  opped : 1 < cur.flagCnt → cur.opped = s.ops qsort
  sends : 0 < cur.flagCnt → cur.sendOplevels = s.chan.members.any isLowOp
  sorted : 1 < cur.flagCnt → members.Pairwise fun a b => a.opLevel ≤ b.opLevel
  above : 1 < cur.flagCnt → cur.newMode = false → cur.sendOplevels = true → ∀ m ∈ members, cur.lastOplevel ≤ m.opLevel

theorem currentFlags_op {n : Nat} : (currentFlags n).1 = true ↔ 1 < n := by
  match n with
  | 0 => simp [currentFlags]
  | 1 => simp [currentFlags]
  | 2 => simp [currentFlags]
  | n + 3 => simp [currentFlags]

theorem meet_later (other : ¬ (cur.flagCnt < 2 ∧ m.status.chanop = true)) :
    cur.meet m = cur := by
  rw [Cursor.meet, if_neg (by simpa using other)]

theorem meet_inPass (flags : (m.status.chanop, m.status.voice) = currentFlags cur.flagCnt) : cur.meet m = cur := by
  apply meet_later
  rintro ⟨early, op⟩
  have both : (currentFlags cur.flagCnt).1 = true := by rw [← flags]; exact op
  have := currentFlags_op.mp both
  omega

theorem meet_flagCnt (cur : Cursor Client) (m : Membership Client) : (cur.meet m).flagCnt = cur.flagCnt := by
  unfold Cursor.meet
  split <;> rfl

theorem put_flagCnt (cur : Cursor Client) (m : Membership Client) :
    (cur.put m).2.flagCnt = cur.flagCnt ∧ (cur.put m).2.opped = cur.opped ∧
      (cur.put m).2.sendOplevels = cur.sendOplevels ∧ (cur.put m).2.newMode = false := by
  unfold Cursor.put
  split
  · exact ⟨rfl, rfl, rfl, rfl⟩
  · rename_i old
    split
    · exact ⟨rfl, rfl, rfl, by simpa using old⟩
    · exact ⟨rfl, rfl, rfl, by simpa using old⟩

variable {qsort : Qsort Client} {rest : List (Membership Client)}

theorem Underway.meet (under : Underway qsort s cur (m :: rest)) : Underway qsort s (cur.meet m) rest := by
  have here := under.known m List.mem_cons_self
  have known : ∀ other ∈ rest, other ∈ s.chan.members := fun other mem => under.known other (List.mem_cons_of_mem m mem)
  by_cases op : cur.flagCnt < 2 ∧ m.status.chanop = true
  · have met : cur.meet m = { cur with
        opped := if cur.flagCnt = 0 then cur.opped else cur.opped ++ [m]
        sendOplevels := cur.sendOplevels || m.opLevel < maxOpLevel } := by
      rw [Cursor.meet, if_pos (by simpa using op)]
    rw [met]
    refine ⟨known, ?_, ?_, fun late => absurd late (by simp only; omega), ?_, fun late => absurd late (by simp only; omega),
      fun late => absurd late (by simp only; omega)⟩
    · intro zero
      simp only at zero
      obtain ⟨none, sends⟩ := under.counted zero
      refine ⟨by simp [zero, none], ?_⟩
      rw [← sends]
      simp [isLowOp, op.2, Bool.or_assoc]
    · intro one
      simp only at one
      have stored := under.stored one
      simpa [one, op.2] using stored
    · intro some_pass
      simp only at some_pass ⊢
      have sends := under.sends some_pass
      rw [sends]
      by_cases low : m.opLevel < maxOpLevel
      · have all : s.chan.members.any isLowOp = true := List.any_eq_true.mpr ⟨m, here, by simp [isLowOp, op.2, low]⟩
        simp [all]
      · simp [low]
  · rw [meet_later op]
    refine ⟨known, ?_, ?_, under.opped, under.sends, fun late => (List.pairwise_cons.mp (under.sorted late)).2, ?_⟩
    · intro zero
      obtain ⟨none, sends⟩ := under.counted zero
      have not_op : m.status.chanop = false := by
        rw [← Bool.not_eq_true]
        exact fun opped => op ⟨by omega, opped⟩
      exact ⟨none, by simpa [isLowOp, not_op] using sends⟩
    · intro one
      have not_op : m.status.chanop = false := by
        rw [← Bool.not_eq_true]
        exact fun opped => op ⟨by omega, opped⟩
      simpa [not_op] using under.stored one
    · intro late old send other mem
      exact under.above late old send other (List.mem_cons_of_mem m mem)

theorem Underway.ready (under : Underway qsort s cur (m :: rest)) (pass : cur.flagCnt < 4)
    (flags : (m.status.chanop, m.status.voice) = currentFlags cur.flagCnt) : Ready cur m := by
  have here := under.known m List.mem_cons_self
  refine ⟨pass, flags, ?_, fun late old send => under.above late old send m List.mem_cons_self⟩
  intro op
  refine ⟨s.levels m here op, fun silent => ?_⟩
  have late : 1 < cur.flagCnt := by
    rw [← currentFlags_op, ← flags]
    exact op
  have none_low : s.chan.members.any isLowOp = false := by rw [← under.sends (by omega), silent]
  have not_low : isLowOp m = false := by
    rw [List.any_eq_false] at none_low
    simpa using none_low m here
  have level := s.levels m here op
  simp only [isLowOp, op, Bool.true_and, decide_eq_false_iff_not, Nat.not_lt] at not_low
  exact Nat.le_antisymm level not_low

theorem Underway.put (under : Underway qsort s cur (m :: rest)) (ready : Ready cur m) :
    Underway qsort s (cur.put m).2 rest := by
  have met := under.meet
  rw [meet_inPass ready.flags] at met
  obtain ⟨count, opped, sends, _⟩ := put_flagCnt cur m
  refine ⟨met.known, ?_, ?_, ?_, ?_, ?_, ?_⟩
  · rw [count, opped, sends]
    exact met.counted
  · rw [count, opped]
    exact met.stored
  · rw [count, opped]
    exact met.opped
  · rw [count, sends]
    exact met.sends
  · rw [count]
    exact met.sorted
  · rw [count, sends]
    intro late _ send other mem
    -- the level that was written last is that of this member
    have behind := (List.pairwise_cons.mp (under.sorted late)).1 other mem
    have op := ready.chanop_iff.mpr late
    have last : (cur.put m).2.lastOplevel ≤ m.opLevel := by
      by_cases new : cur.newMode = true
      · rw [put_new new]
        simp [op, send]
      · have old : cur.newMode = false := by simpa using new
        have above := under.above late old send m List.mem_cons_self
        by_cases changed : cur.sendOplevels = true ∧ 1 < cur.flagCnt ∧ cur.lastOplevel ≠ m.opLevel
        · rw [put_changed old changed above (ready.level op).1]
        · rw [put_same old changed]
          exact above
    exact Nat.le_trans last behind

def Restarts (cur : Cursor Client) : Prop := cur.newMode = decide (0 < cur.flagCnt)

theorem Restarts.inStep (restarts : Restarts cur) (base : Status) : InStep base cur ⟨base, -1⟩ := by
  have zero (old : cur.newMode = false) : cur.flagCnt = 0 := by
    have none := restarts.symm.trans old
    simpa using none
  refine ⟨?_, fun _ => rfl, ?_, ?_⟩
  · intro first
    rw [restarts]
    simp [first]
  · intro old
    rw [zero old]
    rfl
  · intro old late
    rw [zero old] at late
    omega

theorem InStep.meet {base : Status} {st : NickState} (step : InStep base cur st) (m : Membership Client) :
    InStep base (cur.meet m) st := by
  by_cases op : cur.flagCnt < 2 ∧ m.status.chanop = true
  · have met : cur.meet m = { cur with
        opped := if cur.flagCnt = 0 then cur.opped else cur.opped ++ [m]
        sendOplevels := cur.sendOplevels || m.opLevel < maxOpLevel } := by
      rw [Cursor.meet, if_pos (by simpa using op)]
    rw [met]
    exact ⟨step.plain, step.unread, step.mode, fun _ late => absurd late (by simp only; omega)⟩
  · rw [meet_later op]
    exact step

/-- What a run over members has written: `now` are the members that are new on the line. -/
structure PutResult (link : Link Client) (qsort : Qsort Client) (s : Sender Client) (mb : List Char)
    (before now : List (Membership Client)) (full : Bool) (cur : Cursor Client) (line : OutLine) : Prop where
  written : ∃ tokens st, Written link s mb line tokens st (before ++ now) ∧ (full = false → ∀ base, InStep base cur (st base))
  under : Underway qsort s cur cur.member
  full : full = true → Restarts cur ∧ bufleft line.mb < 11

theorem PutResult.prepend {link : Link Client} {mb : List Char} {before now later : List (Membership Client)}
    {full : Bool} {line : OutLine} (result : PutResult link qsort s mb (before ++ now) later full cur line) :
    PutResult link qsort s mb before (now ++ later) full cur line := by
  obtain ⟨⟨tokens, st, written, steps⟩, under, filled⟩ := result
  refine ⟨⟨tokens, st, ?_, steps⟩, under, filled⟩
  rw [← List.append_assoc]
  exact written

theorem putMembers_written {link : Link Client} {mb : List Char} (members : List (Membership Client))
    {line : OutLine} {tokens : List (List Char)} {st : Status → NickState} {before : List (Membership Client)}
    (pass : cur.flagCnt < 4) (under : Underway qsort s cur members) (step : ∀ base, InStep base cur (st base))
    (written : Written link s mb line tokens st before) :
    ∃ full cur' line' now, putMembers s.numnick members cur line = (full, cur', line') ∧
      PutResult link qsort s mb before now full cur' line' ∧ cur'.flagCnt = cur.flagCnt ∧
      inPass cur.flagCnt members = now ++ inPass cur.flagCnt cur'.member ∧ (full = false → cur'.member = []) := by
  induction members generalizing cur line tokens st before with
  | nil =>
    refine ⟨false, { cur with member := [] }, line, [], rfl, ⟨⟨tokens, st, ?_, ?_⟩, ?_, nofun⟩, rfl, rfl, fun _ => rfl⟩
    · simpa using written
    · exact fun _ base => ⟨(step base).plain, (step base).unread, (step base).mode, (step base).level⟩
    · exact ⟨under.known, under.counted, under.stored, under.opped, under.sends, under.sorted, under.above⟩
  | cons m rest ih =>
    by_cases flags : (m.status.chanop, m.status.voice) = currentFlags cur.flagCnt
    · have met := meet_inPass flags
      have ready := under.ready pass flags
      by_cases room : bufleft line.mb < 11
      · refine ⟨true, { cur with member := m :: rest, newMode := 0 < cur.flagCnt }, line, [], ?_,
          ⟨⟨tokens, st, by simpa using written, nofun⟩, ?_, fun _ => ⟨rfl, room⟩⟩, rfl, rfl, nofun⟩
        · simp only [putMembers, met]
          rw [if_pos flags, if_pos room]
        · refine ⟨under.known, under.counted, under.stored, under.opped, under.sends, under.sorted, ?_⟩
          intro late old
          simp only [decide_eq_false_iff_not] at late old
          omega
      · have more := written.put step (under.known m List.mem_cons_self) ready (by omega)
        obtain ⟨count, _⟩ := put_flagCnt cur m
        obtain ⟨full, cur', line', now, run, result, same, left, ended⟩ :=
          ih (by rw [count]; exact pass) (under.put ready) (fun base => (readSuffix_put (step base) ready).2) more
        refine ⟨full, cur', line', m :: now, ?_, result.prepend, same.trans count, ?_, ended⟩
        · simp only [putMembers, met]
          rw [if_pos flags, if_neg room]
          exact run
        · rw [count] at left
          have here : inPass cur.flagCnt (m :: rest) = m :: inPass cur.flagCnt rest := by
            rw [inPass, List.filter_cons_of_pos (by simpa using flags)]
            rfl
          rw [here, left]
          rfl
    · have count := meet_flagCnt cur m
      obtain ⟨full, cur', line', now, run, result, same, left, ended⟩ :=
        ih (by rw [count]; exact pass) under.meet (fun base => (step base).meet m) written
      refine ⟨full, cur', line', now, ?_, result, same.trans count, ?_, ended⟩
      · simp only [putMembers]
        rw [if_neg (by rw [count]; exact flags)]
        exact run
      · rw [count] at left
        have here : inPass cur.flagCnt (m :: rest) = inPass cur.flagCnt rest := by
          rw [inPass, List.filter_cons_of_neg (by simpa using flags)]
          rfl
        rw [here, left]

theorem Sender.mem_ops (mem : m ∈ s.ops qsort) :
    m ∈ s.chan.members :=
  (List.mem_filter.mp ((qsort.perm _).mem_iff.mp mem)).1

theorem Underway.nextPass (under : Underway qsort s cur cur.member) (ended : cur.member = []) :
    Underway qsort s (cur.nextPass qsort s.chan.members) (cur.nextPass qsort s.chan.members).member := by
  rw [ended] at under
  have sends : cur.sendOplevels = s.chan.members.any isLowOp := by
    by_cases zero : cur.flagCnt = 0
    · simpa using (under.counted zero).2
    · exact under.sends (by omega)
  have opped (late : 0 < cur.flagCnt) :
      (if cur.flagCnt = 1 then qsort.sort cur.opped else cur.opped) = s.ops qsort := by
    by_cases one : cur.flagCnt = 1
    · have stored := under.stored one
      simp only [List.filter_nil, List.append_nil] at stored
      rw [if_pos one, stored]
      rfl
    · rw [if_neg one]
      exact under.opped (by omega)
  have member (late : 0 < cur.flagCnt) : (cur.nextPass qsort s.chan.members).member = s.ops qsort := by
    simp only [Cursor.nextPass]
    rw [if_neg (by omega), opped late]
  refine ⟨?_, fun zero => by simp [Cursor.nextPass] at zero, ?_, ?_, fun _ => sends, ?_, fun _ old => by simp [Cursor.nextPass] at old⟩
  · intro m mem
    by_cases zero : cur.flagCnt = 0
    · simpa [Cursor.nextPass, zero] using mem
    · rw [member (by omega)] at mem
      exact Sender.mem_ops mem
  · intro one
    have zero : cur.flagCnt = 0 := by simpa [Cursor.nextPass] using one
    simp [Cursor.nextPass, zero, (under.counted zero).1]
  · intro late
    have some_pass : 0 < cur.flagCnt := by
      simp only [Cursor.nextPass] at late
      omega
    exact opped some_pass
  · intro late
    have some_pass : 0 < cur.flagCnt := by
      simp only [Cursor.nextPass] at late
      omega
    rw [member some_pass]
    exact qsort.sorted _

theorem InStep.nextPass {base : Status} {st : NickState} (step : InStep base cur st)
    (members : List (Membership Client)) : InStep base (cur.nextPass qsort members) st := by
  refine ⟨fun zero => by simp [Cursor.nextPass] at zero, ?_, nofun, nofun⟩
  intro early
  apply step.unread
  simp only [Cursor.nextPass] at early
  exact .inl (by omega)

theorem left_nextPass (qsort : Qsort Client) (under : Underway qsort s cur cur.member) (ended : cur.member = [])
    (pass : cur.flagCnt < 4) :
    s.left qsort (cur.nextPass qsort s.chan.members).flagCnt (cur.nextPass qsort s.chan.members).member =
      s.left qsort cur.flagCnt [] := by
  have next := under.nextPass ended
  have member (late : 0 < cur.flagCnt) : (cur.nextPass qsort s.chan.members).member = s.ops qsort := by
    have opped := next.opped (by simp only [Cursor.nextPass]; omega)
    rw [← opped]
    simp only [Cursor.nextPass]
    rw [if_neg (by omega)]
  have count : (cur.nextPass qsort s.chan.members).flagCnt = cur.flagCnt + 1 := rfl
  rw [count]
  obtain zero | late := Nat.eq_zero_or_pos cur.flagCnt
  · rw [zero]
    simp [Sender.left, Cursor.nextPass, zero, inPass]
  · rw [member late]
    match shape : cur.flagCnt, late, pass with
    | 1, _, _ => simp [Sender.left, inPass]
    | 2, _, _ => simp [Sender.left, inPass]
    | 3, _, _ => simp [Sender.left, inPass]

theorem left_split (qsort : Qsort Client) (s : Sender Client) {flagCnt : Nat} (pass : flagCnt < 4)
    {members now : List (Membership Client)} (split : inPass flagCnt members = now ++ inPass flagCnt rest) :
    s.left qsort flagCnt members = now ++ s.left qsort flagCnt rest := by
  match flagCnt, pass with
  | 0, _ => simp [Sender.left, split]
  | 1, _ => simp [Sender.left, split]
  | 2, _ => simp [Sender.left, split]
  | 3, _ => simp [Sender.left, split]

theorem putPasses_written {link : Link Client} {mb : List Char} (passes : Nat) {line : OutLine}
    {tokens : List (List Char)} {st : Status → NickState} {before : List (Membership Client)}
    (count : cur.flagCnt + passes = 4) (under : Underway qsort s cur cur.member)
    (step : ∀ base, InStep base cur (st base)) (written : Written link s mb line tokens st before) :
    ∃ full cur' line' now, putPasses qsort s.numnick s.chan.members passes cur line = (full, cur', line') ∧
      PutResult link qsort s mb before now full cur' line' ∧ cur'.flagCnt ≤ 4 ∧
      s.left qsort cur.flagCnt cur.member = now ++ s.left qsort cur'.flagCnt cur'.member ∧
      (full = false → cur'.flagCnt = 4 ∧ (cur'.newMode = true ∨ cur' = cur ∧ passes = 0)) := by
  induction passes generalizing cur line tokens st before with
  | zero =>
    have four : cur.flagCnt = 4 := count
    refine ⟨false, cur, line, [], rfl, ⟨⟨tokens, st, by simpa using written, fun _ => step⟩, under, nofun⟩, ?_, rfl,
      fun _ => ⟨four, .inr ⟨rfl, rfl⟩⟩⟩
    omega
  | succ passes ih =>
    have pass : cur.flagCnt < 4 := by omega
    obtain ⟨full, cur', line', now, run, result, same, split, ended⟩ :=
      putMembers_written cur.member pass under step written
    have left := left_split qsort s pass split
    cases full with
    | true =>
      refine ⟨true, cur', line', now, by simp only [putPasses, run], result, by omega, ?_, nofun⟩
      rw [left, same]
    | false =>
      obtain ⟨⟨tokens', st', all, steps⟩, under', _⟩ := result
      have none_left := ended rfl
      obtain ⟨full, last, line'', later, run', result', bound, left', ended_later⟩ :=
        ih (by simp only [Cursor.nextPass]; omega) (under'.nextPass none_left)
          (fun base => (steps rfl base).nextPass s.chan.members) all
      refine ⟨full, last, line'', now ++ later, by simp only [putPasses, run]; exact run', result'.prepend, bound, ?_, ?_⟩
      · rw [left_nextPass qsort under' none_left (by omega)] at left'
        rw [left, none_left, ← same, left', List.append_assoc]
      · intro open_line
        obtain ⟨four, new | ⟨rfl, _⟩⟩ := ended_later open_line
        · exact ⟨four, .inl new⟩
        · exact ⟨four, .inl rfl⟩

end Ircd.Channels

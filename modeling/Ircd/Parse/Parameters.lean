import Ircd.Parse.Messages
import Mathlib.Data.Fintype.Basic
import Mathlib.Data.List.TakeWhile
import Mathlib.Logic.Function.Basic
import Mathlib.Order.Lattice

/-! The parameters of a line: the loop of `parse_client` and `parse_server` that ends each parameter
with a terminator where it stands and keeps pointers into the line.
-/

set_option autoImplicit false

namespace Ircd.Parse
open Ircd.Text

/-- A buffer and a pointer into it: what is before the pointer, and what it points to. Behind the
buffer there are terminators. -/
structure Cursor where
  passed : List Char
  rest : List Char

def Cursor.buffer (s : Cursor) : List Char := s.passed ++ s.rest

def Cursor.place (s : Cursor) : Nat := s.passed.length

def stringAt (buffer : List Char) (place : Nat) : List Char := (buffer.drop place).takeWhile (· ≠ nul)

def inWord (c : Char) : Bool := c ≠ ' ' && c ≠ nul

def walk (goes : Char → Bool) (leaves : Char → Char) (passed : List Char) : List Char → Cursor
  | [] => ⟨passed, []⟩
  | c :: rest => if goes c then walk goes leaves (passed ++ [leaves c]) rest else ⟨passed, c :: rest⟩

def Cursor.clean (s : Cursor) : Cursor := walk (· = ' ') (fun _ => nul) s.passed s.rest

def Cursor.skip (s : Cursor) : Cursor := walk (· = ' ') id s.passed s.rest

def Cursor.pass (s : Cursor) : Cursor := walk inWord id s.passed s.rest

def Cursor.terminate (s : Cursor) : Cursor := ⟨s.passed ++ [nul], s.rest.drop 1⟩

inductive Fault where
  | outsidePara
  | nullMessage
  | nullSource
  deriving DecidableEq

/-- An entry of `para`: no pointer, the name of a client, a service map, or a pointer into the line. -/
inductive Arg where
  | null
  | named (name : List Char)
  | extra (map : Option ServiceMap)
  | text (place : Nat)
  deriving DecidableEq

/-- `para`, which keeps what the lines before left in it. -/
abbrev Para := Fin (maxPara + 2) → Arg

def Para.write (para : Para) (i : Nat) (arg : Arg) : Except Fault Para :=
  if within : i < maxPara + 2 then .ok (Function.update para ⟨i, within⟩ arg) else .error .outsidePara

/-- The loop; `numeric` keeps the colon of the last parameter. -/
def splitLoop (numeric : Bool) (paramcount i : Nat) (para : Para) (s : Cursor) : Except Fault (Nat × Para × Cursor) :=
  if peek s.clean.rest = nul then .ok (i, para, s.clean)
  else if peek s.clean.rest = ':' then
    (para.write (i + 1) (.text (if numeric then s.clean.place else s.clean.place + 1))).map (i + 1, ·, s.clean)
  else
    (para.write (i + 1) (.text s.clean.place)).bind fun para =>
      if i + 1 ≥ paramcount then .ok (i + 1, para, s.clean)
      else splitLoop numeric paramcount (i + 1) para s.clean.pass
termination_by paramcount - i

/-- What a handler is called with; the pointers are into the buffer as the loop left it. -/
structure Call where
  parc : Nat
  para : Para
  buffer : List Char

/-- The parameters of a line, from `s` on if there is anything behind the command, and `NULL` behind them. -/
def splitLine (numeric : Bool) (parameters i : Nat) (para : Para) (s : Cursor) (more : Bool) : Except Fault Call :=
  let split := if more then splitLoop numeric (min parameters maxPara) i para s else .ok (i, para, s)
  split.bind fun (i, para, s) => (para.write (i + 1) .null).map fun para => ⟨i + 1, para, s.buffer⟩

def Arg.string (buffer : List Char) : Arg → List Char
  | .text place => stringAt buffer place
  | .named name => name
  | .extra _ | .null => []

def Para.entry (para : Para) (k : Nat) : Arg := if within : k < maxPara + 2 then para ⟨k, within⟩ else .null

def Para.entries (para : Para) : Nat → Nat → List Arg
  | _, 0 => []
  | k, count + 1 => para.entry k :: para.entries (k + 1) count

/-- The parameters behind `parv[0]`, as a handler reads them. -/
def Call.params (call : Call) : List (List Char) := (call.para.entries 1 (call.parc - 1)).map (Arg.string call.buffer)

/-- The parameters of a text, of which `more` can come before the one that takes the rest. -/
def words (numeric : Bool) : Nat → List Char → List (List Char)
  | more, text =>
    match text.dropWhile (· = ' ') with
    | [] => []
    | c :: rest =>
      if c = ':' then [if numeric then c :: rest else rest]
      else
        match more with
        | 0 => [c :: rest]
        | more + 1 => (c :: rest).takeWhile (· ≠ ' ') :: words numeric more ((c :: rest).dropWhile (· ≠ ' '))

/-- The parameters of a text after the RFC: words between spaces, of which the one in position `limit`
and one with a colon take the rest of the text. -/
def rfcParams (limit : Nat) (text : List Char) : List (List Char) := words false (limit - 1) text

theorem walk_eq (goes : Char → Bool) (leaves : Char → Char) (passed rest : List Char) :
    walk goes leaves passed rest = ⟨passed ++ (rest.takeWhile goes).map leaves, rest.dropWhile goes⟩ := by
  induction rest generalizing passed with
  | nil => simp [walk]
  | cons c rest ih =>
    rw [walk]
    cases goes_c : goes c with
    | true => simp [goes_c, ih]
    | false => simp [goes_c]

section
variable {para para' : Para} {i k count : Nat} {arg : Arg}

theorem write_ok (within : i < maxPara + 2) :
    ∃ para', para.write i arg = .ok para' ∧ ∀ k, para'.entry k = if k = i then arg else para.entry k := by
  refine ⟨_, dif_pos within, fun k => ?_⟩
  unfold Para.entry
  by_cases inside : k < maxPara + 2
  · rw [dif_pos inside, dif_pos inside]
    simp only [Function.update_apply, Fin.mk.injEq]
  · rw [dif_neg inside, dif_neg inside, if_neg (by omega)]

theorem entries_congr (same : ∀ j, k ≤ j → j < k + count → para'.entry j = para.entry j) :
    para'.entries k count = para.entries k count := by
  induction count generalizing k with
  | zero => rfl
  | succ count ih =>
    rw [Para.entries, Para.entries, same k le_rfl (by omega), ih fun j from_k below => same j (by omega) (by omega)]

end

theorem stringAt_append (passed rest : List Char) :
    stringAt (passed ++ rest) passed.length = rest.takeWhile (· ≠ nul) := by
  rw [stringAt, List.drop_left]

theorem stringAt_word {passed word tail : List Char} (clean : ∀ c ∈ word, inWord c = true) (ends : peek tail = nul) :
    stringAt (passed ++ (word ++ tail)) passed.length = word := by
  rw [stringAt_append, List.takeWhile_append_of_pos]
  · cases tail with
    | nil => simp
    | cons c tail =>
      rw [peek_cons] at ends
      simp [ends]
  · intro c mem
    have inside := clean c mem
    simp only [inWord, Bool.and_eq_true] at inside
    exact inside.2

theorem dropWhile_takeWhile (keeps drops : Char → Bool) (text : List Char) :
    (text.takeWhile keeps).dropWhile drops = (text.dropWhile fun c => keeps c && drops c).takeWhile keeps := by
  induction text with
  | nil => rfl
  | cons c text ih =>
    cases keeps_c : keeps c with
    | false => simp [keeps_c]
    | true =>
      cases drops_c : drops c with
      | false => simp [keeps_c, drops_c]
      | true => simpa [keeps_c, drops_c] using ih

section
variable (text : List Char)

theorem blanks_of_string :
    (text.takeWhile (· ≠ nul)).dropWhile (· = ' ') = (text.dropWhile (· = ' ')).takeWhile (· ≠ nul) := by
  rw [dropWhile_takeWhile]
  congr 2
  funext c
  by_cases blank : c = ' '
  · subst blank
    decide
  · simp [blank]

theorem word_of_string : (text.takeWhile (· ≠ nul)).takeWhile (· ≠ ' ') = text.takeWhile inWord := by
  rw [List.takeWhile_takeWhile]
  congr 1
  funext c
  simp [inWord]

theorem behind_word_of_string :
    (text.takeWhile (· ≠ nul)).dropWhile (· ≠ ' ') = (text.dropWhile inWord).takeWhile (· ≠ nul) := by
  rw [dropWhile_takeWhile]
  congr 2
  funext c
  simp [inWord, Bool.and_comm]

end

def Cursor.blanked (s : Cursor) : List Char := (s.rest.takeWhile (· = ' ')).map fun _ => nul

theorem clean_eq (s : Cursor) : s.clean = ⟨s.passed ++ s.blanked, s.rest.dropWhile (· = ' ')⟩ :=
  walk_eq _ _ s.passed s.rest

theorem pass_eq (s : Cursor) : s.pass = ⟨s.passed ++ s.rest.takeWhile inWord, s.rest.dropWhile inWord⟩ := by
  rw [Cursor.pass, walk_eq, List.map_id]

theorem skip_eq (s : Cursor) : s.skip = ⟨s.passed ++ s.rest.takeWhile (· = ' '), s.rest.dropWhile (· = ' ')⟩ := by
  rw [Cursor.skip, walk_eq, List.map_id]

theorem takeWhile_of_peek {text : List Char} (ended : peek text = nul) : text.takeWhile (· ≠ nul) = [] := by
  cases text with
  | nil => rfl
  | cons c text =>
    rw [peek_cons] at ended
    rw [ended, List.takeWhile_cons_of_neg (by decide)]

theorem peek_behind_word (s : Cursor) : inWord (peek s.pass.rest) = false := by
  rw [pass_eq]
  dsimp only
  induction s.rest with
  | nil => rfl
  | cons c rest ih =>
    cases inside : inWord c with
    | true => rw [List.dropWhile_cons_of_pos inside]; exact ih
    | false => rw [List.dropWhile_cons_of_neg (by rw [inside]; exact Bool.false_ne_true)]; exact inside

/-- Between a place outside a word and what comes behind the blanks there, there is a terminator. -/
theorem peek_blanked {s : Cursor} {tail : List Char} (outside : inWord (peek s.rest) = false)
    (ends : peek s.clean.rest = nul → peek tail = nul) : peek (s.blanked ++ tail) = nul := by
  rw [clean_eq] at ends
  unfold Cursor.blanked
  cases line : s.rest with
  | nil =>
    rw [line] at ends
    exact ends rfl
  | cons c rest =>
    rw [line] at outside ends
    by_cases blank : c = ' '
    · simp [blank]
    · have stop : c = nul := by
        by_contra other
        rw [peek_cons, inWord] at outside
        simp [blank, other] at outside
      subst stop
      rw [List.takeWhile_cons_of_neg (by decide)]
      rw [List.dropWhile_cons_of_neg (by decide)] at ends
      exact ends rfl

theorem words_eq (numeric : Bool) (more : Nat) (s : Cursor) :
    words numeric more (s.rest.takeWhile (· ≠ nul)) =
      match s.clean.rest.takeWhile (· ≠ nul) with
      | [] => []
      | c :: text =>
        if c = ':' then [if numeric then c :: text else text]
        else
          match more with
          | 0 => [c :: text]
          | more + 1 => (c :: text).takeWhile (· ≠ ' ') :: words numeric more ((c :: text).dropWhile (· ≠ ' ')) := by
  rw [clean_eq]
  cases more <;> rw [words, blanks_of_string]

structure Split (numeric : Bool) (paramcount i : Nat) (para : Para) (s : Cursor) (i' : Nat) (para' : Para)
    (s' : Cursor) : Prop where
  forward : i ≤ i'
  bound : i' ≤ maxPara
  before : ∀ k ≤ i, para'.entry k = para.entry k
  buffer : ∃ tail, s'.buffer = s.passed ++ tail ∧ (inWord (peek s.rest) = false → peek tail = nul)
  params : (para'.entries (i + 1) (i' - i)).map (Arg.string s'.buffer) =
    words numeric (paramcount - (i + 1)) (s.rest.takeWhile (· ≠ nul))

section
variable {numeric : Bool} {paramcount i i' : Nat} {para para₁ para' : Para} {s s' : Cursor} {arg : Arg}

theorem clean_passed (s : Cursor) : s.clean.passed = s.passed ++ s.blanked := congrArg Cursor.passed (clean_eq s)

theorem clean_buffer (s : Cursor) : s.clean.buffer = s.passed ++ (s.blanked ++ s.clean.rest) := by
  rw [clean_eq, Cursor.buffer, List.append_assoc]

theorem buffer_clean (s : Cursor) :
    ∃ tail, s.clean.buffer = s.passed ++ tail ∧ (inWord (peek s.rest) = false → peek tail = nul) :=
  ⟨_, clean_buffer s, fun outside => peek_blanked outside id⟩

theorem Split.ended (small : i ≤ maxPara) (ended : peek s.clean.rest = nul) :
    Split numeric paramcount i para s i para s.clean where
  forward := le_rfl
  bound := small
  before := fun _ _ => rfl
  buffer := buffer_clean s
  params := by
    rw [Nat.sub_self, words_eq, takeWhile_of_peek ended]
    rfl

theorem Split.last (small : i + 1 ≤ maxPara) (wrote : ∀ k, para'.entry k = if k = i + 1 then arg else para.entry k)
    (takes : words numeric (paramcount - (i + 1)) (s.rest.takeWhile (· ≠ nul)) = [arg.string s.clean.buffer]) :
    Split numeric paramcount i para s (i + 1) para' s.clean where
  forward := Nat.le_succ i
  bound := small
  before := fun k upto => (wrote k).trans (if_neg (by omega))
  buffer := buffer_clean s
  params := by
    rw [takes, Nat.add_sub_cancel_left, Para.entries, wrote, if_pos rfl]
    rfl

theorem Split.next {c : Char} {text : List Char} (line : s.clean.rest.takeWhile (· ≠ nul) = c :: text)
    (colonless : c ≠ ':') (more : i + 1 < paramcount)
    (wrote : ∀ k, para₁.entry k = if k = i + 1 then .text s.clean.place else para.entry k)
    (split : Split numeric paramcount (i + 1) para₁ s.clean.pass i' para' s') :
    Split numeric paramcount i para s i' para' s' := by
  obtain ⟨tail, behind, ends⟩ := split.buffer
  have forward := split.forward
  have word_ends : peek tail = nul := ends (peek_behind_word s.clean)
  rw [pass_eq, List.append_assoc] at behind
  exact {
    forward := by omega
    bound := split.bound
    before := fun k upto => by rw [split.before k (by omega), wrote k, if_neg (by omega)]
    buffer := by
      refine ⟨s.blanked ++ (s.clean.rest.takeWhile inWord ++ tail), ?_, fun outside => ?_⟩
      · rw [behind, clean_passed, List.append_assoc]
      · refine peek_blanked outside fun ended => ?_
        rw [takeWhile_of_peek ended] at line
        contradiction
    params := by
      obtain ⟨count, rfl⟩ : ∃ count, i' = i + 1 + count := ⟨i' - (i + 1), by omega⟩
      obtain ⟨left, rfl⟩ : ∃ left, paramcount = i + 1 + (left + 1) := ⟨paramcount - (i + 1) - 1, by omega⟩
      have params := split.params
      rw [show i + 1 + count - (i + 1) = count by omega] at params
      rw [show i + 1 + count - i = count + 1 by omega, words_eq, line, Nat.add_sub_cancel_left]
      dsimp only
      rw [if_neg colonless, ← line, word_of_string, behind_word_of_string, Para.entries, List.map_cons, params,
        split.before (i + 1) le_rfl, wrote, if_pos rfl, pass_eq]
      congr 1
      · rw [Arg.string, behind]
        exact stringAt_word (fun c mem => List.mem_takeWhile_imp mem) word_ends
      · congr 1
        omega }

end

theorem splitLoop_spec (numeric : Bool) {paramcount : Nat} (limit : paramcount ≤ maxPara) {i : Nat}
    (room : i ≤ 1 ∨ i < paramcount) (para : Para) (s : Cursor) :
    ∃ i' para' s', splitLoop numeric paramcount i para s = .ok (i', para', s') ∧
      Split numeric paramcount i para s i' para' s' := by
  generalize left : paramcount - i = n
  induction n using Nat.strong_induction_on generalizing i para s with
  | _ n ih =>
    have small : i + 1 ≤ maxPara := by unfold maxPara at *; omega
    unfold splitLoop
    by_cases ended : peek s.clean.rest = nul
    · rw [if_pos ended]
      exact ⟨i, para, s.clean, rfl, .ended (by omega) ended⟩
    rw [if_neg ended]
    obtain ⟨c, r, line⟩ := exists_cons_of_peek ended
    rw [line, peek_cons] at ended
    have text : s.clean.rest.takeWhile (· ≠ nul) = c :: r.takeWhile (· ≠ nul) := by
      rw [line, List.takeWhile_cons_of_pos (by simpa using ended)]
    have from_here : stringAt s.clean.buffer s.clean.place = c :: r.takeWhile (· ≠ nul) := by
      rw [Cursor.buffer, Cursor.place, stringAt_append, text]
    rw [line, peek_cons]
    by_cases colon : c = ':'
    · rw [if_pos colon]
      obtain ⟨para', wrote, entries⟩ := @write_ok para (i + 1)
        (.text (if numeric then s.clean.place else s.clean.place + 1)) (by unfold maxPara at *; omega)
      refine ⟨i + 1, para', s.clean, by rw [wrote]; rfl, .last small entries ?_⟩
      rw [words_eq, text]
      dsimp only
      rw [if_pos colon]
      cases numeric with
      | true => rw [if_pos rfl, if_pos rfl, Arg.string, from_here]
      | false =>
        have behind_colon : s.clean.buffer = (s.clean.passed ++ [c]) ++ r := by rw [Cursor.buffer, line]; simp
        have place : s.clean.place + 1 = (s.clean.passed ++ [c]).length := by simp [Cursor.place]
        rw [if_neg Bool.false_ne_true, if_neg Bool.false_ne_true, Arg.string, behind_colon, place, stringAt_append]
    · rw [if_neg colon]
      obtain ⟨para₁, wrote, entries⟩ := @write_ok para (i + 1) (.text s.clean.place) (by unfold maxPara at *; omega)
      rw [wrote, Except.bind]
      by_cases full : i + 1 ≥ paramcount
      · rw [if_pos full]
        refine ⟨i + 1, para₁, s.clean, rfl, .last small entries ?_⟩
        rw [words_eq, text, Nat.sub_eq_zero_of_le full]
        dsimp only
        rw [if_neg colon, Arg.string, from_here]
      · rw [if_neg full]
        obtain ⟨i', para', s', loops, split⟩ :=
          ih (paramcount - (i + 1)) (by omega) (.inr (by omega)) para₁ s.clean.pass rfl
        exact ⟨i', para', s', loops, .next text colon (by omega) entries split⟩

structure Call.Splits (call : Call) (numeric : Bool) (parameters i : Nat) (para : Para) (text : List Char) : Prop where
  bound : call.parc ≤ maxPara + 1
  forward : i < call.parc
  before : ∀ k ≤ i, call.para.entry k = para.entry k
  terminated : call.para.entry call.parc = .null
  params : (call.para.entries (i + 1) (call.parc - 1 - i)).map (Arg.string call.buffer) =
    words numeric (min parameters maxPara - (i + 1)) text

theorem words_blank (numeric : Bool) (more : Nat) (text : List Char) :
    words numeric more (' ' :: text) = words numeric more text := by
  cases more <;> (unfold words; rw [List.dropWhile_cons_of_pos (by decide)])

theorem words_nil (numeric : Bool) (more : Nat) : words numeric more [] = [] := by
  cases more <;> rfl

theorem splitLine_spec (numeric : Bool) (parameters : Nat) {i : Nat} (first : i ≤ 1) (para : Para) (s : Cursor)
    (more : Bool) :
    ∃ call, splitLine numeric parameters i para s more = .ok call ∧
      call.Splits numeric parameters i para (if more then s.rest.takeWhile (· ≠ nul) else []) := by
  have limit : min parameters maxPara ≤ maxPara := min_le_right _ _
  have split : ∃ i' para' s', (if more then splitLoop numeric (min parameters maxPara) i para s else .ok (i, para, s)) =
      .ok (i', para', s') ∧ i ≤ i' ∧ i' ≤ maxPara ∧ (∀ k ≤ i, para'.entry k = para.entry k) ∧
      (para'.entries (i + 1) (i' - i)).map (Arg.string s'.buffer) =
        words numeric (min parameters maxPara - (i + 1)) (if more then s.rest.takeWhile (· ≠ nul) else []) := by
    cases more with
    | false =>
      refine ⟨i, para, s, rfl, le_rfl, by unfold maxPara; omega, fun _ _ => rfl, ?_⟩
      rw [if_neg Bool.false_ne_true, words_nil, Nat.sub_self]
      rfl
    | true =>
      obtain ⟨i', para', s', loops, split⟩ := splitLoop_spec numeric limit (.inl first) para s
      exact ⟨i', para', s', loops, split.forward, split.bound, split.before, split.params⟩
  obtain ⟨i', para', s', splits, forward, bound, before, params⟩ := split
  obtain ⟨para'', wrote, entries⟩ := @write_ok para' (i' + 1) .null (by omega)
  refine ⟨⟨i' + 1, para'', s'.buffer⟩, ?_, ?_⟩
  · unfold splitLine
    dsimp only
    rw [splits, Except.bind, wrote, Except.map]
  · exact {
      bound := Nat.succ_le_succ bound
      forward := Nat.lt_succ_of_le forward
      before := fun k upto => by rw [entries, if_neg (by omega), before k upto]
      terminated := (entries _).trans (if_pos rfl)
      params := by
        rw [← params, Nat.add_sub_cancel]
        exact congrArg _ (entries_congr fun j from_i below => (entries j).trans (if_neg (by omega))) }

theorem Call.Splits.params_eq {call : Call} {parameters : Nat} {para : Para} {text : List Char}
    (splits : call.Splits false parameters 0 para text) :
    call.params = rfcParams (max 1 (min parameters maxPara)) text := by
  have params := splits.params
  rw [Nat.sub_zero] at params
  rw [Call.params, params, rfcParams]
  congr 1
  omega

theorem dropWhile_stops {goes : Char → Bool} {text : List Char} {c : Char} {rest : List Char}
    (line : text.dropWhile goes = c :: rest) : goes c = false := by
  have stops := List.head?_dropWhile_not goes text
  rw [line] at stops
  exact stops

theorem splitParams_inside (left : Nat) (word text : List Char) :
    splitParams left (some word) text =
      (word ++ text.takeWhile (· ≠ ' ')) :: splitParams left none (text.dropWhile (· ≠ ' ')) := by
  induction text generalizing word with
  | nil => simp [splitParams]
  | cons c text ih =>
    rw [splitParams]
    by_cases blank : c = ' '
    · simp [blank, splitParams]
    · rw [if_neg blank, ih, List.takeWhile_cons_of_pos (by simpa using blank),
        List.dropWhile_cons_of_pos (by simpa using blank), List.append_assoc]
      rfl

theorem splitParams_blanks (left : Nat) (text : List Char) :
    splitParams left none text = splitParams left none (text.dropWhile (· = ' ')) := by
  induction text with
  | nil => rfl
  | cons c text ih =>
    by_cases blank : c = ' '
    · rw [List.dropWhile_cons_of_pos (by simpa using blank), splitParams, if_pos blank, ih]
    · rw [List.dropWhile_cons_of_neg (by simpa using blank)]

theorem words_eq_splitParams (more : Nat) (text : List Char) : words false more text = splitParams (more + 1) none text := by
  induction more generalizing text with
  | zero =>
    rw [splitParams_blanks, words]
    cases line : text.dropWhile (· = ' ') with
    | nil => rfl
    | cons c rest =>
      have not_blank : c ≠ ' ' := of_decide_eq_false (dropWhile_stops line)
      simp [splitParams, not_blank]
  | succ more ih =>
    rw [splitParams_blanks, words]
    cases line : text.dropWhile (· = ' ') with
    | nil => rfl
    | cons c rest =>
      have not_blank : c ≠ ' ' := of_decide_eq_false (dropWhile_stops line)
      dsimp only
      rw [splitParams, if_neg not_blank, splitParams_inside, ih]
      simp [not_blank]

/-- The words of the loop are those that the models of the messages between servers read. -/
theorem rfcParams_eq_splitParams {limit : Nat} (positive : 1 ≤ limit) (text : List Char) :
    rfcParams limit text = splitParams limit none text := by
  rw [rfcParams, words_eq_splitParams, Nat.sub_add_cancel positive]

example : rfcParams 3 "  #a   b c : d ".toList = ["#a".toList, "b".toList, "c : d ".toList] := by decide +kernel

end Ircd.Parse

import Ircd.Crule.Memory
import Ircd.Match.CollapseLanguage
import Mathlib.Logic.Relation

/-! The text of a rule, read token by token up to where `crule_parse` stops.

A reading stands before an operand, behind one, or in the argument list of a function. Nothing is built: what matters of
an operand that is read is only that it is there, and of an argument list how many arguments it has so far.
-/

set_option autoImplicit false

namespace Ircd.Crule
open Ircd.Text Ircd.Match

inductive Before where
  | start | or | and | not
  deriving DecidableEq, Repr

inductive Place where
  | operand (before : Before)
  | behind
  | args (entry : CRuleFunc) (stored : Nat) (started : Bool)
  deriving DecidableEq, Repr

/-- A place in the text, the parentheses that are open there, and the scanner. -/
structure Reading where
  place : Place
  depth : Nat
  scan : Scan
  deriving DecidableEq, Repr

namespace Reading

def next (place : Place) (depth : Nat) (text : List Char) : Option Reading :=
  match cruleGettoken text with
  | (.noErr, scan) => some ⟨place, depth, scan⟩
  | _ => none

def takes : Before → CRuleToken → Bool
  | .not, _ => false
  | _, .and => true
  | .start, .or => true
  | .or, .or => true
  | _, _ => false

def operator : CRuleToken → Before
  | .or => .or
  | _ => .and

def opened (depth : Nat) (text : List Char) : Option Reading :=
  match cruleGettoken (cruleGetword (maxArgLen - 1) text).2 with
  | (.noErr, scan) =>
    if scan.nextTok = .openParen then
      let funcname := (cruleGetword (maxArgLen - 1) text).1
      (cruleFunclist.find? fun entry => ircdStrcmp entry.name funcname = 0).bind fun entry =>
        next (.args entry 0 false) depth scan.ruleptr
    else none
  | _ => none

/-- The reading after the token that was scanned; none where `crule_parse` stops. -/
def step : Reading → Option Reading
  | ⟨.operand before, depth, ⟨token, text⟩⟩ =>
    if token = .openParen then next (.operand .start) (depth + 1) text
    else if token = .not then next (.operand .not) depth text
    else if token = .word then opened depth text
    else if takes before token then next (.operand (operator token)) depth text
    else none
  | ⟨.behind, depth, ⟨token, text⟩⟩ =>
    if token = .and ∨ token = .or then next (.operand (operator token)) depth text
    else if token = .closeParen ∧ 0 < depth then next .behind (depth - 1) text
    else none
  | ⟨.args entry stored started, depth, ⟨token, text⟩⟩ =>
    if token = .word then
      next (.args entry stored (started || (cruleGetword (maxArgLen - 1) text).1 ≠ [])) depth
        (cruleGetword (maxArgLen - 1) text).2
    else if token = .comma then next (.args entry (stored + started.toNat) false) depth text
    else if token = .closeParen ∧ entry.reqnumargs = stored + started.toNat then next .behind depth text
    else none

def Reaches : Reading → Reading → Prop := Relation.ReflTransGen fun reading after => reading.step = some after

def Of (rule : List Char) (reading : Reading) : Prop :=
  ∃ first, next (.operand .start) 0 rule = some first ∧ first.Reaches reading

def Overfull : Reading → Prop
  | ⟨.args _ stored started, _, scan⟩ => Mem.maxArgs ≤ stored ∧ started = true ∧ scan.nextTok ≠ .word
  | _ => False

def Missing : Reading → Prop
  | ⟨.operand before, _, scan⟩ =>
    scan.nextTok = .and ∧ (before = .start ∨ before = .or) ∨ scan.nextTok = .or ∧ before = .start
  | _ => False

def Hanging : Reading → Prop
  | ⟨.operand before, _, ⟨token, text⟩⟩ => takes before token = true ∧ (cruleGettoken text).1 ≠ .noErr
  | ⟨.behind, _, ⟨token, text⟩⟩ => (token = .and ∨ token = .or) ∧ (cruleGettoken text).1 ≠ .noErr
  | _ => False

/-- Too many arguments and, where `links` is set, an operator whose first operand is left out or whose second one is
not reached. -/
def Bad (links : Bool) (reading : Reading) : Prop :=
  reading.Overfull ∨ links = true ∧ (reading.Missing ∨ reading.Hanging)

def BadFrom (links : Bool) (reading : Reading) : Prop := ∃ last, reading.Reaches last ∧ last.Bad links

def BadNext (links : Bool) (place : Place) (depth : Nat) (text : List Char) : Prop :=
  ∃ reading, next place depth text = some reading ∧ reading.BadFrom links

section
variable {links : Bool} {place : Place} {depth : Nat} {text : List Char} {scan : Scan}

theorem badFrom_iff {reading : Reading} :
    reading.BadFrom links ↔ reading.Bad links ∨ ∃ after, reading.step = some after ∧ after.BadFrom links := by
  constructor
  · rintro ⟨last, reached, bad⟩
    rcases Relation.ReflTransGen.cases_head reached with same | ⟨after, first, rest⟩
    · exact .inl (same ▸ bad)
    · exact .inr ⟨after, first, last, rest, bad⟩
  · rintro (bad | ⟨after, first, last, rest, bad⟩)
    · exact ⟨reading, .refl, bad⟩
    · exact ⟨last, .head first rest, bad⟩

theorem badNext_good (scanned : cruleGettoken text = (.noErr, scan)) :
    BadNext links place depth text ↔ BadFrom links ⟨place, depth, scan⟩ := by
  have only : next place depth text = some ⟨place, depth, scan⟩ := by
    unfold next
    rw [scanned]
  constructor
  · rintro ⟨reading, first, bad⟩
    rw [only] at first
    cases first
    exact bad
  · exact fun bad => ⟨_, only, bad⟩

theorem badNext_bad (scanned : cruleGettoken text = (.unknwTok, scan)) : ¬ BadNext links place depth text := by
  rintro ⟨reading, first, -⟩
  unfold next at first
  rw [scanned] at first
  cases first

theorem badFrom_of_step {reading : Reading} (fine : ¬ reading.Bad links)
    (onward : reading.step = next place depth text) : reading.BadFrom links ↔ BadNext links place depth text := by
  rw [badFrom_iff, onward]
  exact or_iff_right fine

theorem badFrom_of_stop {reading : Reading} (fine : ¬ reading.Bad links) (stop : reading.step = none) :
    ¬ reading.BadFrom links := by
  rw [badFrom_iff, stop]
  rintro (bad | ⟨after, first, -⟩)
  · exact fine bad
  · cases first

variable {token : CRuleToken}

theorem fine_operand {before : Before} (other : token ≠ .and ∧ token ≠ .or) :
    ¬ Bad links ⟨.operand before, depth, token, text⟩ := by
  rintro (over_full | ⟨-, missing | hanging⟩)
  · exact over_full
  · rcases missing with ⟨same, -⟩ | ⟨same, -⟩
    · exact other.1 same
    · exact other.2 same
  · have taken := hanging.1
    cases before <;> cases token <;> simp [takes] at taken other

theorem badFrom_operand_open (before : Before) :
    BadFrom links ⟨.operand before, depth, .openParen, text⟩ ↔ BadNext links (.operand .start) (depth + 1) text :=
  badFrom_of_step (fine_operand ⟨nofun, nofun⟩) rfl

theorem badFrom_operand_not (before : Before) :
    BadFrom links ⟨.operand before, depth, .not, text⟩ ↔ BadNext links (.operand .not) depth text :=
  badFrom_of_step (fine_operand ⟨nofun, nofun⟩) rfl

theorem badFrom_operand_idle {before : Before} (idle : token ≠ .openParen ∧ token ≠ .not ∧ token ≠ .word)
    (left : takes before token = false) :
    ¬ BadFrom links ⟨.operand before, depth, token, text⟩ := by
  apply badFrom_of_stop
  · rintro (over_full | ⟨-, missing | hanging⟩)
    · exact over_full
    · rcases missing with ⟨rfl, rfl | rfl⟩ | ⟨rfl, rfl⟩
      · cases left
      · cases left
      · cases left
    · exact absurd (left.symm.trans hanging.1) nofun
  · simp only [step, idle.1, idle.2.1, idle.2.2, left, if_false, Bool.false_eq_true]

theorem badFrom_operand_takes {before : Before} (taken : takes before token = true) :
    BadFrom links ⟨.operand before, depth, token, text⟩ ↔
      links = true ∧ (Missing ⟨.operand before, depth, token, text⟩ ∨ (cruleGettoken text).1 ≠ .noErr) ∨
        BadNext links (.operand (operator token)) depth text := by
  have onward : step ⟨.operand before, depth, token, text⟩ = next (.operand (operator token)) depth text := by
    cases before <;> cases token <;> first | rfl | cases taken
  rw [badFrom_iff, onward]
  unfold Bad Overfull Hanging
  simp only [taken, true_and, false_or]
  rfl

theorem badFrom_behind_operator (binary : token = .and ∨ token = .or) :
    BadFrom links ⟨.behind, depth, token, text⟩ ↔
      links = true ∧ (cruleGettoken text).1 ≠ .noErr ∨ BadNext links (.operand (operator token)) depth text := by
  rw [badFrom_iff, step, if_pos binary]
  unfold Bad Overfull Missing Hanging
  simp only [binary, true_and, false_or]
  rfl

theorem fine_behind (other : token ≠ .and ∧ token ≠ .or) :
    ¬ Bad links ⟨.behind, depth, token, text⟩ := by
  rintro (over_full | ⟨-, missing | hanging⟩)
  · exact over_full
  · exact missing
  · exact hanging.1.elim other.1 other.2

theorem badFrom_behind_close :
    BadFrom links ⟨.behind, depth + 1, .closeParen, text⟩ ↔ BadNext links .behind depth text :=
  badFrom_of_step (fine_behind ⟨nofun, nofun⟩) rfl

theorem badFrom_behind_stop (other : token ≠ .and ∧ token ≠ .or) (inside : token = .closeParen → depth = 0) :
    ¬ BadFrom links ⟨.behind, depth, token, text⟩ := by
  apply badFrom_of_stop (fine_behind other)
  rw [step, if_neg fun binary => binary.elim other.1 other.2, if_neg]
  rintro ⟨closes, deep⟩
  exact absurd (inside closes) (Nat.ne_of_gt deep)

theorem badFrom_args_word {entry : CRuleFunc} {stored : Nat} {started : Bool} :
    BadFrom links ⟨.args entry stored started, depth, .word, text⟩ ↔
      BadNext links (.args entry stored (started || (cruleGetword (maxArgLen - 1) text).1 ≠ [])) depth
        (cruleGetword (maxArgLen - 1) text).2 := by
  apply badFrom_of_step ?_ rfl
  rintro (over_full | ⟨-, missing | hanging⟩)
  · exact over_full.2.2 rfl
  · exact missing
  · exact hanging

theorem overfull_iff {stored : Nat} {started : Bool} :
    Mem.maxArgs < stored ∨ Mem.maxArgs ≤ stored ∧ started = true ↔ Mem.maxArgs < stored + started.toNat := by
  cases started
  · simp
  · simp only [and_true, Bool.toNat_true]
    omega

theorem badFrom_args_end {entry : CRuleFunc} {stored : Nat} {started : Bool} (ends : token ≠ .word) :
    BadFrom links ⟨.args entry stored started, depth, token, text⟩ ↔
      Mem.maxArgs ≤ stored ∧ started = true ∨
        token = .comma ∧ BadNext links (.args entry (stored + started.toNat) false) depth text ∨
        token = .closeParen ∧ entry.reqnumargs = stored + started.toNat ∧ BadNext links .behind depth text := by
  have bad : Bad links ⟨.args entry stored started, depth, token, text⟩ ↔ Mem.maxArgs ≤ stored ∧ started = true := by
    constructor
    · rintro (over_full | ⟨-, missing | hanging⟩)
      · exact ⟨over_full.1, over_full.2.1⟩
      · exact missing.elim
      · exact hanging.elim
    · exact fun full => .inl ⟨full.1, full.2, ends⟩
  rw [badFrom_iff, bad, step, if_neg ends]
  by_cases comma : token = .comma
  · subst comma
    simp only [if_true, true_and, reduceCtorEq, false_and, or_false]
    rfl
  · rw [if_neg comma]
    by_cases closes : token = .closeParen ∧ entry.reqnumargs = stored + started.toNat
    · rw [if_pos closes]
      obtain ⟨rfl, count⟩ := closes
      simp only [← count, true_and, reduceCtorEq, false_and, false_or]
      rfl
    · rw [if_neg closes]
      simp only [comma, false_and, ← and_assoc, closes, or_false, reduceCtorEq, exists_false]

end

end Reading

namespace Mem
open Reading

variable {links : Bool}

theorem length_storeArg (heap : Heap) (args : List (Nat × List Char)) (currarg : List Char) :
    (storeArg heap args currarg).1.length = args.length + (decide (currarg ≠ [])).toNat := by
  unfold storeArg
  by_cases empty : currarg = []
  · subst empty
    rfl
  · rw [if_pos (collapse_ne_nil empty), List.length_append]
    simp only [empty, ne_eq, not_false_eq_true, decide_true]
    rfl

theorem appendWord_ne_nil (currarg word : List Char) :
    decide (appendWord currarg word ≠ []) = (decide (currarg ≠ []) || decide (word ≠ [])) := by
  unfold appendWord
  by_cases empty : currarg = []
  · subst empty
    rfl
  · rw [if_pos empty]
    split
    · simp [empty]
    · simp [empty]

theorem parsearglist_reading {fuel : Nat} {heap after : Heap} {args stored : List (Nat × List Char)}
    {currarg : List Char} {scan last : Scan} {errcode : CRuleErrcode} (entry : CRuleFunc) (depth : Nat)
    (run : cruleParsearglist fuel heap args currarg scan = some (errcode, stored, after, last)) :
    maxArgs < args.length ∨ BadFrom links ⟨.args entry args.length (decide (currarg ≠ [])), depth, scan⟩ ↔
      maxArgs < stored.length ∨ errcode = .noErr ∧ last.nextTok = .closeParen ∧ entry.reqnumargs = stored.length ∧
        BadNext links .behind depth last.ruleptr := by
  induction fuel generalizing heap args currarg scan with
  | zero => cases run
  | succ fuel ih =>
    obtain ⟨token, text⟩ := scan
    rw [cruleParsearglist] at run
    by_cases word : token = .word
    · subst word
      simp only [if_true] at run
      rw [badFrom_args_word]
      rcases gettoken_cases (cruleGetword (maxArgLen - 1) text).2 with ⟨next, scanned, -⟩ | ⟨next, scanned⟩
      · simp only [scanned] at run
        rw [badNext_good scanned, ← appendWord_ne_nil]
        exact ih run
      · simp only [scanned] at run
        cases run
        simp only [badNext_bad scanned, or_false, reduceCtorEq, false_and]
    · simp only [word, if_false] at run
      rw [badFrom_args_end word, ← or_assoc, overfull_iff, ← length_storeArg heap]
      by_cases comma : token = .comma
      · subst comma
        simp only [ne_eq, not_true_eq_false, if_false] at run
        simp only [true_and, reduceCtorEq, false_and, or_false]
        rcases gettoken_cases text with ⟨next, scanned, -⟩ | ⟨next, scanned⟩
        · simp only [scanned] at run
          rw [badNext_good scanned]
          exact ih run
        · simp only [scanned] at run
          cases run
          simp only [badNext_bad scanned, or_false, reduceCtorEq, false_and]
      · simp only [ne_eq, comma, not_false_eq_true, if_true] at run
        cases run
        simp only [comma, false_and, false_or, true_and]

def Built.Idle (built : Built) (scan : Scan) : Prop := built.errcode = .noErr ∧ built.root = .null ∧ built.scan = scan

structure Built.Reads (built : Built) (links : Bool) (depth : Nat) (bad : Prop) : Prop where
  filled : built.errcode = .noErr → built.root ≠ .null
  told : bad ↔ built.root.Faulty links ∨ built.errcode = .noErr ∧ BadFrom links ⟨.behind, depth, built.scan⟩

theorem Built.Reads.of_error {built : Built} {depth : Nat} {bad : Prop} (error : built.errcode ≠ .noErr)
    (told : bad ↔ built.root.Faulty links) : built.Reads links depth bad :=
  ⟨fun good => absurd good error, told.trans (or_iff_left fun good => error good.1).symm⟩

theorem badFrom_operand_word {depth : Nat} {text : List Char} (before : Before) :
    BadFrom links ⟨.operand before, depth, .word, text⟩ ↔
      ∃ reading, opened depth text = some reading ∧ reading.BadFrom links := by
  rw [badFrom_iff]
  exact or_iff_right (fine_operand ⟨nofun, nofun⟩)

theorem closeFunction_reads {entry : CRuleFunc} {block depth : Nat} {errcode : CRuleErrcode}
    {args : List (Nat × List Char)} {heap : Heap} {scan : Scan} {bad : Prop}
    (listed : bad ↔ maxArgs < args.length ∨ errcode = .noErr ∧ scan.nextTok = .closeParen ∧
      entry.reqnumargs = args.length ∧ BadNext links .behind depth scan.ruleptr) :
    (closeFunction entry block errcode args heap scan).Reads links depth bad := by
  rw [listed]
  unfold closeFunction
  by_cases good : errcode = .noErr
  · rw [if_neg (not_not.mpr good)]
    by_cases closes : scan.nextTok = .closeParen
    · rw [if_neg (not_not.mpr closes)]
      by_cases count : entry.reqnumargs = args.length
      · rw [if_neg (not_not.mpr count)]
        rcases gettoken_cases scan.ruleptr with ⟨next, scanned, -⟩ | ⟨next, scanned⟩
        · simp only [scanned, good, closes, count, true_and, badNext_good scanned]
          exact ⟨(by rintro _ ⟨⟩), by simp only [true_and, Cell.Faulty]⟩
        · simp only [scanned, badNext_bad scanned, and_false, or_false]
          exact .of_error (by rintro ⟨⟩) Iff.rfl
      · rw [if_pos count]
        exact .of_error (by rintro ⟨⟩) (or_iff_left fun other => count other.2.2.1)
    · rw [if_pos closes]
      exact .of_error (by rintro ⟨⟩) (or_iff_left fun other => closes other.2.1)
  · rw [if_pos good]
    exact .of_error good (or_iff_left fun other => good other.1)

theorem parsefunction_reads {fuel depth : Nat} {heap : Heap} {text : List Char} {built : Built} (before : Before)
    (run : cruleParsefunction fuel heap ⟨.word, text⟩ = some built) :
    built.Reads links depth (BadFrom links ⟨.operand before, depth, .word, text⟩) := by
  have refused {errcode : CRuleErrcode} {scan : Scan} (error : errcode ≠ .noErr)
      (stop : opened depth text = none) :
      (Built.mk errcode .null heap scan).Reads links depth (BadFrom links ⟨.operand before, depth, .word, text⟩) := by
    apply Built.Reads.of_error error
    rw [badFrom_operand_word, stop]
    exact ⟨fun after => absurd after.choose_spec.1 nofun, False.elim⟩
  unfold cruleParsefunction at run
  rcases gettoken_cases (cruleGetword (maxArgLen - 1) text).2 with ⟨next, scanned, -⟩ | ⟨next, scanned⟩
  · simp only [scanned] at run
    have opens_iff : opened depth text = if next.nextTok = .openParen then
        (cruleFunclist.find? fun entry => ircdStrcmp entry.name (cruleGetword (maxArgLen - 1) text).1 = 0).bind
          fun entry => Reading.next (.args entry 0 false) depth next.ruleptr
        else none := by
      unfold opened
      rw [scanned]
    generalize cruleFunclist.find? _ = known at run opens_iff
    by_cases opens : next.nextTok = .openParen
    · rw [if_pos opens] at run opens_iff
      cases known with
      | none =>
        cases run
        exact refused nofun opens_iff
      | some entry =>
        have onward : BadFrom links ⟨.operand before, depth, .word, text⟩ ↔
            BadNext links (.args entry 0 false) depth next.ruleptr := by
          rw [badFrom_operand_word, opens_iff]
          rfl
        simp only [openFunction] at run
        rcases gettoken_cases next.ruleptr with ⟨first, scanned, -⟩ | ⟨first, scanned⟩
        · simp only [scanned] at run
          obtain ⟨list, listed, rfl⟩ := Option.map_eq_some_iff.mp run
          apply closeFunction_reads
          rw [onward, badNext_good scanned, ← parsearglist_reading entry depth listed]
          exact (or_iff_right (Nat.not_lt_zero _)).symm
        · simp only [scanned] at run
          cases run
          exact .of_error nofun (onward.trans (iff_of_false (badNext_bad scanned) id))
    · rw [if_neg opens] at run opens_iff
      cases run
      exact refused nofun opens_iff
  · simp only [scanned] at run
    cases run
    have stop : opened depth text = none := by
      unfold opened
      rw [scanned]
    exact refused nofun stop

def Cell.Held (links : Bool) : Cell → Prop
  | linked _ arg0 _ => links = true ∧ arg0 = .null ∨ arg0.Faulty links
  | _ => False

section
variable {root node : Cell} {block : Nat} {isOr : Bool}

theorem Cell.Waiting.faulty_setArg1 (waiting : root.Waiting) (filled : root ≠ .null) :
    (root.setArg1 node).Faulty links ↔ root.Held links ∨ node.Faulty links := by
  cases waiting with
  | null => exact absurd rfl filled
  | linked block arg0 isOr => exact or_assoc.symm

theorem Cell.Waiting.held_element (waiting : root.Waiting) :
    (element root node block isOr).Held links ↔
      root.Held links ∨ node.Faulty links ∨ links = true ∧ root = .null ∧ node = .null := by
  cases waiting with
  | null =>
    show links = true ∧ node = .null ∨ node.Faulty links ↔ _
    simp only [Cell.Held, false_or, true_and]
    exact or_comm
  | linked above arg0 other =>
    show links = true ∧ Cell.andor above arg0 node other = .null ∨ (Cell.andor above arg0 node other).Faulty links ↔ _
    simp only [Cell.Faulty, Cell.Held, reduceCtorEq, and_false, false_and, false_or, or_false]
    exact or_assoc.symm

theorem faulty_element : (element root node block isOr).Faulty links ↔
    links = true ∨ (element root node block isOr).Held links := by
  have linked (arg0 : Cell) : (Cell.linked block arg0 isOr).Faulty links ↔
      links = true ∨ (Cell.linked block arg0 isOr).Held links := by
    rw [Cell.Faulty, Cell.Held, ← or_assoc, or_iff_left_of_imp And.left]
  unfold element
  split
  · exact linked _
  · exact linked _

end

/-- A chain of one operator over operands that begin behind `fresh` and, where nothing is there, before an `idle`
token. The chain itself begins behind `outside`. -/
structure Level (op : CRuleToken) (fresh outside : Before → Prop) (idle : CRuleToken → Prop) : Prop where
  binary : op = .and ∨ op = .or
  begins : ∀ before, outside before → fresh before ∧ takes before op = true
  missing : ∀ before depth text, outside before → Missing ⟨.operand before, depth, op, text⟩
  further : fresh (operator op) ∧ takes (operator op) op = true
  present : ∀ depth text, ¬ Missing ⟨.operand (operator op), depth, op, text⟩
  others : ∀ token, idle token → token ≠ op →
    (token ≠ .openParen ∧ token ≠ .not ∧ token ≠ .word) ∧ takes (operator op) token = false

def Operand (operand : Heap → Scan → Option Built) (links : Bool) (fresh : Before → Prop)
    (idle stop : CRuleToken → Prop) : Prop :=
  ∀ before depth heap scan built, fresh before → operand heap scan = some built →
    built.Idle scan ∧ idle scan.nextTok ∨
      built.Reads links depth (BadFrom links ⟨.operand before, depth, scan⟩) ∧
        (built.errcode = .noErr → stop built.scan.nextTok)

section
variable {operand : Heap → Scan → Option Built} {op : CRuleToken} {fresh outside : Before → Prop}
  {idle stop : CRuleToken → Prop}

theorem Level.joined (level : Level op fresh outside idle) {root : Cell} {before : Before} {depth : Nat} {scan : Scan}
    {built : Built} (isOr : Bool) (waiting : root.Waiting)
    (place : root = .null ∧ outside before ∨ root ≠ .null ∧ before = operator op)
    (read : built.Idle scan ∧ idle scan.nextTok ∨
      built.Reads links depth (BadFrom links ⟨.operand before, depth, scan⟩) ∧
        (built.errcode = .noErr → stop built.scan.nextTok))
    (good : built.errcode = .noErr) (more : built.scan.nextTok = op) :
    BadFrom links ⟨.operand before, depth, scan⟩ ∨ root.Held links ↔
      (links = true ∧ (cruleGettoken built.scan.ruleptr).1 ≠ .noErr ∨
        BadNext links (.operand (operator op)) depth built.scan.ruleptr) ∨
        (element root built.root built.heap.blocks isOr).Held links := by
  obtain ⟨errcode, node, heap, token, text⟩ := built
  cases more
  cases good
  rw [waiting.held_element]
  rcases read with ⟨⟨-, leaf, same⟩, -⟩ | ⟨reads, -⟩
  · cases leaf
    cases same
    have taken : takes before token = true := by
      rcases place with ⟨-, begins⟩ | ⟨-, rfl⟩
      · exact (level.begins before begins).2
      · exact level.further.2
    have first : Missing ⟨.operand before, depth, token, text⟩ ↔ root = .null := by
      rcases place with ⟨empty, begins⟩ | ⟨filled, rfl⟩
      · exact iff_of_true (level.missing before depth text begins) empty
      · exact iff_of_false (level.present depth text) filled
    rw [badFrom_operand_takes taken, first]
    simp only [Cell.Faulty, false_or, and_true]
    tauto
  · have filled : node ≠ .null := reads.filled rfl
    rw [reads.told, badFrom_behind_operator level.binary]
    simp only [filled, and_false, or_false, true_and]
    tauto

theorem parseChain_reads (level : Level op fresh outside idle) (operands : Operand operand links fresh idle stop)
    (isOr : Bool) {missing : CRuleErrcode} (error : missing ≠ .noErr) (depth : Nat) {fuel : Nat} {root : Cell}
    {before : Before} {heap : Heap} {scan : Scan} {built : Built} (waiting : root.Waiting)
    (place : root = .null ∧ outside before ∨ root ≠ .null ∧ before = operator op)
    (run : parseChain operand op isOr missing fuel root heap scan = some built) :
    root = .null ∧ built.Idle scan ∧ idle scan.nextTok ∧ scan.nextTok ≠ op ∨
      built.Reads links depth (BadFrom links ⟨.operand before, depth, scan⟩ ∨ root.Held links) ∧
        (built.errcode = .noErr → stop built.scan.nextTok ∧ built.scan.nextTok ≠ op) := by
  induction fuel generalizing root before heap scan with
  | zero => cases run
  | succ fuel ih =>
    rw [parseChain] at run
    obtain ⟨node, first, run⟩ := Option.bind_eq_some_iff.mp run
    have starts : fresh before := by
      rcases place with ⟨-, begins⟩ | ⟨-, rfl⟩
      · exact (level.begins before begins).1
      · exact level.further.1
    have read := operands before depth heap scan node starts first
    split at run
    case isTrue more =>
      have joined := level.joined isOr waiting place read more.1 more.2
      rcases gettoken_cases node.scan.ruleptr with ⟨next, scanned, -⟩ | ⟨next, scanned⟩
      · simp only [scanned] at run
        have rest := (ih (element_waiting _ _ _ _) (.inr ⟨element_ne_null _ _ _ _, rfl⟩) run).resolve_left
          fun other => element_ne_null _ _ _ _ other.1
        refine .inr ⟨⟨rest.1.filled, ?_⟩, rest.2⟩
        rw [joined, ← rest.1.told, badNext_good scanned, scanned]
        simp only [ne_eq, not_true_eq_false, and_false, false_or]
      · simp only [scanned] at run
        cases run
        refine .inr ⟨.of_error (by rintro ⟨⟩) ?_, (by rintro ⟨⟩)⟩
        rw [joined, faulty_element, scanned]
        simp only [badNext_bad scanned, ne_eq, reduceCtorEq, not_false_eq_true, and_true, or_false]
    case isFalse last =>
      split at run
      case isTrue filled =>
        have follows : before = operator op := (place.resolve_left fun other => filled other.1).2
        split at run
        case isTrue some_node =>
          cases run
          rcases read with ⟨idles, -⟩ | ⟨reads, stops⟩
          · exact absurd idles.2.1 some_node
          · refine .inr ⟨⟨fun _ => ?_, ?_⟩, fun good => ⟨stops good, fun more => last ⟨good, more⟩⟩⟩
            · cases waiting with
              | null => exact absurd rfl filled
              | linked block arg0 other => rintro ⟨⟩
            · rw [waiting.faulty_setArg1 filled, reads.told]
              tauto
        case isFalse leaf =>
          cases run
          refine .inr ⟨.of_error error ?_, fun good => absurd good error⟩
          rw [waiting.faulty_setArg1 filled]
          have nothing : ¬ BadFrom links ⟨.operand before, depth, scan⟩ := by
            rcases read with ⟨idles, quiet⟩ | ⟨reads, -⟩
            · have others := level.others scan.nextTok quiet fun more => last ⟨idles.1, idles.2.2 ▸ more⟩
              rw [follows]
              exact badFrom_operand_idle others.1 others.2
            · rw [reads.told, not_not.mp leaf]
              rintro (none | ⟨good, -⟩)
              · exact none
              · exact reads.filled good (not_not.mp leaf)
          simp only [nothing, Cell.Faulty, false_or, or_false]
      case isFalse empty =>
        cases run
        have empty := not_not.mp empty
        subst empty
        rcases read with ⟨idles, quiet⟩ | ⟨reads, stops⟩
        · exact .inl ⟨rfl, idles, quiet, fun more => last ⟨idles.1, idles.2.2 ▸ more⟩⟩
        · refine .inr ⟨⟨reads.filled, ?_⟩, fun good => ⟨stops good, fun more => last ⟨good, more⟩⟩⟩
          rw [← reads.told]
          exact or_iff_left id

theorem Level.chain (level : Level op fresh outside idle) (operands : Operand operand links fresh idle stop)
    (isOr : Bool) {missing : CRuleErrcode} (error : missing ≠ .noErr) (fuel : Nat) :
    Operand (parseChain operand op isOr missing fuel .null) links outside (fun token => idle token ∧ token ≠ op)
      fun token => stop token ∧ token ≠ op := by
  intro before depth heap scan built begins run
  rcases parseChain_reads level operands isOr error depth .null (.inl ⟨rfl, begins⟩) run with
    ⟨-, idles⟩ | ⟨reads, stops⟩
  · exact .inl idles
  · refine .inr ⟨⟨reads.filled, ?_⟩, stops⟩
    rw [← reads.told]
    exact (or_iff_left id).symm

end

def quiet (token : CRuleToken) : Prop := token ≠ .openParen ∧ token ≠ .not ∧ token ≠ .word

theorem andLevel : Level .and (fun _ => True) (fun before => before = .start ∨ before = .or) quiet where
  binary := .inl rfl
  begins := by
    rintro before (rfl | rfl)
    · exact ⟨trivial, rfl⟩
    · exact ⟨trivial, rfl⟩
  missing _ _ _ begins := .inl ⟨rfl, begins⟩
  further := ⟨trivial, rfl⟩
  present _ _ := by
    rintro (⟨-, none | none⟩ | ⟨none, -⟩)
    · cases none
    · cases none
    · cases none
  others token idles other := by
    refine ⟨idles, ?_⟩
    cases token <;> first | rfl | exact absurd rfl other

theorem orLevel : Level .or (fun before => before = .start ∨ before = .or) (fun before => before = .start)
    (fun token => quiet token ∧ token ≠ .and) where
  binary := .inr rfl
  begins := by
    rintro before rfl
    exact ⟨.inl rfl, rfl⟩
  missing _ _ _ begins := .inr ⟨rfl, begins⟩
  further := ⟨.inr rfl, rfl⟩
  present _ _ := by
    rintro (⟨none, -⟩ | ⟨-, none⟩)
    · cases none
    · cases none
  others token idles other := by
    refine ⟨idles.1, ?_⟩
    cases token <;> first | rfl | exact absurd rfl other | exact absurd rfl idles.2

theorem parseorexpr_operand {primary : Heap → Scan → Option Built}
    (operands : Operand primary links (fun _ => True) quiet fun _ => True) (fuel : Nat) :
    Operand (cruleParseorexpr primary fuel) links (fun before => before = .start)
      (fun token => (quiet token ∧ token ≠ .and) ∧ token ≠ .or) fun token => (True ∧ token ≠ .and) ∧ token ≠ .or := by
  have chains : Operand (cruleParseandexpr primary fuel) links (fun before => before = .start ∨ before = .or)
      (fun token => quiet token ∧ token ≠ .and) fun token => True ∧ token ≠ .and :=
    andLevel.chain operands false (by decide) fuel
  exact orLevel.chain chains true (by decide) fuel

theorem faulty_insertAt (nots : List Nat) (node : Cell) :
    (Cell.insertAt nots node).Faulty links ↔ node.Faulty links := by
  induction nots with
  | nil => exact Iff.rfl
  | cons block nots ih => exact ih

theorem insertAt_ne_null (nots : List Nat) {node : Cell} (filled : node ≠ .null) :
    Cell.insertAt nots node ≠ .null := by
  cases nots with
  | nil => exact filled
  | cons block nots => nofun

theorem badFrom_rule_idle {depth : Nat} {scan : Scan}
    (idles : (quiet scan.nextTok ∧ scan.nextTok ≠ .and) ∧ scan.nextTok ≠ .or) :
    ¬ BadFrom links ⟨.operand .start, depth, scan⟩ := by
  obtain ⟨token, text⟩ := scan
  apply badFrom_operand_idle idles.1.1
  cases token <;> first | rfl | exact absurd rfl idles.1.2 | exact absurd rfl idles.2

theorem parseprimary_reads {fuel : Nat} {nots : List Nat} {before : Before} {depth : Nat} {heap : Heap} {scan : Scan}
    {built : Built} (place : nots ≠ [] → before = .not)
    (run : cruleParseprimary fuel nots heap scan = some built) :
    nots = [] ∧ built.Idle scan ∧ quiet scan.nextTok ∨
      built.Reads links depth (BadFrom links ⟨.operand before, depth, scan⟩) := by
  induction fuel generalizing nots before depth heap scan built with
  | zero => cases run
  | succ fuel ih =>
    have failed {errcode : CRuleErrcode} {node : Cell} {heap : Heap} {last : Scan} {bad : Prop}
        (error : errcode ≠ .noErr) (told : bad ↔ node.Faulty links) :
        (Built.mk errcode (.insertAt nots node) heap last).Reads links depth bad :=
      .of_error error (told.trans (faulty_insertAt nots node).symm)
    have nothing_there (token : CRuleToken) (text : List Char) (others : quiet token)
        (run : some (Built.mk (if nots = [] then .noErr else .expctPrim) (.insertAt nots .null) heap ⟨token, text⟩) =
          some built) :
        nots = [] ∧ built.Idle ⟨token, text⟩ ∧ quiet token ∨
          built.Reads links depth (BadFrom links ⟨.operand before, depth, token, text⟩) := by
      cases run
      by_cases first : nots = []
      · subst first
        exact .inl ⟨rfl, ⟨rfl, rfl, rfl⟩, others⟩
      · rw [if_neg first]
        refine .inr (failed (by rintro ⟨⟩) ?_)
        rw [place first]
        exact iff_of_false (badFrom_operand_idle others rfl) id
    obtain ⟨token, text⟩ := scan
    rw [cruleParseprimary] at run
    cases token
    case openParen =>
      right
      rw [badFrom_operand_open]
      rcases gettoken_cases text with ⟨first, scanned, -⟩ | ⟨first, scanned⟩
      · simp only [scanned] at run
        obtain ⟨inner, read, run⟩ := Option.bind_eq_some_iff.mp run
        have primary : Operand (cruleParseprimary fuel []) links (fun _ => True) quiet fun _ => True := by
          intro before depth heap scan built _ run
          exact (ih (absurd rfl) run).imp And.right fun reads => ⟨reads, fun _ => trivial⟩
        rw [badNext_good scanned]
        rcases parseorexpr_operand primary fuel .start (depth + 1) heap first inner rfl read with
          ⟨idles, quiets⟩ | ⟨reads, stops⟩
        · rw [if_neg (not_not.mpr idles.1), if_pos idles.2.1] at run
          cases run
          refine failed (by rintro ⟨⟩) (iff_of_false (badFrom_rule_idle quiets) ?_)
          rw [idles.2.1]
          exact id
        · rw [reads.told]
          by_cases good : inner.errcode = .noErr
          · have stops := stops good
            rw [if_neg (not_not.mpr good), if_neg (reads.filled good)] at run
            by_cases closes : inner.scan.nextTok = .closeParen
            · rw [if_neg (not_not.mpr closes)] at run
              have behind : BadFrom links ⟨.behind, depth + 1, inner.scan⟩ ↔
                  BadNext links .behind depth inner.scan.ruleptr := by
                rw [← badFrom_behind_close, ← closes]
              rw [behind]
              rcases gettoken_cases inner.scan.ruleptr with ⟨next, scanned, -⟩ | ⟨next, scanned⟩
              · rw [scanned] at run
                cases run
                refine ⟨fun _ => insertAt_ne_null nots (reads.filled good), ?_⟩
                rw [badNext_good scanned, faulty_insertAt, good]
              · rw [scanned] at run
                cases run
                exact failed (by rintro ⟨⟩) (or_iff_left fun other => badNext_bad scanned other.2)
            · rw [if_pos closes] at run
              cases run
              refine failed (by rintro ⟨⟩) (or_iff_left fun other => ?_)
              exact badFrom_behind_stop ⟨stops.1.2, stops.2⟩ (fun same => absurd same closes) other.2
          · rw [if_pos good] at run
            cases run
            exact failed good (or_iff_left fun other => good other.1)
      · simp only [scanned] at run
        cases run
        exact failed (by rintro ⟨⟩) (iff_of_false (badNext_bad scanned) id)
    case not =>
      right
      rw [badFrom_operand_not]
      rcases gettoken_cases text with ⟨next, scanned, -⟩ | ⟨next, scanned⟩
      · simp only [scanned] at run
        rw [badNext_good scanned]
        have longer : nots ++ [heap.blocks] ≠ [] := List.append_ne_nil_of_right_ne_nil nots (by rintro ⟨⟩)
        exact (ih (fun _ => rfl) run).resolve_left fun other => longer other.1
      · simp only [scanned] at run
        cases run
        refine .of_error (by rintro ⟨⟩) ?_
        rw [faulty_insertAt]
        exact iff_of_false (badNext_bad scanned) id
    case word =>
      obtain ⟨node, read, run⟩ := Option.bind_eq_some_iff.mp run
      cases run
      have reads : node.Reads links depth _ := parsefunction_reads before read
      refine .inr ⟨fun good => insertAt_ne_null nots (reads.filled good), ?_⟩
      rw [reads.told, faulty_insertAt]
    all_goals exact nothing_there _ text ⟨(by rintro ⟨⟩), (by rintro ⟨⟩), (by rintro ⟨⟩)⟩ run

theorem parseprimary_operand (fuel : Nat) :
    Operand (cruleParseprimary fuel []) links (fun _ => True) quiet fun _ => True := by
  intro before depth heap scan built _ run
  exact (parseprimary_reads (absurd rfl) run).imp And.right fun reads => ⟨reads, fun _ => trivial⟩

theorem parseRule_faulty {rule : List Char} {built : Built} (run : parseRule rule = some built) :
    built.root.Faulty links ↔ ∃ reading, Of rule reading ∧ reading.Bad links := by
  have whole : (∃ reading, Of rule reading ∧ reading.Bad links) ↔ BadNext links (.operand .start) 0 rule := by
    constructor
    · rintro ⟨reading, ⟨first, begins, reached⟩, bad⟩
      exact ⟨first, begins, reading, reached, bad⟩
    · rintro ⟨first, begins, reading, reached, bad⟩
      exact ⟨reading, ⟨first, begins, reached⟩, bad⟩
  rw [whole]
  unfold parseRule at run
  rcases gettoken_cases rule with ⟨first, scanned, -⟩ | ⟨first, scanned⟩
  · simp only [scanned] at run
    obtain ⟨tree, read, run⟩ := Option.bind_eq_some_iff.mp run
    cases run
    rw [badNext_good scanned]
    rcases parseorexpr_operand (parseprimary_operand _) (parseBound rule) .start 0 ⟨0, []⟩ first tree rfl read with
      ⟨idles, quiets⟩ | ⟨reads, stops⟩
    · rw [idles.2.1]
      exact iff_of_false id (badFrom_rule_idle quiets)
    · rw [reads.told]
      refine (or_iff_left ?_).symm
      rintro ⟨good, bad⟩
      exact badFrom_behind_stop ⟨(stops good).1.2, (stops good).2⟩ (fun _ => rfl) bad
  · simp only [scanned] at run
    cases run
    exact iff_of_false id (badNext_bad scanned)

def Cell.arglists : Cell → List (List (Nat × List Char))
  | null => []
  | func _ _ args => [args]
  | linked _ arg0 _ => arg0.arglists
  | andor _ arg0 arg1 _ => arg0.arglists ++ arg1.arglists
  | not _ arg0 => arg0.arglists

theorem Cell.arglists_fit (root : Cell) :
    (∀ args ∈ root.arglists, args.length ≤ maxArgs) ↔ ¬ root.Faulty false := by
  induction root with
  | null => exact iff_of_true (fun args mem => absurd mem List.not_mem_nil) id
  | func block funcptr args =>
    show (∀ other ∈ [args], other.length ≤ maxArgs) ↔ ¬ maxArgs < args.length
    rw [List.forall_mem_singleton, not_lt]
  | linked block arg0 isOr ih =>
    simp only [arglists, Faulty, Bool.false_eq_true, false_or]
    exact ih
  | andor block arg0 arg1 isOr ih_first ih_second =>
    simp only [arglists, Faulty, Bool.false_eq_true, false_and, false_or, List.forall_mem_append, ih_first, ih_second,
      not_or]
  | not block arg0 ih => exact ih

end Mem

open Mem Reading

/-- No function element has more arguments than its array has room for, and no text that was built for one is too long
for its buffer, exactly where no argument of the text is complete behind three others of its list. -/
theorem arguments_fit_iff (rule : List Char) : ∃ built, Mem.parseRule rule = some built ∧
    ((∀ args ∈ built.root.arglists, args.length ≤ maxArgs) ∧
        (∀ text ∈ built.heap.texts, text.length ≤ maxArgLen - 1) ↔
      ∀ reading, Of rule reading → ¬ reading.Overfull) := by
  obtain ⟨built, run⟩ := Mem.parseRule_returns rule
  refine ⟨built, run, ?_⟩
  have short : ∀ text ∈ built.heap.texts, text.length ≤ maxArgLen - 1 := (parseRule_owns run).2
  rw [and_iff_left short, Cell.arglists_fit, parseRule_faulty run]
  constructor
  · exact fun none reading read over_full => none ⟨reading, read, .inl over_full⟩
  · rintro none ⟨reading, read, over_full | links⟩
    · exact none reading read over_full
    · exact absurd links.1 nofun

/-- Four arguments are stored where three have room. -/
theorem four_arguments : ∃ built, Mem.parseRule "via(a,b,c,d)".toList = some built ∧
    ¬ ((∀ args ∈ built.root.arglists, args.length ≤ maxArgs) ∧
      ∀ text ∈ built.heap.texts, text.length ≤ maxArgLen - 1) := by
  refine ⟨_, rfl, ?_⟩
  decide

/-- Up to where `crule_parse` stops, no argument list is too long, no chain of operators is without its first operand,
and no operator is without a token behind it. -/
def Orderly (rule : List Char) : Prop :=
  ∀ reading, Of rule reading → ¬ reading.Overfull ∧ ¬ reading.Missing ∧ ¬ reading.Hanging

/-- The tree of a rule that is rejected is freed, every block of it once, exactly where the text was orderly. -/
theorem rejected_freed_iff {rule : List Char} {built : Built} (run : Mem.parseRule rule = some built)
    (rejected : built.errcode ≠ .noErr) :
    (∃ freed, built.freed = some freed ∧ freed.Perm (List.range built.heap.blocks)) ↔ Orderly rule := by
  have orderly : Orderly rule ↔ ¬ built.root.Faulty true := by
    rw [parseRule_faulty run]
    constructor
    · rintro none ⟨reading, read, over_full | ⟨-, missing | hanging⟩⟩
      · exact (none reading read).1 over_full
      · exact (none reading read).2.1 missing
      · exact (none reading read).2.2 hanging
    · exact fun none reading read => ⟨fun over_full => none ⟨reading, read, .inl over_full⟩,
        fun missing => none ⟨reading, read, .inr ⟨rfl, .inl missing⟩⟩,
        fun hanging => none ⟨reading, read, .inr ⟨rfl, .inr hanging⟩⟩⟩
  have owned : built.root.blocks.Perm (List.range built.heap.blocks) := by
    rw [← List.Ico.zero_bot]
    exact (parseRule_owns run).1.2
  rw [orderly, Built.freed]
  by_cases empty : built.root = .null
  · rw [if_neg fun filled => filled.2 empty]
    rw [empty] at owned ⊢
    exact iff_of_true ⟨[], rfl, owned⟩ id
  · rw [if_pos ⟨rejected, empty⟩]
    constructor
    · rintro ⟨freed, done, -⟩ faulty
      rw [cruleFree_faulty (.inr faulty)] at done
      cases done
    · exact fun sound => ⟨built.root.blocks, cruleFree_sound empty sound, owned⟩

/-- The argument list is not closed. -/
theorem rejected_freed_directop : ∃ built, Mem.parseRule "!directop(a".toList = some built ∧
    built.errcode = .expctClose ∧ built.freed = some [2, 1, 0] ∧ Orderly "!directop(a".toList := by
  refine ⟨_, rfl, rfl, rfl, ?_⟩
  exact (rejected_freed_iff rfl (by decide)).mp ⟨_, rfl, by decide⟩

/-- The first operand of the operator is null, and `crule_free` follows it. -/
theorem null_operand_freed : ∃ built, Mem.parseRule "||a".toList = some built ∧ built.errcode = .expctAnd ∧
    ¬ ∃ freed, built.freed = some freed ∧ freed.Perm (List.range built.heap.blocks) := by
  refine ⟨_, rfl, rfl, ?_⟩
  rintro ⟨freed, done, -⟩
  cases done

end Ircd.Crule

import Ircd.Match.Collapse

/-! The connection rules of `crule.c`: scanner, recursive descent and evaluation.

A parse function returns, as the source does, an error code, the tree it built and the
scanner's position. Its outer `none` means that the recursion bound ran out, which
`cruleParse` never lets happen.
-/

set_option autoImplicit false

namespace Ircd.Crule
open Ircd.Text Ircd.Match

def maxArgLen : Nat := 80

inductive CRuleToken where
  | unknown | end | and | or | not | openParen | closeParen | comma | word
  deriving DecidableEq, Repr

inductive CRuleErrcode where
  | noErr | unexpctTok | unknwTok | expctAnd | expctOr | expctPrim | expctOpen | expctClose | unknwFunc | argMismat
  deriving DecidableEq, Repr

inductive CRuleFunc where
  | connected | directcon | via | directop
  deriving DecidableEq, Repr

/-- A node of the tree. `func` has no handler while its arguments are read, and the third
argument of `andor` chooses between or and and. -/
inductive CRuleNodePtr where
  | null
  | func (funcptr : Option CRuleFunc) (args : List (List Char))
  | andor (first second : CRuleNodePtr) (isOr : Bool)
  | not (arg : CRuleNodePtr)
  deriving DecidableEq, Repr

def CRuleNodePtr.setArg1 : CRuleNodePtr → CRuleNodePtr → CRuleNodePtr
  | andor first _ isOr, node => andor first node isOr
  | root, _ => root

def CRuleNodePtr.insertAt : Nat → CRuleNodePtr → CRuleNodePtr
  | 0, node => node
  | nots + 1, node => insertAt nots (not node)


def CRuleFunc.name : CRuleFunc → List Char
  | connected => "connected".toList
  | directcon => "directcon".toList
  | via => "via".toList
  | directop => "directop".toList

def CRuleFunc.reqnumargs : CRuleFunc → Nat
  | connected => 1
  | directcon => 1
  | via => 2
  | directop => 0

/-- `crule_funclist`, without the entry that marks its end. -/
def cruleFunclist : List CRuleFunc := [.connected, .directcon, .via, .directop]

/-- The call of a primitive on its arguments, as the state of the network answers it. -/
abbrev Assignment := CRuleFunc → List (List Char) → Bool

/-- `crule_eval`; `none` where the source would follow a null pointer. -/
def cruleEval (calls : Assignment) : CRuleNodePtr → Option Bool
  | .null => none
  | .func none _ => none
  | .func (some funcptr) args => some (calls funcptr args)
  | .andor first second isOr => do
    let result1 ← cruleEval calls first
    if isOr then
      if result1 then some true else cruleEval calls second
    else if result1 then cruleEval calls second else some false
  | .not arg => do
    let result ← cruleEval calls arg
    some (!result)

structure Scan where
  nextTok : CRuleToken
  ruleptr : List Char
  deriving DecidableEq, Repr

def isMaskChar (c : Char) : Bool := c = '*' || c = '?' || c = '.' || c = '-'

def gettokenLoop : Char → List Char → CRuleErrcode × Scan
  | _, [] => (.noErr, ⟨.end, []⟩)
  | pending, c :: rest =>
    if c = ' ' || c = '\t' then gettokenLoop pending rest
    else if c = '&' then
      if pending = nul then gettokenLoop '&' rest
      else if pending = '&' then (.noErr, ⟨.and, rest⟩) else (.unknwTok, ⟨.unknown, rest⟩)
    else if c = '|' then
      if pending = nul then gettokenLoop '|' rest
      else if pending = '|' then (.noErr, ⟨.or, rest⟩) else (.unknwTok, ⟨.unknown, rest⟩)
    else if c = '!' then (.noErr, ⟨.not, rest⟩)
    else if c = '(' then (.noErr, ⟨.openParen, rest⟩)
    else if c = ')' then (.noErr, ⟨.closeParen, rest⟩)
    else if c = ',' then (.noErr, ⟨.comma, rest⟩)
    else if c = ':' then (.noErr, ⟨.end, rest⟩)
    else if isAlpha c || isMaskChar c then (.noErr, ⟨.word, c :: rest⟩)
    else (.unknwTok, ⟨.unknown, c :: rest⟩)

def cruleGettoken (ruleptr : List Char) : CRuleErrcode × Scan := gettokenLoop nul ruleptr

/-- `crule_getword`: the word and the text behind it. -/
def cruleGetword : Nat → List Char → List Char × List Char
  | 0, ruleptr => ([], ruleptr)
  | _ + 1, [] => ([], [])
  | maxlen + 1, c :: ruleptr =>
    if isAlnum c || isMaskChar c then
      let (word, rest) := cruleGetword maxlen ruleptr
      (c :: word, rest)
    else ([], c :: ruleptr)

/-- What `currarg` holds after another word of the argument. -/
def appendWord (currarg word : List Char) : List Char :=
  if currarg ≠ [] then
    if currarg.length + word.length < maxArgLen - 1 then currarg ++ ' ' :: word else currarg
  else word

/-- What `argrootp` holds after the end of an argument. -/
def storeArg (args : List (List Char)) (currarg : List Char) : List (List Char) :=
  if collapse currarg ≠ [] then args ++ [collapse currarg] else args

def cruleParsearglist : Nat → List (List Char) → List Char → Scan → Option (CRuleErrcode × List (List Char) × Scan)
  | 0, _, _, _ => none
  | fuel + 1, args, currarg, scan =>
    if scan.nextTok = .word then
      let (word, rest) := cruleGetword (maxArgLen - 1) scan.ruleptr
      match cruleGettoken rest with
      | (.noErr, scan) => cruleParsearglist fuel args (appendWord currarg word) scan
      | (errcode, scan) => some (errcode, args, scan)
    else if scan.nextTok ≠ .comma then some (.noErr, storeArg args currarg, scan)
    else
      match cruleGettoken scan.ruleptr with
      | (.noErr, scan) => cruleParsearglist fuel (storeArg args currarg) [] scan
      | (errcode, scan) => some (errcode, storeArg args currarg, scan)

structure Parsed where
  errcode : CRuleErrcode
  root : CRuleNodePtr
  scan : Scan

def cruleParsefunction (fuel : Nat) (scan : Scan) : Option Parsed :=
  let (funcname, rest) := cruleGetword (maxArgLen - 1) scan.ruleptr
  match cruleGettoken rest with
  | (.noErr, scan) =>
    if scan.nextTok = .openParen then
      match cruleFunclist.find? fun entry => ircdStrcmp entry.name funcname = 0 with
      | none => some ⟨.unknwFunc, .null, scan⟩
      | some entry =>
        match cruleGettoken scan.ruleptr with
        | (.noErr, scan) => do
          let (errcode, args, scan) ← cruleParsearglist fuel [] [] scan
          let aborted := CRuleNodePtr.func none args
          if errcode ≠ .noErr then some ⟨errcode, aborted, scan⟩
          else if scan.nextTok ≠ .closeParen then some ⟨.expctClose, aborted, scan⟩
          else if entry.reqnumargs ≠ args.length then some ⟨.argMismat, aborted, scan⟩
          else
            match cruleGettoken scan.ruleptr with
            | (.noErr, scan) => some ⟨.noErr, .func (some entry) args, scan⟩
            | (errcode, scan) => some ⟨errcode, aborted, scan⟩
        | (errcode, scan) => some ⟨errcode, .null, scan⟩
    else some ⟨.expctOpen, .null, scan⟩
  | (errcode, scan) => some ⟨errcode, .null, scan⟩

/-- The loop that `crule_parseorexpr` and `crule_parseandexpr` share: `root` is the last
element of the chain, whose second argument is still to come. -/
def parseChain (operand : Scan → Option Parsed) (operator : CRuleToken) (isOr : Bool) (missing : CRuleErrcode) :
    Nat → CRuleNodePtr → Scan → Option Parsed
  | 0, _, _ => none
  | fuel + 1, root, scan => do
    let parsed ← operand scan
    if parsed.errcode = .noErr ∧ parsed.scan.nextTok = operator then
      let element := if root ≠ .null then .andor (root.setArg1 parsed.root) .null isOr
        else .andor parsed.root .null isOr
      match cruleGettoken parsed.scan.ruleptr with
      | (.noErr, scan) => parseChain operand operator isOr missing fuel element scan
      | (errcode, scan) => some ⟨errcode, element, scan⟩
    else if root ≠ .null then
      if parsed.root ≠ .null then some ⟨parsed.errcode, root.setArg1 parsed.root, parsed.scan⟩
      else some ⟨missing, root.setArg1 .null, parsed.scan⟩
    else some parsed

/-- `crule_parseandexpr` over the parser of its operands. -/
def cruleParseandexpr (primary : Scan → Option Parsed) (fuel : Nat) : Scan → Option Parsed :=
  parseChain primary .and false .expctPrim fuel .null

def cruleParseorexpr (primary : Scan → Option Parsed) (fuel : Nat) : Scan → Option Parsed :=
  parseChain (cruleParseandexpr primary fuel) .or true .expctAnd fuel .null

/-- The loop of `crule_parseprimary`, with the number of not elements above `insertionp`. -/
def cruleParseprimary : Nat → Nat → Scan → Option Parsed
  | 0, _, _ => none
  | fuel + 1, nots, scan =>
    match scan.nextTok with
    | .openParen =>
      match cruleGettoken scan.ruleptr with
      | (.noErr, scan) => do
        let parsed ← cruleParseorexpr (cruleParseprimary fuel 0) fuel scan
        let root := CRuleNodePtr.insertAt nots parsed.root
        if parsed.errcode ≠ .noErr then some ⟨parsed.errcode, root, parsed.scan⟩
        else if parsed.root = .null then some ⟨.expctAnd, root, parsed.scan⟩
        else if parsed.scan.nextTok ≠ .closeParen then some ⟨.expctClose, root, parsed.scan⟩
        else
          let (errcode, scan) := cruleGettoken parsed.scan.ruleptr
          some ⟨errcode, root, scan⟩
      | (errcode, scan) => some ⟨errcode, .insertAt nots .null, scan⟩
    | .not =>
      match cruleGettoken scan.ruleptr with
      | (.noErr, scan) => cruleParseprimary fuel (nots + 1) scan
      | (errcode, scan) => some ⟨errcode, .insertAt (nots + 1) .null, scan⟩
    | .word => do
      let parsed ← cruleParsefunction fuel scan
      some { parsed with root := .insertAt nots parsed.root }
    | _ => some ⟨if nots = 0 then .noErr else .expctPrim, .insertAt nots .null, scan⟩

def parseBound (rule : List Char) : Nat := rule.length + 1

/-- The error code and the tree of `crule_parse`. -/
def parseRule (rule : List Char) : Option (CRuleErrcode × CRuleNodePtr) :=
  match cruleGettoken rule with
  | (.noErr, scan) => do
    let parsed ← cruleParseorexpr (cruleParseprimary (parseBound rule) 0) (parseBound rule) scan
    if parsed.errcode ≠ .noErr then some (parsed.errcode, .null)
    else if parsed.root = .null then some (.expctOr, .null)
    else if parsed.scan.nextTok ≠ .end then some (.unexpctTok, .null)
    else some (.noErr, parsed.root)
  | (errcode, _) => some (errcode, .null)

/-- `crule_parse`: the tree, or null where the text has an error. -/
def cruleParse (rule : List Char) : CRuleNodePtr := ((parseRule rule).map (·.2)).getD .null

def Scan.size (scan : Scan) : Nat :=
  scan.ruleptr.length + if scan.nextTok = .end ∨ scan.nextTok = .word then 0 else 1

def Scan.ready (scan : Scan) : Prop :=
  scan.nextTok = .word → ∃ c rest, scan.ruleptr = c :: rest ∧ (isAlnum c || isMaskChar c) = true

def Scan.From (scan : Scan) (limit : Nat) : Prop := scan.size ≤ limit ∧ scan.ready

theorem Scan.From.mono {scan : Scan} {limit above : Nat} (start : scan.From limit) (le : limit ≤ above) :
    scan.From above := ⟨Nat.le_trans start.1 le, start.2⟩

theorem gettokenLoop_from {pending : Char} {text : List Char} {scan : Scan}
    (scanned : gettokenLoop pending text = (.noErr, scan)) : scan.From text.length := by
  have behind {token : CRuleToken} {rest : List Char} {c : Char}
      (same : (CRuleErrcode.noErr, Scan.mk token rest) = (.noErr, scan)) (whole : token ≠ .word) :
      scan.From (c :: rest).length := by
    cases same
    refine ⟨?_, fun word => absurd word whole⟩
    simp only [Scan.size, List.length_cons]
    split <;> omega
  induction text generalizing pending with
  | nil =>
    cases scanned
    exact ⟨Nat.le_refl _, nofun⟩
  | cons c rest ih =>
    have onward {pending : Char} (scanned : gettokenLoop pending rest = (.noErr, scan)) :
        scan.From (c :: rest).length := (ih scanned).mono (Nat.le_succ _)
    rw [gettokenLoop] at scanned
    split_ifs at scanned with blank amp first second bar first second bang opens closes comma colon word
    case pos => exact onward scanned
    case pos => exact onward scanned
    case pos => exact behind scanned nofun
    case pos => exact onward scanned
    case pos => exact behind scanned nofun
    case pos => exact behind scanned nofun
    case pos => exact behind scanned nofun
    case pos => exact behind scanned nofun
    case pos => exact behind scanned nofun
    case pos => exact behind scanned nofun
    case pos =>
      cases scanned
      refine ⟨Nat.le_refl _, fun _ => ⟨c, rest, rfl, ?_⟩⟩
      rw [isAlnum, Bool.or_right_comm, word, Bool.true_or]
    all_goals exact absurd scanned nofun

theorem gettokenLoop_errcode (pending : Char) (text : List Char) :
    (gettokenLoop pending text).1 = .noErr ∨ (gettokenLoop pending text).1 = .unknwTok := by
  induction text generalizing pending with
  | nil => exact .inl rfl
  | cons c rest ih =>
    rw [gettokenLoop]
    split_ifs <;> first | exact ih _ | exact .inl rfl | exact .inr rfl

theorem gettoken_cases (text : List Char) :
    (∃ next, cruleGettoken text = (.noErr, next) ∧ next.From text.length) ∨
      ∃ next, cruleGettoken text = (.unknwTok, next) := by
  rcases gettokenLoop_errcode nul text with good | bad
  · have scanned : cruleGettoken text = (.noErr, (cruleGettoken text).2) := Prod.ext good rfl
    exact .inl ⟨_, scanned, gettokenLoop_from scanned⟩
  · exact .inr ⟨(cruleGettoken text).2, Prod.ext bad rfl⟩

theorem getword_length (maxlen : Nat) (text : List Char) : (cruleGetword maxlen text).2.length ≤ text.length := by
  induction maxlen generalizing text with
  | zero => exact Nat.le_refl _
  | succ maxlen ih =>
    cases text with
    | nil => exact Nat.le_refl _
    | cons c text =>
      rw [cruleGetword]
      split
      · exact Nat.le_succ_of_le (ih text)
      · exact Nat.le_refl _

theorem getword_shorter {scan : Scan} (ready : scan.ready) (word : scan.nextTok = .word) :
    (cruleGetword (maxArgLen - 1) scan.ruleptr).2.length < scan.size := by
  obtain ⟨c, rest, shape, reads⟩ := ready word
  have shorter := getword_length 78 rest
  simp only [Scan.size, word, or_true, if_true, Nat.add_zero, shape, List.length_cons]
  show (cruleGetword 79 (c :: rest)).2.length < rest.length + 1
  rw [cruleGetword, if_pos reads]
  exact Nat.lt_succ_of_le shorter

theorem Scan.ruleptr_lt {scan : Scan} (other : scan.nextTok ≠ .end) (read : scan.nextTok ≠ .word) :
    scan.ruleptr.length < scan.size := by
  simp [Scan.size, other, read]

theorem parsearglist_returns (fuel : Nat) (args : List (List Char)) (currarg : List Char) (scan : Scan)
    (ready : scan.ready) (enough : scan.size < fuel) :
    ∃ errcode stored last, cruleParsearglist fuel args currarg scan = some (errcode, stored, last) ∧
      (errcode = .noErr → last.From scan.size) := by
  induction fuel generalizing args currarg scan with
  | zero => exact absurd enough (Nat.not_lt_zero _)
  | succ fuel ih =>
    by_cases word : scan.nextTok = .word
    · have shorter := getword_shorter ready word
      rcases gettoken_cases (cruleGetword (maxArgLen - 1) scan.ruleptr).2 with ⟨next, scanned, start⟩ | ⟨next, scanned⟩
      · have smaller := Nat.lt_of_le_of_lt start.1 shorter
        obtain ⟨errcode, stored, last, returned, from_next⟩ :=
          ih args (appendWord currarg (cruleGetword (maxArgLen - 1) scan.ruleptr).1) next start.2 (by omega)
        refine ⟨errcode, stored, last, ?_, fun good => (from_next good).mono (Nat.le_of_lt smaller)⟩
        simp [cruleParsearglist, word, scanned, returned]
      · exact ⟨.unknwTok, args, next, by simp [cruleParsearglist, word, scanned], nofun⟩
    · by_cases comma : scan.nextTok = .comma
      · have shorter : scan.ruleptr.length < scan.size := Scan.ruleptr_lt (comma ▸ nofun) word
        rcases gettoken_cases scan.ruleptr with ⟨next, scanned, start⟩ | ⟨next, scanned⟩
        · have smaller := Nat.lt_of_le_of_lt start.1 shorter
          obtain ⟨errcode, stored, last, returned, from_next⟩ := ih (storeArg args currarg) [] next start.2 (by omega)
          refine ⟨errcode, stored, last, ?_, fun good => (from_next good).mono (Nat.le_of_lt smaller)⟩
          simp [cruleParsearglist, comma, scanned, returned]
        · exact ⟨.unknwTok, storeArg args currarg, next, by simp [cruleParsearglist, comma, scanned], nofun⟩
      · refine ⟨.noErr, storeArg args currarg, scan, ?_, fun _ => ⟨Nat.le_refl _, ready⟩⟩
        simp [cruleParsearglist, word, comma]

def Returns (result : Option Parsed) (limit : Nat) : Prop :=
  ∃ parsed, result = some parsed ∧ (parsed.errcode = .noErr → parsed.scan.From limit)

theorem parsefunction_returns (fuel : Nat) (scan : Scan) (ready : scan.ready) (word : scan.nextTok = .word)
    (enough : scan.size ≤ fuel) : Returns (cruleParsefunction fuel scan) scan.size := by
  have shorter := getword_shorter ready word
  unfold cruleParsefunction
  rcases gettoken_cases (cruleGetword (maxArgLen - 1) scan.ruleptr).2 with ⟨opened, scanned, start⟩ | ⟨opened, scanned⟩
  · simp only [scanned]
    by_cases opens : opened.nextTok = .openParen
    · rw [if_pos opens]
      split
      · exact ⟨_, rfl, nofun⟩
      · have rest : opened.ruleptr.length < opened.size := Scan.ruleptr_lt (opens ▸ nofun) (opens ▸ nofun)
        rcases gettoken_cases opened.ruleptr with ⟨first, scanned_first, from_open⟩ | ⟨first, scanned_first⟩
        · have before : first.size < scan.size := by
            have := start.1
            have := from_open.1
            omega
          obtain ⟨errcode, args, closed, returned, from_first⟩ :=
            parsearglist_returns fuel [] [] first from_open.2 (by omega)
          simp only [scanned_first, returned, Option.bind_eq_bind, Option.bind_some]
          split_ifs with bad no_close mismatch
          · exact ⟨_, rfl, fun good => absurd good bad⟩
          · exact ⟨_, rfl, nofun⟩
          · exact ⟨_, rfl, nofun⟩
          · have start := from_first (not_not.mp bad)
            have closes := not_not.mp no_close
            have rest : closed.ruleptr.length < closed.size := Scan.ruleptr_lt (closes ▸ nofun) (closes ▸ nofun)
            rcases gettoken_cases closed.ruleptr with ⟨last, scanned_last, from_close⟩ | ⟨last, scanned_last⟩
            · simp only [scanned_last]
              refine ⟨_, rfl, fun _ => from_close.mono ?_⟩
              have := start.1
              omega
            · simp only [scanned_last]
              exact ⟨_, rfl, nofun⟩
        · simp only [scanned_first]
          exact ⟨_, rfl, nofun⟩
    · rw [if_neg opens]
      exact ⟨_, rfl, nofun⟩
  · simp only [scanned]
    exact ⟨_, rfl, nofun⟩

theorem parseChain_returns {operand : Scan → Option Parsed} (operator : CRuleToken) (isOr : Bool)
    (missing : CRuleErrcode) (read : operator ≠ .end ∧ operator ≠ .word ∧ missing ≠ .noErr) (fuel : Nat)
    (root : CRuleNodePtr) (scan : Scan) (ready : scan.ready) (enough : scan.size < fuel)
    (operands : ∀ next, next.From scan.size → Returns (operand next) next.size) :
    Returns (parseChain operand operator isOr missing fuel root scan) scan.size := by
  induction fuel generalizing root scan with
  | zero => exact absurd enough (Nat.not_lt_zero _)
  | succ fuel ih =>
    obtain ⟨parsed, returned, start⟩ := operands scan ⟨Nat.le_refl _, ready⟩
    simp only [parseChain, returned, Option.bind_eq_bind, Option.bind_some]
    split_ifs with more some_root some_root some_node
    case pos | neg =>
      have start := start more.1
      have rest : parsed.scan.ruleptr.length < parsed.scan.size :=
        Scan.ruleptr_lt (more.2 ▸ read.1) (more.2 ▸ read.2.1)
      rcases gettoken_cases parsed.scan.ruleptr with ⟨next, scanned, from_operator⟩ | ⟨next, scanned⟩
      · have smaller : next.size < scan.size := by
          have := start.1
          have := from_operator.1
          omega
        obtain ⟨last, returned, from_next⟩ := ih _ next from_operator.2 (by omega)
          fun other start => operands other (start.mono (Nat.le_of_lt smaller))
        simp only [scanned]
        exact ⟨last, returned, fun good => (from_next good).mono (Nat.le_of_lt smaller)⟩
      · simp only [scanned]
        exact ⟨_, rfl, nofun⟩
    · exact ⟨_, rfl, start⟩
    · exact ⟨_, rfl, fun good => absurd good read.2.2⟩
    · exact ⟨_, rfl, start⟩

theorem parseorexpr_returns {primary : Scan → Option Parsed} (fuel : Nat) (scan : Scan) (ready : scan.ready)
    (enough : scan.size < fuel) (operands : ∀ next, next.From scan.size → Returns (primary next) next.size) :
    Returns (cruleParseorexpr primary fuel scan) scan.size := by
  apply parseChain_returns .or true .expctAnd ⟨nofun, nofun, nofun⟩ fuel .null scan ready enough
  intro next start
  apply parseChain_returns .and false .expctPrim ⟨nofun, nofun, nofun⟩ fuel .null next start.2
    (Nat.lt_of_le_of_lt start.1 enough)
  intro other from_next
  exact operands other (from_next.mono start.1)

theorem parseprimary_returns (fuel nots : Nat) (scan : Scan) (ready : scan.ready) (enough : scan.size < fuel) :
    Returns (cruleParseprimary fuel nots scan) scan.size := by
  induction fuel generalizing nots scan with
  | zero => exact absurd enough (Nat.not_lt_zero _)
  | succ fuel ih =>
    rw [cruleParseprimary]
    split
    case h_1 opens =>
      have rest : scan.ruleptr.length < scan.size := Scan.ruleptr_lt (opens ▸ nofun) (opens ▸ nofun)
      rcases gettoken_cases scan.ruleptr with ⟨first, scanned, start⟩ | ⟨first, scanned⟩
      · have smaller := Nat.lt_of_le_of_lt start.1 rest
        obtain ⟨parsed, returned, from_first⟩ := parseorexpr_returns fuel first start.2 (by omega)
          fun next start => ih 0 next start.2 (Nat.lt_of_le_of_lt start.1 (by omega))
        simp only [scanned, returned, Option.bind_eq_bind, Option.bind_some]
        split_ifs with bad empty no_close
        · exact ⟨_, rfl, fun good => absurd good bad⟩
        · exact ⟨_, rfl, nofun⟩
        · exact ⟨_, rfl, nofun⟩
        · have start := from_first (not_not.mp bad)
          have closes := not_not.mp no_close
          have rest : parsed.scan.ruleptr.length < parsed.scan.size :=
            Scan.ruleptr_lt (closes ▸ nofun) (closes ▸ nofun)
          rcases gettoken_cases parsed.scan.ruleptr with ⟨last, scanned_last, from_close⟩ | ⟨last, scanned_last⟩
          · simp only [scanned_last]
            refine ⟨_, rfl, fun _ => from_close.mono ?_⟩
            have := start.1
            omega
          · simp only [scanned_last]
            exact ⟨_, rfl, nofun⟩
      · simp only [scanned]
        exact ⟨_, rfl, nofun⟩
    case h_2 negates =>
      have rest : scan.ruleptr.length < scan.size := Scan.ruleptr_lt (negates ▸ nofun) (negates ▸ nofun)
      rcases gettoken_cases scan.ruleptr with ⟨next, scanned, start⟩ | ⟨next, scanned⟩
      · have smaller := Nat.lt_of_le_of_lt start.1 rest
        obtain ⟨parsed, returned, from_next⟩ := ih (nots + 1) next start.2 (by omega)
        simp only [scanned]
        exact ⟨parsed, returned, fun good => (from_next good).mono (Nat.le_of_lt smaller)⟩
      · simp only [scanned]
        exact ⟨_, rfl, nofun⟩
    case h_3 word =>
      obtain ⟨parsed, returned, start⟩ := parsefunction_returns fuel scan ready word (Nat.le_of_lt_succ enough)
      rw [returned]
      exact ⟨_, rfl, start⟩
    case h_4 => exact ⟨_, rfl, fun _ => ⟨Nat.le_refl _, ready⟩⟩

theorem parseRule_returns (rule : List Char) : ∃ errcode root, parseRule rule = some (errcode, root) := by
  unfold parseRule
  rcases gettoken_cases rule with ⟨first, scanned, start⟩ | ⟨first, scanned⟩
  · have below : first.size < parseBound rule := Nat.lt_succ_of_le start.1
    obtain ⟨parsed, returned, _⟩ := parseorexpr_returns (parseBound rule) first start.2 below
      fun next start => parseprimary_returns (parseBound rule) 0 next start.2 (Nat.lt_of_le_of_lt start.1 below)
    simp only [scanned, returned, Option.bind_eq_bind, Option.bind_some]
    split_ifs <;> exact ⟨_, _, rfl⟩
  · simp only [scanned]
    exact ⟨_, _, rfl⟩

end Ircd.Crule

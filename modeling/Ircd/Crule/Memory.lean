import Ircd.Crule.Parser
import Mathlib.Data.List.Intervals

/-! The memory of `crule_parse`: the blocks of the tree that it builds, and `crule_free` over them.

The functions are those of the parser once more, with what the tree alone does not show: which call of `MyMalloc` a
block comes from, and that the second argument of a new operator element has no value yet.
-/

set_option autoImplicit false

namespace Ircd.Crule.Mem
open Ircd.Text Ircd.Match

def maxArgs : Nat := 3

/-- What a node pointer leads to. A block is known by the number of blocks that were allocated before it. A `linked`
element is an `andor` element whose `arg[1]` is not initialised. -/
inductive Cell where
  | null
  | func (block : Nat) (funcptr : Option CRuleFunc) (args : List (Nat × List Char))
  | linked (block : Nat) (arg0 : Cell) (isOr : Bool)
  | andor (block : Nat) (arg0 arg1 : Cell) (isOr : Bool)
  | not (block : Nat) (arg0 : Cell)
  deriving DecidableEq, Repr

def Cell.setArg1 : Cell → Cell → Cell
  | linked block arg0 isOr, node => andor block arg0 node isOr
  | andor block arg0 _ isOr, node => andor block arg0 node isOr
  | root, _ => root

def Cell.insertAt (nots : List Nat) (node : Cell) : Cell := nots.foldr not node

/-- The blocks allocated so far, and what `currarg` has held after each word. -/
structure Heap where
  blocks : Nat
  texts : List (List Char)

def Heap.alloc (heap : Heap) : Heap := { heap with blocks := heap.blocks + 1 }

def storeArg (heap : Heap) (args : List (Nat × List Char)) (currarg : List Char) : List (Nat × List Char) × Heap :=
  if collapse currarg ≠ [] then (args ++ [(heap.blocks, collapse currarg)], heap.alloc) else (args, heap)

def cruleParsearglist : Nat → Heap → List (Nat × List Char) → List Char → Scan →
    Option (CRuleErrcode × List (Nat × List Char) × Heap × Scan)
  | 0, _, _, _, _ => none
  | fuel + 1, heap, args, currarg, scan =>
    if scan.nextTok = .word then
      let (word, rest) := cruleGetword (maxArgLen - 1) scan.ruleptr
      let heap := { heap with texts := heap.texts ++ [appendWord currarg word] }
      match cruleGettoken rest with
      | (.noErr, scan) => cruleParsearglist fuel heap args (appendWord currarg word) scan
      | (errcode, scan) => some (errcode, args, heap, scan)
    else
      let (args, heap) := storeArg heap args currarg
      if scan.nextTok ≠ .comma then some (.noErr, args, heap, scan)
      else
        match cruleGettoken scan.ruleptr with
        | (.noErr, scan) => cruleParsearglist fuel heap args [] scan
        | (errcode, scan) => some (errcode, args, heap, scan)

structure Built where
  errcode : CRuleErrcode
  root : Cell
  heap : Heap
  scan : Scan

/-- `crule_parsefunction` behind the argument list. -/
def closeFunction (entry : CRuleFunc) (block : Nat) (errcode : CRuleErrcode) (args : List (Nat × List Char))
    (heap : Heap) (scan : Scan) : Built :=
  let aborted := Cell.func block none args
  if errcode ≠ .noErr then ⟨errcode, aborted, heap, scan⟩
  else if scan.nextTok ≠ .closeParen then ⟨.expctClose, aborted, heap, scan⟩
  else if entry.reqnumargs ≠ args.length then ⟨.argMismat, aborted, heap, scan⟩
  else
    match cruleGettoken scan.ruleptr with
    | (.noErr, scan) => ⟨.noErr, .func block (some entry) args, heap, scan⟩
    | (errcode, scan) => ⟨errcode, aborted, heap, scan⟩

/-- `crule_parsefunction` behind the opening parenthesis. -/
def openFunction (entry : CRuleFunc) (fuel : Nat) (heap : Heap) (scan : Scan) : Option Built :=
  match cruleGettoken scan.ruleptr with
  | (.noErr, scan) =>
    (cruleParsearglist fuel heap.alloc [] [] scan).map fun list =>
      closeFunction entry heap.blocks list.1 list.2.1 list.2.2.1 list.2.2.2
  | (errcode, scan) => some ⟨errcode, .null, heap, scan⟩

def cruleParsefunction (fuel : Nat) (heap : Heap) (scan : Scan) : Option Built :=
  let (funcname, rest) := cruleGetword (maxArgLen - 1) scan.ruleptr
  match cruleGettoken rest with
  | (.noErr, scan) =>
    if scan.nextTok = .openParen then
      match cruleFunclist.find? fun entry => ircdStrcmp entry.name funcname = 0 with
      | none => some ⟨.unknwFunc, .null, heap, scan⟩
      | some entry => openFunction entry fuel heap scan
    else some ⟨.expctOpen, .null, heap, scan⟩
  | (errcode, scan) => some ⟨errcode, .null, heap, scan⟩

def element (root operand : Cell) (block : Nat) (isOr : Bool) : Cell :=
  if root ≠ .null then .linked block (root.setArg1 operand) isOr else .linked block operand isOr

/-- The loop that `crule_parseorexpr` and `crule_parseandexpr` share. -/
def parseChain (operand : Heap → Scan → Option Built) (operator : CRuleToken) (isOr : Bool) (missing : CRuleErrcode) :
    Nat → Cell → Heap → Scan → Option Built
  | 0, _, _, _ => none
  | fuel + 1, root, heap, scan => do
    let built ← operand heap scan
    if built.errcode = .noErr ∧ built.scan.nextTok = operator then
      let linked := element root built.root built.heap.blocks isOr
      match cruleGettoken built.scan.ruleptr with
      | (.noErr, scan) => parseChain operand operator isOr missing fuel linked built.heap.alloc scan
      | (errcode, scan) => some ⟨errcode, linked, built.heap.alloc, scan⟩
    else if root ≠ .null then
      if built.root ≠ .null then some ⟨built.errcode, root.setArg1 built.root, built.heap, built.scan⟩
      else some ⟨missing, root.setArg1 .null, built.heap, built.scan⟩
    else some built

def cruleParseandexpr (primary : Heap → Scan → Option Built) (fuel : Nat) : Heap → Scan → Option Built :=
  parseChain primary .and false .expctPrim fuel .null

def cruleParseorexpr (primary : Heap → Scan → Option Built) (fuel : Nat) : Heap → Scan → Option Built :=
  parseChain (cruleParseandexpr primary fuel) .or true .expctAnd fuel .null

/-- The loop of `crule_parseprimary`, with the blocks of the not elements above `insertionp`. -/
def cruleParseprimary : Nat → List Nat → Heap → Scan → Option Built
  | 0, _, _, _ => none
  | fuel + 1, nots, heap, scan =>
    match scan.nextTok with
    | .openParen =>
      match cruleGettoken scan.ruleptr with
      | (.noErr, scan) => do
        let built ← cruleParseorexpr (cruleParseprimary fuel []) fuel heap scan
        let root := Cell.insertAt nots built.root
        if built.errcode ≠ .noErr then some ⟨built.errcode, root, built.heap, built.scan⟩
        else if built.root = .null then some ⟨.expctAnd, root, built.heap, built.scan⟩
        else if built.scan.nextTok ≠ .closeParen then some ⟨.expctClose, root, built.heap, built.scan⟩
        else
          let (errcode, scan) := cruleGettoken built.scan.ruleptr
          some ⟨errcode, root, built.heap, scan⟩
      | (errcode, scan) => some ⟨errcode, .insertAt nots .null, heap, scan⟩
    | .not =>
      match cruleGettoken scan.ruleptr with
      | (.noErr, scan) => cruleParseprimary fuel (nots ++ [heap.blocks]) heap.alloc scan
      | (errcode, scan) => some ⟨errcode, .insertAt (nots ++ [heap.blocks]) .null, heap.alloc, scan⟩
    | .word => do
      let built ← cruleParsefunction fuel heap scan
      some { built with root := .insertAt nots built.root }
    | _ => some ⟨if nots = [] then .noErr else .expctPrim, .insertAt nots .null, heap, scan⟩

/-- `crule_parse` up to its call of `crule_free`: the error code and the tree that was built. -/
def parseRule (rule : List Char) : Option Built :=
  match cruleGettoken rule with
  | (.noErr, scan) => do
    let built ← cruleParseorexpr (cruleParseprimary (parseBound rule) []) (parseBound rule) ⟨0, []⟩ scan
    let errcode :=
      if built.errcode ≠ .noErr then built.errcode
      else if built.root = .null then .expctOr
      else if built.scan.nextTok ≠ .end then .unexpctTok
      else .noErr
    some { built with errcode := errcode }
  | (errcode, scan) => some ⟨errcode, .null, ⟨0, []⟩, scan⟩

/-- `crule_free`: the blocks in the order in which they are freed; none where a null pointer is followed, a value is
read that was never set, or an argument outside of the array. -/
def cruleFree : Cell → Option (List Nat)
  | .null => none
  | .func block _ args => if args.length ≤ maxArgs then some (args.map (·.1) ++ [block]) else none
  | .linked _ _ _ => none
  | .andor block arg0 arg1 _ =>
    (cruleFree arg0).bind fun first =>
      (if arg1 ≠ .null then cruleFree arg1 else some []).map fun second => first ++ second ++ [block]
  | .not block arg0 => (if arg0 ≠ .null then cruleFree arg0 else some []).map fun first => first ++ [block]

/-- The end of `crule_parse`: what it frees of a rule that it rejects. -/
def Built.freed (built : Built) : Option (List Nat) :=
  if built.errcode ≠ .noErr ∧ built.root ≠ .null then cruleFree built.root else some []

def Cell.erase : Cell → CRuleNodePtr
  | null => .null
  | func _ funcptr args => .func funcptr (args.map (·.2))
  | linked _ arg0 isOr => .andor arg0.erase .null isOr
  | andor _ arg0 arg1 isOr => .andor arg0.erase arg1.erase isOr
  | not _ arg0 => .not arg0.erase

def Built.erase (built : Built) : Parsed := ⟨built.errcode, built.root.erase, built.scan⟩

theorem Cell.erase_eq_null {root : Cell} : root.erase = .null ↔ root = .null := by
  cases root <;> simp [Cell.erase]

theorem Cell.erase_setArg1 (root node : Cell) : (root.setArg1 node).erase = root.erase.setArg1 node.erase := by
  cases root <;> rfl

theorem insertAt_succ (nots : Nat) (node : CRuleNodePtr) :
    CRuleNodePtr.insertAt (nots + 1) node = .not (CRuleNodePtr.insertAt nots node) := by
  induction nots generalizing node with
  | zero => rfl
  | succ nots ih => exact ih (.not node)

theorem Cell.erase_insertAt (nots : List Nat) (node : Cell) :
    (Cell.insertAt nots node).erase = CRuleNodePtr.insertAt nots.length node.erase := by
  induction nots with
  | nil => rfl
  | cons block nots ih =>
    rw [List.length_cons, insertAt_succ, ← ih]
    rfl

theorem storeArg_erase (heap : Heap) (args : List (Nat × List Char)) (currarg : List Char) :
    (storeArg heap args currarg).1.map (·.2) = Crule.storeArg (args.map (·.2)) currarg := by
  unfold storeArg Crule.storeArg
  split
  · rw [List.map_append, List.map_singleton]
  · rfl

theorem parsearglist_erase (fuel : Nat) (heap : Heap) (args : List (Nat × List Char)) (currarg : List Char)
    (scan : Scan) :
    (cruleParsearglist fuel heap args currarg scan).map (fun r => (r.1, r.2.1.map (·.2), r.2.2.2)) =
      Crule.cruleParsearglist fuel (args.map (·.2)) currarg scan := by
  induction fuel generalizing heap args currarg scan with
  | zero => rfl
  | succ fuel ih =>
    rw [cruleParsearglist, Crule.cruleParsearglist, ← storeArg_erase heap]
    by_cases word : scan.nextTok = .word
    · simp only [word, if_true]
      rcases gettoken_cases (cruleGetword (maxArgLen - 1) scan.ruleptr).2 with ⟨next, scanned, -⟩ | ⟨next, scanned⟩
      · simp only [scanned]
        exact ih _ _ _ _
      · simp only [scanned, Option.map_some]
    · simp only [word, if_false]
      split
      · rfl
      · rcases gettoken_cases scan.ruleptr with ⟨next, scanned, -⟩ | ⟨next, scanned⟩
        · simp only [scanned]
          exact ih _ _ _ _
        · simp only [scanned, Option.map_some]

theorem parsefunction_erase (fuel : Nat) (heap : Heap) (scan : Scan) :
    (cruleParsefunction fuel heap scan).map Built.erase = Crule.cruleParsefunction fuel scan := by
  unfold cruleParsefunction Crule.cruleParsefunction
  rcases gettoken_cases (cruleGetword (maxArgLen - 1) scan.ruleptr).2 with ⟨opened, scanned, -⟩ | ⟨opened, scanned⟩
  · simp only [scanned]
    generalize cruleFunclist.find? _ = known
    by_cases opens : opened.nextTok = .openParen
    · rw [if_pos opens, if_pos opens]
      cases known with
      | none => rfl
      | some entry =>
        simp only [openFunction]
        rcases gettoken_cases opened.ruleptr with ⟨first, scanned, -⟩ | ⟨first, scanned⟩
        · simp only [scanned]
          have read := parsearglist_erase fuel heap.alloc [] [] first
          rw [List.map_nil] at read
          rw [← read, Option.map_map]
          rcases cruleParsearglist fuel heap.alloc [] [] first with _ | ⟨errcode, args, after, last⟩
          · rfl
          · simp only [Option.map_some, Option.bind_eq_bind, Option.bind_some, Function.comp_apply, closeFunction,
              List.length_map]
            split
            · rfl
            · split
              · rfl
              · split
                · rfl
                · rcases gettoken_cases last.ruleptr with ⟨next, scanned, -⟩ | ⟨next, scanned⟩
                  · simp only [scanned]
                    rfl
                  · simp only [scanned]
                    rfl
        · simp only [scanned]
          rfl
    · rw [if_neg opens, if_neg opens]
      rfl
  · simp only [scanned]
    rfl

theorem element_erase (root operand : Cell) (block : Nat) (isOr : Bool) :
    (element root operand block isOr).erase =
      if root.erase ≠ .null then .andor (root.erase.setArg1 operand.erase) .null isOr
      else .andor operand.erase .null isOr := by
  unfold element
  by_cases empty : root = .null
  · subst empty
    rfl
  · rw [if_pos empty, if_pos fun erased => empty (Cell.erase_eq_null.mp erased), ← Cell.erase_setArg1]
    rfl

theorem parseChain_erase {operand : Heap → Scan → Option Built} {operand' : Scan → Option Parsed}
    (operands : ∀ heap scan, (operand heap scan).map Built.erase = operand' scan) (operator : CRuleToken)
    (isOr : Bool) (missing : CRuleErrcode) (fuel : Nat) (root : Cell) (heap : Heap) (scan : Scan) :
    (parseChain operand operator isOr missing fuel root heap scan).map Built.erase =
      Crule.parseChain operand' operator isOr missing fuel root.erase scan := by
  induction fuel generalizing root heap scan with
  | zero => rfl
  | succ fuel ih =>
    rw [parseChain, Crule.parseChain, ← operands heap scan]
    rcases operand heap scan with _ | ⟨errcode, node, after, last⟩
    · rfl
    · simp only [Option.map_some, Option.bind_eq_bind, Option.bind_some, Built.erase]
      split
      · rw [← element_erase root node after.blocks isOr]
        rcases gettoken_cases last.ruleptr with ⟨next, scanned, -⟩ | ⟨next, scanned⟩
        · simp only [scanned]
          exact ih _ _ _
        · simp only [scanned]
          rfl
      · by_cases empty : root = .null
        · subst empty
          rfl
        · rw [if_pos empty, if_pos fun erased => empty (Cell.erase_eq_null.mp erased)]
          by_cases leaf : node = .null
          · subst leaf
            rw [if_neg (not_not.mpr rfl), Option.map_some, Built.erase, Cell.erase_setArg1]
            rfl
          · rw [if_pos leaf, if_pos fun erased => leaf (Cell.erase_eq_null.mp erased), Option.map_some, Built.erase,
              Cell.erase_setArg1]

theorem parseorexpr_erase {primary : Heap → Scan → Option Built} {primary' : Scan → Option Parsed}
    (operands : ∀ heap scan, (primary heap scan).map Built.erase = primary' scan) (fuel : Nat) (heap : Heap) (scan : Scan) :
    (cruleParseorexpr primary fuel heap scan).map Built.erase = Crule.cruleParseorexpr primary' fuel scan :=
  parseChain_erase (parseChain_erase operands .and false .expctPrim fuel .null) .or true .expctAnd fuel .null heap scan

theorem parseprimary_erase (fuel : Nat) (nots : List Nat) (heap : Heap) (scan : Scan) :
    (cruleParseprimary fuel nots heap scan).map Built.erase = Crule.cruleParseprimary fuel nots.length scan := by
  induction fuel generalizing nots heap scan with
  | zero => rfl
  | succ fuel ih =>
    have idle : (some (Built.mk (if nots = [] then .noErr else .expctPrim) (.insertAt nots .null) heap scan)).map
        Built.erase = some ⟨if nots.length = 0 then .noErr else .expctPrim, .insertAt nots.length .null, scan⟩ := by
      rw [Option.map_some, Built.erase, Cell.erase_insertAt]
      simp only [List.length_eq_zero_iff, Cell.erase]
    obtain ⟨token, text⟩ := scan
    rw [cruleParseprimary, Crule.cruleParseprimary]
    cases token
    case openParen =>
      rcases gettoken_cases text with ⟨first, scanned, -⟩ | ⟨first, scanned⟩
      · simp only [scanned]
        have inner : (cruleParseorexpr (cruleParseprimary fuel []) fuel heap first).map Built.erase =
            Crule.cruleParseorexpr (Crule.cruleParseprimary fuel 0) fuel first :=
          parseorexpr_erase (fun heap scan => ih [] heap scan) fuel heap first
        rw [← inner]
        rcases cruleParseorexpr (cruleParseprimary fuel []) fuel heap first with _ | ⟨errcode, node, after, last⟩
        · rfl
        · simp only [Option.map_some, Option.bind_eq_bind, Option.bind_some, Built.erase, Cell.erase_eq_null]
          split
          · rw [Option.map_some, Built.erase, Cell.erase_insertAt]
          · split
            · rw [Option.map_some, Built.erase, Cell.erase_insertAt]
            · split
              · rw [Option.map_some, Built.erase, Cell.erase_insertAt]
              · rw [Option.map_some, Built.erase, Cell.erase_insertAt]
      · simp only [scanned, Option.map_some, Built.erase, Cell.erase_insertAt]
        rfl
    case not =>
      rcases gettoken_cases text with ⟨next, scanned, -⟩ | ⟨next, scanned⟩
      · simp only [scanned]
        rw [ih, List.length_append, List.length_singleton]
      · simp only [scanned, Option.map_some, Built.erase, Cell.erase_insertAt, List.length_append, List.length_singleton]
        rfl
    case word =>
      simp only
      rw [← parsefunction_erase fuel heap]
      rcases cruleParsefunction fuel heap ⟨.word, text⟩ with _ | built
      · rfl
      · simp only [Option.map_some, Option.bind_eq_bind, Option.bind_some, Built.erase, Cell.erase_insertAt]
    all_goals exact idle

/-- What `crule_parse` returns for what was built. -/
def Built.result (built : Built) : CRuleErrcode × CRuleNodePtr :=
  (built.errcode, if built.errcode = .noErr then built.root.erase else .null)

theorem parseRule_erase (rule : List Char) : (parseRule rule).map Built.result = Crule.parseRule rule := by
  unfold parseRule Crule.parseRule
  rcases gettoken_cases rule with ⟨first, scanned, -⟩ | ⟨first, scanned⟩
  · simp only [scanned]
    have inner : (cruleParseorexpr (cruleParseprimary (parseBound rule) []) (parseBound rule) ⟨0, []⟩ first).map
        Built.erase = Crule.cruleParseorexpr (Crule.cruleParseprimary (parseBound rule) 0) (parseBound rule) first :=
      parseorexpr_erase (fun heap scan => parseprimary_erase (parseBound rule) [] heap scan) _ _ _
    rw [← inner]
    rcases cruleParseorexpr _ _ _ _ with _ | ⟨errcode, node, after, last⟩
    · rfl
    · simp only [Option.map_some, Option.bind_eq_bind, Option.bind_some, Built.erase, Cell.erase_eq_null, Built.result]
      split
      · rfl
      · split
        · rfl
        · split
          · rfl
          · rfl
  · simp only [scanned]
    rfl

theorem parseRule_returns (rule : List Char) : ∃ built, parseRule rule = some built := by
  obtain ⟨errcode, root, parsed⟩ := Crule.parseRule_returns rule
  rw [← parseRule_erase] at parsed
  exact ⟨_, (Option.map_eq_some_iff.mp parsed).choose_spec.1⟩

/-- The blocks of a tree, in the order of `crule_free`. -/
def Cell.blocks : Cell → List Nat
  | null => []
  | func block _ args => args.map (·.1) ++ [block]
  | linked block arg0 _ => arg0.blocks ++ [block]
  | andor block arg0 arg1 _ => arg0.blocks ++ arg1.blocks ++ [block]
  | not block arg0 => arg0.blocks ++ [block]

def Owned (blocks : List Nat) (start stop : Nat) : Prop := start ≤ stop ∧ blocks.Perm (List.Ico start stop)

theorem owned_nil (start : Nat) : Owned [] start start := ⟨Nat.le_refl _, by rw [List.Ico.self_empty]⟩

theorem owned_one (block : Nat) : Owned [block] block (block + 1) :=
  ⟨Nat.le_succ _, by rw [List.Ico.succ_singleton]⟩

section
variable {a b : List Nat} {start mid stop : Nat}

theorem Owned.append (first : Owned a start mid) (second : Owned b mid stop) : Owned (a ++ b) start stop := by
  refine ⟨Nat.le_trans first.1 second.1, ?_⟩
  rw [← List.Ico.append_consecutive first.1 second.1]
  exact first.2.append second.2

theorem Owned.perm (owned : Owned a start stop) (same : b.Perm a) : Owned b start stop :=
  ⟨owned.1, same.trans owned.2⟩

end

def Heap.Short (heap : Heap) : Prop := ∀ text ∈ heap.texts, text.length ≤ maxArgLen - 1

theorem length_getword (maxlen : Nat) (text : List Char) : (cruleGetword maxlen text).1.length ≤ maxlen := by
  induction maxlen generalizing text with
  | zero => exact Nat.le_refl _
  | succ maxlen ih =>
    cases text with
    | nil => exact Nat.zero_le _
    | cons c text =>
      rw [cruleGetword]
      split
      · exact Nat.succ_le_succ (ih text)
      · exact Nat.zero_le _

theorem length_appendWord {currarg word : List Char} (fits : currarg.length ≤ maxArgLen - 1)
    (short : word.length ≤ maxArgLen - 1) : (appendWord currarg word).length ≤ maxArgLen - 1 := by
  unfold appendWord
  split
  · split
    · rw [List.length_append, List.length_cons]
      omega
    · exact fits
  · exact short

variable {heap : Heap} {scan : Scan}

theorem parsearglist_owned {fuel : Nat} {after : Heap} {args stored : List (Nat × List Char)}
    {currarg : List Char} {last : Scan} {errcode : CRuleErrcode} {start : Nat}
    (owned : Owned (args.map (·.1)) start heap.blocks) (short : heap.Short)
    (fits : currarg.length ≤ maxArgLen - 1)
    (run : cruleParsearglist fuel heap args currarg scan = some (errcode, stored, after, last)) :
    Owned (stored.map (·.1)) start after.blocks ∧ after.Short := by
  induction fuel generalizing heap args currarg scan with
  | zero => cases run
  | succ fuel ih =>
    rw [cruleParsearglist] at run
    by_cases word : scan.nextTok = .word
    · simp only [word, if_true] at run
      have longer := length_appendWord fits (length_getword (maxArgLen - 1) scan.ruleptr)
      have noted : Heap.Short { heap with
          texts := heap.texts ++ [appendWord currarg (cruleGetword (maxArgLen - 1) scan.ruleptr).1] } := by
        intro text mem
        rcases List.mem_append.mp mem with mem | mem
        · exact short text mem
        · rw [List.mem_singleton.mp mem]
          exact longer
      rcases gettoken_cases (cruleGetword (maxArgLen - 1) scan.ruleptr).2 with ⟨next, scanned, -⟩ | ⟨next, scanned⟩
      · simp only [scanned] at run
        exact ih (by exact owned) noted longer run
      · simp only [scanned] at run
        cases run
        exact ⟨owned, noted⟩
    · simp only [word, if_false] at run
      have added : Owned ((storeArg heap args currarg).1.map (·.1)) start (storeArg heap args currarg).2.blocks ∧
          (storeArg heap args currarg).2.Short := by
        unfold storeArg
        split
        · rw [List.map_append, List.map_singleton]
          exact ⟨owned.append (owned_one heap.blocks), short⟩
        · exact ⟨owned, short⟩
      split at run
      · cases run
        exact added
      · rcases gettoken_cases scan.ruleptr with ⟨next, scanned, -⟩ | ⟨next, scanned⟩
        · simp only [scanned] at run
          exact ih added.1 added.2 (Nat.zero_le _) run
        · simp only [scanned] at run
          cases run
          exact added

def Built.Owns (built : Built) (start : Nat) : Prop :=
  Owned built.root.blocks start built.heap.blocks ∧ built.heap.Short

theorem closeFunction_owned {entry : CRuleFunc} {block : Nat} {errcode : CRuleErrcode}
    {args : List (Nat × List Char)} (owned : Owned (args.map (·.1)) (block + 1) heap.blocks) (short : heap.Short) :
    (closeFunction entry block errcode args heap scan).Owns block := by
  have node (funcptr : Option CRuleFunc) : Owned (Cell.func block funcptr args).blocks block heap.blocks :=
    ((owned_one block).append owned).perm List.perm_append_comm
  unfold closeFunction Built.Owns
  dsimp only
  split
  · exact ⟨node none, short⟩
  · split
    · exact ⟨node none, short⟩
    · split
      · exact ⟨node none, short⟩
      · rcases gettoken_cases scan.ruleptr with ⟨next, scanned, -⟩ | ⟨next, scanned⟩
        · simp only [scanned]
          exact ⟨node (some entry), short⟩
        · simp only [scanned]
          exact ⟨node none, short⟩

theorem owned_none (heap : Heap) : Owned (([] : List (Nat × List Char)).map (·.1)) heap.blocks heap.blocks :=
  owned_nil heap.blocks

theorem openFunction_owned {entry : CRuleFunc} {fuel : Nat} {built : Built} (short : heap.Short)
    (run : openFunction entry fuel heap scan = some built) : built.Owns heap.blocks := by
  unfold openFunction at run
  rcases gettoken_cases scan.ruleptr with ⟨first, scanned, -⟩ | ⟨first, scanned⟩
  · simp only [scanned] at run
    obtain ⟨list, listed, rfl⟩ := Option.map_eq_some_iff.mp run
    have kept := parsearglist_owned (owned_none heap.alloc) short (Nat.zero_le _) listed
    exact closeFunction_owned kept.1 kept.2
  · simp only [scanned] at run
    cases run
    exact ⟨owned_nil _, short⟩

theorem parsefunction_owned {fuel : Nat} {built : Built} (short : heap.Short)
    (run : cruleParsefunction fuel heap scan = some built) : built.Owns heap.blocks := by
  unfold cruleParsefunction at run
  rcases gettoken_cases (cruleGetword (maxArgLen - 1) scan.ruleptr).2 with ⟨opened, scanned, -⟩ | ⟨opened, scanned⟩
  · simp only [scanned] at run
    generalize cruleFunclist.find? _ = known at run
    by_cases opens : opened.nextTok = .openParen
    · rw [if_pos opens] at run
      cases known with
      | none =>
        cases run
        exact ⟨owned_nil _, short⟩
      | some entry => exact openFunction_owned short run
    · rw [if_neg opens] at run
      cases run
      exact ⟨owned_nil _, short⟩
  · simp only [scanned] at run
    cases run
    exact ⟨owned_nil _, short⟩

inductive Cell.Waiting : Cell → Prop where
  | null : Waiting .null
  | linked (block : Nat) (arg0 : Cell) (isOr : Bool) : Waiting (.linked block arg0 isOr)

theorem Cell.Waiting.blocks_setArg1 {root : Cell} (waiting : root.Waiting) (filled : root ≠ .null) (node : Cell) :
    (root.setArg1 node).blocks.Perm (root.blocks ++ node.blocks) := by
  cases waiting with
  | null => exact absurd rfl filled
  | linked block arg0 isOr =>
    show (arg0.blocks ++ node.blocks ++ [block]).Perm (arg0.blocks ++ [block] ++ node.blocks)
    rw [List.append_assoc, List.append_assoc]
    exact List.Perm.append_left _ List.perm_append_comm

theorem element_waiting (root operand : Cell) (block : Nat) (isOr : Bool) :
    (element root operand block isOr).Waiting := by
  unfold element
  split
  · exact .linked _ _ _
  · exact .linked _ _ _

theorem element_ne_null (root operand : Cell) (block : Nat) (isOr : Bool) :
    element root operand block isOr ≠ .null := by
  unfold element
  split
  · nofun
  · nofun

theorem Cell.Waiting.blocks_element {root : Cell} (waiting : root.Waiting) (operand : Cell) (block : Nat)
    (isOr : Bool) : (element root operand block isOr).blocks.Perm (root.blocks ++ operand.blocks ++ [block]) := by
  unfold element
  split
  case isTrue filled => exact (waiting.blocks_setArg1 filled operand).append_right _
  case isFalse empty =>
    rw [not_not.mp empty]
    exact List.Perm.refl _

theorem parseChain_owned {operand : Heap → Scan → Option Built} {operator : CRuleToken} {isOr : Bool}
    {missing : CRuleErrcode} {fuel : Nat} {root : Cell} {built : Built} {start : Nat}
    (operands : ∀ heap scan built, heap.Short → operand heap scan = some built → built.Owns heap.blocks)
    (waiting : root.Waiting) (owned : Owned root.blocks start heap.blocks) (short : heap.Short)
    (run : parseChain operand operator isOr missing fuel root heap scan = some built) : built.Owns start := by
  induction fuel generalizing root heap scan with
  | zero => cases run
  | succ fuel ih =>
    rw [parseChain] at run
    obtain ⟨node, read, run⟩ := Option.bind_eq_some_iff.mp run
    have next := operands heap scan node short read
    have both : Owned (root.blocks ++ node.root.blocks) start node.heap.blocks := owned.append next.1
    split at run
    · have grown : Owned (element root node.root node.heap.blocks isOr).blocks start node.heap.alloc.blocks :=
        (both.append (owned_one _)).perm (waiting.blocks_element _ _ _)
      rcases gettoken_cases node.scan.ruleptr with ⟨last, scanned, -⟩ | ⟨last, scanned⟩
      · simp only [scanned] at run
        exact ih (element_waiting _ _ _ _) grown next.2 run
      · simp only [scanned] at run
        cases run
        exact ⟨grown, next.2⟩
    · split at run
      case isTrue filled =>
        split at run
        case isTrue =>
          cases run
          exact ⟨both.perm (waiting.blocks_setArg1 filled _), next.2⟩
        case isFalse leaf =>
          cases run
          rw [not_not.mp leaf] at both
          exact ⟨both.perm (waiting.blocks_setArg1 filled _), next.2⟩
      case isFalse empty =>
        cases run
        rw [not_not.mp empty] at both
        exact ⟨both, next.2⟩

theorem parseorexpr_owned {primary : Heap → Scan → Option Built} {fuel : Nat} {built : Built}
    (operands : ∀ heap scan built, heap.Short → primary heap scan = some built → built.Owns heap.blocks)
    (short : heap.Short) (run : cruleParseorexpr primary fuel heap scan = some built) : built.Owns heap.blocks := by
  refine parseChain_owned ?_ .null (owned_nil _) short run
  intro heap scan built short run
  exact parseChain_owned operands .null (owned_nil _) short run

theorem blocks_insertAt (nots : List Nat) (node : Cell) :
    (Cell.insertAt nots node).blocks.Perm (nots ++ node.blocks) := by
  induction nots with
  | nil => exact List.Perm.refl _
  | cons block nots ih => exact (List.perm_append_singleton block _).trans (ih.cons block)

theorem parseprimary_owned {fuel : Nat} {nots : List Nat} {built : Built} {start : Nat}
    (owned : Owned nots start heap.blocks) (short : heap.Short)
    (run : cruleParseprimary fuel nots heap scan = some built) : built.Owns start := by
  induction fuel generalizing nots heap scan built start with
  | zero => cases run
  | succ fuel ih =>
    have above {errcode : CRuleErrcode} (node : Built) {last : Scan} (below : node.Owns heap.blocks) :
        (Built.mk errcode (.insertAt nots node.root) node.heap last).Owns start :=
      ⟨(owned.append below.1).perm (blocks_insertAt nots node.root), below.2⟩
    have idle (errcode : CRuleErrcode) (last : Scan) :
        (Built.mk errcode (.insertAt nots .null) heap last).Owns start :=
      above ⟨errcode, .null, heap, last⟩ ⟨owned_nil _, short⟩
    obtain ⟨token, text⟩ := scan
    rw [cruleParseprimary] at run
    cases token
    case openParen =>
      rcases gettoken_cases text with ⟨first, scanned, -⟩ | ⟨first, scanned⟩
      · simp only [scanned] at run
        obtain ⟨node, read, run⟩ := Option.bind_eq_some_iff.mp run
        have below : node.Owns heap.blocks := parseorexpr_owned
          (fun heap scan built short run => ih (owned_nil heap.blocks) short run) short read
        split at run
        · cases run
          exact above node below
        · split at run
          · cases run
            exact above node below
          · split at run
            · cases run
              exact above node below
            · cases run
              exact above node below
      · simp only [scanned] at run
        cases run
        exact idle _ _
    case not =>
      have longer : Owned (nots ++ [heap.blocks]) start heap.alloc.blocks := owned.append (owned_one heap.blocks)
      rcases gettoken_cases text with ⟨next, scanned, -⟩ | ⟨next, scanned⟩
      · simp only [scanned] at run
        exact ih longer short run
      · simp only [scanned] at run
        cases run
        have leaf : Owned (nots ++ [heap.blocks] ++ Cell.null.blocks) start heap.alloc.blocks :=
          longer.append (owned_nil _)
        exact ⟨leaf.perm (blocks_insertAt _ .null), short⟩
    case word =>
      obtain ⟨node, read, run⟩ := Option.bind_eq_some_iff.mp run
      cases run
      exact above node (parsefunction_owned short read)
    all_goals
      cases run
      exact idle _ _

/-- At every end of `crule_parse` the tree has every block that was allocated, each of them once, and no text that was
built for an argument was too long. -/
theorem parseRule_owns {rule : List Char} {built : Built} (run : parseRule rule = some built) : built.Owns 0 := by
  have none_long : Heap.Short ⟨0, []⟩ := fun text mem => absurd mem List.not_mem_nil
  unfold parseRule at run
  rcases gettoken_cases rule with ⟨first, scanned, -⟩ | ⟨first, scanned⟩
  · simp only [scanned] at run
    obtain ⟨node, read, run⟩ := Option.bind_eq_some_iff.mp run
    have owns : node.Owns (Heap.mk 0 []).blocks := parseorexpr_owned
      (fun heap scan built short run => parseprimary_owned (owned_nil heap.blocks) short run) none_long read
    cases run
    exact owns
  · simp only [scanned] at run
    cases run
    exact ⟨owned_nil 0, none_long⟩

/-- A function element with more arguments than its array has room for and, where `links` is set, an operator element
without its first operand or with a second one that was never set. -/
def Cell.Faulty (links : Bool) : Cell → Prop
  | null => False
  | func _ _ args => maxArgs < args.length
  | linked _ arg0 _ => links ∨ arg0.Faulty links
  | andor _ arg0 arg1 _ => links ∧ arg0 = .null ∨ arg0.Faulty links ∨ arg1.Faulty links
  | not _ arg0 => arg0.Faulty links

theorem cruleFree_sound {root : Cell} (filled : root ≠ .null) (sound : ¬ root.Faulty true) :
    cruleFree root = some root.blocks := by
  induction root with
  | null => exact absurd rfl filled
  | func block funcptr args => exact if_pos (Nat.le_of_not_lt sound)
  | linked block arg0 isOr _ => exact absurd (.inl rfl) sound
  | andor block arg0 arg1 isOr ih_first ih_second =>
    rw [Cell.Faulty, not_or, not_or] at sound
    rw [cruleFree, ih_first (fun leaf => sound.1 ⟨rfl, leaf⟩) sound.2.1]
    by_cases leaf : arg1 = .null
    · subst leaf
      rfl
    · rw [if_pos leaf, ih_second leaf sound.2.2]
      rfl
  | not block arg0 ih =>
    rw [cruleFree]
    by_cases leaf : arg0 = .null
    · subst leaf
      rfl
    · rw [if_pos leaf, ih leaf sound]
      rfl

theorem cruleFree_faulty {root : Cell} (fault : root = .null ∨ root.Faulty true) : cruleFree root = none := by
  induction root with
  | null => rfl
  | func block funcptr args => exact if_neg (Nat.not_le_of_lt (fault.resolve_left nofun))
  | linked block arg0 isOr _ => rfl
  | andor block arg0 arg1 isOr ih_first ih_second =>
    rw [cruleFree]
    rcases fault.resolve_left nofun with leaf | first | second
    · rw [ih_first (.inl leaf.2)]
      rfl
    · rw [ih_first (.inr first)]
      rfl
    · have filled : arg1 ≠ .null := by
        rintro rfl
        exact second
      rw [if_pos filled, ih_second (.inr second)]
      cases cruleFree arg0
      · rfl
      · rfl
  | not block arg0 ih =>
    have below : arg0.Faulty true := fault.resolve_left nofun
    have filled : arg0 ≠ .null := by
      rintro rfl
      exact below
    rw [cruleFree, if_pos filled, ih (.inr below)]
    rfl

end Ircd.Crule.Mem

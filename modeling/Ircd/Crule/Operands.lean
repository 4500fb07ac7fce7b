import Ircd.Crule.Parser

/-! Operands of the trees that `crule_parse` returns.

A primary that is not there is no error of its own, and an operator behind it takes the null
pointer for its operand. Whether that happens shows in the tokens of the text.
-/

set_option autoImplicit false

namespace Ircd.Crule
open Ircd.Text Ircd.Match

def CRuleNodePtr.Complete : CRuleNodePtr → Prop
  | null => False
  | func funcptr _ => funcptr ≠ none
  | andor first second _ => first.Complete ∧ second.Complete
  | not arg => arg.Complete

variable {root : CRuleNodePtr}

theorem CRuleNodePtr.Complete.evaluates (complete : root.Complete) (calls : Assignment) :
    ∃ value, cruleEval calls root = some value := by
  induction root with
  | null => exact complete.elim
  | func funcptr args =>
    obtain ⟨funcptr, rfl⟩ := Option.ne_none_iff_exists'.mp complete
    exact ⟨calls funcptr args, rfl⟩
  | andor first second isOr ih_first ih_second =>
    obtain ⟨value1, eval1⟩ := ih_first complete.1
    obtain ⟨value2, eval2⟩ := ih_second complete.2
    cases isOr <;> cases value1 <;> simp [cruleEval, eval1, eval2]
  | not arg ih =>
    obtain ⟨value, evaluated⟩ := ih complete
    exact ⟨!value, by simp [cruleEval, evaluated]⟩

theorem complete_insertAt (nots : Nat) (root : CRuleNodePtr) :
    (CRuleNodePtr.insertAt nots root).Complete ↔ root.Complete := by
  induction nots generalizing root with
  | zero => exact Iff.rfl
  | succ nots ih => exact ih (.not root)

theorem insertAt_ne_null (nots : Nat) (some_root : root ≠ .null) :
    CRuleNodePtr.insertAt nots root ≠ .null := by
  induction nots generalizing root with
  | zero => exact some_root
  | succ nots ih => exact ih nofun

def CRuleNodePtr.Open (root : CRuleNodePtr) : Prop := ∃ first isOr, root = .andor first .null isOr

def CRuleNodePtr.OpenComplete (root : CRuleNodePtr) : Prop := ∀ first isOr, root = .andor first .null isOr → first.Complete

theorem complete_setArg1 {node : CRuleNodePtr} (opened : root.Open) :
    (root.setArg1 node).Complete ↔ root.OpenComplete ∧ node.Complete := by
  obtain ⟨first, isOr, rfl⟩ := opened
  constructor
  · rintro ⟨complete, operand⟩
    refine ⟨?_, operand⟩
    rintro _ _ same
    cases same
    exact complete
  · rintro ⟨complete, operand⟩
    exact ⟨complete first isOr rfl, operand⟩

def Scan.rest (scan : Scan) : List Char :=
  if scan.nextTok = .word then (cruleGetword (maxArgLen - 1) scan.ruleptr).2 else scan.ruleptr

/-- The tokens up to the end of the text or to its first character that is in no token. -/
def tokens : Nat → Scan → List CRuleToken
  | 0, _ => []
  | fuel + 1, scan =>
    if scan.nextTok = .end then []
    else
      scan.nextTok :: match cruleGettoken scan.rest with
        | (.noErr, next) => tokens fuel next
        | _ => []

def ruleTokens (rule : List Char) : List CRuleToken :=
  match cruleGettoken rule with
  | (.noErr, scan) => tokens (parseBound rule) scan
  | _ => []

/-- An operator stands directly behind a closing parenthesis; `closed` says so of the first token. -/
def OperatorsPlaced : Bool → List CRuleToken → Bool
  | _, [] => true
  | closed, token :: rest =>
    (closed || token ≠ .and && token ≠ .or) && OperatorsPlaced (token = .closeParen) rest

inductive Reads : Scan → List CRuleToken → Scan → Prop where
  | refl (scan : Scan) : Reads scan [] scan
  | step {scan next last : Scan} {passed : List CRuleToken} : scan.nextTok ≠ .end →
      cruleGettoken scan.rest = (.noErr, next) → Reads next passed last → Reads scan (scan.nextTok :: passed) last

variable {scan : Scan}

theorem Reads.trans {middle last : Scan} {front back : List CRuleToken} (first : Reads scan front middle)
    (second : Reads middle back last) : Reads scan (front ++ back) last := by
  induction first with
  | refl _ => exact second
  | step more scanned _ ih => exact .step more scanned (ih second)

theorem Scan.rest_lt (ready : scan.ready) (more : scan.nextTok ≠ .end) :
    scan.rest.length < scan.size := by
  by_cases word : scan.nextTok = .word
  · rw [Scan.rest, if_pos word]
    exact getword_shorter ready word
  · rw [Scan.rest, if_neg word]
    exact Scan.ruleptr_lt more word

theorem tokens_of_reads {last : Scan} {passed : List CRuleToken} (reads : Reads scan passed last)
    (ended : last.nextTok = .end) (fuel : Nat) (ready : scan.ready) (enough : scan.size < fuel) :
    tokens fuel scan = passed := by
  induction reads generalizing fuel with
  | refl scan =>
    obtain ⟨fuel, rfl⟩ := Nat.exists_eq_succ_of_ne_zero (Nat.ne_zero_of_lt enough)
    rw [tokens, if_pos ended]
  | @step scan next last passed more scanned _ ih =>
    obtain ⟨fuel, rfl⟩ := Nat.exists_eq_succ_of_ne_zero (Nat.ne_zero_of_lt enough)
    have start := gettokenLoop_from scanned
    have shorter := Scan.rest_lt ready more
    have below : next.size < fuel := by
      have := start.1
      omega
    rw [tokens, if_neg more]
    simp only [scanned, ih ended fuel start.2 below]

theorem operatorsPlaced_append (closed : Bool) (front back : List CRuleToken) :
    OperatorsPlaced closed (front ++ back) =
      (OperatorsPlaced closed front && OperatorsPlaced (front.getLast?.elim closed (· = .closeParen)) back) := by
  induction front generalizing closed with
  | nil => simp [OperatorsPlaced]
  | cons token front ih =>
    rw [List.cons_append, OperatorsPlaced, OperatorsPlaced, ih, Bool.and_assoc]
    congr 3
    cases front with
    | nil => rfl
    | cons second front =>
      rw [List.getLast?_cons_cons]
      cases last : (second :: front).getLast? with
      | none => simp at last
      | some token => rfl

/-- A parser that succeeds: it passes nothing and has no tree, or it passes a text that ends in
a closing parenthesis and has a tree. The tree lacks an operand where `before` is false or
where an operator of the text does. -/
def Passes (before : Prop) (scan : Scan) (parsed : Parsed) : Prop :=
  ∃ passed, Reads scan passed parsed.scan ∧
    (parsed.root = .null ∧ passed = [] ∨
      parsed.root ≠ .null ∧ passed.getLast? = some .closeParen ∧
        (parsed.root.Complete ↔ before ∧ OperatorsPlaced false passed = true))

def Succeeds (parser : Scan → Option Parsed) : Prop :=
  ∀ scan parsed, parser scan = some parsed → parsed.errcode = .noErr → Passes True scan parsed

theorem parsearglist_reads (fuel : Nat) (args : List (List Char)) (currarg : List Char)
    {stored : List (List Char)} {last : Scan}
    (returned : cruleParsearglist fuel args currarg scan = some (.noErr, stored, last)) :
    ∃ passed, Reads scan passed last ∧ ∀ token ∈ passed, token = .word ∨ token = .comma := by
  induction fuel generalizing args currarg scan with
  | zero => exact absurd returned (by rintro ⟨⟩)
  | succ fuel ih =>
    rw [cruleParsearglist] at returned
    by_cases word : scan.nextTok = .word
    · rw [if_pos word] at returned
      rcases gettoken_cases (cruleGetword (maxArgLen - 1) scan.ruleptr).2 with ⟨next, scanned, _⟩ | ⟨next, scanned⟩
      · simp only [scanned] at returned
        obtain ⟨passed, reads, inside⟩ := ih _ _ returned
        refine ⟨scan.nextTok :: passed, .step (word ▸ (by rintro ⟨⟩)) ?_ reads, ?_⟩
        · rw [Scan.rest, if_pos word, scanned]
        · exact List.forall_mem_cons.mpr ⟨.inl word, inside⟩
      · simp only [scanned] at returned
        exact absurd returned (by rintro ⟨⟩)
    · rw [if_neg word] at returned
      by_cases comma : scan.nextTok = .comma
      · rw [if_neg (not_not.mpr comma)] at returned
        rcases gettoken_cases scan.ruleptr with ⟨next, scanned, _⟩ | ⟨next, scanned⟩
        · simp only [scanned] at returned
          obtain ⟨passed, reads, inside⟩ := ih _ _ returned
          refine ⟨scan.nextTok :: passed, .step (comma ▸ (by rintro ⟨⟩)) ?_ reads, ?_⟩
          · rw [Scan.rest, if_neg word, scanned]
          · exact List.forall_mem_cons.mpr ⟨.inr comma, inside⟩
        · simp only [scanned] at returned
          exact absurd returned (by rintro ⟨⟩)
      · rw [if_pos comma] at returned
        cases returned
        exact ⟨[], .refl _, fun token mem => absurd mem List.not_mem_nil⟩

theorem arguments_placed (closed : Bool) {passed : List CRuleToken}
    (inside : ∀ token ∈ passed, token = .word ∨ token = .comma) : OperatorsPlaced closed passed = true := by
  induction passed generalizing closed with
  | nil => rfl
  | cons token passed ih =>
    have here : token ≠ .and ∧ token ≠ .or := by
      rcases inside token List.mem_cons_self with rfl | rfl <;> exact ⟨nofun, nofun⟩
    rw [OperatorsPlaced, ih _ fun other mem => inside other (List.mem_cons_of_mem _ mem)]
    simp [here.1, here.2]

theorem parsefunction_succeeds (fuel : Nat) {parsed : Parsed} (word : scan.nextTok = .word)
    (returned : cruleParsefunction fuel scan = some parsed) (good : parsed.errcode = .noErr) :
    Passes True scan parsed ∧ parsed.root ≠ .null := by
  have name_rest : scan.rest = (cruleGetword (maxArgLen - 1) scan.ruleptr).2 := by rw [Scan.rest, if_pos word]
  have refused {errcode : CRuleErrcode} {root : CRuleNodePtr} {at_error : Scan}
      (same : some (Parsed.mk errcode root at_error) = some parsed) (bad : errcode ≠ .noErr) :
      Passes True scan parsed ∧ parsed.root ≠ .null := by
    cases same
    exact absurd good bad
  rw [cruleParsefunction] at returned
  rcases gettoken_cases (cruleGetword (maxArgLen - 1) scan.ruleptr).2 with ⟨opened, scanned, _⟩ | ⟨opened, scanned⟩
  · simp only [scanned] at returned
    by_cases opens : opened.nextTok = .openParen
    · rw [if_pos opens] at returned
      split at returned
      · exact refused returned (by rintro ⟨⟩)
      · rename_i entry _
        have open_rest : opened.rest = opened.ruleptr := by rw [Scan.rest, if_neg (opens ▸ (by rintro ⟨⟩))]
        rcases gettoken_cases opened.ruleptr with ⟨first, scanned_first, _⟩ | ⟨first, scanned_first⟩
        · simp only [scanned_first] at returned
          cases arglist : cruleParsearglist fuel [] [] first with
          | none => simp [arglist] at returned
          | some result =>
            obtain ⟨errcode, args, closing⟩ := result
            simp only [arglist, Option.bind_eq_bind, Option.bind_some] at returned
            split_ifs at returned with bad no_close mismatch
            · exact refused returned bad
            · exact refused returned (by rintro ⟨⟩)
            · exact refused returned (by rintro ⟨⟩)
            · have closes := not_not.mp no_close
              rw [not_not.mp bad] at arglist
              obtain ⟨passed, reads, inside⟩ := parsearglist_reads fuel [] [] arglist
              have close_rest : closing.rest = closing.ruleptr := by rw [Scan.rest, if_neg (closes ▸ (by rintro ⟨⟩))]
              rcases gettoken_cases closing.ruleptr with ⟨last, scanned_last, _⟩ | ⟨last, scanned_last⟩
              · simp only [scanned_last, Option.some.injEq] at returned
                subst returned
                refine ⟨⟨scan.nextTok :: opened.nextTok :: (passed ++ [closing.nextTok]), ?_, .inr ⟨(by rintro ⟨⟩), ?_, ?_⟩⟩, (by rintro ⟨⟩)⟩
                · refine .step (word ▸ (by rintro ⟨⟩)) (name_rest ▸ scanned) (.step (opens ▸ (by rintro ⟨⟩)) (open_rest ▸ scanned_first) ?_)
                  exact reads.trans (.step (closes ▸ (by rintro ⟨⟩)) (close_rest ▸ scanned_last) (.refl last))
                · simp [closes, List.getLast?_cons, List.getLast?_append]
                · simp [CRuleNodePtr.Complete, OperatorsPlaced, word, opens, closes, operatorsPlaced_append,
                    arguments_placed _ inside]
              · simp only [scanned_last] at returned
                exact refused returned (by rintro ⟨⟩)
        · simp only [scanned_first] at returned
          exact refused returned (by rintro ⟨⟩)
    · rw [if_neg opens] at returned
      exact refused returned (by rintro ⟨⟩)
  · simp only [scanned] at returned
    exact refused returned (by rintro ⟨⟩)

theorem openComplete_element (start : root = .null ∨ root.Open) (node : CRuleNodePtr) (isOr : Bool) :
    (if root ≠ .null then CRuleNodePtr.andor (root.setArg1 node) .null isOr
      else .andor node .null isOr).OpenComplete ↔ root.OpenComplete ∧ node.Complete := by
  have element (first : CRuleNodePtr) : (CRuleNodePtr.andor first .null isOr).OpenComplete ↔ first.Complete := by
    constructor
    · exact fun opened => opened first isOr rfl
    · rintro complete _ _ same
      cases same
      exact complete
  rcases start with rfl | opened
  · rw [if_neg (not_not.mpr rfl), element]
    exact ⟨fun complete => ⟨nofun, complete⟩, And.right⟩
  · have some_root : root ≠ .null := by
      obtain ⟨first, isOr, rfl⟩ := opened
      exact nofun
    rw [if_pos some_root, element, complete_setArg1 opened]

theorem parseChain_succeeds {operand : Scan → Option Parsed} (operands : Succeeds operand) {operator : CRuleToken}
    (isOr : Bool) (missing : CRuleErrcode) (binary : operator = .and ∨ operator = .or) (error : missing ≠ .noErr)
    (fuel : Nat) {parsed : Parsed} (start : root = .null ∨ root.Open)
    (returned : parseChain operand operator isOr missing fuel root scan = some parsed)
    (good : parsed.errcode = .noErr) :
    Passes root.OpenComplete scan parsed ∧ (root ≠ .null → parsed.root ≠ .null) := by
  induction fuel generalizing root scan with
  | zero => exact absurd returned (by rintro ⟨⟩)
  | succ fuel ih =>
    rw [parseChain] at returned
    cases first : operand scan with
    | none => simp [first] at returned
    | some node =>
      simp only [first, Option.bind_eq_bind, Option.bind_some] at returned
      by_cases more : node.errcode = .noErr ∧ node.scan.nextTok = operator
      · rw [if_pos more] at returned
        have not_word : node.scan.nextTok ≠ .word := by rcases binary with rfl | rfl <;> exact more.2 ▸ (by rintro ⟨⟩)
        have not_end : node.scan.nextTok ≠ .end := by rcases binary with rfl | rfl <;> exact more.2 ▸ (by rintro ⟨⟩)
        have behind : node.scan.rest = node.scan.ruleptr := by rw [Scan.rest, if_neg not_word]
        rcases gettoken_cases node.scan.ruleptr with ⟨next, scanned, _⟩ | ⟨next, scanned⟩
        · simp only [scanned] at returned
          have element := openComplete_element start node.root isOr
          obtain ⟨⟨passed, reads, shape⟩, some_tree⟩ := ih (.inr (by split <;> exact ⟨_, _, rfl⟩)) returned
          obtain ⟨front, reads_front, shape_front⟩ := operands scan node first more.1
          have some_tree := some_tree (by split <;> rintro ⟨⟩)
          rcases shape with ⟨none, _⟩ | ⟨_, last, complete⟩
          · exact absurd none some_tree
          · refine ⟨⟨front ++ node.scan.nextTok :: passed, ?_, .inr ⟨some_tree, ?_, ?_⟩⟩, fun _ => some_tree⟩
            · exact reads_front.trans (.step not_end (behind ▸ scanned) reads)
            · simp [List.getLast?_append, List.getLast?_cons, last]
            · have placed : OperatorsPlaced false (front ++ node.scan.nextTok :: passed) = true ↔
                  node.root.Complete ∧ OperatorsPlaced false passed = true := by
                have operator_placed (closed : Bool) :
                    OperatorsPlaced closed (node.scan.nextTok :: passed) = (closed && OperatorsPlaced false passed) := by
                  rw [more.2]
                  rcases binary with rfl | rfl <;> simp [OperatorsPlaced]
                rw [operatorsPlaced_append, operator_placed]
                rcases shape_front with ⟨none, rfl⟩ | ⟨_, last, complete⟩
                · simp [none, CRuleNodePtr.Complete]
                · simp [last, complete]
              rw [complete, element, placed, and_assoc]
        · simp only [scanned, Option.some.injEq] at returned
          subst returned
          exact absurd good (by rintro ⟨⟩)
      · rw [if_neg more] at returned
        by_cases some_root : root ≠ .null
        · rw [if_pos some_root] at returned
          by_cases some_node : node.root ≠ .null
          · rw [if_pos some_node, Option.some.injEq] at returned
            subst returned
            obtain ⟨front, reads_front, shape_front⟩ := operands scan node first good
            have opened := start.resolve_left some_root
            have some_tree : root.setArg1 node.root ≠ .null := by
              obtain ⟨_, _, rfl⟩ := opened
              rintro ⟨⟩
            rcases shape_front with ⟨none, _⟩ | ⟨_, last, complete⟩
            · exact absurd none some_node
            · refine ⟨⟨front, reads_front, .inr ⟨some_tree, last, ?_⟩⟩, fun _ => some_tree⟩
              rw [complete_setArg1 opened, complete, true_and]
          · rw [if_neg some_node, Option.some.injEq] at returned
            subst returned
            exact absurd good error
        · rw [if_neg some_root, Option.some.injEq] at returned
          subst returned
          have root_null := not_not.mp some_root
          obtain ⟨front, reads_front, shape_front⟩ := operands scan node first good
          have trivially : root.OpenComplete := by
            rw [root_null]
            rintro _ _ ⟨⟩
          refine ⟨⟨front, reads_front, ?_⟩, fun some_root => absurd root_null some_root⟩
          simpa only [trivially, true_and] using shape_front

theorem parseorexpr_succeeds {primary : Scan → Option Parsed} (operands : Succeeds primary) (fuel : Nat) :
    Succeeds (cruleParseorexpr primary fuel) := by
  have top : CRuleNodePtr.null.OpenComplete := nofun
  have and_succeeds : Succeeds (cruleParseandexpr primary fuel) := by
    intro scan parsed returned good
    have passes := (parseChain_succeeds operands false .expctPrim (.inl rfl) nofun fuel (.inl rfl) returned good).1
    simpa only [Passes, top, true_and] using passes
  intro scan parsed returned good
  have passes := (parseChain_succeeds and_succeeds true .expctAnd (.inr rfl) nofun fuel (.inl rfl) returned good).1
  simpa only [Passes, top, true_and] using passes

theorem parseprimary_passes (fuel nots : Nat) {parsed : Parsed}
    (returned : cruleParseprimary fuel nots scan = some parsed) (good : parsed.errcode = .noErr) :
    Passes True scan parsed ∧ (nots ≠ 0 → parsed.root ≠ .null) := by
  induction fuel generalizing nots scan parsed with
  | zero => exact absurd returned (by rintro ⟨⟩)
  | succ fuel ih =>
    rw [cruleParseprimary] at returned
    split at returned
    case h_1 opens =>
      have open_rest : scan.rest = scan.ruleptr := by rw [Scan.rest, if_neg (opens ▸ (by rintro ⟨⟩))]
      rcases gettoken_cases scan.ruleptr with ⟨inner, scanned, _⟩ | ⟨inner, scanned⟩
      · simp only [scanned] at returned
        cases orexpr : cruleParseorexpr (cruleParseprimary fuel 0) fuel inner with
        | none => simp [orexpr] at returned
        | some group =>
          simp only [orexpr, Option.bind_eq_bind, Option.bind_some] at returned
          split_ifs at returned with bad empty no_close <;> (rw [Option.some.injEq] at returned; subst returned)
          · exact absurd good bad
          · exact absurd good (by rintro ⟨⟩)
          · exact absurd good (by rintro ⟨⟩)
          · have closes := not_not.mp no_close
            have close_rest : group.scan.rest = group.scan.ruleptr := by rw [Scan.rest, if_neg (closes ▸ (by rintro ⟨⟩))]
            obtain ⟨passed, reads, shape⟩ := parseorexpr_succeeds
              (fun _ _ returned good => (ih 0 returned good).1) fuel inner group orexpr (not_not.mp bad)
            have scanned_last : cruleGettoken group.scan.ruleptr = (.noErr, (cruleGettoken group.scan.ruleptr).2) :=
              Prod.ext good rfl
            rcases shape with ⟨none, _⟩ | ⟨_, last, complete⟩
            · exact absurd none empty
            · have some_tree := insertAt_ne_null nots empty
              refine ⟨⟨scan.nextTok :: (passed ++ [group.scan.nextTok]), ?_, .inr ⟨some_tree, ?_, ?_⟩⟩, fun _ => some_tree⟩
              · refine .step (opens ▸ (by rintro ⟨⟩)) (open_rest ▸ scanned) (reads.trans ?_)
                exact .step (closes ▸ (by rintro ⟨⟩)) (close_rest ▸ scanned_last) (.refl _)
              · simp [closes, List.getLast?_cons, List.getLast?_append]
              · rw [complete_insertAt, complete]
                simp [OperatorsPlaced, opens, closes, operatorsPlaced_append]
      · simp only [scanned, Option.some.injEq] at returned
        subst returned
        exact absurd good (by rintro ⟨⟩)
    case h_2 negates =>
      have not_rest : scan.rest = scan.ruleptr := by rw [Scan.rest, if_neg (negates ▸ (by rintro ⟨⟩))]
      rcases gettoken_cases scan.ruleptr with ⟨next, scanned, _⟩ | ⟨next, scanned⟩
      · simp only [scanned] at returned
        obtain ⟨⟨passed, reads, shape⟩, some_tree⟩ := ih (nots + 1) returned good
        have some_tree := some_tree (Nat.succ_ne_zero nots)
        rcases shape with ⟨none, _⟩ | ⟨_, last, complete⟩
        · exact absurd none some_tree
        · refine ⟨⟨scan.nextTok :: passed, ?_, .inr ⟨some_tree, ?_, ?_⟩⟩, fun _ => some_tree⟩
          · exact .step (negates ▸ (by rintro ⟨⟩)) (not_rest ▸ scanned) reads
          · simp [List.getLast?_cons, last]
          · rw [complete]
            simp [OperatorsPlaced, negates]
      · simp only [scanned, Option.some.injEq] at returned
        subst returned
        exact absurd good (by rintro ⟨⟩)
    case h_3 word =>
      cases function : cruleParsefunction fuel scan with
      | none => simp [function] at returned
      | some call =>
        simp only [function, Option.bind_eq_bind, Option.bind_some, Option.some.injEq] at returned
        subst returned
        obtain ⟨⟨passed, reads, shape⟩, some_call⟩ := parsefunction_succeeds fuel word function good
        have some_tree := insertAt_ne_null nots some_call
        rcases shape with ⟨none, _⟩ | ⟨_, last, complete⟩
        · exact absurd none some_call
        · refine ⟨⟨passed, reads, .inr ⟨some_tree, last, ?_⟩⟩, fun _ => some_tree⟩
          rw [complete_insertAt, complete]
    case h_4 =>
      rw [Option.some.injEq] at returned
      subst returned
      by_cases none : nots = 0
      · subst none
        exact ⟨⟨[], .refl scan, .inl ⟨rfl, rfl⟩⟩, fun some_nots => absurd rfl some_nots⟩
      · simp only [if_neg none] at good
        exact absurd good (by rintro ⟨⟩)

/-- The trees of `crule_parse` have all their operands, and are evaluated without a null
pointer, exactly where every operator of the text follows a closing parenthesis. -/
theorem parse_complete_iff {rule : List Char} {root : CRuleNodePtr} (parsed : parseRule rule = some (.noErr, root)) :
    (root.Complete ∧ ∀ calls, ∃ value, cruleEval calls root = some value) ↔
      OperatorsPlaced false (ruleTokens rule) = true := by
  have whole : root.Complete ↔ OperatorsPlaced false (ruleTokens rule) = true := by
    rw [parseRule] at parsed
    rcases gettoken_cases rule with ⟨first, scanned, start⟩ | ⟨first, scanned⟩
    · simp only [scanned] at parsed
      cases orexpr : cruleParseorexpr (cruleParseprimary (parseBound rule) 0) (parseBound rule) first with
      | none => simp [orexpr] at parsed
      | some tree =>
        simp only [orexpr, Option.bind_eq_bind, Option.bind_some] at parsed
        split_ifs at parsed with bad empty more <;> simp only [Option.some.injEq, Prod.mk.injEq] at parsed
        · exact absurd parsed.1 bad
        · exact absurd parsed.1 nofun
        · exact absurd parsed.1 nofun
        · obtain ⟨passed, reads, shape⟩ := parseorexpr_succeeds
            (fun _ _ returned good => (parseprimary_passes (parseBound rule) 0 returned good).1) (parseBound rule) first
            tree orexpr (not_not.mp bad)
          have read : ruleTokens rule = passed := by
            simp only [ruleTokens, scanned]
            exact tokens_of_reads reads (not_not.mp more) (parseBound rule) start.2 (Nat.lt_succ_of_le start.1)
          rcases shape with ⟨none, _⟩ | ⟨_, _, complete⟩
          · exact absurd none empty
          · rw [← parsed.2, complete, true_and, read]
    · simp [scanned] at parsed
  rw [← whole]
  exact ⟨And.left, fun complete => ⟨complete, complete.evaluates⟩⟩

theorem parse_complete_directop : parseRule "!directop()".toList = some (.noErr, .not (.func (some .directop) [])) ∧
    (CRuleNodePtr.not (.func (some .directop) [])).Complete := by
  have parsed : parseRule "!directop()".toList = some (.noErr, .not (.func (some .directop) [])) := by decide
  exact ⟨parsed, ((parse_complete_iff parsed).mpr (by decide)).1⟩

/-- An operator at the beginning has no first operand. -/
theorem parse_missing_operand :
    parseRule "&&directop()".toList = some (.noErr, .andor .null (.func (some .directop) []) false) ∧
      ¬ (CRuleNodePtr.andor .null (.func (some .directop) []) false).Complete ∧
      cruleEval (fun _ _ => true) (.andor .null (.func (some .directop) []) false) = none := by
  refine ⟨by decide, fun complete => complete.1, rfl⟩

end Ircd.Crule

import Ircd.Crule.Grammar
import Ircd.Match.CollapseLanguage

/-! Every rule of the grammar parses, and its tree has the rule's boolean value. -/

set_option autoImplicit false

namespace Ircd.Crule
open Ircd.Text Ircd.Match

def Token.kind : Token → CRuleToken
  | and => .and
  | or => .or
  | not => .not
  | openParen => .openParen
  | closeParen => .closeParen
  | comma => .comma
  | word _ => .word

def headKind : List Token → CRuleToken
  | [] => .end
  | t :: _ => t.kind

def At (tokens : List Token) (scan : Scan) : Prop :=
  scan.nextTok = headKind tokens ∧
    match tokens with
    | [] => True
    | .word w :: rest => ∃ text, scan.ruleptr = w.chars ++ text ∧ Spells rest text
    | _ :: rest => Spells rest scan.ruleptr

theorem gettokenLoop_blanks (pending : Char) {blanks : List Char} (blank : blanks.all isBlank = true)
    (text : List Char) : gettokenLoop pending (blanks ++ text) = gettokenLoop pending text := by
  induction blanks with
  | nil => rfl
  | cons c blanks ih =>
    rw [List.all_cons, Bool.and_eq_true] at blank
    have skipped : (c = ' ' || c = '\t') = true := blank.1
    rw [List.cons_append, gettokenLoop, if_pos skipped]
    exact ih blank.2

theorem Word.exists_cons (w : Word) : ∃ c rest, w.chars = c :: rest := by
  apply exists_cons_of_peek
  intro empty
  rcases w.starts with alpha | mask
  · rw [empty] at alpha
    exact absurd alpha (by decide)
  · rw [empty] at mask
    exact absurd mask (by decide)

theorem gettokenLoop_word (w : Word) (text : List Char) :
    gettokenLoop nul (w.chars ++ text) = (.noErr, ⟨.word, w.chars ++ text⟩) := by
  obtain ⟨c, rest, shape⟩ := w.exists_cons
  have starts := w.starts
  have no_bar := w.no_bar
  rw [shape, peek_cons] at starts no_bar
  have special : ∀ d ∈ [' ', '\t', '&', '!', '(', ')', ',', ':'], ¬ (isAlpha d = true ∨ isMaskChar d = true) := by
    decide
  have not_special : ∀ d ∈ [' ', '\t', '&', '!', '(', ')', ',', ':'], c ≠ d := by
    rintro d mem rfl
    exact special c mem starts
  simp only [List.forall_mem_cons, List.not_mem_nil, false_implies, implies_true, and_true] at not_special
  obtain ⟨space, tab, amp, bang, opened, closed, comma, colon⟩ := not_special
  have scans : (isAlpha c || isMaskChar c) = true := by rw [Bool.or_eq_true]; exact starts
  rw [shape, List.cons_append, gettokenLoop]
  simp only [space, tab, amp, no_bar, bang, opened, closed, comma, colon, decide_false, Bool.or_self,
    Bool.false_eq_true, if_false, scans, if_true]

theorem gettoken_spells {tokens : List Token} {text : List Char} (spelled : Spells tokens text) :
    ∃ scan, cruleGettoken text = (.noErr, scan) ∧ At tokens scan := by
  cases spelled with
  | done blank ends =>
    rw [cruleGettoken, gettokenLoop_blanks nul blank]
    rename_i blanks rest
    cases rest with
    | nil => exact ⟨⟨.end, []⟩, rfl, rfl, trivial⟩
    | cons c rest =>
      rcases ends with empty | colon
      · exact absurd empty (by simp)
      · rw [peek_cons] at colon
        subst colon
        exact ⟨⟨.end, rest⟩, rfl, rfl, trivial⟩
  | @token blanks text t tokens blank spelled =>
    rw [cruleGettoken, gettokenLoop_blanks nul blank]
    cases t with
    | word w => exact ⟨_, gettokenLoop_word w text, rfl, text, rfl, spelled⟩
    | and => exact ⟨⟨.and, text⟩, rfl, rfl, spelled⟩
    | or => exact ⟨⟨.or, text⟩, rfl, rfl, spelled⟩
    | not => exact ⟨⟨.not, text⟩, rfl, rfl, spelled⟩
    | openParen => exact ⟨⟨.openParen, text⟩, rfl, rfl, spelled⟩
    | closeParen => exact ⟨⟨.closeParen, text⟩, rfl, rfl, spelled⟩
    | comma => exact ⟨⟨.comma, text⟩, rfl, rfl, spelled⟩

theorem At.spells {t : Token} {tokens : List Token} {scan : Scan} (standing : At (t :: tokens) scan)
    (read : t.kind ≠ .word) : Spells tokens scan.ruleptr := by
  cases t with
  | word w => exact absurd rfl read
  | _ => exact standing.2

theorem At.next {t : Token} {tokens : List Token} {scan : Scan} (standing : At (t :: tokens) scan)
    (read : t.kind ≠ .word) : ∃ next, cruleGettoken scan.ruleptr = (.noErr, next) ∧ At tokens next :=
  gettoken_spells (standing.spells read)

theorem getword_word {word text : List Char} {maxlen : Nat}
    (alnum : ∀ c ∈ word, isAlnum c = true ∨ isMaskChar c = true) (fits : word.length ≤ maxlen)
    (ends : isAlnum (peek text) = false ∧ isMaskChar (peek text) = false) :
    cruleGetword maxlen (word ++ text) = (word, text) := by
  induction word generalizing maxlen with
  | nil =>
    cases maxlen with
    | zero => rfl
    | succ maxlen =>
      cases text with
      | nil => rfl
      | cons c text =>
        rw [peek_cons] at ends
        simp [cruleGetword, ends.1, ends.2]
  | cons c word ih =>
    obtain ⟨maxlen, rfl⟩ := Nat.exists_eq_add_of_le' (Nat.one_le_of_lt fits)
    have scans : (isAlnum c || isMaskChar c) = true := by
      rw [Bool.or_eq_true]
      exact alnum c List.mem_cons_self
    have rest := ih (fun d mem => alnum d (List.mem_cons_of_mem c mem)) (Nat.le_of_succ_le_succ fits)
    rw [List.cons_append, cruleGetword, if_pos scans, rest]

def Token.endsWord : Token → Bool
  | openParen | closeParen | comma => true
  | _ => false

theorem Spells.ends_word {t : Token} {tokens : List Token} {text : List Char} (spelled : Spells (t :: tokens) text)
    (ends : t.endsWord = true) : isAlnum (peek text) = false ∧ isMaskChar (peek text) = false := by
  cases spelled with
  | @token blanks text _ _ blank spelled =>
    cases blanks with
    | nil =>
      cases t with
      | openParen => exact show isAlnum '(' = false ∧ isMaskChar '(' = false by decide
      | closeParen => exact show isAlnum ')' = false ∧ isMaskChar ')' = false by decide
      | comma => exact show isAlnum ',' = false ∧ isMaskChar ',' = false by decide
      | _ => exact absurd ends Bool.false_ne_true
    | cons c blanks =>
      rw [List.all_cons, Bool.and_eq_true] at blank
      have skipped : c = ' ' ∨ c = '\t' := by simpa [isBlank] using blank.1
      rw [List.cons_append, peek_cons]
      rcases skipped with rfl | rfl <;> exact ⟨by decide, by decide⟩

theorem At.word {w : Word} {t : Token} {tokens : List Token} {scan : Scan}
    (standing : At (.word w :: t :: tokens) scan) (ends : t.endsWord = true) (short : w.chars.length < maxArgLen) :
    ∃ text next, cruleGetword (maxArgLen - 1) scan.ruleptr = (w.chars, text) ∧
      cruleGettoken text = (.noErr, next) ∧ At (t :: tokens) next := by
  obtain ⟨_, text, shape, spelled⟩ := standing
  obtain ⟨next, scanned, standing⟩ := gettoken_spells spelled
  refine ⟨text, next, ?_, scanned, standing⟩
  rw [shape]
  exact getword_word w.alnum (Nat.le_pred_of_lt short) (spelled.ends_word ends)

theorem storeArg_word (args : List (List Char)) (w : Word) : storeArg args w.chars = args ++ [w.mask] := by
  obtain ⟨c, rest, shape⟩ := w.exists_cons
  have stored : collapse w.chars ≠ [] := collapse_ne_nil (by rw [shape]; exact List.cons_ne_nil c rest)
  rw [storeArg, if_pos stored, Word.mask]

theorem appendWord_first (word : List Char) : appendWord [] word = word := rfl

theorem parsearglist_words (words : List Word) (short : ∀ w ∈ words, w.chars.length < maxArgLen) (fuel : Nat)
    (tokens : List Token) (scan : Scan) (args : List (List Char))
    (standing : At (arglistTokens words ++ .closeParen :: tokens) scan)
    (bound : (arglistTokens words).length < fuel) :
    ∃ next, cruleParsearglist fuel args [] scan = some (.noErr, args ++ words.map Word.mask, next) ∧
      At (.closeParen :: tokens) next := by
  induction words using arglistTokens.induct generalizing fuel scan args with
  | case1 =>
    obtain ⟨fuel, rfl⟩ := Nat.exists_eq_add_of_le' (Nat.one_le_of_lt bound)
    have closes : scan.nextTok = .closeParen := standing.1
    refine ⟨scan, ?_, standing⟩
    simp [cruleParsearglist, closes, storeArg, collapse]
  | case2 w =>
    obtain ⟨fuel, rfl⟩ := Nat.exists_eq_add_of_le' (show 2 ≤ fuel from bound)
    have reads : scan.nextTok = .word := standing.1
    obtain ⟨text, next, word, scanned, standing⟩ := At.word standing rfl (short w List.mem_cons_self)
    have closes : next.nextTok = .closeParen := standing.1
    refine ⟨next, ?_, standing⟩
    simp [cruleParsearglist, reads, word, scanned, appendWord_first, closes, storeArg_word]
  | case3 w v rest ih =>
    simp only [arglistTokens, List.length_cons] at bound
    obtain ⟨fuel, rfl⟩ := Nat.exists_eq_add_of_le' (show 2 ≤ fuel by omega)
    have reads : scan.nextTok = .word := standing.1
    obtain ⟨text, next, word, scanned, standing⟩ := At.word standing rfl (short w List.mem_cons_self)
    have comma : next.nextTok = .comma := standing.1
    obtain ⟨after, skipped, standing⟩ := standing.next (by decide)
    have shorter : ∀ u ∈ v :: rest, u.chars.length < maxArgLen := fun u mem => short u (List.mem_cons_of_mem w mem)
    obtain ⟨last, parsed, standing⟩ := ih shorter fuel after (args ++ [w.mask]) standing (by omega)
    refine ⟨last, ?_, standing⟩
    simp [cruleParsearglist, reads, word, scanned, appendWord_first, comma, skipped, storeArg_word, parsed]

theorem CRuleFunc.name_plain (function : CRuleFunc) :
    (∀ c ∈ function.name, c.toNat < 256) ∧ nul ∉ function.name ∧ function.name.map toLower = function.name ∧
      function.name.length < maxArgLen := by
  cases function <;> decide

theorem Call.name_plain (call : Call) : (∀ c ∈ call.name.chars, c.toNat < 256) ∧ nul ∉ call.name.chars := by
  have folded : ∀ c ∈ call.name.chars, toLower c ∈ call.function.name := by
    intro c mem
    rw [← call.named]
    exact List.mem_map_of_mem mem
  constructor
  · intro c mem
    have byte := call.function.name_plain.1 _ (folded c mem)
    rcases toLower_cases c with ⟨upper, _⟩ | ⟨_, image⟩
    · unfold isUpperCode at upper
      omega
    · rwa [image] at byte
  · intro mem
    have mem := folded nul mem
    rw [toLower_nul] at mem
    exact call.function.name_plain.2.1 mem

theorem strcmp_name (call : Call) (entry : CRuleFunc) :
    ircdStrcmp entry.name call.name.chars = 0 ↔ entry = call.function := by
  have entry_plain := entry.name_plain
  have call_plain := call.name_plain
  rw [ircdStrcmp_eq_zero entry_plain.1 call_plain.1 entry_plain.2.1 call_plain.2, call.named, entry_plain.2.2.1]
  cases entry <;> cases call.function <;> decide

theorem find_function (call : Call) :
    (cruleFunclist.find? fun entry => ircdStrcmp entry.name call.name.chars = 0) = some call.function := by
  simp only [strcmp_name]
  cases call.function <;> rfl

theorem parsefunction_call (call : Call) (short : ∀ w ∈ call.args, w.chars.length < maxArgLen) (fuel : Nat)
    (tokens : List Token) (scan : Scan) (standing : At (call.tokens ++ tokens) scan)
    (bound : call.tokens.length ≤ fuel) :
    ∃ next, cruleParsefunction fuel scan =
        some ⟨.noErr, .func (some call.function) (call.args.map Word.mask), next⟩ ∧ At tokens next := by
  have name_short : call.name.chars.length < maxArgLen := by
    rw [← List.length_map toLower, call.named]
    exact call.function.name_plain.2.2.2
  simp only [Call.tokens, List.cons_append, List.append_assoc, List.nil_append] at standing
  simp only [Call.tokens, List.length_cons, List.length_append, List.length_nil] at bound
  obtain ⟨text, opened, word, scanned, standing⟩ := At.word standing rfl name_short
  have opens : opened.nextTok = .openParen := standing.1
  obtain ⟨first, scanned_first, standing⟩ := standing.next (by decide)
  obtain ⟨closed, parsed, standing⟩ := parsearglist_words call.args short fuel tokens first [] standing (by omega)
  have closes : closed.nextTok = .closeParen := standing.1
  obtain ⟨next, scanned_next, standing⟩ := standing.next (by decide)
  refine ⟨next, ?_, standing⟩
  simp [cruleParsefunction, word, scanned, opens, find_function, scanned_first, parsed, closes, call.counted,
    scanned_next]

def Parses (result : Option Parsed) (rest : List Token) (value : Assignment → Bool) : Prop :=
  ∃ node scan, result = some ⟨.noErr, node, scan⟩ ∧ At rest scan ∧
    ∀ calls, cruleEval calls node = some (value calls)

theorem ne_null_of_eval {node : CRuleNodePtr} {value : Assignment → Bool}
    (evaluates : ∀ calls, cruleEval calls node = some (value calls)) : node ≠ .null := by
  rintro rfl
  have absent := evaluates fun _ _ => true
  simp [cruleEval] at absent

def join (isOr first second : Bool) : Bool := if isOr then first || second else first && second

theorem join_assoc (isOr a b c : Bool) : join isOr (join isOr a b) c = join isOr a (join isOr b c) := by
  cases isOr <;> simp [join, Bool.or_assoc, Bool.and_assoc]

theorem join_unit (isOr a : Bool) : join isOr (!isOr) a = a := by
  cases isOr <;> simp [join]

def link (root node : CRuleNodePtr) : CRuleNodePtr := if root ≠ .null then root.setArg1 node else node

/-- The operands read so far have the value `prior`. -/
def Pending (isOr : Bool) (root : CRuleNodePtr) (prior : Assignment → Bool) : Prop :=
  ∀ calls node value, cruleEval calls node = some value →
    cruleEval calls (link root node) = some (join isOr (prior calls) value)

theorem pending_null (isOr : Bool) : Pending isOr .null fun _ => !isOr := by
  intro calls node value evaluates
  rw [join_unit]
  exact evaluates

theorem eval_andor (calls : Assignment) {first second : CRuleNodePtr} {u v : Bool} (isOr : Bool)
    (left : cruleEval calls first = some u) (right : cruleEval calls second = some v) :
    cruleEval calls (.andor first second isOr) = some (join isOr u v) := by
  cases isOr <;> cases u <;> simp [cruleEval, left, right, join]

theorem pending_element {isOr : Bool} {root node : CRuleNodePtr} {prior value : Assignment → Bool}
    (pending : Pending isOr root prior) (evaluates : ∀ calls, cruleEval calls node = some (value calls)) :
    Pending isOr (.andor (link root node) .null isOr) fun calls => join isOr (prior calls) (value calls) := by
  intro calls next v right
  exact eval_andor calls isOr (pending calls node _ (evaluates calls)) right

section Chain
variable {operand : Scan → Option Parsed} {operator : CRuleToken} {isOr : Bool} {missing : CRuleErrcode}
  {root : CRuleNodePtr} {scan : Scan} {tokens : List Token} {prior value : Assignment → Bool}

theorem parseChain_last (fuel : Nat) (parses : Parses (operand scan) tokens value) (ends : headKind tokens ≠ operator)
    (pending : Pending isOr root prior) :
    Parses (parseChain operand operator isOr missing (fuel + 1) root scan) tokens
      fun calls => join isOr (prior calls) (value calls) := by
  obtain ⟨node, next, parsed, standing, evaluates⟩ := parses
  refine ⟨link root node, next, ?_, standing, fun calls => pending calls node _ (evaluates calls)⟩
  have other : next.nextTok ≠ operator := standing.1 ▸ ends
  have some_node := ne_null_of_eval evaluates
  by_cases empty : root = .null
  · simp [parseChain, parsed, other, link, empty]
  · simp [parseChain, parsed, other, link, empty, some_node]

theorem parseChain_next {fuel : Nat} {t : Token} {rest : List Token} {whole : Assignment → Bool}
    (parses : Parses (operand scan) (t :: tokens) value) (is_operator : t.kind = operator) (read : t.kind ≠ .word)
    (pending : Pending isOr root prior)
    (onward : ∀ element next, At tokens next →
      (Pending isOr element fun calls => join isOr (prior calls) (value calls)) →
      Parses (parseChain operand operator isOr missing fuel element next) rest whole) :
    Parses (parseChain operand operator isOr missing (fuel + 1) root scan) rest whole := by
  obtain ⟨node, stop, parsed, standing, evaluates⟩ := parses
  obtain ⟨next, scanned, ahead⟩ := standing.next read
  have same : stop.nextTok = operator := standing.1.trans is_operator
  have step : parseChain operand operator isOr missing (fuel + 1) root scan =
      parseChain operand operator isOr missing fuel (.andor (link root node) .null isOr) next := by
    by_cases empty : root = .null
    · simp [parseChain, parsed, same, scanned, link, empty]
    · simp [parseChain, parsed, same, scanned, link, empty]
  rw [step]
  exact onward _ next ahead (pending_element pending evaluates)

end Chain

def negate : Nat → Bool → Bool
  | 0, value => value
  | nots + 1, value => negate nots !value

theorem eval_insertAt (calls : Assignment) (nots : Nat) {node : CRuleNodePtr} {value : Bool}
    (evaluates : cruleEval calls node = some value) :
    cruleEval calls (.insertAt nots node) = some (negate nots value) := by
  induction nots generalizing node value with
  | zero => exact evaluates
  | succ nots ih =>
    apply ih
    rw [cruleEval, evaluates]
    rfl

mutual
theorem OrExpr.parses (e : OrExpr) (short : ∀ w ∈ e.args, w.chars.length < maxArgLen) (bound fuel : Nat)
    (root : CRuleNodePtr) (prior : Assignment → Bool) (tokens : List Token) (scan : Scan)
    (standing : At (e.tokens ++ tokens) scan) (no_and : headKind tokens ≠ .and) (no_or : headKind tokens ≠ .or)
    (below : e.tokens.length < bound) (enough : e.tokens.length < fuel) (pending : Pending true root prior) :
    Parses (parseChain (cruleParseandexpr (cruleParseprimary bound 0) bound) .or true .expctAnd fuel root scan)
      tokens fun calls => join true (prior calls) (e.value calls) := by
  obtain ⟨fuel, rfl⟩ := Nat.exists_eq_add_of_le' (Nat.one_le_of_lt enough)
  cases e with
  | single first =>
    have operand := first.parses short bound bound .null (fun _ => true) tokens scan standing no_and below below
      (pending_null false)
    exact parseChain_last fuel operand no_or pending
  | or first rest =>
    simp only [OrExpr.tokens, List.length_append, List.length_cons] at below enough
    simp only [OrExpr.tokens, List.append_assoc, List.cons_append] at standing
    simp only [OrExpr.args, List.mem_append] at short
    have operand := first.parses (fun w mem => short w (.inl mem)) bound bound .null (fun _ => true)
      (.or :: (rest.tokens ++ tokens)) scan standing nofun (by omega) (by omega) (pending_null false)
    apply parseChain_next operand rfl nofun pending
    intro element next ahead pending
    have whole := rest.parses (fun w mem => short w (.inr mem)) bound fuel element _ tokens next ahead no_and no_or
      (by omega) (by omega) pending
    simp only [join_assoc] at whole
    exact whole

theorem AndExpr.parses (e : AndExpr) (short : ∀ w ∈ e.args, w.chars.length < maxArgLen) (bound fuel : Nat)
    (root : CRuleNodePtr) (prior : Assignment → Bool) (tokens : List Token) (scan : Scan)
    (standing : At (e.tokens ++ tokens) scan) (no_and : headKind tokens ≠ .and)
    (below : e.tokens.length < bound) (enough : e.tokens.length < fuel) (pending : Pending false root prior) :
    Parses (parseChain (cruleParseprimary bound 0) .and false .expctPrim fuel root scan)
      tokens fun calls => join false (prior calls) (e.value calls) := by
  obtain ⟨fuel, rfl⟩ := Nat.exists_eq_add_of_le' (Nat.one_le_of_lt enough)
  cases e with
  | single first =>
    have operand := first.parses short bound 0 tokens scan standing below
    exact parseChain_last fuel operand no_and pending
  | and first rest =>
    simp only [AndExpr.tokens, List.length_append, List.length_cons] at below enough
    simp only [AndExpr.tokens, List.append_assoc, List.cons_append] at standing
    simp only [AndExpr.args, List.mem_append] at short
    have operand := first.parses (fun w mem => short w (.inl mem)) bound 0
      (.and :: (rest.tokens ++ tokens)) scan standing (by omega)
    apply parseChain_next operand rfl nofun pending
    intro element next ahead pending
    have whole := rest.parses (fun w mem => short w (.inr mem)) bound fuel element _ tokens next ahead no_and
      (by omega) (by omega) pending
    simp only [join_assoc] at whole
    exact whole

theorem Primary.parses (e : Primary) (short : ∀ w ∈ e.args, w.chars.length < maxArgLen) (bound nots : Nat)
    (tokens : List Token) (scan : Scan) (standing : At (e.tokens ++ tokens) scan) (below : e.tokens.length < bound) :
    Parses (cruleParseprimary bound nots scan) tokens fun calls => negate nots (e.value calls) := by
  obtain ⟨bound, rfl⟩ := Nat.exists_eq_add_of_le' (Nat.one_le_of_lt below)
  cases e with
  | function call =>
    have reads : scan.nextTok = .word := standing.1
    obtain ⟨next, parsed, ahead⟩ := parsefunction_call call short bound tokens scan standing (Nat.le_of_lt_succ below)
    have evaluates (calls : Assignment) :
        cruleEval calls (.func (some call.function) (call.args.map Word.mask)) =
          some (Primary.value calls (.function call)) := rfl
    refine ⟨_, next, ?_, ahead, fun calls => eval_insertAt calls nots (evaluates calls)⟩
    simp only [cruleParseprimary, reads, parsed]
    rfl
  | not arg =>
    have reads : scan.nextTok = .not := standing.1
    obtain ⟨next, scanned, ahead⟩ := standing.next (by decide)
    have inner := arg.parses short bound (nots + 1) tokens next ahead (Nat.lt_of_succ_lt_succ below)
    simp only [cruleParseprimary, reads, scanned]
    exact inner
  | paren inner =>
    simp only [Primary.tokens, List.length_append, List.length_cons, List.length_nil] at below
    simp only [Primary.tokens, List.append_assoc, List.cons_append, List.nil_append] at standing
    have reads : scan.nextTok = .openParen := standing.1
    obtain ⟨first, scanned, ahead⟩ := standing.next (by decide)
    obtain ⟨node, closed, parsed, ahead, evaluates⟩ := inner.parses short bound bound .null (fun _ => false)
      (.closeParen :: tokens) first ahead nofun nofun (by omega) (by omega) (pending_null true)
    have closes : closed.nextTok = .closeParen := ahead.1
    obtain ⟨next, scanned_next, ahead⟩ := ahead.next (by decide)
    refine ⟨_, next, ?_, ahead, fun calls => eval_insertAt calls nots (evaluates calls)⟩
    have parsed : cruleParseorexpr (cruleParseprimary bound 0) bound first = some ⟨.noErr, node, closed⟩ := parsed
    simp [cruleParseprimary, reads, scanned, parsed, ne_null_of_eval evaluates, closes, scanned_next]
end

theorem Spells.length_le {tokens : List Token} {text : List Char} (spelled : Spells tokens text) :
    tokens.length ≤ text.length := by
  induction spelled with
  | done => exact Nat.zero_le _
  | @token blanks text t tokens blank spelled ih =>
    have some_chars : 1 ≤ t.chars.length := by
      cases t with
      | word w =>
        obtain ⟨c, rest, shape⟩ := w.exists_cons
        simp [Token.chars, shape]
      | _ => simp [Token.chars]
    simp only [List.length_cons, List.length_append]
    omega

theorem cruleParse_value (e : OrExpr) (text : List Char) (spelled : Spells e.tokens text)
    (short : ∀ w ∈ e.args, w.chars.length < maxArgLen) :
    cruleParse text ≠ .null ∧ ∀ calls, cruleEval calls (cruleParse text) = some (e.value calls) := by
  obtain ⟨scan, scanned, standing⟩ := gettoken_spells spelled
  have below : e.tokens.length < parseBound text := Nat.lt_succ_of_le spelled.length_le
  rw [← List.append_nil e.tokens] at standing
  obtain ⟨node, last, parsed, ahead, evaluates⟩ := e.parses short (parseBound text) (parseBound text) .null
    (fun _ => false) [] scan standing (by decide) (by decide) below below (pending_null true)
  have parsed : cruleParseorexpr (cruleParseprimary (parseBound text) 0) (parseBound text) scan =
    some ⟨.noErr, node, last⟩ := parsed
  have ends : last.nextTok = .end := ahead.1
  have tree : cruleParse text = node := by
    simp [cruleParse, parseRule, scanned, parsed, ne_null_of_eval evaluates, ends]
  rw [tree]
  exact ⟨ne_null_of_eval evaluates, evaluates⟩

theorem spells_plain (tokens : List Token) : Spells tokens (tokens.flatMap Token.chars) := by
  induction tokens with
  | nil =>
    have ended : Spells [] ([] ++ []) := .done rfl (.inl rfl)
    exact ended
  | cons t tokens ih =>
    have spelled : Spells (t :: tokens) ([] ++ (t.chars ++ tokens.flatMap Token.chars)) := .token rfl ih
    exact spelled

def directopCall : Call := ⟨.directop, ⟨"directop".toList, by decide, by decide, by decide⟩, by decide, [], rfl⟩

def connectedCall (w : Word) : Call :=
  ⟨.connected, ⟨"connected".toList, by decide, by decide, by decide⟩, by decide, [w], rfl⟩

def quietRule : OrExpr :=
  .single (.and (.not (.function directopCall))
    (.single (.function (connectedCall ⟨"*.eu".toList, by decide, by decide, by decide⟩))))

theorem cruleParse_value_quiet :
    cruleParse "!directop()&&connected(*.eu)".toList ≠ .null ∧
      ∀ calls, cruleEval calls (cruleParse "!directop()&&connected(*.eu)".toList) = some (quietRule.value calls) :=
  cruleParse_value quietRule "!directop()&&connected(*.eu)".toList (spells_plain quietRule.tokens) (by decide)

def longWord : Word :=
  ⟨List.replicate 79 'a' ++ ['1'], by decide, by decide, by decide⟩

def longRule : OrExpr := .single (.single (.function (connectedCall longWord)))

/-- The scanner cuts the word after 79 characters and then finds no token. -/
theorem cruleParse_long : ¬ ∀ (e : OrExpr) (text : List Char), Spells e.tokens text →
    cruleParse text ≠ .null ∧ ∀ calls, cruleEval calls (cruleParse text) = some (e.value calls) := by
  intro every
  have parses := every longRule _ (spells_plain longRule.tokens)
  have fails : cruleParse (longRule.tokens.flatMap Token.chars) = .null := by decide
  exact parses.1 fails

end Ircd.Crule

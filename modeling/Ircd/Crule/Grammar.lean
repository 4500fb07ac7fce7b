import Ircd.Crule.Parser

/-! The grammar of the connection rules and its boolean meaning.

The productions are those in the head of `crule.c`. A rule's text spells its tokens with
any blanks between them and ends at the end of the string or at a colon.
-/

set_option autoImplicit false

namespace Ircd.Crule
open Ircd.Text Ircd.Match

/-- A word: a letter or a mask character, then alphanumerics and mask characters. The
character tables count the bar as a letter, but no word begins with it. -/
structure Word where
  chars : List Char
  starts : isAlpha (peek chars) = true ∨ isMaskChar (peek chars) = true
  no_bar : peek chars ≠ '|'
  alnum : ∀ c ∈ chars, isAlnum c = true ∨ isMaskChar c = true

def Word.mask (w : Word) : List Char := collapse w.chars

/-- `function`: a name of the table, in any case, and its documented number of words. -/
structure Call where
  function : CRuleFunc
  name : Word
  named : name.chars.map toLower = function.name
  args : List Word
  counted : args.length = function.reqnumargs

mutual
inductive OrExpr where
  | single (first : AndExpr)
  | or (first : AndExpr) (rest : OrExpr)

inductive AndExpr where
  | single (first : Primary)
  | and (first : Primary) (rest : AndExpr)

inductive Primary where
  | function (call : Call)
  | not (arg : Primary)
  | paren (inner : OrExpr)
end

mutual
def OrExpr.value (calls : Assignment) : OrExpr → Bool
  | .single first => first.value calls
  | .or first rest => first.value calls || rest.value calls

def AndExpr.value (calls : Assignment) : AndExpr → Bool
  | .single first => first.value calls
  | .and first rest => first.value calls && rest.value calls

def Primary.value (calls : Assignment) : Primary → Bool
  | .function call => calls call.function (call.args.map Word.mask)
  | .not arg => !arg.value calls
  | .paren inner => inner.value calls
end

mutual
def OrExpr.args : OrExpr → List Word
  | .single first => first.args
  | .or first rest => first.args ++ rest.args

def AndExpr.args : AndExpr → List Word
  | .single first => first.args
  | .and first rest => first.args ++ rest.args

def Primary.args : Primary → List Word
  | .function call => call.args
  | .not arg => arg.args
  | .paren inner => inner.args
end

inductive Token where
  | and | or | not | openParen | closeParen | comma
  | word (w : Word)

def Token.chars : Token → List Char
  | and => ['&', '&']
  | or => ['|', '|']
  | not => ['!']
  | openParen => ['(']
  | closeParen => [')']
  | comma => [',']
  | word w => w.chars

def arglistTokens : List Word → List Token
  | [] => []
  | [w] => [.word w]
  | w :: v :: rest => .word w :: .comma :: arglistTokens (v :: rest)

def Call.tokens (call : Call) : List Token :=
  .word call.name :: .openParen :: (arglistTokens call.args ++ [.closeParen])

mutual
def OrExpr.tokens : OrExpr → List Token
  | .single first => first.tokens
  | .or first rest => first.tokens ++ .or :: rest.tokens

def AndExpr.tokens : AndExpr → List Token
  | .single first => first.tokens
  | .and first rest => first.tokens ++ .and :: rest.tokens

def Primary.tokens : Primary → List Token
  | .function call => call.tokens
  | .not arg => .not :: arg.tokens
  | .paren inner => .openParen :: (inner.tokens ++ [.closeParen])
end

def isBlank (c : Char) : Bool := c = ' ' || c = '\t'

inductive Spells : List Token → List Char → Prop where
  | done {blanks rest : List Char} : blanks.all isBlank = true → rest = [] ∨ peek rest = ':' →
      Spells [] (blanks ++ rest)
  | token {blanks text : List Char} {t : Token} {tokens : List Token} : blanks.all isBlank = true →
      Spells tokens text → Spells (t :: tokens) (blanks ++ (t.chars ++ text))

end Ircd.Crule

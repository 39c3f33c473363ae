import LineCode.Span
import LineCode.Text.Quoted

namespace LineCode

namespace Token

inductive Kind where
  | openCurly | closeCurly | openParen | closeParen
  | infixOp | returnWord | comma | semicolon | comparison
  | ident | branch | numLit | block | identList
  | funDef | exprList | call | letWord | fnRef
  deriving DecidableEq

namespace Kind

def tag : Kind → String
  | openCurly  => "OCBR"
  | closeCurly => "CCBR"
  | openParen  => "OBR"
  | closeParen => "CBR"
  | infixOp    => "INFOP"
  | returnWord => "RETURN"
  | comma      => "COMMA"
  | semicolon  => "SEMIC"
  | comparison => "COMP"
  | ident      => "IDENT"
  | branch     => "BRANCH"
  | numLit     => "NUMLIT"
  | block      => "BLOCK"
  | identList  => "IDENTLIST"
  | funDef     => "FUNDEF"
  | exprList   => "EXPRESSIONLIST"
  | call       => "CALL"
  | letWord    => "LET"
  | fnRef      => "FNREF"

def title : Kind → String
  | openCurly  => "OpenCurly"
  | closeCurly => "CloseCurly"
  | openParen  => "OpenParen"
  | closeParen => "CloseParen"
  | infixOp    => "InfixOp"
  | returnWord => "Return"
  | comma      => "Comma"
  | semicolon  => "Semicolon"
  | comparison => "Comparison"
  | ident      => "Ident"
  | branch     => "Branch"
  | numLit     => "NumLit"
  | block      => "Block"
  | identList  => "IdentList"
  | funDef     => "FunDef"
  | exprList   => "ExprList"
  | call       => "Call"
  | letWord    => "Let"
  | fnRef      => "FnRef"

def all : List Kind := [
  openCurly, closeCurly, openParen, closeParen,
  infixOp, returnWord, comma, semicolon, comparison,
  ident, branch, numLit, block, identList,
  funDef, exprList, call, letWord, fnRef
]

theorem mem_all (k : Kind) : k ∈ all := by
  cases k <;> decide

def ofTitle? (s : String) : Option Kind := all.find? (·.title == s)

theorem ofTitle?_title (k : Kind) : ofTitle? k.title = some k := by
  cases k <;> decide

end Kind
end Token

structure Token where
  kind : Token.Kind
  text : String
  span : Span := {}
  deriving DecidableEq

namespace Token

def print (t : Token) : String :=
  "TOKEN('" ++ t.kind.tag ++ "', '" ++ t.text ++ "')"

def inspect (t : Token) : String :=
  t.kind.title ++ "(" ++ Text.quoted t.text ++ " @ " ++ t.span.print ++ ")"

theorem print_span_agnostic {t₁ t₂ : Token} (hk : t₁.kind = t₂.kind) (ht : t₁.text = t₂.text) :
    t₁.print = t₂.print := by
  simp [print, hk, ht]

end Token
end LineCode

import LineCode.Token

namespace LineCode

inductive Node.Kind where
  | block | infixOperator | returnStatement | numericLiteral
  | identifier | identifierList | branch | functionDefinition
  | functionReference | call | expressionList | letBinding
  deriving DecidableEq

-- Nothing ties the kind of a node to its children, so ill-formed trees are values of this type too;
-- it is the lowering that tells them apart.
structure Node where
  kind     : Node.Kind
  token    : Token
  children : List Node

namespace Node

def text (n : Node) : String := n.token.text

def span (n : Node) : Span := n.token.span

def child? (n : Node) (i : Nat) : Option Node := n.children[i]?

def descend? (n : Node) : List Nat → Option Node
  | []      => some n
  | i :: is => do (← n.child? i).descend? is

def withSpan (n : Node) (s : Span) : Node := { n with token := { n.token with span := s } }

@[simp]
theorem withSpan_kind (n : Node) (s : Span) : (n.withSpan s).kind = n.kind :=
  rfl

@[simp]
theorem withSpan_children (n : Node) (s : Span) : (n.withSpan s).children = n.children :=
  rfl

@[simp]
theorem withSpan_text (n : Node) (s : Span) : (n.withSpan s).text = n.text :=
  rfl

-- Well-formed nodes, one constructor per construct of the language.

def make (kind : Kind) (tokenKind : Token.Kind) (text : String) (children : List Node) : Node where
  kind     := kind
  token    := { kind := tokenKind, text := text }
  children := children

def number (literal : String) : Node := make .numericLiteral .numLit literal []

def ident (name : String) : Node := make .identifier .ident name []

def letIdent (name : String) : Node := make .letBinding .letWord "let" [ident name]

def infixOp (operator : String) (lhs rhs : Node) : Node :=
  make .infixOperator .infixOp operator [lhs, rhs]

def assign (target value : Node) : Node := infixOp "=" target value

def returns (values : List Node) : Node := make .returnStatement .returnWord "return" values

def block (statements : List Node) : Node := make .block .block "\x7b" statements

def branch (keyword : String) (condition body : Node) : Node :=
  make .branch .branch keyword [condition, body]

def ifThen (condition body : Node) : Node := branch "if" condition body

def whileDo (condition body : Node) : Node := branch "while" condition body

def function (params : List String) (body : Node) : Node :=
  make .functionDefinition .funDef "fn"
    [make .identifierList .identList "(" (params.map ident), body]

def functionRef (index : Nat) : Node := make .functionReference .fnRef (toString index) []

def call (callee : String) (args : List Node) : Node :=
  make .call .call callee [ident callee, make .expressionList .exprList "(" args]

end Node
end LineCode

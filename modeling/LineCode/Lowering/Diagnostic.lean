import LineCode.Span

namespace LineCode

inductive Position where
  | statement | expression | callTarget | argumentList | parameter | definition
  deriving DecidableEq

def Position.print : Position → String
  | statement    => "statement"
  | expression   => "expression"
  | callTarget   => "call target"
  | argumentList => "argument list"
  | parameter    => "parameter"
  | definition   => "top-level definition"

-- A `token` is the printed form of the offending token.
inductive Cause where
  | malformedAssignment (token : String)
  | unknownOperator (operator token : String)
  | malformedFunctionDefinition (token : String)
  | unhandledNode (token : String) (position : Position)
  | missingChild (token : String) (index : Nat)
  | unknownBranch (keyword : String)
  deriving DecidableEq

def Cause.message : Cause → String
  | malformedAssignment token =>
    "expecting IDENT or LET on the left side of '=', got " ++ token
  | unknownOperator operator token =>
    "unknown operator text '" ++ operator ++ "' in " ++ token
  | malformedFunctionDefinition token =>
    "expected token type IDENTLIST but got " ++ token
  | unhandledNode token position =>
    "unexpected node " ++ token ++ " in " ++ position.print ++ " position"
  | missingChild token index =>
    token ++ " is missing child " ++ toString index
  | unknownBranch keyword =>
    "unknown branch keyword '" ++ keyword ++ "'"

@[ext]
structure Diagnostic where
  cause   : Cause
  span    : Span
  context : String
  deriving DecidableEq

def Diagnostic.message (d : Diagnostic) : String :=
  "at " ++ d.span.print ++ ": " ++ d.cause.message ++ " [" ++ d.context ++ "]"

end LineCode

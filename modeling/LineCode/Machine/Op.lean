import LineCode.Text.Words

namespace LineCode.Machine

inductive Op where
  | nop
  | label
  | load (literal dst : String)
  | loadAddress (target dst : String)
  | move (src dst : String)
  | binary (opcode lhs rhs dst : String)
  | not (src dst : String)
  | jump (target : String)
  | jumpIf (target condition : String)
  | push (src : String)
  | pop (dst : String)
  | callValue (callee : String)
  | ret
  | out (src : String)
  | halt
  deriving DecidableEq

inductive LoadError where
  | unparseable (line : String)
  | notRegister (word : String)
  | notAddress (word : String)
  | duplicateLabel (name : String)
  deriving DecidableEq

def LoadError.message : LoadError → String
  | unparseable line    => "unparseable line '" ++ line ++ "'"
  | notRegister word    => "expected register operand, got '" ++ word ++ "'"
  | notAddress word     => "expected address operand, got '" ++ word ++ "'"
  | duplicateLabel name => "label '" ++ name ++ "' defined twice"

namespace Op

def afterMark? (mark : Char) (word : String) : Option String :=
  match word.toList with
  | []      => none
  | c :: cs => if c = mark then some (.ofList cs) else none

def register (word : String) : Except LoadError String :=
  match afterMark? '%' word with
  | some name => .ok name
  | none      => .error (.notRegister word)

def address (word : String) : Except LoadError String :=
  match afterMark? '&' word with
  | some name => .ok name
  | none      => .error (.notAddress word)

def isSeparator (word : String) : Bool := word.toList.all (· == '#')

def isLabel (word : String) : Bool :=
  word.toList.head? == some '&' && word.toList.getLast? == some ':'

-- The full text of the line is only quoted. Operands are looked at from left to right, and four
-- words are a binary operation whatever the first one is.
def ofWords (line : String) : List String → Except LoadError Op
  | [] => .ok nop
  | [word] =>
    if isSeparator word then .ok nop
    else if isLabel word then .ok label
    else match word with
      | "RETURN" => .ok ret
      | "END"    => .ok halt
      | _        => .error (.unparseable line)
  | [opcode, a] =>
    match opcode with
    | "JMP"   => return jump (← address a)
    | "PUSH"  => return push (← register a)
    | "POP"   => return pop (← register a)
    | "CALLV" => return callValue (← register a)
    | "OUT"   => return out (← register a)
    | _       => .error (.unparseable line)
  | [opcode, a, b] =>
    match opcode with
    | "LOAD" =>
      match afterMark? '&' a with
      | some target => return loadAddress target (← register b)
      | none        => return load a (← register b)
    | "MOVE" => return move (← register a) (← register b)
    | "NOT"  => return not (← register a) (← register b)
    | "JMPC" => return jumpIf (← address a) (← register b)
    | _      => .error (.unparseable line)
  | [opcode, a, b, c] => return binary opcode (← register a) (← register b) (← register c)
  | _ => .error (.unparseable line)

def ofLine (line : List Char) : Except LoadError Op :=
  ofWords (.ofList line) ((Text.words line).map .ofList)

end Op
end LineCode.Machine

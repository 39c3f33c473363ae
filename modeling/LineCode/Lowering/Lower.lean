import LineCode.Lowering.Shape

namespace LineCode.Lower

-- Any node will do, or only one with a value.
inductive Demand where
  | any
  | value
  deriving DecidableEq

def Demand.position : Demand → Destination → Position
  | any, .discard => .statement
  | _, _          => .expression

-- Statements have no value, and ignore the destination.
def statement (demand : Demand) (token : Token) (f : Lower Unit) : Lower Unit :=
  match demand with
  | .any   => f
  | .value => unhandled token .expression

mutual

def lower : Node → Demand → Destination → Lower Unit
  | ⟨.numericLiteral, token, _⟩ => fun _ dst => literal token.text dst
  | ⟨.identifier, token, _⟩ => fun _ dst => identifier token.text dst.target
  | ⟨.functionReference, token, _⟩ => fun _ dst => functionReference token.text dst.target
  | ⟨.infixOperator, token, children⟩ => fun _ dst =>
    within ("infix '" ++ token.text ++ "'") <|
      if token.text = "=" then
        match children with
        | [] => missing token 0
        | [target] => do
          let _ ← assignmentTarget target
          missing token 1
        | target :: value :: _ => do
          let slot ← assignmentTarget target
          lower value .any (.register slot)
      else
        match children with
        | [] => missing token 0
        | [_] => missing token 1
        | lhs :: rhs :: _ =>
          match Operator.ofSymbol? token.text with
          | none => reject token.span (.unknownOperator token.text token.print)
          | some op => binary op (lower lhs .any ∘ .register) (lower rhs .any dst) dst.target
  | ⟨.call, token, children⟩ => fun _ dst =>
    match children with
    | [] => missing token 0
    | target :: rest =>
      if target.kind = .identifier then
        match rest with
        | [] => missing token 1
        | ⟨kind, token, arguments⟩ :: _ =>
          if kind = .expressionList then
            call target.text (pushArguments arguments) arguments.length dst.target
          else
            unhandled token .argumentList
      else
        unhandled target.token .callTarget
  | ⟨.functionDefinition, token, children⟩ => fun _ dst =>
    match children with
    | [] => missing token 0
    | params :: rest =>
      if params.kind = .identifierList then
        match rest with
        | [] => missing token 1
        | body :: _ => definition dst.target.name params.children (lower body .any .discard)
      else
        reject params.span (.malformedFunctionDefinition params.token.print)
  | ⟨.block, token, statements⟩ => fun demand _ =>
    statement demand token <| inBlock (lowerAll statements .discard)
  | ⟨.returnStatement, token, values⟩ => fun demand _ =>
    statement demand token <| within "return" <| returnLast (lowerAll values ∘ .register)
  | ⟨.branch, token, children⟩ => fun demand _ =>
    statement demand token <|
      match children with
      | [] => missing token 0
      | [_] => missing token 1
      | condition :: body :: _ =>
        match token.text with
        | "if" => within "if" <|
          ifThen (lower condition .value ∘ .register) (lower body .any .discard)
        | "while" => within "while" <|
          whileDo (lower condition .value ∘ .register) (lower body .any .discard)
        | keyword => reject token.span (.unknownBranch keyword)
  | ⟨.identifierList, token, _⟩ => fun demand dst => unhandled token (demand.position dst)
  | ⟨.expressionList, token, _⟩ => fun demand dst => unhandled token (demand.position dst)
  | ⟨.letBinding, token, _⟩ => fun demand dst => unhandled token (demand.position dst)

def lowerAll : List Node → Destination → Lower Unit
  | []      => fun _ => pure ()
  | n :: ns => fun dst => do
    lower n .any dst
    lowerAll ns dst

-- From the last to the first, so that the first one is on top.
def pushArguments : List Node → Register → Lower Unit
  | []      => fun _ => pure ()
  | n :: ns => fun t => do
    pushArguments ns t
    lower n .value (.register t)
    emit (.push t)

end

-- The code of a definition that is rejected is dropped.
def generate (name : String) (node : Node) : Lower (List Instruction) :=
  if node.kind = .functionDefinition then
    try
      lower node .value (.register (.named name))
      return (← get).code.toList
    finally
      modify fun g => { g with code := #[] }
  else
    unhandled node.token .definition

end LineCode.Lower

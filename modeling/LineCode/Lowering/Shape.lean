import LineCode.Lowering.Generator

-- The code of each construct, given the code of its parts. A part that yields a value is a function
-- of the register in which it leaves it.

namespace LineCode.Lower

def literal (text : String) : Destination → Lower Unit
  | .discard    => pure ()
  | .register r => emit (.load text r)

def identifier (name : String) (dst : Register) : Lower Unit := do
  emit (.move (← resolve name) dst)

def functionReference (ref : String) (dst : Register) : Lower Unit :=
  emit (.loadAddress (.function ref) dst)

-- The left operand waits in a temporary while the right one is computed in place.
def binary (op : Operator) (lhs : Register → Lower Unit) (rhs : Lower Unit) (dst : Register) :
    Lower Unit :=
  withTemp fun x => do
    lhs x
    rhs
    emit (.binary op x dst dst)

def assignmentTarget (target : Node) : Lower Register :=
  match target.kind with
  | .identifier => resolve target.text
  | .letBinding =>
    match target.children with
    | []        => missing target.token 0
    | name :: _ => declare name.text
  | _ => reject target.span (.malformedAssignment target.token.print)

-- All values go through one temporary, so that the last one is returned.
def returnLast (values : Register → Lower Unit) : Lower Unit := do
  withTemp fun t => do
    values t
    emit (.push t)
  emit .ret

def ifThen (condition : Register → Lower Unit) (body : Lower Unit) : Lower Unit :=
  withTemp fun t => do
    let done ← freshLabel
    condition t
    emit (.negate t)
    emit (.jumpIf done t)
    body
    emit (.label done)

-- The label behind the loop is made first.
def whileDo (condition : Register → Lower Unit) (body : Lower Unit) : Lower Unit :=
  withTemp fun t => do
    let done ← freshLabel
    let start ← freshLabel
    emit (.label start)
    condition t
    emit (.negate t)
    emit (.jumpIf done t)
    body
    emit (.jump start)
    emit (.label done)

def outputPopped (t : Register) : Nat → Lower Unit
  | 0     => pure ()
  | n + 1 => do
    emit (.pop t)
    emit (.out t)
    outputPopped t n

def printArguments (count : Nat) (dst : Register) : Lower Unit :=
  withTemp fun t => do
    outputPopped t count
    emit (.load "0" t)
    emit (.move t dst)

def callVariable (callee : String) (dst : Register) : Lower Unit := do
  emit (.callValue (← resolve callee))
  withTemp fun t => do
    emit (.pop t)
    emit (.move t dst)

def printName : String := "print"

-- The arguments are on the stack before the callee is looked up.
def call (callee : String) (arguments : Register → Lower Unit) (count : Nat) (dst : Register) :
    Lower Unit :=
  within ("call '" ++ callee ++ "'") do
    withTemp arguments
    if callee = printName then printArguments count dst else callVariable callee dst

def popParameters : List Node → Lower Unit
  | []      => pure ()
  | p :: ps => do
    if p.kind = .identifier then emit (.pop (← declareParameter p.text))
    else unhandled p.token .parameter
    popParameters ps

def definition (name : String) (params : List Node) (body : Lower Unit) : Lower Unit := do
  emit (.label ⟨name⟩)
  inDefinition name do
    within name do
      popParameters params
      body

end LineCode.Lower

import LineCode.Machine.Image
import LineCode.Machine.Registers
import LineCode.Machine.Value

namespace LineCode.Machine

-- The last value pushed and the last call made come first.
@[ext]
structure State where
  pc            : Nat := 0
  registers     : Registers := {}
  stack         : List Int := []
  calls         : List Nat := []
  output        : Array Int := #[]
  jumps         : Nat := 0
  branchesTaken : Nat := 0
  steps         : Nat := 0
  deriving DecidableEq

inductive RunError where
  | undefinedLabel (name : String)
  | badLiteral (word : String)
  | unknownOpcode (word : String)
  | arithmetic (why : ArithmeticError)
  | emptyStack
  | stepLimit
  deriving DecidableEq

def RunError.message : RunError → String
  | undefinedLabel name => "jump to undefined label '" ++ name ++ "'"
  | badLiteral word     => "bad literal '" ++ word ++ "'"
  | unknownOpcode word  => "unknown opcode '" ++ word ++ "'"
  | arithmetic why      => why.message
  | emptyStack          => "pop from empty stack"
  | stepLimit           => "step limit exceeded"

inductive Progress where
  | running (s : State)
  | halted (s : State)
  deriving DecidableEq

namespace State

def result? (s : State) : Option Int := s.stack.head?

def read (s : State) (name : String) : Int := s.registers.get name

def write (s : State) (name : String) (v : Int) : State :=
  { s with registers := s.registers.set name v }

@[simp]
theorem read_write_self (s : State) (name : String) (v : Int) : (s.write name v).read name = v :=
  s.registers.get_set_self name v

theorem read_write_of_ne {name name' : String} (h : name' ≠ name) (s : State) (v : Int) :
    (s.write name v).read name' = s.read name' :=
  s.registers.get_set_of_ne h v

def advance (s : State) : Progress := .running { s with pc := s.pc + 1 }

def goto (s : State) (pc : Nat) : Progress := .running { s with pc := pc }

end State

namespace Image

def target (img : Image) (name : String) : Except RunError Nat :=
  match img.line? name with
  | some line => .ok line
  | none      => .error (.undefinedLabel name)

-- Literals, labels and opcodes are looked at only when their line is executed.
def exec (img : Image) (s : State) : Op → Except RunError Progress
  | .nop => .ok s.advance
  | .label => .ok s.advance
  | .load literal dst =>
    match literal? literal.toList with
    | some v => .ok (s.write dst v).advance
    | none   => .error (.badLiteral literal)
  | .loadAddress target dst => do
    let line ← img.target target
    return (s.write dst line).advance
  | .move src dst => .ok (s.write dst (s.read src)).advance
  | .binary opcode lhs rhs dst =>
    match Operator.ofMnemonic? opcode with
    | none    => .error (.unknownOpcode opcode)
    | some op =>
      match eval op (s.read lhs) (s.read rhs) with
      | .ok v      => .ok (s.write dst v).advance
      | .error why => .error (.arithmetic why)
  | .not src dst => .ok (s.write dst (truth (s.read src == 0))).advance
  | .jump target => do
    let line ← img.target target
    return { s with jumps := s.jumps + 1 }.goto line
  | .jumpIf target condition =>
    if s.read condition = 0 then .ok s.advance
    else do
      let line ← img.target target
      return { s with branchesTaken := s.branchesTaken + 1 }.goto line
  | .push src => .ok { s with stack := s.read src :: s.stack }.advance
  | .pop dst =>
    match s.stack with
    | []         => .error .emptyStack
    | v :: stack => .ok ({ s with stack }.write dst v).advance
  | .callValue callee =>
    .ok ({ s with calls := (s.pc + 1) :: s.calls }.goto (address (s.read callee)))
  | .ret =>
    match s.calls with
    | []            => .ok (.halted s)
    | line :: calls => .ok ({ s with calls }.goto line)
  | .out src => .ok { s with output := s.output.push (s.read src) }.advance
  | .halt => .ok (.halted s)

def step (img : Image) (s : State) (op : Op) : Except RunError Progress :=
  img.exec { s with steps := s.steps + 1 } op

def runFrom (img : Image) : (budget : Nat) → State → Except RunError State
  | budget, s =>
    match img.ops[s.pc]?, budget with
    | none, _             => .ok s
    | some _, 0           => .error .stepLimit
    | some op, budget + 1 =>
      match img.step s op with
      | .error why        => .error why
      | .ok (.halted s)   => .ok s
      | .ok (.running s)  => img.runFrom budget s

theorem runFrom_outside {img : Image} {s : State} (h : img.ops[s.pc]? = none) (budget : Nat) :
    img.runFrom budget s = .ok s := by
  unfold runFrom
  simp [h]

theorem runFrom_zero {img : Image} {s : State} {op : Op} (h : img.ops[s.pc]? = some op) :
    img.runFrom 0 s = .error .stepLimit := by
  unfold runFrom
  simp [h]

theorem runFrom_succ {img : Image} {s : State} {op : Op} (h : img.ops[s.pc]? = some op)
    (budget : Nat) :
    img.runFrom (budget + 1) s =
      match img.step s op with
      | .error why       => .error why
      | .ok (.halted s)  => .ok s
      | .ok (.running s) => img.runFrom budget s := by
  conv => lhs; unfold runFrom
  simp [h]

def stepLimit : Nat := 100000

def run (img : Image) : Except RunError State := img.runFrom stepLimit {}

end Image

inductive Error where
  | load (why : LoadError)
  | run (why : RunError)
  deriving DecidableEq

def Error.message : Error → String
  | load why => why.message
  | run why  => why.message

def runText (text : String) : Except Error State :=
  match Image.load text with
  | .error why => .error (.load why)
  | .ok img    =>
    match img.run with
    | .error why => .error (.run why)
    | .ok s      => .ok s

end LineCode.Machine

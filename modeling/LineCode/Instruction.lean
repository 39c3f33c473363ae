import LineCode.Label
import LineCode.Operator
import LineCode.Register

namespace LineCode

inductive Instruction where
  | label (l : Label)
  | blank
  | load (literal : String) (dst : Register)
  | loadAddress (target : Label) (dst : Register)
  | move (src dst : Register)
  | binary (op : Operator) (lhs rhs dst : Register)
  | not (src dst : Register)
  | jump (target : Label)
  | jumpIf (target : Label) (condition : Register)
  | push (src : Register)
  | pop (dst : Register)
  | callValue (callee : Register)
  | ret
  | out (src : Register)
  | halt
  | separator
  deriving DecidableEq

namespace Instruction

def line : Instruction → String
  | label l               => l.operand ++ ":"
  | blank                 => ""
  | load literal dst      => "LOAD " ++ literal ++ " " ++ dst.operand
  | loadAddress l dst     => "LOAD " ++ l.operand ++ " " ++ dst.operand
  | move src dst          => "MOVE " ++ src.operand ++ " " ++ dst.operand
  | binary op lhs rhs dst =>
    op.mnemonic ++ " " ++ lhs.operand ++ " " ++ rhs.operand ++ " " ++ dst.operand
  | not src dst           => "NOT " ++ src.operand ++ " " ++ dst.operand
  | jump l                => "JMP " ++ l.operand
  | jumpIf l condition    => "JMPC " ++ l.operand ++ " " ++ condition.operand
  | push src              => "PUSH " ++ src.operand
  | pop dst               => "POP " ++ dst.operand
  | callValue callee      => "CALLV " ++ callee.operand
  | ret                   => "RETURN"
  | out src               => "OUT " ++ src.operand
  | halt                  => "END"
  | separator             => "##############"

def negate (r : Register) : Instruction := not r r

def jumpTarget? : Instruction → Option Label
  | jump l     => some l
  | jumpIf l _ => some l
  | _          => none

def definedLabel? : Instruction → Option Label
  | label l => some l
  | _       => none

def written? : Instruction → Option Register
  | load _ dst         => some dst
  | loadAddress _ dst  => some dst
  | move _ dst         => some dst
  | binary _ _ _ dst   => some dst
  | not _ dst          => some dst
  | pop dst            => some dst
  | _                  => none

end Instruction

-- Every instruction takes one line, and every line is ended.
def render : List Instruction → String
  | []        => ""
  | i :: code => i.line ++ "\n" ++ render code

@[simp]
theorem render_append (code₁ code₂ : List Instruction) :
    render (code₁ ++ code₂) = render code₁ ++ render code₂ := by
  induction code₁ with
  | nil => simp [render]
  | cons i code ih => simp [render, ih, String.append_assoc]

end LineCode

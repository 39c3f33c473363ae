import LineCode.Lowering.Lower
import LineCode.Program

namespace LineCode

namespace Lower

def routines (index : Nat) : List Node → Lower (List Routine)
  | []      => pure []
  | f :: fs => do
    let label := Label.function (toString index)
    let code ← generate label.name f
    return { index, label, code } :: (← routines (index + 1) fs)

def program (functions : List Node) (entry : Node) : Lower Program := do
  let code ← generate Program.entryLabel.name entry
  return .link code (← routines 0 functions)

end Lower

-- Each compilation has a generator of its own, and the first rejection ends it.
def compile (naming : Naming) (functions : List Node) (entry : Node) :
    Except Generator.Failure Program :=
  match Lower.program functions entry (.new naming) with
  | .ok p _    => .ok p
  | .error e _ => .error e

def compileToText (functions : List Node) (entry : Node) : Except Generator.Failure String :=
  Program.text <$> compile .verbatim functions entry

end LineCode

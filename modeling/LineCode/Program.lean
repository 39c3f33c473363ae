import LineCode.Instruction

namespace LineCode

@[ext]
structure Routine where
  index : Nat
  label : Label
  code  : List Instruction
  deriving DecidableEq

@[ext]
structure Program where
  entry    : List Instruction
  routines : List Routine
  deriving DecidableEq

namespace Program

def entryLabel : Label := ⟨"main"⟩

-- Execution starts at the first line, so the label of the entry gives way to an empty line.
def blankEntry : List Instruction → List Instruction
  | .label l :: code => if l = entryLabel then .blank :: code else .label l :: code
  | code             => code

def link (entry : List Instruction) (routines : List Routine) : Program where
  entry    := blankEntry entry
  routines := routines

def routine? (p : Program) (i : Nat) : Option Routine := p.routines[i]?

def instructions (p : Program) : List Instruction :=
  p.entry ++ [.halt, .separator] ++ p.routines.flatMap (·.code ++ [.separator])

def text (p : Program) : String := render p.instructions

def labels (p : Program) : List Label := p.instructions.filterMap Instruction.definedLabel?

def jumpTargets (p : Program) : List Label := p.instructions.filterMap Instruction.jumpTarget?

@[simp]
theorem length_blankEntry (code : List Instruction) : (blankEntry code).length = code.length := by
  unfold blankEntry
  split
  · split <;> simp
  · rfl

end Program
end LineCode

import LineCode.Machine.Op
import LineCode.Text.Lines

namespace LineCode.Machine

@[ext]
structure Image where
  ops    : Array Op := #[]
  labels : List (String × Nat) := []
  deriving DecidableEq

namespace Image

-- All marks at the start of a label line and all colons at its end are dropped.
def labelName (line : List Char) : String :=
  .ofList ((((Text.trim line).dropWhile (· == '&')).reverse.dropWhile (· == ':')).reverse)

def line? (img : Image) (name : String) : Option Nat := img.labels.lookup name

def addLine (img : Image) (line : List Char) : Except LoadError Image := do
  let op ← Op.ofLine line
  let labels ←
    if op = .label then
      let name := labelName line
      if (img.line? name).isSome then .error (.duplicateLabel name)
      else pure ((name, img.ops.size) :: img.labels)
    else pure img.labels
  return { ops := img.ops.push op, labels }

theorem addLine_of_error {img : Image} {line : List Char} {e : LoadError}
    (h : Op.ofLine line = .error e) :
    img.addLine line = .error e := by
  rw [addLine, h]
  rfl

theorem addLine_of_op {img : Image} {line : List Char} {op : Op} (h : Op.ofLine line = .ok op)
    (hn : op ≠ .label) :
    img.addLine line = .ok { img with ops := img.ops.push op } := by
  rw [addLine, h]
  simp only [bind, Except.bind, if_neg hn]
  rfl

theorem addLine_of_label {img : Image} {line : List Char} (h : Op.ofLine line = .ok .label) :
    img.addLine line =
      if (img.line? (labelName line)).isSome then .error (.duplicateLabel (labelName line))
      else .ok ⟨img.ops.push .label, (labelName line, img.ops.size) :: img.labels⟩ := by
  rw [addLine, h]
  simp only [bind, Except.bind, if_true]
  split <;> rfl

def load (text : String) : Except LoadError Image :=
  (Text.lines text.toList).foldlM addLine {}

end Image
end LineCode.Machine

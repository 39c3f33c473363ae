namespace LineCode

@[ext]
structure Span where
  line : Nat := 0
  col  : Nat := 0
  len  : Nat := 0
  deriving DecidableEq

namespace Span

def point (line col : Nat) : Span := { line, col }

def isEmpty (s : Span) : Bool := s.len == 0

def print (s : Span) : String := toString s.line ++ ":" ++ toString s.col

theorem isEmpty_point (line col : Nat) : (point line col).isEmpty :=
  rfl

theorem print_len_agnostic {s₁ s₂ : Span} (hl : s₁.line = s₂.line) (hc : s₁.col = s₂.col) :
    s₁.print = s₂.print := by
  simp [print, hl, hc]

end Span
end LineCode

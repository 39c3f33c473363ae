namespace LineCode

inductive Register where
  | named (name : String)
  | temp (index : Nat)
  deriving DecidableEq

namespace Register

def name : Register → String
  | named n => n
  | temp i  => ".t" ++ toString i

-- The register that takes values nobody reads.
def sink : Register := named "NONE"

def operand (r : Register) : String := "%" ++ r.name

end Register

inductive Destination where
  | discard
  | register (r : Register)
  deriving DecidableEq

namespace Destination

def target : Destination → Register
  | discard    => .sink
  | register r => r

def isDiscard : Destination → Bool
  | discard    => true
  | register _ => false

@[simp]
theorem target_register (r : Register) : (register r).target = r :=
  rfl

@[simp]
theorem target_discard : discard.target = .sink :=
  rfl

end Destination
end LineCode

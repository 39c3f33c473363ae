import LineCode.Operator
import LineCode.Text.Integer

namespace LineCode.Machine

inductive ArithmeticError where
  | addOverflow
  | subtractOverflow
  | multiplyOverflow
  | divideOverflow
  | divideByZero
  deriving DecidableEq

def ArithmeticError.message : ArithmeticError → String
  | addOverflow      => "attempt to add with overflow"
  | subtractOverflow => "attempt to subtract with overflow"
  | multiplyOverflow => "attempt to multiply with overflow"
  | divideOverflow   => "attempt to divide with overflow"
  | divideByZero     => "attempt to divide by zero"

def InRange (v : Int) : Prop := -0x8000000000000000 ≤ v ∧ v < 0x8000000000000000

instance (v : Int) : Decidable (InRange v) :=
  inferInstanceAs (Decidable (_ ∧ _))

def literal? (cs : List Char) : Option Int :=
  (Text.integer? cs).filter fun v => decide (InRange v)

def truth (b : Bool) : Int := if b then 1 else 0

def checked (overflow : ArithmeticError) (v : Int) : Except ArithmeticError Int :=
  if InRange v then .ok v else .error overflow

-- Division goes toward zero.
def eval (op : Operator) (a b : Int) : Except ArithmeticError Int :=
  match op with
  | .add      => checked .addOverflow (a + b)
  | .sub      => checked .subtractOverflow (a - b)
  | .mul      => checked .multiplyOverflow (a * b)
  | .div      => if b = 0 then .error .divideByZero else checked .divideOverflow (a.tdiv b)
  | .equal    => .ok (truth (a == b))
  | .notEqual => .ok (truth (a != b))
  | .less     => .ok (truth (a < b))
  | .greater  => .ok (truth (b < a))

-- A negative value wraps round to a huge number.
def address (v : Int) : Nat := (v % 0x10000000000000000).toNat

theorem truth_inRange (b : Bool) : InRange (truth b) := by
  cases b <;> decide

theorem checked_eq_ok_iff {e : ArithmeticError} {v w : Int} :
    checked e v = .ok w ↔ InRange v ∧ v = w := by
  unfold checked
  split <;> simp_all

theorem eval_inRange {op : Operator} {a b v : Int} (h : eval op a b = .ok v) : InRange v := by
  cases op <;> simp only [eval] at h
  case div =>
    split at h
    · contradiction
    · obtain ⟨hr, rfl⟩ := checked_eq_ok_iff.mp h
      exact hr
  case add | sub | mul =>
    obtain ⟨hr, rfl⟩ := checked_eq_ok_iff.mp h
    exact hr
  all_goals
    injection h with h
    subst h
    exact truth_inRange _

theorem address_natCast {n : Nat} (h : n < 0x10000000000000000) : address n = n := by
  unfold address
  omega

end LineCode.Machine

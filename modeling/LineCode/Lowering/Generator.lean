import LineCode.Instruction
import LineCode.Lowering.Diagnostic
import LineCode.Node
import LineCode.Register.Pool
import LineCode.Symbols

namespace LineCode

-- The code is that of the current definition. The trail names the constructs around the current
-- node, the innermost first.
@[ext]
structure Generator where
  pool    : Pool := {}
  labels  : Label.Supply := {}
  symbols : Symbols
  code    : Array Instruction := #[]
  trail   : List String := []

namespace Generator

def new (naming : Naming) : Generator where
  symbols := { naming }

def context (g : Generator) : String := " > ".intercalate g.trail.reverse

inductive Failure where
  | rejected (why : Diagnostic)
  | fault (why : Pool.Refusal)
  deriving DecidableEq

end Generator

-- What an action did to the generator stays done when it fails.
abbrev Lower := EStateM Generator.Failure Generator

namespace Lower

variable {α β : Type}

theorem pure_apply (a : α) (g : Generator) : (pure a : Lower α) g = .ok a g :=
  rfl

theorem bind_apply (x : Lower α) (f : α → Lower β) (g : Generator) :
    (x >>= f) g =
      match x g with
      | .ok a g    => f a g
      | .error e g => .error e g := by
  simp only [bind, EStateM.bind]
  cases x g <;> rfl

theorem tryFinally_modify_apply (f : Lower α) (after : Generator → Generator) (g : Generator) :
    (try f finally modify after) g =
      match f g with
      | .ok a g    => .ok a (after g)
      | .error e g => .error e (after g) := by
  simp only [tryFinally, Functor.map, EStateM.map, tryFinally']
  cases f g <;> rfl

def emit (i : Instruction) : Lower Unit :=
  modify fun g => { g with code := g.code.push i }

theorem emit_apply (i : Instruction) (g : Generator) :
    emit i g = .ok () { g with code := g.code.push i } :=
  rfl

def freshLabel : Lower Label :=
  modifyGet fun g => (g.labels.next.fst, { g with labels := g.labels.next.snd })

theorem freshLabel_apply (g : Generator) :
    freshLabel g = .ok (.numbered g.labels.issued) { g with labels := ⟨g.labels.issued + 1⟩ } :=
  rfl

def reject (span : Span) (cause : Cause) : Lower α := fun g =>
  .error (.rejected { cause, span, context := g.context }) g

def missing (token : Token) (index : Nat) : Lower α :=
  reject token.span (.missingChild token.print index)

def unhandled (token : Token) (position : Position) : Lower α :=
  reject token.span (.unhandledNode token.print position)

def within (construct : String) (f : Lower α) : Lower α := do
  modify fun g => { g with trail := construct :: g.trail }
  try f finally modify fun g => { g with trail := g.trail.tail }

theorem within_apply (construct : String) (f : Lower α) (g : Generator) :
    within construct f g =
      match f { g with trail := construct :: g.trail } with
      | .ok a g    => .ok a { g with trail := g.trail.tail }
      | .error e g => .error e { g with trail := g.trail.tail } :=
  tryFinally_modify_apply ..

def borrow : Lower Register :=
  modifyGet fun g => (g.pool.borrow.fst, { g with pool := g.pool.borrow.snd })

theorem borrow_apply (g : Generator) :
    borrow g = .ok g.pool.borrow.fst { g with pool := g.pool.borrow.snd } :=
  rfl

def release (r : Register) : Lower Unit := fun g =>
  match g.pool.release r with
  | .ok pool   => .ok () { g with pool }
  | .error why => .error (.fault why) g

-- The temporary is taken back however the action ends.
def withTemp (f : Register → Lower α) : Lower α := do
  let t ← borrow
  try f t finally release t

theorem withTemp_apply (f : Register → Lower α) (g : Generator) :
    withTemp f g =
      match f g.pool.borrow.fst { g with pool := g.pool.borrow.snd } with
      | .ok a g'    =>
        match g'.pool.release g.pool.borrow.fst with
        | .ok pool   => .ok a { g' with pool }
        | .error why => .error (.fault why) g'
      | .error e g' =>
        match g'.pool.release g.pool.borrow.fst with
        | .ok pool   => .error e { g' with pool }
        | .error why => .error (.fault why) g' := by
  simp only [withTemp, bind_apply, borrow_apply, tryFinally, Functor.map, EStateM.map, tryFinally',
    release]
  cases f g.pool.borrow.fst { g with pool := g.pool.borrow.snd } with
  | ok a g' => cases h : g'.pool.release g.pool.borrow.fst <;> simp [h]
  | error e g' => cases h : g'.pool.release g.pool.borrow.fst <;> simp [h]

def lookup (f : Symbols → Register × Symbols) : Lower Register :=
  modifyGet fun g => ((f g.symbols).fst, { g with symbols := (f g.symbols).snd })

def declare (ident : String) : Lower Register := lookup (·.declare ident)

def declareParameter (ident : String) : Lower Register := lookup (·.declareParameter ident)

def resolve (ident : String) : Lower Register := lookup (·.resolve ident)

theorem lookup_apply (f : Symbols → Register × Symbols) (g : Generator) :
    lookup f g = .ok (f g.symbols).fst { g with symbols := (f g.symbols).snd } :=
  rfl

def inBlock (f : Lower α) : Lower α := do
  modify fun g => { g with symbols := g.symbols.openBlock }
  try f finally modify fun g => { g with symbols := g.symbols.closeBlock }

theorem inBlock_apply (f : Lower α) (g : Generator) :
    inBlock f g =
      match f { g with symbols := g.symbols.openBlock } with
      | .ok a g    => .ok a { g with symbols := g.symbols.closeBlock }
      | .error e g => .error e { g with symbols := g.symbols.closeBlock } :=
  tryFinally_modify_apply ..

def inDefinition (name : String) (f : Lower α) : Lower α := do
  modify fun g => { g with symbols := g.symbols.enter name }
  try f finally modify fun g => { g with symbols := g.symbols.leave }

theorem inDefinition_apply (name : String) (f : Lower α) (g : Generator) :
    inDefinition name f g =
      match f { g with symbols := g.symbols.enter name } with
      | .ok a g    => .ok a { g with symbols := g.symbols.leave }
      | .error e g => .error e { g with symbols := g.symbols.leave } :=
  tryFinally_modify_apply ..

end Lower
end LineCode

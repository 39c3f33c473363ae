import LineCode.Lowering.Shape
import LineCode.Machine.Value
import LineCode.Program

namespace LineCode

-- The line on which a program defines a label.
def Program.line? (p : Program) (l : Label) : Option Nat := p.instructions.findIdx? (· == .label l)

namespace Source

-- One integer for each name, zero until the name is assigned, and all that has been printed.
structure Memory where
  vars   : String → Int := fun _ => 0
  output : Array Int := #[]

namespace Memory

def set (m : Memory) (name : String) (v : Int) : Memory :=
  { m with vars := fun n => if n = name then v else m.vars n }

def print (m : Memory) (vs : List Int) : Memory := { m with output := vs.foldl .push m.output }

end Memory

-- Why there is no value. The meaning of a call is left open if the callee is not the line of a
-- function with as many parameters as there are arguments, or if the function does not return.
inductive Stop where
  | arithmetic (why : Machine.ArithmeticError)
  | undefined
  | timeout

abbrev Eval := StateT Memory (Except Stop)

def undefined {α : Type} : Eval α := throw .undefined

def timeout {α : Type} : Eval α := throw .timeout

def read (name : String) : Eval Int := return (← get).vars name

def assign (name : String) (v : Int) : Eval Unit := modify (·.set name v)

def print (vs : List Int) : Eval Unit := modify (·.print vs)

def operate (op : Operator) (a b : Int) : Eval Int :=
  match Machine.eval op a b with
  | .ok v      => return v
  | .error why => throw (.arithmetic why)

theorem bind_eq_ok {α β : Type} {x : Eval α} {f : α → Eval β} {m m' : Memory} {b : β}
    (h : (x >>= f) m = .ok (b, m')) : ∃ a m₁, x m = .ok (a, m₁) ∧ f a m₁ = .ok (b, m') := by
  have hb : (x >>= f) m = x m >>= fun am => f am.fst am.snd := rfl
  rw [hb] at h
  cases hx : x m
  case error => simp [hx, bind, Except.bind] at h
  case ok am =>
    rw [hx] at h
    exact ⟨am.fst, am.snd, rfl, h⟩

theorem operate_eq_ok {op : Operator} {a b v : Int} {m m' : Memory}
    (h : operate op a b m = .ok (v, m')) : Machine.eval op a b = .ok v ∧ m' = m := by
  cases hv : Machine.eval op a b
  case ok w =>
    have hr : operate op a b = pure w := by simp [operate, hv]
    rw [hr] at h
    cases h
    exact ⟨rfl, rfl⟩
  case error why =>
    have hr : operate op a b = throw (.arithmetic why) := by simp [operate, hv]
    rw [hr] at h
    cases h

-- What a node is evaluated in: the lines of functions, and the meaning of calls.
structure Context where
  line? : Label → Option Nat
  call  : Int → List Int → Eval Int

mutual

-- Operands are evaluated from left to right, and the callee is read after the arguments.
def expression (c : Context) : Node → Eval Int
  | ⟨.numericLiteral, token, _⟩ =>
    match Machine.literal? token.text.toList with
    | some v => return v
    | none   => undefined
  | ⟨.identifier, token, _⟩ => read token.text
  | ⟨.functionReference, token, _⟩ =>
    match c.line? (.function token.text) with
    | some line => return line
    | none      => undefined
  | ⟨.infixOperator, token, children⟩ =>
    match children, Operator.ofSymbol? token.text with
    | lhs :: rhs :: _, some op => do
      let a ← expression c lhs
      let b ← expression c rhs
      operate op a b
    | _, _ => undefined
  | ⟨.call, _, children⟩ =>
    match children with
    | target :: ⟨_, _, ns⟩ :: _ => do
      let vs ← arguments c ns
      if target.text = Lower.printName then
        print vs
        return 0
      else
        c.call (← read target.text) vs
    | _ => undefined
  | _ => undefined

-- Arguments are evaluated from right to left.
def arguments (c : Context) : List Node → Eval (List Int)
  | []      => return []
  | n :: ns => do
    let vs ← arguments c ns
    let v ← expression c n
    return v :: vs

end

section

variable {c : Context} {token token' : Token} {n lhs rhs target : Node} {ns rest : List Node}
  {m m' : Memory} {v : Int} {vs : List Int}

theorem binary_eq_ok {op : Operator} (ho : Operator.ofSymbol? token.text = some op)
    (h : expression c ⟨.infixOperator, token, lhs :: rhs :: rest⟩ m = .ok (v, m')) :
    ∃ a m₁ b, expression c lhs m = .ok (a, m₁) ∧ expression c rhs m₁ = .ok (b, m') ∧
      Machine.eval op a b = .ok v := by
  have he : expression c ⟨.infixOperator, token, lhs :: rhs :: rest⟩
      = expression c lhs >>= fun a => expression c rhs >>= fun b => operate op a b := by
    simp [expression, ho]
  rw [he] at h
  obtain ⟨a, m₁, h₁, h⟩ := bind_eq_ok h
  obtain ⟨b, m₂, h₂, h⟩ := bind_eq_ok h
  obtain ⟨hv, rfl⟩ := operate_eq_ok h
  exact ⟨a, m₁, b, h₁, h₂, hv⟩

theorem print_eq_ok (ht : target.text = Lower.printName)
    (h : expression c ⟨.call, token, target :: ⟨.expressionList, token', ns⟩ :: rest⟩ m
      = .ok (v, m')) :
    ∃ vs m₁, arguments c ns m = .ok (vs, m₁) ∧ v = 0 ∧ m' = m₁.print vs := by
  have he : expression c ⟨.call, token, target :: ⟨.expressionList, token', ns⟩ :: rest⟩
      = arguments c ns >>= fun vs => print vs >>= fun _ => pure 0 := by
    simp [expression, ht]
  rw [he] at h
  obtain ⟨vs, m₁, h₁, h⟩ := bind_eq_ok h
  cases h
  exact ⟨vs, m₁, h₁, rfl, rfl⟩

theorem arguments_cons : arguments c (n :: ns)
    = arguments c ns >>= fun vs => expression c n >>= fun v => pure (v :: vs) := by
  simp [arguments]

theorem arguments_cons_eq_ok (h : arguments c (n :: ns) m = .ok (vs, m')) :
    ∃ vs' m₁ v, arguments c ns m = .ok (vs', m₁) ∧ expression c n m₁ = .ok (v, m') ∧
      vs = v :: vs' := by
  rw [arguments_cons] at h
  obtain ⟨vs', m₁, h₁, h⟩ := bind_eq_ok h
  obtain ⟨v, m₂, h₂, h⟩ := bind_eq_ok h
  cases h
  exact ⟨vs', m₁, v, h₁, h₂, rfl⟩

end

-- What an expression without calls and references is evaluated in.
def closed : Context := ⟨fun _ => none, fun _ _ => undefined⟩

-- Values to be returned are evaluated from left to right.
def values (c : Context) : List Node → Eval (List Int)
  | []      => return []
  | n :: ns => do
    let v ← expression c n
    let vs ← values c ns
    return v :: vs

-- Goes on with a second statement unless the first one returns.
def followedBy (x y : Eval (Option Int)) : Eval (Option Int) := do
  match ← x with
  | some v => return some v
  | none   => y

-- Repeats the body while the condition is not zero and the body does not return, for a number of
-- times at most.
def loop (condition : Eval Int) (body : Eval (Option Int)) : Nat → Eval (Option Int)
  | 0        => timeout
  | fuel + 1 => do
    if (← condition) = 0 then return none
    followedBy body (loop condition body fuel)

def assignee? (target : Node) : Option String :=
  match target.kind with
  | .identifier => some target.text
  | .letBinding => target.children.head?.map Node.text
  | _           => none

mutual

-- A statement may return a value. Of several values it is the last one.
def statement (c : Context) (fuel : Nat) : Node → Eval (Option Int)
  | ⟨.block, _, ns⟩ => statements c fuel ns
  | ⟨.infixOperator, token, children⟩ =>
    match children with
    | target :: value :: _ =>
      match assignee? target with
      | some name =>
        if token.text = "=" then do
          assign name (← expression c value)
          return none
        else undefined
      | none => undefined
    | _ => undefined
  | ⟨.branch, token, children⟩ =>
    match children with
    | condition :: body :: _ =>
      if token.text = "if" then do
        if (← expression c condition) = 0 then return none
        statement c fuel body
      else if token.text = "while" then loop (expression c condition) (statement c fuel body) fuel
      else undefined
    | _ => undefined
  | ⟨.returnStatement, _, ns⟩ => do
    let vs ← values c ns
    vs.getLast?.elim undefined (return some ·)
  | ⟨.call, token, children⟩ => do
    let _ ← expression c ⟨.call, token, children⟩
    return none
  | _ => undefined

def statements (c : Context) (fuel : Nat) : List Node → Eval (Option Int)
  | []      => return none
  | n :: ns => followedBy (statement c fuel n) (statements c fuel ns)

end

-- Parameters are assigned from first to last.
def bindParameters : List Node → List Int → Eval Unit
  | p :: ps, v :: vs => do
    assign p.text v
    bindParameters ps vs
  | [], [] => return ()
  | _, _   => undefined

-- The meaning of calls, to a depth.
def call (functions : List Node) (line? : Label → Option Nat) : Nat → Int → List Int → Eval Int
  | 0, _, _         => timeout
  | fuel + 1, f, vs =>
    match functions.zipIdx.find? fun fi =>
      line? (.function (toString fi.snd)) == some (Machine.address f) with
    | some (⟨_, _, ⟨_, _, params⟩ :: body :: _⟩, _) => do
      bindParameters params vs
      let r ← statement ⟨line?, call functions line? fuel⟩ fuel body
      r.elim undefined pure
    | _ => undefined

-- Evaluates a program, given the lines of its functions.
def run (functions : List Node) (entry : Node) (line? : Label → Option Nat) (fuel : Nat) :
    Except Stop (Option Int × Memory) :=
  match entry.children with
  | _ :: body :: _ => statement ⟨line?, call functions line? fuel⟩ fuel body {}
  | _              => .error .undefined

end Source
end LineCode

import LineCode.Compile
import LineCode.Machine.Run
import LineCode.Proofs.Evaluation
import LineCode.Proofs.Loading

namespace LineCode

namespace Machine

namespace State

-- The state behind a line that does not jump.
def tick (s : State) : State := { s with pc := s.pc + 1, steps := s.steps + 1 }

variable (s : State) (name : String) (v : Int)

@[simp]
theorem tick_pc : s.tick.pc = s.pc + 1 :=
  rfl

@[simp]
theorem tick_read : s.tick.read name = s.read name :=
  rfl

@[simp]
theorem tick_stack : s.tick.stack = s.stack :=
  rfl

@[simp]
theorem tick_calls : s.tick.calls = s.calls :=
  rfl

@[simp]
theorem tick_output : s.tick.output = s.output :=
  rfl

@[simp]
theorem write_pc : (s.write name v).pc = s.pc :=
  rfl

@[simp]
theorem write_stack : (s.write name v).stack = s.stack :=
  rfl

@[simp]
theorem write_calls : (s.write name v).calls = s.calls :=
  rfl

@[simp]
theorem write_output : (s.write name v).output = s.output :=
  rfl

end State

namespace Image

-- The machine executes a number of lines, none of which ends the run.
inductive Steps (img : Image) : Nat → State → State → Prop
  | refl {s} : Steps img 0 s s
  | step {n op s s₁ s₂} :
    img.ops[s.pc]? = some op → img.step s op = .ok (.running s₁) → Steps img n s₁ s₂ →
      Steps img (n + 1) s s₂

variable {img : Image} {k n : Nat} {s s₁ s₂ s' : State}

namespace Steps

theorem single {op : Op} (ho : img.ops[s.pc]? = some op) (hs : img.step s op = .ok (.running s')) :
    img.Steps 1 s s' :=
  .step ho hs .refl

theorem trans {m : Nat} (h₁ : img.Steps m s s₁) (h₂ : img.Steps n s₁ s₂) :
    img.Steps (m + n) s s₂ := by
  induction h₁
  case refl => rwa [Nat.zero_add]
  case step ho hs _ hi =>
    rw [Nat.add_right_comm]
    exact .step ho hs (hi h₂)

theorem runFrom (h : img.Steps n s s') (budget : Nat) :
    img.runFrom (n + budget) s = img.runFrom budget s' := by
  induction h
  case refl => rw [Nat.zero_add]
  case step ho hs _ hi => rw [Nat.add_right_comm, runFrom_succ ho, hs, ← hi]

theorem runFrom_stepLimit (h : img.Steps n s s') {budget : Nat} (hb : budget < n) :
    img.runFrom budget s = .error .stepLimit := by
  induction h generalizing budget
  case refl => contradiction
  case step ho hs _ hi =>
    cases budget
    case zero   => exact runFrom_zero ho
    case succ b => rw [runFrom_succ ho, hs, ← hi (Nat.lt_of_succ_lt_succ hb)]

end Steps

-- The state after a number of lines, if the run gets that far.
def after? (img : Image) : Nat → State → Option State
  | 0, s     => some s
  | n + 1, s => do
    let op ← img.ops[s.pc]?
    match img.step s op with
    | .ok (.running s') => img.after? n s'
    | _                 => none

theorem steps_iff : img.Steps n s s' ↔ img.after? n s = some s' := by
  constructor
  · intro h
    induction h
    case refl => rfl
    case step ho hs _ hi => simp [after?, ho, hs, hi]
  · intro h
    induction n generalizing s
    case zero =>
      cases h
      exact .refl
    case succ n hi =>
      obtain ⟨op, ho, h⟩ := Option.bind_eq_some_iff.mp h
      split at h
      case h_1 hs => exact .step ho hs (hi h)
      case h_2    => contradiction

theorem Steps.earlier (h : img.Steps n s s') (hk : k ≤ n) : ∃ s₁, img.Steps k s s₁ := by
  induction h generalizing k
  case refl =>
    obtain rfl := Nat.le_zero.mp hk
    exact ⟨_, .refl⟩
  case step ho hs _ hi =>
    cases k
    case zero => exact ⟨_, .refl⟩
    case succ k =>
      obtain ⟨s₁, h₁⟩ := hi (Nat.le_of_succ_le_succ hk)
      exact ⟨s₁, .step ho hs h₁⟩

-- What holds at each line of a run that ends within a number of lines.
theorem forall_steps {P : State → Prop} {bound : Nat} (hb : img.after? bound s = none)
    (h : ∀ n < bound, ∀ s' ∈ img.after? n s, P s') (hs : img.Steps n s s') : P s' := by
  refine h n (Nat.lt_of_not_le fun hle => ?_) s' (steps_iff.mp hs)
  obtain ⟨s₁, h₁⟩ := hs.earlier hle
  rw [steps_iff, hb] at h₁
  contradiction

-- A run takes a number of steps to its result, and reaches the limit if it has fewer.
def Finishes (img : Image) (s : State) (n : Nat) (r : Except RunError State) : Prop :=
  ∀ budget, img.runFrom budget s = if budget < n then .error .stepLimit else r

theorem Steps.finishes {op : Op} {r : Except RunError State} (h : img.Steps n s s')
    (ho : img.ops[s'.pc]? = some op) (hr : ∀ budget, img.runFrom (budget + 1) s' = r) :
    img.Finishes s (n + 1) r := by
  intro budget
  split
  case isTrue hb =>
    rcases Nat.lt_succ_iff_lt_or_eq.mp hb with hb | rfl
    · exact h.runFrom_stepLimit hb
    · exact (h.runFrom 0).trans (runFrom_zero ho)
  case isFalse hb =>
    obtain ⟨k, rfl⟩ := Nat.exists_eq_add_of_le (Nat.not_lt.mp hb)
    rw [Nat.add_right_comm, Nat.add_assoc, h.runFrom, hr]

-- The image has the code from a line on.
def Has (img : Image) (k : Nat) (code : List Instruction) : Prop :=
  ∀ j i, code[j]? = some i →
    img.ops[k + j]? = some i.op ∧ ∀ l, i = .label l → img.line? l.name = some (k + j)

namespace Has

variable {i : Instruction} {code code₁ code₂ : List Instruction}

theorem of_holds {pre post : List Instruction} (h : img.Holds (pre ++ code ++ post)) :
    img.Has pre.length code := by
  intro j i hj
  have hk : (pre ++ code ++ post)[pre.length + j]? = some i := by
    have hl := (List.getElem?_eq_some_iff.mp hj).fst
    rw [List.append_assoc, List.getElem?_append_right (by omega), Nat.add_sub_cancel_left,
      List.getElem?_append_left hl, hj]
  refine ⟨h.getElem? hk, fun l hl => ?_⟩
  exact h.line?_iff l _ |>.mpr (hl ▸ hk)

theorem of_eq {k' : Nat} (h : img.Has k code) (hk : k = k') : img.Has k' code :=
  hk ▸ h

theorem left (h : img.Has k (code₁ ++ code₂)) : img.Has k code₁ := by
  intro j i hj
  refine h j i ?_
  rw [List.getElem?_append_left (List.getElem?_eq_some_iff.mp hj).fst, hj]

theorem right (h : img.Has k (code₁ ++ code₂)) : img.Has (k + code₁.length) code₂ := by
  intro j i hj
  rw [Nat.add_assoc]
  refine h (code₁.length + j) i ?_
  rw [List.getElem?_append_right (by omega), Nat.add_sub_cancel_left, hj]

theorem tail (h : img.Has k (i :: code)) : img.Has (k + 1) code := by
  have h : img.Has k ([i] ++ code) := h
  exact h.right

theorem op (h : img.Has k (i :: code)) : img.ops[k]? = some i.op :=
  (h 0 i rfl).left

theorem line? {l : Label} (h : img.Has k (.label l :: code)) : img.line? l.name = some k :=
  (h 0 _ rfl).right l rfl

end Has

theorem target_eq {name : String} (h : img.line? name = some n) : img.target name = .ok n := by
  rw [target, h]

-- One line each.
namespace Steps

variable {code : List Instruction} {r r₁ r₂ : Register} {l : Label} {v : Int}

theorem label (h : img.Has s.pc (.label l :: code)) : img.Steps 1 s s.tick :=
  .single h.op rfl

theorem blank (h : img.Has s.pc (.blank :: code)) : img.Steps 1 s s.tick :=
  .single h.op rfl

theorem load {literal : String} (h : img.Has s.pc (.load literal r :: code))
    (hl : literal? literal.toList = some v) :
    img.Steps 1 s (s.write r.name v).tick := by
  refine .single h.op ?_
  simp only [Image.step, Image.exec, Instruction.op, hl]
  rfl

theorem loadAddress (h : img.Has s.pc (.loadAddress l r :: code)) (hl : img.line? l.name = some n) :
    img.Steps 1 s (s.write r.name n).tick := by
  refine .single h.op ?_
  show (img.target l.name >>= fun line => _) = _
  rw [target_eq hl]
  rfl

theorem move (h : img.Has s.pc (.move r₁ r :: code)) :
    img.Steps 1 s (s.write r.name (s.read r₁.name)).tick :=
  .single h.op rfl

theorem binary {o : Operator} (h : img.Has s.pc (.binary o r₁ r₂ r :: code))
    (he : eval o (s.read r₁.name) (s.read r₂.name) = .ok v) :
    img.Steps 1 s (s.write r.name v).tick := by
  refine .single h.op ?_
  have he : eval o ({ s with steps := s.steps + 1 }.read r₁.name)
      ({ s with steps := s.steps + 1 }.read r₂.name)
      = .ok v := he
  simp only [Image.step, Image.exec, Instruction.op, Operator.ofMnemonic?_mnemonic, he]
  rfl

theorem not (h : img.Has s.pc (.not r₁ r :: code)) :
    img.Steps 1 s (s.write r.name (truth (s.read r₁.name == 0))).tick :=
  .single h.op rfl

theorem push (h : img.Has s.pc (.push r :: code)) :
    img.Steps 1 s { s with stack := s.read r.name :: s.stack }.tick :=
  .single h.op rfl

theorem pop {stack : List Int} (h : img.Has s.pc (.pop r :: code)) (hs : s.stack = v :: stack) :
    img.Steps 1 s ({ s with stack }.write r.name v).tick := by
  refine .single h.op ?_
  cases s
  subst hs
  rfl

theorem out (h : img.Has s.pc (.out r :: code)) :
    img.Steps 1 s { s with output := s.output.push (s.read r.name) }.tick :=
  .single h.op rfl

theorem jump (h : img.Has s.pc (.jump l :: code)) (hl : img.line? l.name = some n) :
    img.Steps 1 s { s with pc := n, jumps := s.jumps + 1, steps := s.steps + 1 } := by
  refine .single h.op ?_
  show (img.target l.name >>= fun line => _) = _
  rw [target_eq hl]
  rfl

theorem jumpIf (h : img.Has s.pc (.jumpIf l r :: code)) (hl : img.line? l.name = some n)
    (hr : s.read r.name ≠ 0) :
    img.Steps 1 s
      { s with pc := n, branchesTaken := s.branchesTaken + 1, steps := s.steps + 1 } := by
  refine .single h.op ?_
  show (if s.read r.name = 0 then _ else img.target l.name >>= fun line => _) = _
  rw [if_neg hr, target_eq hl]
  rfl

theorem jumpIf_zero (h : img.Has s.pc (.jumpIf l r :: code)) (hr : s.read r.name = 0) :
    img.Steps 1 s s.tick := by
  refine .single h.op ?_
  show (if s.read r.name = 0 then _ else _) = _
  rw [if_pos hr]
  rfl

theorem callValue {callee : String} (h : img.ops[s.pc]? = some (.callValue callee)) :
    img.Steps 1 s { s with
      pc    := address (s.read callee)
      calls := (s.pc + 1) :: s.calls
      steps := s.steps + 1 } :=
  .single h rfl

theorem ret {line : Nat} {calls : List Nat} (h : img.ops[s.pc]? = some .ret)
    (hc : s.calls = line :: calls) :
    img.Steps 1 s { s with pc := line, calls, steps := s.steps + 1 } := by
  refine .single h ?_
  cases s
  subst hc
  rfl

end Steps

theorem step_binary_error {o : Operator} {r₁ r₂ r : Register} {why : ArithmeticError}
    (he : eval o (s.read r₁.name) (s.read r₂.name) = .error why) :
    img.step s (Instruction.binary o r₁ r₂ r).op = .error (.arithmetic why) := by
  have he : eval o ({ s with steps := s.steps + 1 }.read r₁.name)
      ({ s with steps := s.steps + 1 }.read r₂.name)
      = .error why := he
  simp only [Image.step, Image.exec, Instruction.op, Operator.ofMnemonic?_mnemonic, he]

section

open Source

variable {α β : Type} {fuel : Nat}

-- The machine does from a state what an evaluation says. If the evaluation fails, then so does the
-- machine; if it takes too long, the machine takes a number of steps at least; if it is undefined,
-- the machine may do anything.
def Runs (img : Image) (fuel : Nat) (s : State) (Q : α → Memory → State → Prop) :
    Except Stop (α × Memory) → Prop
  | .ok (a, m)               => ∃ n s', img.Steps n s s' ∧ Q a m s'
  | .error (.arithmetic why) =>
    ∃ n s' op, img.Steps n s s' ∧ img.ops[s'.pc]? = some op ∧
      img.step s' op = .error (.arithmetic why)
  | .error .timeout          => ∃ n s', img.Steps n s s' ∧ fuel ≤ n
  | .error .undefined        => True

namespace Runs

variable {P Q : α → Memory → State → Prop} {R : β → Memory → State → Prop}
  {r : Except Stop (α × Memory)} {m : Memory}

theorem ok {a : α} (h : Q a m s) : img.Runs fuel s Q (.ok (a, m)) :=
  ⟨0, s, .refl, h⟩

theorem mono {fuel' : Nat} (h : img.Runs fuel s Q r) (hf : fuel' ≤ fuel) :
    img.Runs fuel' s Q r := by
  match r with
  | .ok _ | .error (.arithmetic _) | .error .undefined => exact h
  | .error .timeout =>
    have ⟨n, s', hs, hn⟩ := h
    exact ⟨n, s', hs, Nat.le_trans hf hn⟩

-- The lines that are executed before count toward the number of steps.
theorem later (hs : img.Steps n s s₁) (h : img.Runs fuel s₁ Q r) : img.Runs (fuel + n) s Q r := by
  match r with
  | .ok _ =>
    have ⟨n', s', hs', hq⟩ := h
    exact ⟨n + n', s', hs.trans hs', hq⟩
  | .error (.arithmetic _) =>
    have ⟨n', s', op, hs', ho, he⟩ := h
    exact ⟨n + n', s', op, hs.trans hs', ho, he⟩
  | .error .timeout =>
    have ⟨n', s', hs', hf⟩ := h
    exact ⟨n + n', s', hs.trans hs', by omega⟩
  | .error .undefined => trivial

theorem steps (hs : img.Steps n s s₁) (h : img.Runs fuel s₁ Q r) : img.Runs fuel s Q r :=
  later hs h |>.mono (Nat.le_add_right ..)

theorem bind {x : Eval α} {f : α → Eval β} (hx : img.Runs fuel s P (x m))
    (hf : ∀ a m' s', P a m' s' → img.Runs fuel s' R (f a m')) :
    img.Runs fuel s R ((x >>= f) m) := by
  have hb : (x >>= f) m = x m >>= fun (a, m') => f a m' := rfl
  rw [hb]
  match hr : x m with
  | .ok (a, m') =>
    have ⟨n, s', hs, hp⟩ : ∃ n s', img.Steps n s s' ∧ P a m' s' := by rwa [hr] at hx
    exact steps hs (hf a m' s' hp)
  | .error (.arithmetic _) | .error .timeout | .error .undefined => rwa [hr] at hx

-- The machine has something left to do when the evaluation is over.
theorem andThen (h : img.Runs fuel s P r)
    (hf : ∀ a m s', P a m s' → img.Runs fuel s' Q (.ok (a, m))) :
    img.Runs fuel s Q r := by
  match r with
  | .ok (a, m) =>
    have ⟨n, s', hs, hp⟩ := h
    exact steps hs (hf a m s' hp)
  | .error (.arithmetic _) | .error .timeout | .error .undefined => exact h

end Runs

end

end Image
end Machine

-- What can be seen of a program: its output, and the value that it returns.
def Observed (functions : List Node) (entry : Node)
    (r : Except Machine.RunError (Array Int × Option Int)) : Prop :=
  ∃ p img, compile .verbatim functions entry = .ok p ∧ Machine.Image.load p.text = .ok img ∧
    img.run.map (fun s => (s.output, s.result?)) = r

end LineCode

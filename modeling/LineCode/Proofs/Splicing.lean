import LineCode.Proofs.Execution
import LineCode.Proofs.Scratch

namespace LineCode

namespace Machine

-- Where there are addresses of functions: in which registers, and on which places of the stack.
structure Marks where
  registers : String → Bool := fun _ => false
  stack     : List Bool := []

namespace Marks

def set (m : Marks) (name : String) (b : Bool) : Marks :=
  { m with registers := fun n => if n = name then b else m.registers n }

theorem set_self (m : Marks) (name : String) (b : Bool) : (m.set name b).registers name = b :=
  if_pos rfl

theorem set_of_ne {name name' : String} (h : name' ≠ name) (m : Marks) (b : Bool) :
    (m.set name b).registers name' = m.registers name' :=
  if_neg h

-- What can be compared with an address: another one, and a number that comes before all lines.
def Ranked (m : Marks) (read : String → Int) (name : String) : Prop :=
  m.registers name = true ∨ read name ≤ 0

-- What an operator is given are numbers, unless it compares.
def Operands (m : Marks) (read : String → Int) (opcode lhs rhs : String) : Prop :=
  m.registers lhs = false ∧ m.registers rhs = false ∨
    (∃ op ∈ Operator.ofMnemonic? opcode, op.IsComparison) ∧ m.Ranked read lhs ∧ m.Ranked read rhs

instance (m : Marks) (read : String → Int) (opcode lhs rhs : String) :
    Decidable (m.Operands read opcode lhs rhs) :=
  inferInstanceAs (Decidable (m.registers lhs = false ∧ m.registers rhs = false ∨
    (∃ op ∈ Operator.ofMnemonic? opcode, op.IsComparison) ∧
      (m.registers lhs = true ∨ read lhs ≤ 0) ∧ (m.registers rhs = true ∨ read rhs ≤ 0)))

end Marks

-- Addresses may be copied, called, tested for zero, which they are not, and compared. Nothing else
-- may be called.
def Op.mark (m : Marks) (read : String → Int) : Op → Option Marks
  | .load _ dst        => some (m.set dst false)
  | .loadAddress _ dst => some (m.set dst true)
  | .move src dst      => some (m.set dst (m.registers src))
  | .binary opcode lhs rhs dst =>
    if m.Operands read opcode lhs rhs then some (m.set dst false) else none
  | .not _ dst         => some (m.set dst false)
  | .push src          => some { m with stack := m.registers src :: m.stack }
  | .pop dst           =>
    match m.stack with
    | []         => none
    | b :: stack => some ({ m with stack }.set dst b)
  | .callValue callee  => if m.registers callee then some m else none
  | .out src           => if m.registers src then none else some m
  | .nop | .label | .jump _ | .jumpIf _ _ | .ret | .halt => some m

namespace Image

-- A run does not give away the address of a function, nor does it end with one on top of the stack.
def discreet (img : Image) : (budget : Nat) → Marks → State → Bool
  | budget, m, s =>
    match img.ops[s.pc]?, budget with
    | none, _             => m.stack.head? != some true
    | some _, 0           => true
    | some op, budget + 1 =>
      match op.mark m s.read, img.step s op with
      | none, _                     => false
      | some m, .ok (.running s)    => img.discreet budget m s
      | some m, .ok (.halted _)     => m.stack.head? != some true
      | some _, .error _            => true

theorem discreet_outside {img : Image} {s : State} (h : img.ops[s.pc]? = none) (budget : Nat)
    (m : Marks) : img.discreet budget m s = (m.stack.head? != some true) := by
  unfold discreet
  simp [h]

theorem discreet_succ {img : Image} {s : State} {op : Op} (h : img.ops[s.pc]? = some op)
    (budget : Nat) (m : Marks) :
    img.discreet (budget + 1) m s =
      match op.mark m s.read, img.step s op with
      | none, _                     => false
      | some m, .ok (.running s)    => img.discreet budget m s
      | some m, .ok (.halted _)     => m.stack.head? != some true
      | some _, .error _            => true := by
  conv => lhs; unfold discreet
  simp [h]

-- The same along a run that ends.
inductive Tracks (img : Image) : Marks → State → Marks → State → Prop
  | outside {m s} : img.ops[s.pc]? = none → Tracks img m s m s
  | halted {op m m' s s'} :
    img.ops[s.pc]? = some op → op.mark m s.read = some m' → img.step s op = .ok (.halted s') →
    Tracks img m s m' s'
  | running {op m m₁ m' s s₁ s'} :
    img.ops[s.pc]? = some op → op.mark m s.read = some m₁ → img.step s op = .ok (.running s₁) →
    Tracks img m₁ s₁ m' s' → Tracks img m s m' s'

theorem tracks_of_runFrom {img : Image} {budget : Nat} {m : Marks} {s s' : State}
    (hr : img.runFrom budget s = .ok s') (hd : img.discreet budget m s = true) :
    ∃ m', img.Tracks m s m' s' ∧ m'.stack.head? ≠ some true := by
  induction budget generalizing m s
  all_goals
    cases ho : img.ops[s.pc]?
    case none =>
      rw [runFrom_outside ho] at hr
      rw [discreet_outside ho, bne_iff_ne] at hd
      obtain rfl := Except.ok.inj hr
      exact ⟨m, .outside ho, hd⟩
  case zero.some =>
    rw [runFrom_zero ho] at hr
    contradiction
  case succ.some budget hi op =>
    rw [runFrom_succ ho] at hr
    rw [discreet_succ ho] at hd
    split at hd
    case h_1 => contradiction
    case h_2 m₁ s₁ hm hs =>
      rw [hs] at hr
      obtain ⟨m', ht, hm'⟩ := hi hr hd
      exact ⟨m', .running ho hm hs ht, hm'⟩
    case h_3 m₁ s₁ hm hs =>
      rw [hs] at hr
      obtain rfl := Except.ok.inj hr
      exact ⟨m₁, .halted ho hm hs, bne_iff_ne.mp hd⟩
    case h_4 hs =>
      rw [hs] at hr
      contradiction

-- A run ends at a return that is not from a call, or at the end of the entry.
theorem exec_halted {img : Image} {s s' : State} {op : Op} (h : img.exec s op = .ok (.halted s')) :
    (op = .halt ∨ op = .ret ∧ s.calls = []) ∧ s' = s := by
  cases op <;> simp only [exec, State.advance, State.goto] at h
  case halt =>
    cases h
    exact ⟨.inl rfl, rfl⟩
  case ret =>
    split at h
    case h_1 hc =>
      cases h
      exact ⟨.inr ⟨rfl, hc⟩, rfl⟩
    case h_2 => cases h
  case loadAddress l _ | jump l =>
    cases hk : img.target l <;> simp [hk, bind, Except.bind, pure, Except.pure] at h
  case jumpIf l r =>
    split at h
    · cases h
    · cases hk : img.target l <;> simp [hk, bind, Except.bind, pure, Except.pure] at h
  case binary =>
    split at h
    · cases h
    · split at h <;> cases h
  case load | pop => split at h <;> cases h
  all_goals cases h

-- A run that ends in a state, unless it reaches the limit.
def Ends (img : Image) (s s' : State) : Prop :=
  ∀ budget, img.runFrom budget s = .error .stepLimit ∨ img.runFrom budget s = .ok s'

namespace Ends

variable {img : Image} {n : Nat} {s s₁ s' : State} {op : Op}

theorem outside (h : img.ops[s.pc]? = none) : img.Ends s s :=
  fun budget => .inr (runFrom_outside h budget)

theorem halted (ho : img.ops[s.pc]? = some op) (hs : img.step s op = .ok (.halted s')) :
    img.Ends s s' := by
  intro budget
  cases budget
  case zero => exact .inl (runFrom_zero ho)
  case succ =>
    refine .inr ?_
    rw [runFrom_succ ho, hs]

theorem steps (hs : img.Steps n s s₁) (h : img.Ends s₁ s') : img.Ends s s' := by
  intro budget
  by_cases hb : budget < n
  case pos => exact .inl (hs.runFrom_stepLimit hb)
  case neg =>
    obtain ⟨k, rfl⟩ := Nat.exists_eq_add_of_le (Nat.not_lt.mp hb)
    rw [hs.runFrom]
    exact h k

end Ends

end Image

end Machine

open Machine Source

-- Some code, and a place in it where more code is put.
structure Splice where
  before   : List Instruction
  inserted : List Instruction
  after    : List Instruction

namespace Splice

variable (x : Splice) (k : Nat)

def short : List Instruction := x.before ++ x.after

def long : List Instruction := x.before ++ x.inserted ++ x.after

-- Where a line of the short code is in the long code.
def line : Nat := if k < x.before.length then k else k + x.inserted.length

-- Where the machine is in the long code when it gets to a line of the short code from the line
-- above: the inserted code comes first.
def fall : Nat := if k ≤ x.before.length then k else k + x.inserted.length

theorem getElem?_line : x.long[x.line k]? = x.short[k]? := by
  unfold line long short
  split
  case isTrue hk =>
    rw [List.append_assoc, List.getElem?_append_left hk, List.getElem?_append_left hk]
  case isFalse hk =>
    rw [List.getElem?_append_right (by rw [List.length_append]; omega),
      List.getElem?_append_right (Nat.not_lt.mp hk), List.length_append]
    congr 1
    omega

theorem line_succ : x.line k + 1 = x.fall (k + 1) := by
  unfold line fall
  split <;> split <;> omega

theorem le_line : k ≤ x.line k := by
  unfold line
  split <;> omega

theorem line_lt_line {j k : Nat} (h : j < k) : x.line j < x.line k := by
  unfold line
  split <;> split <;> omega

theorem fall_eq_line {k : Nat} (h : k ≠ x.before.length) : x.fall k = x.line k := by
  unfold line fall
  split <;> split <;> omega

theorem fall_length : x.fall x.before.length = x.before.length :=
  if_pos (Nat.le_refl _)

theorem line_length : x.line x.before.length = x.before.length + x.inserted.length :=
  if_neg (Nat.lt_irrefl _)

-- What is awaited behind a line of the short code is also awaited behind that of the long code,
-- since nothing but variables is awaited behind the inserted code.
theorem awaits_fall {y : String} (ha : Settled x.after) (h : Awaits (x.short.drop k) y) :
    Name y ∨ Awaits (x.long.drop (x.fall k)) y := by
  unfold fall
  split
  case isTrue hk =>
    rw [short, List.drop_append_of_le_length hk] at h
    rw [long, List.append_assoc, List.drop_append_of_le_length hk]
    exact (ha.awaits_append h).imp_right Awaits.append_left
  case isFalse hk =>
    have hb : x.before.drop k = [] := List.drop_eq_nil_of_le (by omega)
    have hl : (x.before ++ x.inserted).drop (k + x.inserted.length) = [] :=
      List.drop_eq_nil_of_le (by rw [List.length_append]; omega)
    rw [short, List.drop_append, hb] at h
    rw [long, List.drop_append, hl, List.length_append, Nat.add_sub_add_right]
    exact .inr h

end Splice

-- A value of both runs: a number, or the line of a label.
inductive Alike (x : Splice) : (address : Bool) → Int → Int → Prop
  | number {v} : Alike x false v v
  | line {k : Nat} {l : Label} : x.short[k]? = some (.label l) → Alike x true k (x.line k)

inductive AlikeAll (x : Splice) : List Bool → List Int → List Int → Prop
  | nil : AlikeAll x [] [] []
  | cons {b bs v vs v' vs'} :
    Alike x b v v' → AlikeAll x bs vs vs' → AlikeAll x (b :: bs) (v :: vs) (v' :: vs')

-- The short and the long code are loaded, and neither looks at a temporary that is left over. What
-- follows the inserted code does not, either.
structure Twins (x : Splice) (img img' : Image) : Prop where
  left    : img.Holds x.short
  right   : img'.Holds x.long
  settled : Settled x.short
  after   : Settled x.after
  first   : ∀ l, x.short[0]? ≠ some (.label l)
  bound   : x.long.length < 0x10000000000000000

-- A register holds the same in both runs.
def Agrees (x : Splice) (m : Marks) (s s' : State) (y : String) : Prop :=
  Alike x (m.registers y) (s.read y) (s'.read y)

-- The line behind a call in both runs, which agree on some registers: they can go on there.
structure Resumes (x : Splice) (P : String → Prop) (k k' : Nat) : Prop where
  line   : k' = x.fall k
  sink   : ¬Awaits (x.short.drop k) Register.sink.name
  agrees : ∀ y, Awaits (x.short.drop k) y → P y

-- The states of both runs agree on the variables and on what is awaited.
structure Follows (x : Splice) (code : List Instruction) (m : Marks) (s s' : State) : Prop where
  vars   : ∀ y, Name y ∨ Awaits code y → Agrees x m s s' y
  stack  : AlikeAll x m.stack s.stack s'.stack
  calls  : List.Forall₂ (Resumes x (Agrees x m s s')) s.calls s'.calls
  output : s'.output = s.output

section

variable {x : Splice} {m : Marks} {s s' : State} {i : Instruction} {code code' : List Instruction}
  {r : Register} {y name : String} {b : Bool} {v v' : Int}

theorem agrees_write_self (ha : Alike x b v v') :
    Agrees x (m.set name b) (s.write name v) (s'.write name v') name := by
  simpa [Agrees, Marks.set_self] using ha

theorem Agrees.write_of_ne (h : Agrees x m s s' y) (hy : y ≠ name) :
    Agrees x (m.set name b) (s.write name v) (s'.write name v') y := by
  rw [Agrees, Marks.set_of_ne hy, State.read_write_of_ne hy, State.read_write_of_ne hy]
  exact h

theorem Agrees.write (h : Agrees x m s s' y) (ha : Alike x b v v') :
    Agrees x (m.set name b) (s.write name v) (s'.write name v') y := by
  by_cases hy : y = name
  case pos => exact hy ▸ agrees_write_self ha
  case neg => exact h.write_of_ne hy

theorem Agrees.number (h : Agrees x m s s' y) (hm : m.registers y = false) :
    s'.read y = s.read y := by
  rw [Agrees, hm] at h
  generalize s'.read y = w' at h
  cases h
  rfl

namespace Follows

-- Less is awaited.
theorem forget (h : Follows x code m s s') (hc : ∀ y, Awaits code' y → Name y ∨ Awaits code y) :
    Follows x code' m s s' where
  vars y hy := h.vars y (hy.elim .inl (hc y))
  stack     := h.stack
  calls     := h.calls
  output    := h.output

-- A line that writes nothing.
theorem pass (h : Follows x (i :: code) m s s') (hi : i.written? = none) : Follows x code m s s' :=
  h.forget fun _ hy => .inr <| .inr ⟨by simp [hi], hy⟩

theorem write (h : Follows x (i :: code) m s s') (hi : i.written? = some r) (ha : Alike x b v v') :
    Follows x code (m.set r.name b) (s.write r.name v) (s'.write r.name v') where
  vars y hy := by
    by_cases hn : y = r.name
    case pos => exact hn ▸ agrees_write_self ha
    case neg =>
      refine (h.vars y (hy.imp_right fun hy => .inr ⟨fun q hq => ?_, hy⟩)).write_of_ne hn
      obtain rfl : r = q := Option.some.inj (hi.symm.trans hq)
      exact fun he => hn he.symm
  stack     := h.stack
  calls     := h.calls.imp fun _ _ hr => ⟨hr.line, hr.sink, fun y hy => (hr.agrees y hy).write ha⟩
  output    := h.output

-- What is in the sink need not agree as long as nobody looks at it.
theorem write_sink (h : Follows x (i :: code) m s s') (hi : i.written? = some .sink)
    (hs : ¬Awaits code Register.sink.name) :
    Follows x code (m.set Register.sink.name b) (s.write Register.sink.name v)
      (s'.write Register.sink.name v') where
  vars y hy := by
    have hn : y ≠ Register.sink.name := by
      rintro rfl
      exact hy.elim not_name_sink hs
    refine (h.vars y (hy.imp_right fun hy => .inr ⟨fun q hq => ?_, hy⟩)).write_of_ne hn
    obtain rfl : .sink = q := Option.some.inj (hi.symm.trans hq)
    exact hn.symm
  stack     := h.stack
  calls     := h.calls.imp fun _ _ hr => ⟨hr.line, hr.sink, fun y hy =>
    (hr.agrees y hy).write_of_ne fun he => hr.sink (he ▸ hy)⟩
  output    := h.output

theorem push (h : Follows x (.push r :: code) m s s') (hr : Agrees x m s s' r.name) :
    Follows x code { m with stack := m.registers r.name :: m.stack }
      { s with stack := s.read r.name :: s.stack }
      { s' with stack := s'.read r.name :: s'.stack } where
  vars   := (h.pass rfl).vars
  stack  := .cons hr h.stack
  calls  := h.calls
  output := h.output

theorem pop (h : Follows x (.pop r :: code) m s s') {bs : List Bool} {vs : List Int}
    (hm : m.stack = b :: bs) (hs : s.stack = v :: vs) : ∃ v' vs', s'.stack = v' :: vs' ∧
      Follows x code ({ m with stack := bs }.set r.name b) ({ s with stack := vs }.write r.name v)
        ({ s' with stack := vs' }.write r.name v') := by
  have ha := h.stack
  rw [hm, hs] at ha
  generalize hs' : s'.stack = stack' at ha
  cases ha
  case cons v' vs' hv hvs =>
    have h' : Follows x (.pop r :: code) { m with stack := bs } { s with stack := vs }
        { s' with stack := vs' } :=
      ⟨h.vars, hvs, h.calls, h.output⟩
    exact ⟨v', vs', rfl, h'.write rfl hv⟩

-- The counters do not matter.
theorem count (h : Follows x code m s s') (j j' b b' n n' : Nat) :
    Follows x code m { s with jumps := j, branchesTaken := b, steps := n }
      { s' with jumps := j', branchesTaken := b', steps := n' } :=
  ⟨h.vars, h.stack, h.calls, h.output⟩

end Follows

end

section

variable {x : Splice} {img img' : Image} {m m₁ : Marks} {s s' s₁ : State} {i : Instruction}
  {code : List Instruction}

-- The long run is at the same line as the short one, or above the inserted code if that comes next.
def Beside (x : Splice) (m : Marks) (s s' : State) : Prop :=
  Follows x (x.short.drop s.pc) m s s' ∧ (s'.pc = x.fall s.pc ∨ s'.pc = x.line s.pc)

-- From one line to the next.
theorem Follows.advance (h : Follows x (x.short.drop (s.pc + 1)) m s s')
    (hp : s'.pc = x.line s.pc) :
    Beside x m { s with pc := s.pc + 1 } { s' with pc := s'.pc + 1 } := by
  refine ⟨⟨h.vars, h.stack, h.calls, h.output⟩, .inl ?_⟩
  show s'.pc + 1 = x.fall (s.pc + 1)
  rw [hp, x.line_succ]

namespace Twins

-- A label is found in both images.
theorem target (t : Twins x img img') {l : Label} {k : Nat} (h : img.target l.name = .ok k) :
    x.short[k]? = some (.label l) ∧ img'.target l.name = .ok (x.line k) := by
  have hk : img.line? l.name = some k := by
    unfold Image.target at h
    split at h
    case h_1 hl => rw [hl, Except.ok.inj h]
    case h_2    => contradiction
  have hl := t.left.line?_iff l k |>.mp hk
  refine ⟨hl, Image.target_eq <| t.right.line?_iff l _ |>.mpr ?_⟩
  rw [x.getElem?_line, hl]

theorem target_bind {α : Type} (t : Twins x img img') {l : Label} {f : Nat → Except RunError α}
    {a : α} (h : img.target l.name >>= f = .ok a) :
    ∃ k, x.short[k]? = some (.label l) ∧ img'.target l.name = .ok (x.line k) ∧ f k = .ok a := by
  cases hk : img.target l.name
  case error => simp [hk, bind, Except.bind] at h
  case ok k =>
    rw [hk] at h
    obtain ⟨hl, hk'⟩ := t.target hk
    exact ⟨k, hl, hk', h⟩

-- Labels do not stand on the first line.
theorem pos (t : Twins x img img') {l : Label} {k : Nat} (h : x.short[k]? = some (.label l)) :
    0 < k := by
  rcases Nat.eq_zero_or_pos k with rfl | hk
  · exact absurd h (t.first l)
  · exact hk

-- Neither address is zero.
theorem eq_zero_iff (t : Twins x img img') {b : Bool} {v v' : Int} (h : Alike x b v v') :
    v = 0 ↔ v' = 0 := by
  cases h
  case number => rfl
  case line k l hl =>
    have := t.pos hl
    have := x.le_line k
    omega

-- Two addresses are in the same order in both runs, and no number that is not positive comes
-- between them.
theorem order (t : Twins x img img') {b c : Bool} {v v' w w' : Int} (hv : Alike x b v v')
    (hb : b = true ∨ v ≤ 0) (hw : Alike x c w w') (hc : c = true ∨ w ≤ 0) :
    (v < w ↔ v' < w') ∧ (v = w ↔ v' = w') := by
  cases hv <;> cases hw
  case number.number => exact ⟨Iff.rfl, Iff.rfl⟩
  case number.line k l hl =>
    have := t.pos hl
    have := x.le_line k
    have := hb.resolve_left Bool.false_ne_true
    omega
  case line.number k l hl =>
    have := t.pos hl
    have := x.le_line k
    have := hc.resolve_left Bool.false_ne_true
    omega
  case line.line j _ _ k _ _ =>
    rcases Nat.lt_trichotomy j k with h | rfl | h
    · have := x.line_lt_line h
      omega
    · omega
    · have := x.line_lt_line h
      omega

theorem eval_eq (t : Twins x img img') {op : Operator} (ho : op.IsComparison) {b c : Bool}
    {v v' w w' : Int} (hv : Alike x b v v') (hb : b = true ∨ v ≤ 0) (hw : Alike x c w w')
    (hc : c = true ∨ w ≤ 0) : eval op v' w' = eval op v w := by
  obtain ⟨hlt, heq⟩ := t.order hv hb hw hc
  obtain ⟨hgt, -⟩ := t.order hw hc hv hb
  cases op
  case add | sub | mul | div => exact ho.elim
  case equal | notEqual => simp only [eval, bne, BEq.beq, decide_eq_decide.mpr heq]
  case less             => simp only [eval, decide_eq_decide.mpr hlt]
  case greater          => simp only [eval, decide_eq_decide.mpr hgt]

theorem address (t : Twins x img img') {v v' : Int} (h : Alike x true v v') :
    ∃ k l, x.short[k]? = some (.label l) ∧ Machine.address v = k ∧
      Machine.address v' = x.line k := by
  cases h
  case line k l hl =>
    have hk : x.line k < x.long.length := by
      have hl' := x.getElem?_line k ▸ hl
      exact (List.getElem?_eq_some_iff.mp hl').fst
    have := x.le_line k
    have := t.bound
    exact ⟨k, l, hl, address_natCast (by omega), address_natCast (by omega)⟩

theorem jump (t : Twins x img img') {l : Label} {k : Nat} (h : Follows x code m s s')
    (hl : x.short[k]? = some (.label l)) :
    Beside x m { s with pc := k } { s' with pc := x.line k } := by
  have h : Follows x (x.short.drop k) m s s' :=
    h.forget fun _ hy => .inl (t.settled.guarded.at_label hl hy)
  exact ⟨⟨h.vars, h.stack, h.calls, h.output⟩, .inr rfl⟩

end Twins

-- Whenever the short run executes the instruction, so does the long run, with the same effect.
def Simulated (x : Splice) (img img' : Image) (i : Instruction) : Prop :=
  ∀ {m m₁ s s' s₁}, Follows x (i :: x.short.drop (s.pc + 1)) m s s' →
    Guarded (i :: x.short.drop (s.pc + 1)) → (∀ r ∈ i.reads, Agrees x m s s' r.name) →
    s'.pc = x.line s.pc → i.op.mark m s.read = some m₁ → img.exec s i.op = .ok (.running s₁) →
    ∃ s₁', img'.exec s' i.op = .ok (.running s₁') ∧ Beside x m₁ s₁ s₁'

namespace Simulated

variable {l : Label} {r src lhs rhs : Register}

theorem label : Simulated x img img' (.label l) := by
  intro m m₁ s s' s₁ h hg hr hp hm hs
  cases hm
  cases hs
  exact ⟨_, rfl, (h.pass rfl).advance hp⟩

theorem nop (hi : i.op = .nop) (hw : i.written? = none) : Simulated x img img' i := by
  intro m m₁ s s' s₁ h hg hr hp hm hs
  rw [hi] at hm hs ⊢
  cases hm
  cases hs
  exact ⟨_, rfl, (h.pass hw).advance hp⟩

theorem load {w : String} : Simulated x img img' (.load w r) := by
  intro m m₁ s s' s₁ h hg hr hp hm hs
  simp only [Instruction.op, Image.exec] at hs ⊢
  cases hm
  split at hs
  case h_2 => contradiction
  case h_1 =>
    cases hs
    exact ⟨_, rfl, (h.write rfl .number).advance hp⟩

theorem loadAddress (t : Twins x img img') : Simulated x img img' (.loadAddress l r) := by
  intro m m₁ s s' s₁ h hg hr hp hm hs
  simp only [Instruction.op, Image.exec] at hs ⊢
  cases hm
  obtain ⟨k, hl, hk', hs⟩ := t.target_bind hs
  rw [hk']
  cases hs
  exact ⟨_, rfl, (h.write rfl (.line hl)).advance hp⟩

theorem move : Simulated x img img' (.move src r) := by
  intro m m₁ s s' s₁ h hg hr hp hm hs
  cases hm
  cases hs
  have hv := hr src (by simp [Instruction.reads])
  exact ⟨_, rfl, (h.write rfl hv).advance hp⟩

theorem binary (t : Twins x img img') {op : Operator} :
    Simulated x img img' (.binary op lhs rhs r) := by
  intro m m₁ s s' s₁ h hg hr hp hm hs
  have hl : Agrees x m s s' lhs.name := hr lhs (by simp [Instruction.reads])
  have hr : Agrees x m s s' rhs.name := hr rhs (by simp [Instruction.reads])
  simp only [Instruction.op, Op.mark] at hm
  split at hm
  case isFalse => contradiction
  case isTrue ho =>
    cases hm
    have he : eval op (s'.read lhs.name) (s'.read rhs.name)
        = eval op (s.read lhs.name) (s.read rhs.name) := by
      obtain ⟨hb₁, hb₂⟩ | ⟨⟨op', ho', hc⟩, hb₁, hb₂⟩ := ho
      · rw [hl.number hb₁, hr.number hb₂]
      · rw [Operator.ofMnemonic?_mnemonic] at ho'
        obtain rfl : op = op' := Option.some.inj ho'
        exact t.eval_eq hc hl hb₁ hr hb₂
    simp only [Instruction.op, Image.exec, Operator.ofMnemonic?_mnemonic] at hs ⊢
    rw [he]
    split at hs
    case h_2 => contradiction
    case h_1 =>
      cases hs
      exact ⟨_, rfl, (h.write rfl .number).advance hp⟩

theorem not (t : Twins x img img') : Simulated x img img' (.not src r) := by
  intro m m₁ s s' s₁ h hg hr hp hm hs
  cases hm
  cases hs
  have hv := t.eq_zero_iff <| hr src (by simp [Instruction.reads])
  have hb : (s'.read src.name == 0) = (s.read src.name == 0) := by
    rw [Bool.eq_iff_iff, beq_iff_eq, beq_iff_eq, hv]
  simp only [Instruction.op, Image.exec, hb]
  exact ⟨_, rfl, (h.write rfl .number).advance hp⟩

theorem jump (t : Twins x img img') : Simulated x img img' (.jump l) := by
  intro m m₁ s s' s₁ h hg hr hp hm hs
  simp only [Instruction.op, Image.exec] at hs ⊢
  cases hm
  obtain ⟨k, hl, hk', hs⟩ := t.target_bind hs
  rw [hk']
  cases hs
  exact ⟨_, rfl, t.jump (h.count ..) hl⟩

theorem jumpIf (t : Twins x img img') : Simulated x img img' (.jumpIf l r) := by
  intro m m₁ s s' s₁ h hg hr hp hm hs
  have hv := t.eq_zero_iff <| hr r (by simp [Instruction.reads])
  simp only [Instruction.op, Image.exec] at hs ⊢
  cases hm
  by_cases hz : s.read r.name = 0
  case pos =>
    rw [if_pos hz] at hs
    rw [if_pos (hv.mp hz)]
    cases hs
    exact ⟨_, rfl, (h.pass rfl).advance hp⟩
  case neg =>
    rw [if_neg hz] at hs
    rw [if_neg (hv.not.mp hz)]
    obtain ⟨k, hl, hk', hs⟩ := t.target_bind hs
    rw [hk']
    cases hs
    exact ⟨_, rfl, t.jump (h.count ..) hl⟩

theorem push : Simulated x img img' (.push r) := by
  intro m m₁ s s' s₁ h hg hr hp hm hs
  cases hm
  cases hs
  have hv := hr r (by simp [Instruction.reads])
  exact ⟨_, rfl, (h.push hv).advance hp⟩

theorem pop : Simulated x img img' (.pop r) := by
  intro m m₁ s s' s₁ h hg hr hp hm hs
  simp only [Instruction.op, Op.mark, Image.exec] at hm hs ⊢
  split at hm
  case h_1 => contradiction
  case h_2 b bs hb =>
    cases hm
    split at hs
    case h_1 => contradiction
    case h_2 v vs hv =>
      cases hs
      obtain ⟨v', vs', hv', hf⟩ := h.pop hb hv
      rw [hv']
      exact ⟨_, rfl, hf.advance hp⟩

-- The callee is a label. What is awaited behind the call agrees now, and will agree until the runs
-- get back there.
theorem callValue (t : Twins x img img') : Simulated x img img' (.callValue r) := by
  intro m m₁ s s' s₁ h hg hr hp hm hs
  simp only [Instruction.op, Op.mark] at hm
  split at hm
  case isFalse => contradiction
  case isTrue hb =>
    cases hm
    cases hs
    have hv : Agrees x m s s' r.name := hr r (by simp [Instruction.reads])
    rw [Agrees, hb] at hv
    obtain ⟨k, l, hl, ha, ha'⟩ := t.address hv
    have hback : Resumes x (Agrees x m s s') (s.pc + 1) (s'.pc + 1) := {
      line   := by rw [hp, x.line_succ]
      sink   := hg.left
      agrees := fun y hy => (h.pass rfl).vars y (.inr hy)
    }
    have h' : Follows x (.callValue r :: x.short.drop (s.pc + 1)) m
        { s with calls := (s.pc + 1) :: s.calls } { s' with calls := (s'.pc + 1) :: s'.calls } :=
      ⟨h.vars, h.stack, .cons hback h.calls, h.output⟩
    refine ⟨_, rfl, ?_⟩
    rw [ha, ha']
    exact t.jump h' hl

theorem ret : Simulated x img img' .ret := by
  intro m m₁ s s' s₁ h hg hr hp hm hs
  simp only [Instruction.op, Image.exec] at hs ⊢
  cases hm
  split at hs
  case h_1 => cases hs
  case h_2 k calls hk =>
    cases hs
    have hcs := h.calls
    rw [hk] at hcs
    generalize s'.calls = calls' at hcs ⊢
    cases hcs
    case cons hb hcs =>
      refine ⟨_, rfl, ⟨fun y hy => ?_, h.stack, hcs, h.output⟩, .inl hb.line⟩
      exact hy.elim (fun hy => h.vars y (.inl hy)) (hb.agrees y)

theorem out : Simulated x img img' (.out r) := by
  intro m m₁ s s' s₁ h hg hr hp hm hs
  simp only [Instruction.op, Op.mark] at hm
  split at hm
  case isTrue => contradiction
  case isFalse hb =>
    cases hm
    cases hs
    have hv := (hr r (by simp [Instruction.reads])).number (by simpa using hb)
    have ho : s'.output.push (s'.read r.name) = s.output.push (s.read r.name) := by
      rw [h.output, hv]
    have h' : Follows x (x.short.drop (s.pc + 1)) m
        { s with output := s.output.push (s.read r.name) }
        { s' with output := s'.output.push (s'.read r.name) } :=
      ⟨(h.pass rfl).vars, h.stack, h.calls, ho⟩
    exact ⟨_, rfl, h'.advance hp⟩

theorem halt : Simulated x img img' .halt := by
  rintro m m₁ s s' s₁ h hg hr hp hm ⟨⟩

theorem all (t : Twins x img img') (i : Instruction) : Simulated x img img' i := by
  cases i
  case label       => exact label
  case blank       => exact nop rfl rfl
  case load        => exact load
  case loadAddress => exact loadAddress t
  case move        => exact move
  case binary      => exact binary t
  case not         => exact not t
  case jump        => exact jump t
  case jumpIf      => exact jumpIf t
  case push        => exact push
  case pop         => exact pop
  case callValue   => exact callValue t
  case ret         => exact ret
  case out         => exact out
  case halt        => exact halt
  case separator   => exact nop rfl rfl

-- A comparison has a value whatever it looks at.
theorem comparison {op : Operator} (ho : op.IsComparison)
    (h : Follows x (.binary op lhs rhs .sink :: x.short.drop (s.pc + 1)) m s s')
    (hn : ¬Awaits (x.short.drop (s.pc + 1)) Register.sink.name) (hp : s'.pc = x.line s.pc)
    (hm : (Instruction.binary op lhs rhs .sink).op.mark m s.read = some m₁)
    (hs : img.exec s (Instruction.binary op lhs rhs .sink).op = .ok (.running s₁)) :
    ∃ s₁', img'.exec s' (Instruction.binary op lhs rhs .sink).op = .ok (.running s₁') ∧
      Beside x m₁ s₁ s₁' := by
  obtain ⟨v, hv⟩ := eval_comparison ho (s.read lhs.name) (s.read rhs.name)
  obtain ⟨v', hv'⟩ := eval_comparison ho (s'.read lhs.name) (s'.read rhs.name)
  simp only [Instruction.op, Op.mark] at hm
  split at hm
  case isFalse => contradiction
  case isTrue =>
    cases hm
    simp only [Image.exec, Instruction.op, Operator.ofMnemonic?_mnemonic, hv, hv'] at hs ⊢
    cases hs
    exact ⟨_, rfl, (h.write_sink rfl hn).advance hp⟩

end Simulated

namespace Twins

theorem fetch (t : Twins x img img') {k : Nat} {op : Op} (h : img.ops[k]? = some op) :
    ∃ i, x.short[k]? = some i ∧ i.op = op := by
  have ho : img.ops[k]? = x.short[k]?.map Instruction.op := by simp [t.left.ops_eq]
  exact Option.map_eq_some_iff.mp (ho ▸ h)

theorem ops (t : Twins x img img') (hp : s'.pc = x.line s.pc) :
    img'.ops[s'.pc]? = img.ops[s.pc]? := by
  have ho : img.ops[s.pc]? = x.short[s.pc]?.map Instruction.op := by simp [t.left.ops_eq]
  have ho' : img'.ops[s'.pc]? = x.long[s'.pc]?.map Instruction.op := by simp [t.right.ops_eq]
  rw [ho, ho', hp, x.getElem?_line]

-- One line of both runs.
theorem step (t : Twins x img img') (hi : x.short[s.pc]? = some i)
    (h : Follows x (x.short.drop s.pc) m s s') (hp : s'.pc = x.line s.pc)
    (hm : i.op.mark m s.read = some m₁) (hs : img.step s i.op = .ok (.running s₁)) :
    ∃ s₁', img'.step s' i.op = .ok (.running s₁') ∧ Beside x m₁ s₁ s₁' := by
  have hd : x.short.drop s.pc = i :: x.short.drop (s.pc + 1) := by
    rw [List.drop_eq_getElem?_toList_append, hi]
    rfl
  have hg := t.settled.guarded.drop s.pc
  rw [hd] at h hg
  have h : Follows x (i :: x.short.drop (s.pc + 1)) m { s with steps := s.steps + 1 }
      { s' with steps := s'.steps + 1 } := h.count ..
  by_cases hr : i.Indifferent → Awaits (x.short.drop (s.pc + 1)) Register.sink.name
  case pos =>
    exact Simulated.all t i (s := { s with steps := s.steps + 1 }) h hg (fun r hm => h.vars _ <|
      .inr <| .inl ⟨r, hm, rfl, hr⟩) hp hm hs
  case neg =>
    obtain ⟨hi, hn⟩ := Classical.not_imp.mp hr
    cases i
    case binary op lhs rhs dst =>
      obtain ⟨ho, rfl⟩ := hi
      exact Simulated.comparison (s := { s with steps := s.steps + 1 }) ho h hn hp hm hs
    all_goals exact hi.elim

theorem halt (h : Follows x code m s s') (hm : i.op.mark m s.read = some m₁)
    (hs : img.step s i.op = .ok (.halted s₁)) :
    ∃ s₁', img'.step s' i.op = .ok (.halted s₁') ∧ Follows x code m₁ s₁ s₁' := by
  obtain ⟨hi | ⟨hi, hc⟩, rfl⟩ := Image.exec_halted hs
  all_goals
    rw [hi] at hm ⊢
    cases hm
  · exact ⟨_, rfl, h.count ..⟩
  · have hc' : s'.calls = [] := List.forall₂_nil_left_iff.mp (hc ▸ h.calls)
    have hs' : img'.step s' .ret = .ok (.halted { s' with steps := s'.steps + 1 }) := by
      simp only [Image.step, Image.exec, hc']
    exact ⟨_, hs', h.count ..⟩

end Twins

-- Nothing has changed that anybody looks at, now or behind a call from which there is yet to be a
-- return.
structure Silent (code : List Instruction) (s s' : State) : Prop where
  vars    : ∀ y, Name y → s'.read y = s.read y
  pending : ∀ k ∈ s.calls, ∀ y, Awaits (code.drop k) y → y ≠ Register.sink.name →
    s'.read y = s.read y
  stack   : s'.stack = s.stack
  calls   : s'.calls = s.calls
  output  : s'.output = s.output

-- The inserted code, whenever it is reached, runs to its end and changes nothing of that.
def Splice.Harmless (x : Splice) (img : Image) : Prop :=
  ∀ j s, img.Steps j {} s → s.pc = x.before.length →
    ∃ n s', img.Steps n s s' ∧ s'.pc = x.before.length + x.inserted.length ∧ Silent x.long s s'

-- The calls of both runs, behind the inserted code.
theorem Follows.calls_of_silent {s'' : State} (h : Follows x code m s s') (ha : Settled x.after)
    (hq : Silent x.long s' s'') :
    List.Forall₂ (Resumes x (Agrees x m s s'')) s.calls s''.calls := by
  rw [hq.calls]
  -- Paired with the fact that the lines of the long run are those of its calls.
  have hcs :=
    (List.forall₂_and_left _ _).mpr ⟨fun (k : Nat) (hk : k ∈ s'.calls) => hk, h.calls.flip⟩
  refine hcs.flip.imp fun k k' hr => ⟨hr.right.line, hr.right.sink, fun y hy => ?_⟩
  have hv : s''.read y = s'.read y := by
    obtain hy' | hy' := x.awaits_fall k ha hy
    · exact hq.vars y hy'
    · refine hq.pending k' hr.left y (hr.right.line ▸ hy') ?_
      rintro rfl
      exact hr.right.sink hy
  rw [Agrees, hv]
  exact hr.right.agrees y hy

namespace Twins

-- The long run has got past the inserted code.
theorem settle (t : Twins x img img') (hx : x.Harmless img') (h : Beside x m s s') {j : Nat}
    (hj : img'.Steps j {} s') :
    ∃ n s'', img'.Steps n s' s'' ∧ Follows x (x.short.drop s.pc) m s s'' ∧
      s''.pc = x.line s.pc := by
  obtain ⟨h, hp⟩ := h
  by_cases hl : s'.pc = x.line s.pc
  case pos => exact ⟨0, s', .refl, h, hl⟩
  case neg =>
    replace hp := hp.resolve_right hl
    have hs : s.pc = x.before.length := by
      by_contra hs
      exact hl (hp.trans (x.fall_eq_line hs))
    rw [hs, x.fall_length] at hp
    obtain ⟨n, s'', hs', hp', hq⟩ := hx j s' hj hp
    have hd : x.short.drop s.pc = x.after := by rw [hs, Splice.short, List.drop_left]
    refine ⟨n, s'', hs', ⟨fun y hy => ?_, hq.stack ▸ h.stack, h.calls_of_silent t.after hq,
      hq.output.trans h.output⟩, ?_⟩
    · have hy : Name y := hy.elim id fun hy => t.after.vars y (hd ▸ hy)
      rw [Agrees, hq.vars y hy]
      exact h.vars y (.inl hy)
    · rw [hp', hs, x.line_length]

-- The long run ends as the short one does.
theorem ends (t : Twins x img img') (hx : x.Harmless img') {s₁ : State}
    (ht : img.Tracks m s m₁ s₁) (h : Beside x m s s') {j : Nat} (hj : img'.Steps j {} s') :
    ∃ s₁' code, img'.Ends s' s₁' ∧ Follows x code m₁ s₁ s₁' := by
  induction ht generalizing s' j
  case outside ho =>
    obtain ⟨n, s'', hn, h, hp⟩ := t.settle hx h hj
    exact ⟨s'', _, .steps hn (.outside ((t.ops hp).trans ho)), h⟩
  case halted ho hm hs =>
    obtain ⟨n, s'', hn, h, hp⟩ := t.settle hx h hj
    obtain ⟨i, -, rfl⟩ := t.fetch ho
    obtain ⟨s₁', hs', h₁⟩ := halt h hm hs
    exact ⟨s₁', _, .steps hn (.halted ((t.ops hp).trans ho) hs'), h₁⟩
  case running ho hm hs _ hi =>
    obtain ⟨n, s'', hn, h, hp⟩ := t.settle hx h hj
    obtain ⟨i, hf, rfl⟩ := t.fetch ho
    obtain ⟨s₁', hs', h₁⟩ := t.step hf h hp hm hs
    have hs' : img'.Steps 1 s'' s₁' := .single ((t.ops hp).trans ho) hs'
    obtain ⟨s₂', code, he, h₂⟩ := hi h₁ (hj.trans (hn.trans hs'))
    exact ⟨s₂', code, .steps (hn.trans hs') he, h₂⟩

end Twins

end

end LineCode

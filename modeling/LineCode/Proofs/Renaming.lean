import LineCode.Machine.Run
import LineCode.Proofs.Correspondence

namespace LineCode

-- The same code, but for the names of registers.
abbrev Instruction.Renamed (N : String → String → Prop) : Instruction → Instruction → Prop :=
  Corresponds (fun r r' => N r.name r'.name) Eq

theorem Instruction.Renamed.asRead {N : String → String → Prop} {i j : Instruction}
    (h : i.Renamed N j) :
    i.asRead.Renamed N j.asRead := by
  cases h
  case load literal dst dst' h =>
    simp only [Instruction.asRead]
    split
    case h_1 => exact .loadAddress rfl h
    case h_2 => exact .load h
  all_goals constructor <;> assumption

namespace Machine

-- The same values under names that correspond, in the order in which they were first written.
def Registers.Renamed (N : String → String → Prop) (r r' : Registers) : Prop :=
  List.Forall₂ (fun e e' => N e.fst e'.fst ∧ e.snd = e'.snd) r.entries r'.entries

structure State.Renamed (N : String → String → Prop) (s s' : State) : Prop where
  pc            : s.pc = s'.pc
  registers     : s.registers.Renamed N s'.registers
  stack         : s.stack = s'.stack
  calls         : s.calls = s'.calls
  output        : s.output = s'.output
  jumps         : s.jumps = s'.jumps
  branchesTaken : s.branchesTaken = s'.branchesTaken
  steps         : s.steps = s'.steps

inductive Progress.Renamed (N : String → String → Prop) : Progress → Progress → Prop
  | running {s s'} : s.Renamed N s' → Renamed N (running s) (running s')
  | halted {s s'} : s.Renamed N s' → Renamed N (halted s) (halted s')

variable {N : String → String → Prop} {x y : String}

namespace Registers.Renamed

variable {r r' : Registers}

theorem get (h : r.Renamed N r') (hN : Relator.BiUnique N) (hx : N x y) : r.get x = r'.get y := by
  obtain ⟨entries⟩ := r
  obtain ⟨entries'⟩ := r'
  have hl : entries.lookup x = entries'.lookup y := by
    change List.Forall₂ _ entries entries' at h
    induction h
    case nil => rfl
    case cons e e' _ _ he _ hi =>
      obtain ⟨n, v⟩ := e
      obtain ⟨n', v'⟩ := e'
      have hb : x = n ↔ y = n' := Relator.rel_eq hN hx he.left
      by_cases h : x = n
      case pos => simpa [List.lookup_cons, h, hb.mp h] using he.right
      case neg =>
        simpa [List.lookup_cons, beq_false_of_ne h, beq_false_of_ne (mt hb.mpr h)] using hi
  rw [Registers.get, hl, Registers.get]

theorem set (h : r.Renamed N r') (hN : Relator.BiUnique N) (hx : N x y) (v : Int) :
    (r.set x v).Renamed N (r'.set y v) := by
  obtain ⟨entries⟩ := r
  obtain ⟨entries'⟩ := r'
  change List.Forall₂ _ entries entries' at h
  change List.Forall₂ _ (put x v entries) (put y v entries')
  induction h
  case nil => exact .cons ⟨hx, rfl⟩ .nil
  case cons e e' _ _ he hr hi =>
    have hb : e.fst = x ↔ e'.fst = y := Relator.rel_eq hN he.left hx
    by_cases h : e.fst = x
    case pos => simpa only [put, h, hb.mp h, if_true] using .cons ⟨hx, rfl⟩ hr
    case neg => simpa only [put, h, mt hb.mpr h, if_false] using .cons he hi

end Registers.Renamed

namespace State.Renamed

variable {s s' : State}

theorem read (h : s.Renamed N s') (hN : Relator.BiUnique N) (hx : N x y) : s.read x = s'.read y :=
  h.registers.get hN hx

theorem write (h : s.Renamed N s') (hN : Relator.BiUnique N) (hx : N x y) (v : Int) :
    (s.write x v).Renamed N (s'.write y v) :=
  { h with registers := h.registers.set hN hx v }

theorem advance (h : s.Renamed N s') : s.advance.Renamed N s'.advance :=
  .running { h with pc := congrArg (· + 1) h.pc }

theorem goto (h : s.Renamed N s') (k : Nat) : (s.goto k).Renamed N (s'.goto k) :=
  .running { h with pc := rfl }

end State.Renamed

namespace Image

variable {img img' : Image} {s s' : State} {i j : Instruction}

theorem exec_renamed (hN : Relator.BiUnique N) (hl : img.line? = img'.line?) (h : i.Renamed N j)
    (hs : s.Renamed N s') :
    Coincide Eq (Progress.Renamed N) (img.exec s i.op) (img'.exec s' j.op) := by
  have ht (name : String) : img.target name = img'.target name := by rw [target, hl, target]
  have hr {x y : String} (hx : N x y) : s.read x = s'.read y := hs.read hN hx
  cases h
  case label | blank | separator => exact .ok hs.advance
  case halt => exact .ok (.halted hs)
  case load w _ _ hd =>
    simp only [Instruction.op, exec]
    cases literal? w.toList
    case none   => exact .error rfl
    case some v => exact .ok (hs.write hN hd v).advance
  case loadAddress l _ _ _ hl hd =>
    subst hl
    simp only [Instruction.op, exec, ht]
    cases img'.target l.name
    case error   => exact .error rfl
    case ok line => exact .ok (hs.write hN hd line).advance
  case move hx hd =>
    simp only [Instruction.op, exec, hr hx]
    exact .ok (hs.write hN hd _).advance
  case not hx hd =>
    simp only [Instruction.op, exec, hr hx]
    exact .ok (hs.write hN hd _).advance
  case binary op _ lhs' _ rhs' _ _ hx hy hd =>
    simp only [Instruction.op, exec, hr hx, hr hy, Operator.ofMnemonic?_mnemonic]
    cases eval op (s'.read lhs'.name) (s'.read rhs'.name)
    case error => exact .error rfl
    case ok v  => exact .ok (hs.write hN hd v).advance
  case jump l _ hl =>
    subst hl
    simp only [Instruction.op, exec, ht]
    cases img'.target l.name
    case error => exact .error rfl
    case ok line =>
      refine .ok (State.Renamed.goto ?_ line)
      exact { hs with jumps := congrArg (· + 1) hs.jumps }
  case jumpIf l _ _ r hl hx =>
    subst hl
    simp only [Instruction.op, exec, ht, hr hx]
    split
    case isTrue => exact .ok hs.advance
    case isFalse =>
      cases img'.target l.name
      case error => exact .error rfl
      case ok line =>
        refine .ok (State.Renamed.goto ?_ line)
        exact { hs with branchesTaken := congrArg (· + 1) hs.branchesTaken }
  case push hx =>
    refine .ok (State.Renamed.advance ?_)
    exact { hs with stack := congrArg₂ List.cons (hr hx) hs.stack }
  case out hx =>
    refine .ok (State.Renamed.advance ?_)
    exact { hs with output := congrArg₂ Array.push hs.output (hr hx) }
  case pop hd =>
    simp only [Instruction.op, exec, hs.stack]
    cases s'.stack
    case nil => exact .error rfl
    case cons v stack =>
      refine .ok (State.Renamed.advance (State.Renamed.write ?_ hN hd v))
      exact { hs with stack := rfl }
  case callValue hx =>
    simp only [Instruction.op, exec, hr hx]
    refine .ok (State.Renamed.goto ?_ _)
    exact { hs with calls := congrArg₂ List.cons (congrArg (· + 1) hs.pc) hs.calls }
  case ret =>
    simp only [Instruction.op, exec, hs.calls]
    cases s'.calls
    case nil => exact .ok (.halted hs)
    case cons line calls =>
      refine .ok (State.Renamed.goto ?_ line)
      exact { hs with calls := rfl }

theorem step_renamed (hN : Relator.BiUnique N) (hl : img.line? = img'.line?) (h : i.Renamed N j)
    (hs : s.Renamed N s') :
    Coincide Eq (Progress.Renamed N) (img.step s i.op) (img'.step s' j.op) :=
  exec_renamed hN hl h { hs with steps := congrArg (· + 1) hs.steps }

variable {code code' : List Instruction}

theorem getElem?_renamed (h : List.Forall₂ (Instruction.Renamed N) code code') (k : Nat) :
    Option.Rel (Instruction.Renamed N) code[k]? code'[k]? := by
  induction h generalizing k
  case nil => exact .none
  case cons hi _ hc =>
    cases k
    case zero   => exact .some hi
    case succ k => exact hc k

-- A label is on the same line of both.
theorem line?_renamed (h : List.Forall₂ (Instruction.Renamed N) code code') (hi : img.Holds code)
    (hi' : img'.Holds code') : img.line? = img'.line? := by
  funext name
  refine Option.ext fun k => ?_
  rw [hi.line?_iff ⟨name⟩, hi'.line?_iff ⟨name⟩]
  have hk := getElem?_renamed h k
  generalize code[k]? = o, code'[k]? = o' at hk
  cases hk
  case none   => simp
  case some h => cases h <;> simp_all

-- A run of the one image goes along with a run of the other, line by line.
theorem runFrom_renamed (hN : Relator.BiUnique N)
    (h : List.Forall₂ (Instruction.Renamed N) code code') (hi : img.Holds code)
    (hi' : img'.Holds code') (hs : s.Renamed N s') (budget : Nat) :
    Coincide Eq (State.Renamed N) (img.runFrom budget s) (img'.runFrom budget s') := by
  induction budget generalizing s s'
  all_goals
    have ho : img.ops[s.pc]? = code[s.pc]?.map Instruction.op := by simp [hi.ops_eq]
    have ho' : img'.ops[s'.pc]? = code'[s.pc]?.map Instruction.op := by simp [hi'.ops_eq, hs.pc]
    have hk := getElem?_renamed h s.pc
    generalize code[s.pc]? = o, code'[s.pc]? = o' at hk ho ho'
    cases hk
  case zero.none =>
    rw [runFrom_outside ho, runFrom_outside ho']
    exact .ok hs
  case zero.some =>
    rw [runFrom_zero ho, runFrom_zero ho']
    exact .error rfl
  case succ.none =>
    rw [runFrom_outside ho, runFrom_outside ho']
    exact .ok hs
  case succ.some budget hb i j hr =>
    have hp := step_renamed hN (line?_renamed h hi hi') hr hs
    rw [runFrom_succ ho, runFrom_succ ho']
    generalize img.step s i.op = r, img'.step s' j.op = r' at hp
    cases hp
    case error he => exact .error he
    case ok hp =>
      cases hp
      case running hs => exact hb hs
      case halted hs  => exact .ok hs

theorem state_renamed_new : State.Renamed N {} {} :=
  ⟨rfl, .nil, rfl, rfl, rfl, rfl, rfl, rfl⟩

end Image

-- Texts that are read as the same code, but for the names of registers.
theorem runText_renamed (hN : Relator.BiUnique N) {code code' : List Instruction}
    {text text' : String} (h : List.Forall₂ (Instruction.Renamed N) code code')
    (ht : ∃ img, Image.load text = .ok img ∧ img.Holds code)
    (ht' : ∃ img, Image.load text' = .ok img ∧ img.Holds code') :
    Coincide Eq (State.Renamed N) (runText text) (runText text') := by
  obtain ⟨img, hl, hi⟩ := ht
  obtain ⟨img', hl', hi'⟩ := ht'
  have hr := Image.runFrom_renamed hN h hi hi' Image.state_renamed_new Image.stepLimit
  simp only [runText, hl, hl', Image.run]
  generalize img.runFrom Image.stepLimit {} = r, img'.runFrom Image.stepLimit {} = r' at hr
  cases hr
  case ok hs    => exact .ok hs
  case error he => exact .error (congrArg Error.run he)

end Machine
end LineCode

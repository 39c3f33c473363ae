import LineCode.Machine.Run
import LineCode.Proofs.Legibility

namespace LineCode

namespace Instruction

-- What an instruction adds to the height of the stack. A return ends the run, with what it returns
-- on the stack.
def effect : Instruction → Int
  | push _ => 1
  | pop _  => -1
  | ret    => -1
  | _      => 0

-- The machine can execute the instruction at a height of the stack, short of literals and
-- arithmetic, and it stays in the definition then. References are to one of the first `k`
-- functions.
def Fits (k : Nat) (height : Int) : Instruction → Prop
  | pop _              => 1 ≤ height
  | ret                => 1 ≤ height
  | loadAddress l _    => ∃ i, i < k ∧ l = .function (toString i)
  | callValue _ | halt => False
  | _                  => True

end Instruction

-- Outside of functions that are never called there is nothing but calls of `print`.
structure Node.Safe (k : Nat) (n : Node) : Prop where
  legible : n.Legible k
  prints  : n.kind = .call → ∀ target ∈ n.children.head?, target.text = Lower.printName

instance {k : Nat} : DecidablePred (Node.Safe k) := fun n =>
  decidable_of_iff
    (n.Legible k ∧ (n.kind = .call → ∀ target ∈ n.children.head?, target.text = Lower.printName))
    ⟨fun ⟨h₁, h₂⟩ => ⟨h₁, h₂⟩, fun ⟨h₁, h₂⟩ => ⟨h₁, h₂⟩⟩

namespace Lower

open Instruction

-- Each instruction fits the height that those before it lead to.
def Fitting (k : Nat) : Int → List Instruction → Prop
  | _, []           => True
  | height, i :: code => i.Fits k height ∧ Fitting k (height + i.effect) code

section

variable {k : Nat} {height : Int} {code code₁ code₂ : List Instruction}

theorem fitting_append :
    Fitting k height (code₁ ++ code₂) ↔
      Fitting k height code₁ ∧ Fitting k (height + total effect code₁) code₂ := by
  induction code₁ generalizing height
  case nil            => simp [Fitting]
  case cons i code hi => simp [Fitting, hi, and_assoc, Int.add_assoc]

theorem Fitting.getElem? {i : Instruction} {j : Nat} (h : Fitting k height code)
    (hj : code[j]? = some i) :
    i.Fits k (height + total effect (code.take j)) := by
  induction code generalizing height j
  case nil => simp at hj
  case cons i' code hi =>
    cases j
    case zero =>
      obtain rfl : i' = i := by simpa using hj
      simpa using h.left
    case succ j =>
      have hf := hi h.right (by simpa using hj)
      simpa [Int.add_assoc] using hf

theorem fitting_printCode {t dst : Register} {n : Nat} (h : n ≤ height) :
    Fitting k height (printCode t n dst) ∧ total effect (printCode t n dst) = -n := by
  induction n generalizing height
  case zero => simp [printCode, Fitting, Fits, effect]
  case succ n hi =>
    have hc : printCode t (n + 1) dst = [.pop t, .out t] ++ printCode t n dst := by
      simp [printCode, List.replicate_succ]
    obtain ⟨hf, ht⟩ := @hi (height - 1) (by omega)
    rw [hc, fitting_append, total_append, ht]
    simp only [Fitting, Fits, effect, total_cons, total_nil]
    exact ⟨⟨⟨by omega, trivial, trivial⟩, hf⟩, by omega⟩

end

-- Code that leaves a number of values on the stack and takes none of those it finds there.
structure Balanced (k n : Nat) (code : List Instruction) : Prop where
  total   : total effect code = n
  fitting : ∀ height, 0 ≤ height → Fitting k height code

namespace Balanced

variable {k m n : Nat} {code code₁ code₂ : List Instruction}

theorem neutral (h : ∀ i ∈ code, i.effect = 0 ∧ ∀ height, i.Fits k height) : Balanced k 0 code := by
  induction code
  case nil => exact ⟨rfl, fun _ _ => trivial⟩
  case cons i code hi =>
    have ⟨⟨he, hf⟩, h⟩ := List.forall_mem_cons.mp h
    have ⟨ht, hs⟩ := hi h
    exact ⟨by simp [he, ht], fun height hh => ⟨hf height, by simpa [he] using hs height hh⟩⟩

theorem push (t : Register) : Balanced k 1 [.push t] :=
  ⟨rfl, fun _ _ => ⟨trivial, trivial⟩⟩

theorem pushRet (t : Register) : Balanced k 0 [.push t, .ret] :=
  ⟨rfl, fun _ hh => ⟨trivial, Int.add_le_add_right hh 1, trivial⟩⟩

theorem append (h₁ : Balanced k m code₁) (h₂ : Balanced k n code₂) :
    Balanced k (m + n) (code₁ ++ code₂) where
  total := by
    rw [total_append, h₁.total, h₂.total]
    simp
  fitting height hh := by
    rw [fitting_append, h₁.total]
    exact ⟨h₁.fitting height hh, h₂.fitting _ (by omega)⟩

theorem print (t dst : Register) (h : Balanced k n code) :
    Balanced k 0 (code ++ printCode t n dst) where
  total := by
    rw [total_append, h.total, (fitting_printCode (k := k) (Int.le_refl n)).right]
    omega
  fitting height hh := by
    rw [fitting_append, h.total]
    exact ⟨h.fitting height hh, (fitting_printCode (by omega)).left⟩

end Balanced

-- The number of values that a job leaves on the stack.
def Job.pushed : Job → Nat
  | node _ _ _     => 0
  | all _ _        => 0
  | arguments ns _ => ns.length

theorem Emits.balanced {k : Nat} {job : Job} {d : Nat} {s s' : Stage} {code : List Instruction}
    (h : Emits job d s code s') (hp : job.Every (Node.Safe k)) : Balanced k job.pushed code := by
  induction h
  case literalDiscarded | literal | identifier | nil | noArgument =>
    exact .neutral (by simp [Fits, effect])
  case reference =>
    have ⟨i, hi, ht⟩ := (Node.Every.self hp).legible.reference rfl
    exact .neutral (by simpa [Fits, effect] using ⟨i, hi, congrArg Label.function ht⟩)
  case assignment hi => exact hi (Node.Every.second hp)
  case binary h₁ h₂ =>
    exact h₁ (Node.Every.first hp) |>.append (h₂ (Node.Every.second hp)) |>.append <|
      .neutral (by simp [Fits, effect])
  case print hi   => exact hi (fun n hn => (Node.Every.second hp).child hn) |>.print ..
  case call hn _ _ => exact absurd ((Node.Every.self hp).prints rfl _ (by simp)) hn
  case definition => exact absurd rfl (Node.Every.self hp).legible.noDefinition
  case block hi   => exact hi fun n hn => Node.Every.child hp hn
  case returns hi => exact hi (fun n hn => Node.Every.child hp hn) |>.append <| .pushRet _
  case ifThen d s _ _ _ _ _ _ _ h₁ h₂ =>
    have hj : Balanced k 0 [.negate (.temp d), .jumpIf s.label (.temp d)] :=
      .neutral (by simp [Fits, effect, negate])
    have hl : Balanced k 0 [.label s.label] := .neutral (by simp [Fits, effect])
    exact h₁ (Node.Every.first hp) |>.append hj |>.append (h₂ (Node.Every.second hp)) |>.append hl
  case whileDo d s _ _ _ _ _ _ _ h₁ h₂ =>
    have hs : Balanced k 0 [.label s.issue.label] := .neutral (by simp [Fits, effect])
    have hj : Balanced k 0 [.negate (.temp d), .jumpIf s.label (.temp d)] :=
      .neutral (by simp [Fits, effect, negate])
    have hl : Balanced k 0 [.jump s.issue.label, .label s.label] :=
      .neutral (by simp [Fits, effect])
    exact hs.append (h₁ (Node.Every.first hp)) |>.append hj |>.append
      (h₂ (Node.Every.second hp)) |>.append hl
  case cons h₁ h₂ => exact h₁ (hp _ (by simp)) |>.append <| h₂ fun n hn => hp n (by simp [hn])
  case argument h₁ h₂ =>
    exact h₁ (fun n hn => hp n (by simp [hn])) |>.append (h₂ (hp _ (by simp))) |>.append <| .push _

theorem neutral_effect (k : Nat) : Neutral effect (Node.Safe k) where
  label _    := rfl
  jump _     := rfl
  jumpIf _ _ := rfl
  negate _   := rfl
  node h he  := (he.balanced h).total

end Lower
namespace Machine

open Lower Instruction

-- A run may fail for what it computes, but not for how it is put together.
def RunError.Tolerable : RunError → Prop
  | badLiteral _ | arithmetic _ | stepLimit          => True
  | undefinedLabel _ | unknownOpcode _ | emptyStack  => False

-- A run ends at an END with an empty stack or at a RETURN with a value on it, if it does not fail
-- tolerably.
def Image.Settles (img : Image) : Except RunError State → Prop
  | .error why => why.Tolerable
  | .ok s =>
    img.ops[s.pc]? = some .halt ∧ s.stack = [] ∨ img.ops[s.pc]? = some .ret ∧ s.stack ≠ []

-- What one line may lead to: a state from which the run goes on, or the result of the run.
def Leads (I : State → Prop) (R : Except RunError State → Prop) : Except RunError Progress → Prop
  | .error why       => R (.error why)
  | .ok (.halted s)  => R (.ok s)
  | .ok (.running s) => I s

theorem Image.runFrom_invariant {img : Image} {I : State → Prop} {R : Except RunError State → Prop}
    (hi : ∀ s, I s → ∃ op, img.ops[s.pc]? = some op ∧ Leads I R (img.step s op))
    (hl : R (.error .stepLimit)) (budget : Nat) {s : State} (hs : I s) :
    R (img.runFrom budget s) := by
  induction budget generalizing s
  case zero =>
    have ⟨op, ho, _⟩ := hi s hs
    exact runFrom_zero ho ▸ hl
  case succ budget hb =>
    have ⟨op, ho, h⟩ := hi s hs
    rw [runFrom_succ ho]
    split
    case h_1 hs' => exact (hs' ▸ h : Leads I R (.error _))
    case h_2 hs' => exact (hs' ▸ h : Leads I R (.ok (.halted _)))
    case h_3 hs' => exact hb (hs' ▸ h : Leads I R (.ok (.running _)))

-- The machine is in the given code or right behind it, in no call, with a stack as high as the code
-- says.
structure Within (code : List Instruction) (s : State) : Prop where
  calls : s.calls = []
  pc    : s.pc ≤ code.length
  stack : (s.stack.length : Int) = total effect (code.take s.pc)

namespace Within

variable {code : List Instruction} {s s' : State} {i : Instruction}

theorem next (h : Within code s) (hi : code[s.pc]? = some i) (hc : s'.calls = s.calls)
    (hp : s'.pc = s.pc + 1) (hs : (s'.stack.length : Int) = s.stack.length + i.effect) :
    Within code s' where
  calls := hc.trans h.calls
  pc    := by
    have := (List.getElem?_eq_some_iff.mp hi).fst
    omega
  stack := by
    rw [hs, h.stack, hp, List.take_add_one, hi]
    simp

theorem jump (h : Within code s) {j : Nat} {l : Label} (hj : code[j]? = some (.label l))
    (ht : total effect (code.take j) = total effect (code.take s.pc)) (hc : s'.calls = s.calls)
    (hp : s'.pc = j) (hs : s'.stack = s.stack) : Within code s' where
  calls := hc.trans h.calls
  pc    := by
    have := (List.getElem?_eq_some_iff.mp hj).fst
    omega
  stack := by rw [hs, h.stack, hp, ht]

end Within

-- The image of a program with `k` functions that starts with code to be left at its end only.
structure Image.Confines (img : Image) (k : Nat) (code rest : List Instruction) : Prop where
  holds     : img.Holds (code ++ .halt :: rest)
  functions : ∀ i < k, .label (.function (toString i)) ∈ code ++ .halt :: rest
  total     : total effect code = 0
  fitting   : Fitting k 0 code
  closed    : Closed effect [] code []

namespace Image.Confines

variable {img : Image} {k : Nat} {code rest : List Instruction} {s : State}

theorem getElem? {j : Nat} {i : Instruction} (hj : code[j]? = some i) :
    (code ++ .halt :: rest)[j]? = some i := by
  rw [List.getElem?_append_left (List.getElem?_eq_some_iff.mp hj).fst, hj]

theorem line? (h : img.Confines k code rest) {j : Nat} {l : Label}
    (hj : code[j]? = some (.label l)) :
    img.line? l.name = some j :=
  h.holds.line?_iff l j |>.mpr <| getElem? hj

theorem function? (h : img.Confines k code rest) {i : Nat} (hi : i < k) :
    ∃ j, img.line? (Label.function (toString i)).name = some j := by
  have ⟨j, hj⟩ := List.getElem?_of_mem (h.functions i hi)
  exact ⟨j, h.holds.line?_iff _ j |>.mpr hj⟩

theorem halt (h : img.Confines k code rest) : img.ops[code.length]? = some .halt :=
  h.holds.getElem? (i := .halt) (by simp)

theorem step_end (h : img.Confines k code rest) (hs : Within code s) (hp : s.pc = code.length) :
    Leads (Within code) img.Settles (img.step s .halt) := by
  have hl : (s.stack.length : Int) = 0 := by rw [hs.stack, hp, List.take_length, h.total]
  refine .inl ⟨?_, ?_⟩
  · rw [← h.halt, ← hp]
  · simpa using hl

theorem step_inside {i : Instruction} (h : img.Confines k code rest) (hs : Within code s)
    (hi : code[s.pc]? = some i) :
    Leads (Within code) img.Settles (img.step s i.op) := by
  have hf := h.fitting.getElem? hi
  rw [Int.zero_add, ← hs.stack] at hf
  cases i
  case label | blank | separator => exact hs.next hi rfl rfl (by simp [effect])
  case load w r =>
    simp only [Image.step, Image.exec, Instruction.op]
    split
    case h_1 => exact hs.next hi rfl rfl (by simp [effect, State.write])
    case h_2 => trivial
  case loadAddress l r =>
    obtain ⟨i, hi', rfl⟩ := hf
    obtain ⟨j, hj⟩ := h.function? hi'
    simp only [Image.step, Image.exec, Instruction.op, Image.target, hj]
    exact hs.next hi rfl rfl (by simp [effect, State.write])
  case move | not | push | out => exact hs.next hi rfl rfl (by simp [effect, State.write])
  case binary o _ _ _ =>
    simp only [Image.step, Image.exec, Instruction.op, Operator.ofMnemonic?_mnemonic]
    split
    case h_1 => exact hs.next hi rfl rfl (by simp [effect, State.write])
    case h_2 => trivial
  case jump l =>
    obtain ⟨j, hj, ht, _⟩ := h.closed.lands s.pc _ l hi rfl
    simp only [Image.step, Image.exec, Instruction.op, Image.target, h.line? hj]
    exact hs.jump hj ht rfl rfl rfl
  case jumpIf l r =>
    obtain ⟨j, hj, ht, _⟩ := h.closed.lands s.pc _ l hi rfl
    simp only [Image.step, Image.exec, Instruction.op, Image.target, h.line? hj]
    split
    case isTrue  => exact hs.next hi rfl rfl (by simp [effect])
    case isFalse => exact hs.jump hj ht rfl rfl rfl
  case pop r =>
    obtain ⟨v, stack, hv⟩ : ∃ v stack, s.stack = v :: stack := List.exists_cons_of_length_pos <| by
      simp only [Fits] at hf
      omega
    have hl : (stack.length : Int) = s.stack.length + (pop r).effect := by
      rw [hv, List.length_cons, effect]
      omega
    simp only [Image.step, Image.exec, Instruction.op, hv]
    exact hs.next hi rfl rfl hl
  case ret =>
    simp only [Image.step, Image.exec, Instruction.op, hs.calls]
    refine .inr ⟨h.holds.getElem? (getElem? hi), fun hn => ?_⟩
    simp [Fits, show s.stack = [] from hn] at hf
  case callValue | halt => exact hf.elim

theorem settles (h : img.Confines k code rest) (budget : Nat) :
    img.Settles (img.runFrom budget {}) := by
  refine Image.runFrom_invariant (I := Within code) (fun s hs => ?_) trivial budget
    ⟨rfl, Nat.zero_le _, rfl⟩
  cases hi : code[s.pc]?
  case none =>
    have hp : s.pc = code.length := Nat.le_antisymm hs.pc (List.getElem?_eq_none_iff.mp hi)
    exact ⟨.halt, hp ▸ h.halt, h.step_end hs hp⟩
  case some i => exact ⟨i.op, h.holds.getElem? (getElem? hi), h.step_inside hs hi⟩

end Image.Confines

end Machine

-- The entry of a program, if it takes no parameters.
theorem Lower.Links.confines {naming : Naming} {functions : List Node} {entry : Node} {p : Program}
    {n : Nat} {img : Machine.Image} (h : Links naming functions entry p n)
    (hi : img.Holds p.instructions) (hp : ∀ params ∈ entry.children.head?, params.children = [])
    (he : ∀ c ∈ entry.children, c.Every (Node.Safe functions.length)) :
    ∃ rest, img.Confines functions.length p.entry rest := by
  have hm := fun i => h.label_mem (i := i)
  obtain ⟨code, l, rs, hd, -, hl⟩ := h
  obtain ⟨token, params, body, rest, tail, symbols, rfl, -, -, hb, rfl⟩ := hd.inv
  have hn : params.children = [] := hp params rfl
  have hpe : p.entry = .blank :: tail := by
    rw [hl, hn]
    rfl
  have hs : body.Every (Node.Safe functions.length) := he body (by simp)
  have hc : Closed Instruction.effect [] tail [] := hb.closed (neutral_effect functions.length) hs
  have ⟨ht, hf⟩ := hb.balanced hs
  have hpi : p.instructions = p.entry ++ .halt :: .separator :: p.routines.flatMap
      (·.code ++ [.separator]) := by
    simp [Program.instructions]
  refine ⟨.separator :: p.routines.flatMap (·.code ++ [.separator]), hpi ▸ hi, hpi ▸ hm, ?_, ?_, ?_⟩
  · simpa [hpe, Instruction.effect, Job.pushed] using ht
  · exact hpe ▸ ⟨trivial, hf _ (by decide)⟩
  · exact hpe ▸ .cons (.single rfl) hc.embed

theorem compile_settles {naming : Naming} {functions : List Node} {entry : Node} {p : Program}
    (h : compile naming functions entry = .ok p)
    (hp : ∀ params ∈ entry.children.head?, params.children = [])
    (he : ∀ c ∈ entry.children, c.Every (Node.Safe functions.length))
    (hf : ∀ f ∈ functions, ∀ c ∈ f.children, c.Every (Node.Legible functions.length)) :
    ∃ img, Machine.Image.load p.text = .ok img ∧ ∀ budget, img.Settles (img.runFrom budget {}) := by
  have ⟨g, hg⟩ := compile_eq_ok_iff.mp h
  have hl := Lower.program_sound hg
  have ⟨img, hi, hh⟩ := hl.load (fun c hc => (he c hc).imp fun _ h => h.legible) hf
  have ⟨rest, hc⟩ := hl.confines hh hp he
  exact ⟨img, hi, hc.settles⟩

-- A loop in an argument, with a return in it.
theorem compile_settles_loop :
    let loop  := Node.whileDo (.ident "n")
      (.block [.returns [.infixOp "/" (.number "1") (.ident "m")]])
    let entry := Node.function []
      (.block [.call "print" [.number "2", .infixOp "+" (.functionRef 0) loop]])
    ∃ p img, compile .scoped [.function ["n"] (.ident "n")] entry = .ok p ∧
      Machine.Image.load p.text = .ok img ∧ ∀ budget, img.Settles (img.runFrom budget {}) := by
  intro loop entry
  have hc : (compile .scoped [.function ["n"] (.ident "n")] entry).isOk = true := by decide +kernel
  cases h : compile .scoped [.function ["n"] (.ident "n")] entry
  case error => simp [h, Except.isOk, Except.toBool] at hc
  case ok p =>
    obtain ⟨img, hl, hs⟩ := compile_settles h (by decide) (by decide) (by decide)
    exact ⟨p, img, rfl, hl, hs⟩

end LineCode

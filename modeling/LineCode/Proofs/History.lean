import LineCode.Proofs.Balance
import LineCode.Proofs.Correspondence

namespace LineCode

namespace Label

-- The number of a label that comes from a supply.
def number? (l : Label) : Option Nat :=
  let n := Nat.ofDigitChars 10 (l.name.toList.drop 1) 0
  if l = numbered n then some n else none

theorem number?_numbered (n : Nat) : (numbered n).number? = some n := by
  have hn : Nat.ofDigitChars 10 ((numbered n).name.toList.drop 1) 0 = n := by simp [numbered]
  simp only [number?, hn, if_true]

-- Only labels that come from a supply are moved.
def offset (k : Nat) (l : Label) : Label :=
  match l.number? with
  | some n => numbered (k + n)
  | none   => l

theorem offset_numbered (k n : Nat) : (numbered n).offset k = numbered (k + n) := by
  rw [offset, number?_numbered]

end Label

def Instruction.offset (k : Nat) : Instruction → Instruction
  | label l    => label (l.offset k)
  | jump l     => jump (l.offset k)
  | jumpIf l r => jumpIf (l.offset k) r
  | i          => i

-- The code of a definition with its labels moved. Its own label does not come from a supply,
-- whatever it looks like.
def offsetCode (k : Nat) : List Instruction → List Instruction
  | []        => []
  | i :: code => i :: code.map (.offset k)

namespace Pool

variable {p q p' q' old : Pool} {d : Nat}

-- A pool that was already used as much as the old one, beside a pool that started afresh.
structure Resumes (old : Pool) (d : Nat) (p q : Pool) : Prop where
  left     : p.Stacked d
  right    : q.Stacked d
  capacity : p.capacity = max old.capacity q.capacity
  peak     : p.peak = max old.peak q.peak

namespace Resumes

theorem borrow (h : old.Resumes d p q) : old.Resumes (d + 1) p.borrow.snd q.borrow.snd where
  left     := h.left.borrow.right
  right    := h.right.borrow.right
  capacity := by rw [h.left.borrow_capacity, h.right.borrow_capacity, h.capacity, Nat.max_assoc]
  peak     := by rw [h.left.borrow_peak, h.right.borrow_peak, h.peak, Nat.max_assoc]

theorem release (h : old.Resumes (d + 1) p q) (hp : p.release (.temp d) = .ok p')
    (hq : q.release (.temp d) = .ok q') :
    old.Resumes d p' q' := by
  obtain ⟨hpc, hpk⟩ := release_keeps hp
  obtain ⟨hqc, hqk⟩ := release_keeps hq
  refine ⟨h.left.of_release hp, h.right.of_release hq, ?_, ?_⟩
  · rw [hpc, hqc, h.capacity]
  · rw [hpk, hqk, h.peak]

end Resumes
end Pool

namespace Stage

def offset (s : Stage) (k : Nat) : Stage := { s with issued := k + s.issued }

theorem label_offset (s : Stage) (k : Nat) : s.label.offset k = (s.offset k).label :=
  Label.offset_numbered k s.issued

end Stage

namespace Lower

-- A generator that goes on from an old one, beside a generator that starts afresh. Here labels do
-- not matter.
def resumption (old : Generator) : Correspondence where
  pool       := old.pool.Resumes
  register   := Eq
  label _ _  := True
  symbols    := Eq
  issued m n := m = old.labels.issued + n
  failure    := Eq
  ident _    := True
  name _     := True

instance (old : Generator) : (resumption old).Lawful where
  stacked h          := ⟨h.left, h.right⟩
  borrow             := Pool.Resumes.borrow
  release            := Pool.Resumes.release
  temp _             := rfl
  sink               := rfl
  fresh h            := ⟨trivial, congrArg Nat.succ h⟩
  function _         := trivial
  definition _       := trivial
  same _             := rfl
  resolve h _        :=
    ⟨congrArg (fun s => (Symbols.resolve s _).fst) h,
      congrArg (fun s => (Symbols.resolve s _).snd) h⟩
  declare h _        :=
    ⟨congrArg (fun s => (Symbols.declare s _).fst) h,
      congrArg (fun s => (Symbols.declare s _).snd) h⟩
  declareParameter h _ :=
    ⟨congrArg (fun s => (Symbols.declareParameter s _).fst) h,
      congrArg (fun s => (Symbols.declareParameter s _).snd) h⟩
  openBlock          := congrArg Symbols.openBlock
  closeBlock         := congrArg Symbols.closeBlock
  enter h _          := congrArg (Symbols.enter · _) h
  leave              := congrArg Symbols.leave

-- What a generator has used up after a definition, given what a new one has after the same
-- definition.
structure Adds (old fresh g : Generator) : Prop where
  issued   : g.labels.issued = old.labels.issued + fresh.labels.issued
  capacity : g.pool.capacity = max old.pool.capacity fresh.pool.capacity
  peak     : g.pool.peak = max old.pool.peak fresh.pool.peak

theorem Correspondence.Generators.adds {old fresh g : Generator} {d : Nat}
    (h : (resumption old).Generators d g fresh) :
    Adds old fresh g :=
  ⟨h.issued, h.pool.capacity, h.pool.peak⟩

section

variable {naming : Naming} {old : Generator} {node : Node}

theorem resumes_of_settled (h : old.Settled naming) :
    (resumption old).Generators 0 old (.new naming) where
  pool    := ⟨h.pool, Pool.stacked_new, (Nat.max_zero _).symm, (Nat.max_zero _).symm⟩
  trail   := h.trail
  symbols := h.symbols
  issued  := rfl
  code    := by rw [h.code]; exact .nil

-- The same definition with a generator in use and with a new one.
theorem resumes_generate (h : old.Settled naming) (name : String)
    (hn : ∀ c ∈ node.children, c.Every (·.kind ≠ .functionDefinition)) :
    (resumption old).Results 0 (resumption old).Instructions (generate name node old)
      (generate name node (.new naming)) := by
  have hc : ∀ n ∈ node.children, n.EveryPart (resumption old).Admits := fun n h =>
    ((hn n h).imp fun _ => Node.over_true).everyPart
  exact Correspondence.generates trivial hc _ _ (resumes_of_settled h)

end

theorem map_offset_printCode {k n : Nat} {t dst : Register} :
    (printCode t n dst).map (.offset k) = printCode t n dst := by
  refine (List.map_congr_left fun i hi => ?_).trans (List.map_id _)
  rcases mem_printCode hi with rfl | rfl | rfl | rfl <;> rfl

-- Code with its labels moved is what one gets by starting from a later label.
theorem Emits.offset {job : Job} {d : Nat} {s s' : Stage} {code : List Instruction}
    (h : Emits job d s code s') (hp : job.EveryPart (·.kind ≠ .functionDefinition)) (k : Nat) :
    Emits job d (s.offset k) (code.map (.offset k)) (s'.offset k) := by
  induction h
  case literalDiscarded => exact .literalDiscarded
  case literal          => exact .literal
  case identifier       => exact .identifier
  case reference        => exact .reference
  case nil              => exact .nil
  case noArgument       => exact .noArgument
  case definition       => exact absurd rfl (Node.EveryPart.self hp)
  case assignment ht ha _ hi =>
    exact .assignment ht ha (hi (Node.EveryPart.child hp (by simp) (by simp)))
  case binary ho _ _ h₁ h₂ =>
    have hc := fun c => Node.EveryPart.child (c := c) hp (by simp)
    rw [List.map_append, List.map_append]
    exact .binary ho (h₁ (hc _ (by simp))) (h₂ (hc _ (by simp)))
  case print hk ht _ hi =>
    have ha := Node.EveryPart.arguments hp
    rw [List.map_append, map_offset_printCode]
    exact .print hk ht (hi fun n hn => ha.child (by simp) hn)
  case call hk ht _ hi =>
    have ha := Node.EveryPart.arguments hp
    rw [List.map_append]
    exact .call hk ht (hi fun n hn => ha.child (by simp) hn)
  case block s _ _ _ hi =>
    exact .block (s := s.offset k) (hi fun n hn => Node.EveryPart.child hp (by simp) hn)
  case returns hi =>
    rw [List.map_append]
    exact .returns (hi fun n hn => Node.EveryPart.child hp (by simp) hn)
  case ifThen ht _ _ h₁ h₂ =>
    have hc := fun c => Node.EveryPart.child (c := c) hp (by simp)
    simp only [List.map_append, List.map_cons, List.map_nil, Instruction.offset, Instruction.negate,
      Stage.label_offset]
    exact .ifThen ht (h₁ (hc _ (by simp))) (h₂ (hc _ (by simp)))
  case whileDo ht _ _ h₁ h₂ =>
    have hc := fun c => Node.EveryPart.child (c := c) hp (by simp)
    simp only [List.map_append, List.map_cons, List.map_nil, Instruction.offset, Instruction.negate,
      Stage.label_offset]
    exact .whileDo ht (h₁ (hc _ (by simp))) (h₂ (hc _ (by simp)))
  case cons h₁ h₂ =>
    obtain ⟨hn, hns⟩ := List.forall_mem_cons.mp hp
    rw [List.map_append]
    exact .cons (h₁ hn) (h₂ hns)
  case argument h₁ h₂ =>
    obtain ⟨hn, hns⟩ := List.forall_mem_cons.mp hp
    rw [List.map_append, List.map_append]
    exact .argument (h₁ hns) (h₂ hn)

section

variable {naming : Naming} {g : Generator} {name : String} {node : Node} {code : List Instruction}
  {l l' : Nat}

theorem Defines.offset (h : Defines naming name node l code l')
    (hn : ∀ c ∈ node.children, c.Every (·.kind ≠ .functionDefinition)) (k : Nat) :
    Defines naming name node (k + l) (offsetCode k code) (k + l') := by
  refine ⟨h.kind, ?_⟩
  obtain ⟨kind, token, children⟩ := node
  obtain rfl : kind = .functionDefinition := h.kind
  obtain ⟨params, body, rest, tail, s, rfl, hk, hp, he, rfl, hs⟩ := h.emits.definition_inv
  have hb :
      Emits (.node ⟨.functionDefinition, token, params :: body :: rest⟩ .value
        (.register (.named name))) 0
      ⟨k + l, { naming }⟩ _ _ := .definition hk hp (he.offset (hn body (by simp)).everyPart k)
  have hs' : (s.offset k).withSymbols (s.offset k).symbols.leave = ⟨k + l', { naming }⟩ :=
    congrArg (Stage.offset · k) hs.symm
  rw [hs'] at hb
  rw [List.cons_append, offsetCode, List.map_append, List.map_map]
  exact hb

-- The code that a new generator makes of a definition, and how many labels it issues for it.
def Separately (naming : Naming) (name : String) (node : Node) (code : List Instruction) (n : Nat) :
    Prop :=
  ∃ g, generate name node (.new naming) = .ok code g ∧ g.labels.issued = n

-- Functions that are generated separately and put together, each with its labels behind those of
-- the functions before.
inductive Assembled (naming : Naming) : Nat → Nat → List Node → List Routine → Prop
  | nil {index l} : Assembled naming index l [] []
  | cons {index l f fs code n rs} :
    Separately naming (Label.function (toString index)).name f code n →
    Assembled naming (index + 1) (l + n) fs rs →
    Assembled naming index l (f :: fs)
      (⟨index, .function (toString index), offsetCode l code⟩ :: rs)

theorem Defines.separately (h : Defines naming name node 0 code l) :
    Separately naming name node code l := by
  obtain ⟨g, hg, hi⟩ := generate_complete (idle_new naming) h
  exact ⟨g, hg, congrArg Stage.issued hi.stage⟩

theorem idle_of_settled (h : g.Settled naming) : Idle g naming g.labels.issued :=
  ⟨h.pool, by rw [Generator.stage, h.symbols], h.code⟩

theorem resumes_ok {fresh : Generator} (h : g.Settled naming)
    (hn : ∀ c ∈ node.children, c.Every (·.kind ≠ .functionDefinition))
    (hf : generate name node (.new naming) = .ok code fresh) :
    ∃ g', generate name node g = .ok (offsetCode g.labels.issued code) g' ∧ Adds g fresh g' := by
  obtain ⟨n, hd, -⟩ := generate_sound (idle_new naming) hf
  obtain ⟨g', hg, -⟩ := generate_complete (idle_of_settled h) (hd.offset hn g.labels.issued)
  have hr := resumes_generate h name hn
  rw [hf, hg] at hr
  cases hr
  case ok hr => exact ⟨g', hg, hr.adds⟩

theorem resumes_error {fresh : Generator} {e : Generator.Failure} (h : g.Settled naming)
    (hn : ∀ c ∈ node.children, c.Every (·.kind ≠ .functionDefinition))
    (hf : generate name node (.new naming) = .error e fresh) :
    ∃ g', generate name node g = .error e g' ∧ Adds g fresh g' := by
  have hr := resumes_generate h name hn
  rw [hf] at hr
  generalize generate name node g = r at hr
  cases hr
  case error g' he hr => exact ⟨g', by rw [he], hr.adds⟩

-- What is generated later is what is generated separately, with other labels.
theorem Defines.eq_offset (h : Defines naming name node l code l')
    (hn : ∀ c ∈ node.children, c.Every (·.kind ≠ .functionDefinition)) :
    ∃ code₀ n, Separately naming name node code₀ n ∧ code = offsetCode l code₀ ∧ l' = l + n := by
  let g : Generator := { Generator.new naming with labels := ⟨l⟩ }
  have hs : g.Settled naming := ⟨Pool.stacked_new, rfl, rfl, rfl⟩
  obtain ⟨g', hg, hi⟩ := generate_complete (idle_of_settled hs) h
  have hl : g'.labels.issued = l' := congrArg Stage.issued hi.stage
  have hr := resumes_generate hs name hn
  rw [hg] at hr
  generalize hf : generate name node (.new naming) = r at hr
  cases hr
  case ok code₀ fresh _ hr =>
    obtain ⟨g₁, hg₁, ha⟩ := resumes_ok hs hn hf
    rw [hg] at hg₁
    cases hg₁
    exact ⟨code₀, fresh.labels.issued, ⟨fresh, hf, rfl⟩, rfl, hl ▸ ha.issued⟩

theorem Routines.assembled {index : Nat} {fs : List Node} {rs : List Routine}
    (h : Routines naming index l fs rs l')
    (hn : ∀ f ∈ fs, ∀ c ∈ f.children, c.Every (·.kind ≠ .functionDefinition)) :
    Assembled naming index l fs rs := by
  induction h
  case nil => exact .nil
  case cons hd _ hi =>
    obtain ⟨hf, hfs⟩ := List.forall_mem_cons.mp hn
    obtain ⟨code, n, hs, rfl, rfl⟩ := hd.eq_offset hf
    exact .cons hs (hi hfs)

end

-- What was lowered before leaves no trace in what comes next, but for the numbers of its labels. So
-- it makes no difference whether the sections of a program are generated in one go or one by one.
theorem generate_resumes (naming : Naming) :
    (∀ g name node, g.Reachable naming →
      (∀ c ∈ node.children, c.Every (·.kind ≠ .functionDefinition)) →
      (∀ code fresh, generate name node (.new naming) = .ok code fresh →
        ∃ g', generate name node g = .ok (offsetCode g.labels.issued code) g' ∧ Adds g fresh g') ∧
      ∀ e fresh, generate name node (.new naming) = .error e fresh →
        ∃ g', generate name node g = .error e g' ∧ Adds g fresh g') ∧
    ∀ functions entry p,
      (∀ f ∈ entry :: functions, ∀ c ∈ f.children, c.Every (·.kind ≠ .functionDefinition)) →
      compile naming functions entry = .ok p →
      ∃ code n, Separately naming Program.entryLabel.name entry code n ∧
        p.entry = Program.blankEntry code ∧
        Assembled naming 0 n functions p.routines := by
  refine ⟨fun g name node hg hn => ?_, fun functions entry p hn hp => ?_⟩
  · exact ⟨fun code fresh => resumes_ok hg.settled hn, fun e fresh => resumes_error hg.settled hn⟩
  · obtain ⟨he, hf⟩ := List.forall_mem_cons.mp hn
    obtain ⟨_, hg⟩ := compile_eq_ok_iff.mp hp
    obtain ⟨code, n, rs, hd, hr, rfl⟩ := program_sound hg
    exact ⟨code, n, hd.separately, rfl, hr.assembled hf⟩

-- A loop was rejected before, and two labels are gone. The definition that comes next has a name
-- that looks like a label.
theorem generate_resumes_lookalike :
    let g       : Generator :=
      { pool := ⟨1, [0], 1⟩, labels := ⟨2⟩, symbols := { naming := .verbatim } }
    let invalid := Node.function [] (.whileDo (.block []) (.block []))
    let node    := Node.function [] (.ifThen (.infixOp "+" (.ident "a") (.ident "b")) (.block []))
    (∃ e, generate "f" invalid (.new .verbatim) = .error e g) ∧
      ∃ g', generate "L0" node g = .ok [.label ⟨"L0"⟩, .move (.named "a") (.temp 1),
        .move (.named "b") (.temp 0),
        .binary .add (.temp 1) (.temp 0) (.temp 0), .negate (.temp 0),
        .jumpIf (.numbered 2) (.temp 0),
        .label (.numbered 2)] g' ∧ g'.labels.issued = 3 ∧ g'.pool.capacity = 2 ∧
        g'.pool.peak = 2 := by
  intro g invalid node
  have hg : ∃ e, generate "f" invalid (.new .verbatim) = .error e g := ⟨_, rfl⟩
  obtain ⟨e, he⟩ := hg
  obtain ⟨hr, -⟩ := generate_resumes .verbatim
  obtain ⟨ho, -⟩ := hr g "L0" node (.failed .new he) (by decide)
  obtain ⟨g', hg', ha⟩ := ho _ _ rfl
  exact ⟨⟨e, he⟩, g', hg', ha.issued, ha.capacity, ha.peak⟩

end Lower
end LineCode

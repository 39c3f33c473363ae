import LineCode.Proofs.Correspondence
import LineCode.Proofs.Slots

namespace LineCode

-- What stands between the first two dots of the name of a register, if it has any.
def Register.erase : Register → Register
  | named x => named (.ofList ((x.toList.splitOn '.')[1]?.getD x.toList))
  | temp d  => temp d

def Instruction.mapRegisters (f : Register → Register) : Instruction → Instruction
  | label l               => label l
  | blank                 => blank
  | load literal dst      => load literal (f dst)
  | loadAddress l dst     => loadAddress l (f dst)
  | move src dst          => move (f src) (f dst)
  | binary op lhs rhs dst => binary op (f lhs) (f rhs) (f dst)
  | not src dst           => not (f src) (f dst)
  | jump l                => jump l
  | jumpIf l condition    => jumpIf l (f condition)
  | push src              => push (f src)
  | pop dst               => pop (f dst)
  | callValue callee      => callValue (f callee)
  | ret                   => ret
  | out src               => out (f src)
  | halt                  => halt
  | separator             => separator

def Instruction.erase : Instruction → Instruction := mapRegisters Register.erase

-- The same sections, line by line.
def Program.erase (p : Program) : Program where
  entry    := p.entry.map .erase
  routines := p.routines.map fun r => { r with code := r.code.map .erase }

namespace Register

theorem erase_named {x : String} (h : '.' ∉ x.toList) : (named x).erase = named x := by
  have hs : (['.'].intercalate [x.toList]).splitOn '.' = [x.toList] :=
    List.splitOn_intercalate '.' (by simpa using h) (by simp)
  rw [List.intercalate_singleton] at hs
  simp [erase, hs]

theorem erase_sink : sink.erase = sink :=
  erase_named (by decide)

end Register

namespace Frame

theorem erase_slot {f : Frame} {ident : String} (hn : '.' ∉ f.name.toList) (hi : '.' ∉ ident.toList)
    (n : Nat) :
    (f.slot ident n).erase = .named ident := by
  obtain ⟨rest, hr⟩ := f.slot_under ident n
  have hl := f.toList_slot ident n
  rw [hr] at hl ⊢
  rw [Register.name] at hl
  rw [Register.erase, hl,
    List.splitOn_intercalate '.' (List.forall_mem_cons.mpr ⟨hn, slotFields_noDot hi⟩) (by simp)]
  cases n <;> simp [slotFields]

-- Erasure gives back the identifier that a register is bound to.
structure Faithful (f : Frame) : Prop where
  name  : '.' ∉ f.name.toList
  binds : f.Binds fun ident r => r.erase = .named ident

namespace Faithful

variable {f : Frame} {ident : String}

theorem nextSlot (h : f.Faithful) (hi : '.' ∉ ident.toList) :
    (f.nextSlot ident).erase = .named ident :=
  erase_slot h.name hi _

theorem bindOuter (h : f.Faithful) (hi : '.' ∉ ident.toList) : (f.bindOuter ident).Faithful :=
  ⟨h.name, h.binds.bindOuter (h.nextSlot hi)⟩

theorem bindInner (h : f.Faithful) (hi : '.' ∉ ident.toList) : (f.bindInner ident).Faithful :=
  ⟨by rw [f.bindInner_name]; exact h.name, h.binds.bindInner (h.nextSlot hi)⟩

end Faithful
end Frame

-- Symbols with scopes beside symbols without. What frames the latter have does not matter.
structure Symbols.Erases (s t : Symbols) : Prop where
  left   : s.naming = .scoped
  right  : t.naming = .verbatim
  frames : ∀ f ∈ s.frames, f.Faithful

namespace Symbols.Erases

variable {s t : Symbols} {ident : String}

theorem inFrame {f : Frame → Register × Frame} (h : s.Erases t) (hi : '.' ∉ ident.toList)
    (hf : ∀ frame, frame.Faithful → (f frame).fst.erase = .named ident ∧ (f frame).snd.Faithful) :
    (t.inFrame ident f).fst = (s.inFrame ident f).fst.erase ∧
      (s.inFrame ident f).snd.Erases (t.inFrame ident f).snd := by
  obtain ⟨hr, hfs⟩ :=
    inFrame_forall (P := fun r => r.erase = .named ident) h.frames (Register.erase_named hi) hf
  rw [inFrame_verbatim h.right]
  exact ⟨hr.symm, (s.inFrame_naming ident f).trans h.left, h.right, hfs⟩

theorem modifyFrame {m : Frame → Frame} (h : s.Erases t) (hm : ∀ f, f.Faithful → (m f).Faithful) :
    (s.modifyFrame m).Erases (t.modifyFrame m) :=
  ⟨(Keeps.modifyFrame s m).naming.trans h.left, (Keeps.modifyFrame t m).naming.trans h.right,
    modifyFrame_forall h.frames hm⟩

theorem resolve (h : s.Erases t) (hi : '.' ∉ ident.toList) :
    (t.resolve ident).fst = (s.resolve ident).fst.erase ∧
      (s.resolve ident).snd.Erases (t.resolve ident).snd := by
  refine h.inFrame hi fun f hf => ?_
  cases hl : f.lookup? ident
  case none   => exact ⟨hf.nextSlot hi, hf.bindOuter hi⟩
  case some r => exact ⟨hf.binds.lookup hl, hf⟩

theorem declare (h : s.Erases t) (hi : '.' ∉ ident.toList) :
    (t.declare ident).fst = (s.declare ident).fst.erase ∧
      (s.declare ident).snd.Erases (t.declare ident).snd :=
  h.inFrame hi fun _ hf => ⟨hf.nextSlot hi, hf.bindInner hi⟩

theorem declareParameter (h : s.Erases t) (hi : '.' ∉ ident.toList) :
    (t.declareParameter ident).fst = (s.declareParameter ident).fst.erase ∧
      (s.declareParameter ident).snd.Erases (t.declareParameter ident).snd :=
  h.inFrame hi fun _ hf => ⟨hf.nextSlot hi, hf.bindOuter hi⟩

theorem openBlock (h : s.Erases t) : s.openBlock.Erases t.openBlock :=
  h.modifyFrame fun _ hf => ⟨hf.name, hf.binds.openBlock⟩

theorem closeBlock (h : s.Erases t) : s.closeBlock.Erases t.closeBlock :=
  h.modifyFrame fun _ hf => ⟨hf.name, hf.binds.closeBlock⟩

theorem enter {name : String} (h : s.Erases t) (hn : '.' ∉ name.toList) :
    (s.enter name).Erases (t.enter name) :=
  ⟨h.left, h.right, List.forall_mem_cons.mpr ⟨⟨hn, .empty name⟩, h.frames⟩⟩

theorem leave (h : s.Erases t) : s.leave.Erases t.leave :=
  ⟨h.left, h.right, fun f hf => h.frames f (List.mem_of_mem_tail hf)⟩

end Symbols.Erases

-- The identifiers of a node have no dots in them, and there is no definition in it.
def Node.Dotless : Node → Prop :=
  Over ('.' ∉ ·.toList) ('.' ∉ ·.toList) (fun _ => True) (fun _ => True)

instance : DecidablePred Node.Dotless := fun n =>
  inferInstanceAs
    (Decidable (n.Over ('.' ∉ ·.toList) ('.' ∉ ·.toList) (fun _ => True) (fun _ => True)))

namespace Lower

-- Lowering with scopes beside lowering without.
def erasure : Correspondence where
  pool d p q    := p.Stacked d ∧ q.Stacked d
  register r r' := r' = r.erase
  label         := Eq
  symbols       := Symbols.Erases
  issued        := Eq
  failure       := Eq
  ident x       := '.' ∉ x.toList
  name x        := '.' ∉ x.toList

instance : erasure.Lawful where
  stacked h        := h
  borrow h         := ⟨h.left.borrow.right, h.right.borrow.right⟩
  release h hp hq  := ⟨h.left.of_release hp, h.right.of_release hq⟩
  temp _           := rfl
  sink             := Register.erase_sink.symm
  fresh h          := ⟨congrArg Label.numbered h, congrArg Nat.succ h⟩
  function _       := rfl
  definition _     := rfl
  same _           := rfl
  resolve          := Symbols.Erases.resolve
  declare          := Symbols.Erases.declare
  declareParameter := Symbols.Erases.declareParameter
  openBlock        := Symbols.Erases.openBlock
  closeBlock       := Symbols.Erases.closeBlock
  enter            := Symbols.Erases.enter
  leave            := Symbols.Erases.leave

theorem eq_map_of_forall₂ {α β : Type} {f : α → β} {l : List α} {l' : List β}
    (h : List.Forall₂ (fun a b => b = f a) l l') : l' = l.map f := by
  induction h
  case nil          => rfl
  case cons ha _ hi => rw [ha, hi, List.map_cons]

theorem erasure_instructions {code code' : List Instruction} (h : erasure.Instructions code code') :
    code' = code.map .erase := by
  refine eq_map_of_forall₂ (h.imp fun i j hi => ?_)
  cases hi <;> simp_all only [erasure] <;> rfl

theorem erasure_programs {p q : Program} (h : erasure.Programs p q) : q = p.erase := by
  ext1
  case entry => exact erasure_instructions h.entry
  case routines =>
    refine eq_map_of_forall₂ (h.routines.imp fun r r' hr => ?_)
    ext1
    case index => exact hr.index.symm
    case label => exact hr.label.symm
    case code  => exact erasure_instructions hr.code

theorem compile_erases {functions : List Node} {entry : Node}
    (h : ∀ f ∈ entry :: functions, ∀ c ∈ f.children, c.EveryPart Node.Dotless) :
    Coincide Eq (fun p q => q = p.erase) (compile .scoped functions entry)
      (compile .verbatim functions entry) := by
  have he : '.' ∉ Program.entryLabel.name.toList := by decide
  have hs : Symbols.Erases { naming := .scoped } { naming := .verbatim } := ⟨rfl, rfl, by simp⟩
  have hc := Correspondence.compiles (c := erasure) (fun _ _ hl => hl) Label.function_noDot he hs
    rfl ⟨Pool.stacked_new, Pool.stacked_new⟩ h
  exact hc.imp (fun _ _ he => he) fun _ _ => erasure_programs

end Lower

-- Scopes change nothing but the names of registers. A program is rejected for the same reason with
-- them and without.
theorem compile_verbatim_eq_erase {functions : List Node} {entry : Node}
    (h : ∀ f ∈ entry :: functions, ∀ c ∈ f.children, c.Every Node.Dotless) :
    compile .verbatim functions entry = (compile .scoped functions entry).map Program.erase :=
  (Lower.compile_erases fun f hf c hc => (h f hf c hc).everyPart).eq_map

-- A variable is shadowed, and shared by name with another definition. One more statement, and the
-- program is rejected.
theorem compile_verbatim_eq_erase_shadowing :
    let callee  := Node.function ["x", "x"] (.returns [.ident "x"])
    let block   := Node.block [.assign (.letIdent "x") (.ident "x"), .call "f" [.ident "x"]]
    let entry   := Node.function [] (.block [.assign (.ident "x") (.number "1"), block])
    let invalid := Node.function []
      (.block [.assign (.ident "x") (.number "1"), block, .assign (.number "1") (.ident "x")])
    (∃ p, compile .scoped [callee] entry = .ok p ∧ compile .verbatim [callee] entry = .ok p.erase) ∧
    ∃ e, compile .scoped [callee] invalid = .error e ∧
      compile .verbatim [callee] invalid = .error e := by
  intro callee block entry invalid
  have hv := @compile_verbatim_eq_erase [callee] entry (by decide)
  have hi := @compile_verbatim_eq_erase [callee] invalid (by decide)
  have ho : (compile .scoped [callee] entry).isOk = true := by decide +kernel
  have he : (compile .scoped [callee] invalid).isOk = false := by decide +kernel
  refine ⟨?_, ?_⟩
  · cases h : compile .scoped [callee] entry
    case ok p    => exact ⟨p, rfl, by rw [hv, h]; rfl⟩
    case error e => simp [h, Except.isOk, Except.toBool] at ho
  · cases h : compile .scoped [callee] invalid
    case ok p    => simp [h, Except.isOk, Except.toBool] at he
    case error e => exact ⟨e, rfl, by rw [hi, h]; rfl⟩

end LineCode

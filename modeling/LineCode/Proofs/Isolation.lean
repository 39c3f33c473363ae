import LineCode.Machine.Run
import LineCode.Proofs.Slots

namespace LineCode

-- A frame all of whose registers belong to the definition with the given label.
structure Frame.Owned (owner : String) (f : Frame) : Prop where
  name  : f.name = owner
  binds : f.Binds fun _ r => r.Under owner

namespace Frame.Owned

variable {f : Frame} {name ident : String}

theorem empty (name : String) : Owned name { name } :=
  ⟨rfl, .empty name⟩

theorem nextSlot (h : f.Owned name) (ident : String) : (f.nextSlot ident).Under name :=
  h.name ▸ f.slot_under ident _

theorem bindOuter (h : f.Owned name) (ident : String) : (f.bindOuter ident).Owned name :=
  ⟨h.name, h.binds.bindOuter (h.nextSlot ident)⟩

theorem bindInner (h : f.Owned name) (ident : String) : (f.bindInner ident).Owned name :=
  ⟨(f.bindInner_name ident).trans h.name, h.binds.bindInner (h.nextSlot ident)⟩

end Frame.Owned

theorem Instruction.mem_registers {i : Instruction} {r : Register} (h : r ∈ i.written?) :
    r ∈ i.registers := by
  cases i <;> simp_all [written?, registers]

-- The registers that the code of a definition may deal with.
inductive Register.Local (name : String) : Register → Prop
  | sink : Local name .sink
  | temp (d : Nat) : Local name (.temp d)
  | own {r : Register} : r.Under name → Local name r

namespace Register.Local

variable {name name' x : String} {r : Register}

theorem name_eq (h : (named x).Local name) : x = "NONE" ∨ ∃ rest, x = name ++ "." ++ rest := by
  generalize hr : named x = r at h
  cases h
  case sink  => exact .inl (named.inj hr)
  case temp  => contradiction
  case own h =>
    obtain ⟨rest, h⟩ := h
    exact .inr ⟨rest, named.inj (hr.trans h)⟩

theorem ne_temp_name (h : (named x).Local name) (hd : '.' ∉ name.toList) (hn : name ≠ "")
    (d : Nat) :
    x ≠ (Register.temp d).name := by
  rcases h.name_eq with rfl | ⟨rest, rfl⟩
  · rw [temp_name_eq]
    exact sink_name_ne _ _
  · exact (temp_name_ne_append hd hn d).symm

-- The code of two definitions shares nothing but the sink.
theorem name_eq_sink (h : (named x).Local name) (h' : (named x).Local name')
    (hn : '.' ∉ name.toList) (hn' : '.' ∉ name'.toList) (hne : name ≠ name') : x = "NONE" := by
  refine h.name_eq.resolve_right fun ⟨rest, hx⟩ => ?_
  subst hx
  rcases h'.name_eq with hs | ⟨rest', he⟩
  · exact sink_name_ne name rest hs.symm
  · exact hne (eq_of_append_dot hn hn' he).left

-- A register of another definition goes by another name.
theorem name_ne (h : r.Local name) (hn : '.' ∉ name.toList) (hd : '.' ∉ name'.toList)
    (he : name' ≠ "") (hne : name ≠ name') (rest : String) : r.name ≠ name' ++ "." ++ rest := by
  cases h
  case sink   => exact sink_name_ne name' rest
  case temp d => exact temp_name_ne_append hd he d
  case own h =>
    obtain ⟨rest', rfl⟩ := h
    exact fun h => hne (eq_of_append_dot hn hd h).left

end Register.Local

-- A line that does not belong to the code that starts on the given line.
def Outside (line : Nat) (code : List Instruction) (k : Nat) : Prop :=
  k < line ∨ line + code.length ≤ k

namespace Lower

theorem local_vocabulary (name : String) :
    Vocabulary (Symbols.Single (Frame.Owned name)) (fun _ => True)
    (fun _ => True) (Register.Local name) (fun _ => True) (fun _ => True) where
  resolve hs _    := hs.inFrame fun f hf => by
    split
    case h_1 hl => exact ⟨.own (hf.binds.lookup hl), hf⟩
    case h_2    => exact ⟨.own (hf.nextSlot _), hf.bindOuter _⟩
  declare hs _    := hs.inFrame fun f hf => ⟨.own (hf.nextSlot _), hf.bindInner _⟩
  openBlock hs    := hs.modifyFrame fun _ hf => ⟨hf.name, hf.binds.openBlock⟩
  closeBlock hs   := hs.modifyFrame fun _ hf => ⟨hf.name, hf.binds.closeBlock⟩
  temp            := .temp
  sink            := .sink
  numbered _      := trivial
  zero            := trivial

namespace Links

variable {functions : List Node} {entry : Node} {p : Program} {n line : Nat} {name : String}
  {code : List Instruction} (h : Links .scoped functions entry p n)
  (hn : ∀ f ∈ entry :: functions, ∀ c ∈ f.children, c.Every (·.kind ≠ .functionDefinition))

include h hn

theorem local_registers (hs : p.Section name line code) :
    ∀ i ∈ code, ∀ r ∈ i.registers, r.Local name := by
  obtain ⟨node, first, tail, l₁, l₂, hl, rfl, hf, hd⟩ := h.section hs
  have hc : ∀ c ∈ node.children,
      c.EveryPart (Node.Over (fun _ => True) (fun _ => True) (fun _ => True) fun _ => True) :=
    fun c hc => (hn node hl.mem c hc).everyPart.imp fun _ => Node.over_true
  have ht := hd.over (local_vocabulary name) hc fun _ _ hp => by
    refine parameters_over (U := fun _ => True) (fun s ident hs _ => ?_) hp (.enter (.empty name))
    exact hs.inFrame fun f hf => ⟨.own (hf.nextSlot _), hf.bindOuter _⟩
  refine List.forall_mem_cons.mpr ⟨?_, fun i hi => (ht i hi).registers⟩
  rcases hf with rfl | rfl <;> simp [Instruction.registers]

-- What a line outside of the code of a definition writes.
theorem written_ne {k : Nat} {i : Instruction} (hs : p.Section name line code)
    (hk : Outside line code k) (hi : p.instructions[k]? = some i) (rest : String) :
    ∀ r ∈ i.written?, r.name ≠ name ++ "." ++ rest := by
  intro r hr
  rcases Program.getElem?_instructions hi with rfl | rfl | ⟨name', line', m, code', hs', rfl, hm⟩
  · contradiction
  · contradiction
  · obtain ⟨node, _, _, _, _, hl, _⟩ := h.section hs
    obtain ⟨node', _, _, _, _, hl', _⟩ := h.section hs'
    have hne : name' ≠ name := by
      rintro rfl
      obtain ⟨rfl, rfl⟩ := hs.unique hs'
      have hb := (List.getElem?_eq_some_iff.mp hm).fst
      unfold Outside at hk
      omega
    have hr := h.local_registers hn hs' i (List.mem_of_getElem? hm) r (Instruction.mem_registers hr)
    exact hr.name_ne hl'.noDot hl.noDot hl.ne_empty hne rest

end Links
end Lower

namespace Machine

def Progress.state : Progress → State
  | running s => s
  | halted s  => s

namespace State

-- What a register holds, if it has been written.
def held? (s : State) (name : String) : Option Int := s.registers.entries.lookup name

-- The registers of a definition are left as they were.
def Keeps (name : String) (s s' : State) : Prop :=
  ∀ rest, s'.held? (name ++ "." ++ rest) = s.held? (name ++ "." ++ rest)

theorem Keeps.trans {name : String} {s s₁ s₂ : State} (h₁ : s.Keeps name s₁)
    (h₂ : s₁.Keeps name s₂) :
    s.Keeps name s₂ :=
  fun rest => (h₂ rest).trans (h₁ rest)

end State

namespace Image

variable {img : Image} {s s' : State}

-- A line writes to one register at most.
theorem exec_registers {i : Instruction} {progress : Progress}
    (h : img.exec s i.op = .ok progress) :
    progress.state.registers = s.registers ∨
      ∃ r ∈ i.written?, ∃ v, progress.state.registers = s.registers.set r.name v := by
  cases i <;> simp only [Instruction.op, exec, bind, Except.bind, pure, Except.pure] at h
  case label | blank | jump | jumpIf | push | callValue | ret | out | halt | separator =>
    left
    repeat' split at h
    all_goals cases h <;> rfl
  case load | loadAddress | move | binary | not | pop =>
    right
    repeat' split at h
    all_goals cases h <;> exact ⟨_, rfl, _, rfl⟩

theorem step_held? {i : Instruction} {progress : Progress} (h : img.step s i.op = .ok progress)
    {x : String} (hx : ∀ r ∈ i.written?, r.name ≠ x) : progress.state.held? x = s.held? x := by
  rcases exec_registers h with hr | ⟨r, hw, v, hr⟩
  · rw [State.held?, hr, State.held?]
  · rw [State.held?, hr, Registers.set, Registers.lookup_put, if_neg (hx r hw).symm, State.held?]

-- One line that satisfies a condition is executed, and the run goes on.
def Moves (img : Image) (P : Nat → Prop) (s s' : State) : Prop :=
  P s.pc ∧ ∃ op, img.ops[s.pc]? = some op ∧ img.step s op = .ok (.running s')

end Image
end Machine

-- Each definition has named registers of its own, but for the sink, and none looks like a
-- temporary.
structure Program.Apart (p : Program) : Prop where
  own {name line code i x} : p.Section name line code → i ∈ code → .named x ∈ i.registers →
    x = "NONE" ∨ ∃ rest, x = name ++ "." ++ rest
  shared {name line code name' line' code' i j x} : p.Section name line code →
    p.Section name' line' code' →
    line ≠ line' → i ∈ code → j ∈ code' → .named x ∈ i.registers → .named x ∈ j.registers →
    x = "NONE"
  ne_temp {name line code i x} (d : Nat) : p.Section name line code → i ∈ code →
    .named x ∈ i.registers →
    x ≠ (Register.temp d).name

-- The machine leaves the registers of a definition alone while it is elsewhere in the program, for
-- instance during a call.
structure Machine.Image.Isolates (img : Image) (p : Program) : Prop where
  step {name line code s op progress} : p.Section name line code → img.ops[s.pc]? = some op →
    Outside line code s.pc → img.step s op = .ok progress → s.Keeps name progress.state
  call {name line code s callee s₁ s₂} : p.Section name line code →
    img.ops[s.pc]? = some (.callValue callee) →
    img.step s (.callValue callee) = .ok (.running s₁) →
    Relation.ReflTransGen (img.Moves (Outside line code)) s₁ s₂ → s.Keeps name s₂

namespace Lower.Links

open Machine

variable {functions : List Node} {entry : Node} {p : Program} {n line : Nat} {name : String}
  {code : List Instruction} {img : Image} {s s' : State} (h : Links .scoped functions entry p n)
  (hn : ∀ f ∈ entry :: functions, ∀ c ∈ f.children, c.Every (·.kind ≠ .functionDefinition))

include h hn

theorem apart : p.Apart where
  own hs hi hx := (h.local_registers hn hs _ hi _ hx).name_eq
  shared hs hs' hne hi hj hx hx' := by
    obtain ⟨_, _, _, _, _, hd, _⟩ := h.section hs
    obtain ⟨_, _, _, _, _, hd', _⟩ := h.section hs'
    have hl := h.local_registers hn hs _ hi _ hx
    have hl' := h.local_registers hn hs' _ hj _ hx'
    refine hl.name_eq_sink hl' hd.noDot hd'.noDot ?_
    rintro rfl
    exact hne (hs.unique hs').left
  ne_temp d hs hi hx := by
    obtain ⟨_, _, _, _, _, hd, _⟩ := h.section hs
    exact (h.local_registers hn hs _ hi _ hx).ne_temp_name hd.noDot hd.ne_empty d

theorem step_keeps (hi : img.Holds p.instructions) (hs : p.Section name line code) {op : Op}
    {progress : Progress} (ho : img.ops[s.pc]? = some op) (hk : Outside line code s.pc)
    (hp : img.step s op = .ok progress) :
    s.Keeps name progress.state := by
  intro rest
  rw [hi.ops_eq, List.getElem?_toArray, List.getElem?_map] at ho
  obtain ⟨i, hi, rfl⟩ := Option.map_eq_some_iff.mp ho
  exact Image.step_held? hp (h.written_ne hn hs hk hi rest)

theorem moves_keep (hi : img.Holds p.instructions) (hs : p.Section name line code)
    (hm : Relation.ReflTransGen (img.Moves (Outside line code)) s s') : s.Keeps name s' := by
  induction hm
  case refl => exact fun _ => rfl
  case tail hm hk =>
    obtain ⟨ho, op, hop, hs'⟩ := hm
    exact hk.trans (h.step_keeps hn hi hs hop ho hs')

theorem isolates (hi : img.Holds p.instructions) : img.Isolates p where
  step hs ho hk hp := h.step_keeps hn hi hs ho hk hp
  call {name _ _ s callee s₁ _} hs _ hp hm := by
    -- The call may well be a line of the definition, but it writes to no register.
    have hk : s.Keeps name s₁ := fun _ =>
      Image.step_held? (i := .callValue (.named callee)) hp (by simp [Instruction.written?])
    exact hk.trans (h.moves_keep hn hi hs hm)

end Lower.Links

theorem compile_isolates {functions : List Node} {entry : Node} {p : Program}
    (h : compile .scoped functions entry = .ok p)
    (hn : ∀ f ∈ entry :: functions, ∀ c ∈ f.children, c.Every (·.kind ≠ .functionDefinition)) :
    p.Apart ∧ ((∀ f ∈ entry :: functions, ∀ c ∈ f.children, c.Every Node.Readable) →
      ∃ img, Machine.Image.load p.text = .ok img ∧ img.Isolates p) := by
  obtain ⟨g, hg⟩ := compile_eq_ok_iff.mp h
  have hl := Lower.program_sound hg
  refine ⟨hl.apart hn, fun hr => ?_⟩
  obtain ⟨img, hi, hh⟩ := hl.load_readable hr
  exact ⟨img, hi, hl.isolates hn hh⟩

-- Two definitions with a variable and a parameter of the same name, which the one changes when the
-- other calls it.
theorem compile_isolates_call :
    let callee := Node.function ["x"]
      (.block [.assign (.ident "x") (.infixOp "+" (.ident "x") (.number "1")),
      .returns [.ident "x"]])
    let entry  := Node.function []
      (.block [.assign (.letIdent "x") (.number "1"), .assign (.ident "f") (.functionRef 0),
      .call "f" [.ident "x"], .call "print" [.ident "x"]])
    ∃ p img, compile .scoped [callee] entry = .ok p ∧ p.Apart ∧
      Machine.Image.load p.text = .ok img ∧ img.Isolates p := by
  intro callee entry
  have hc : (compile .scoped [callee] entry).isOk = true := by decide +kernel
  cases h : compile .scoped [callee] entry
  case error => simp [h, Except.isOk, Except.toBool] at hc
  case ok p =>
    obtain ⟨hp, hi⟩ := compile_isolates h (by decide)
    obtain ⟨img, hl, hi⟩ := hi (by decide)
    exact ⟨p, img, rfl, hp, hl, hi⟩

end LineCode

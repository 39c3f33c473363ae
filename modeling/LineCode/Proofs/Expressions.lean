import LineCode.Proofs.Execution
import LineCode.Proofs.Fragment

namespace LineCode.Source

open Lower Machine

-- A register in which a value may be put while the temporaries from `d` on are free.
def Slot (d : Nat) (r : Register) : Prop := ∀ j, d ≤ j → (Register.temp j).name ≠ r.name

theorem slot_temp {d j : Nat} (h : j < d) : Slot d (.temp j) := by
  intro i hi he
  have := Register.temp_name_inj he
  omega

theorem slot_named {d : Nat} {x : String} (h : '.' ∉ x.toList) : Slot d (.named x) :=
  fun j _ => Register.temp_name_ne h j

theorem Slot.succ {d : Nat} {r : Register} (h : Slot d r) : Slot (d + 1) r :=
  fun j hj => h j (Nat.le_of_succ_le hj)

-- The machine holds the memory in its named registers.
structure Mirrors (m : Memory) (s : State) : Prop where
  vars   : ∀ x, Name x → s.read x = m.vars x
  output : s.output = m.output

theorem Mirrors.tick {m : Memory} {s : State} (h : Mirrors m s) : Mirrors m s.tick :=
  ⟨h.vars, h.output⟩

theorem Mirrors.set {m : Memory} {s : State} {x : String} {v : Int} (hx : s.read x = v)
    (hv : ∀ y, Name y → y ≠ x → s.read y = m.vars y) (ho : s.output = m.output) :
    Mirrors (m.set x v) s := by
  refine ⟨fun y hy => ?_, ho⟩
  by_cases hyx : y = x
  case pos => simpa [Memory.set, hyx] using hx
  case neg => simpa [Memory.set, hyx] using hv y hy hyx

-- A value has been computed into a register, up to the given line. Temporaries keep their values
-- unless functions are called.
structure Yields (calls : Bool) (d : Nat) (r : Register) (s : State) (line : Nat) (v : Int)
    (m : Memory) (s' : State) :
    Prop where
  pc     : s'.pc = line
  value  : s'.read r.name = v
  vars   : ∀ x, Name x → x ≠ r.name → s'.read x = m.vars x
  output : s'.output = m.output
  stack  : s'.stack = s.stack
  frames : s'.calls = s.calls
  temps  : calls = false → ∀ j < d, (Register.temp j).name ≠ r.name →
    s'.read (Register.temp j).name = s.read (Register.temp j).name

-- A number of arguments has been computed, with the help of a temporary. The first one is on top of
-- the stack.
structure Pushes (calls : Bool) (d t : Nat) (s : State) (line count : Nat) (vs : List Int)
    (m : Memory) (s' : State) :
    Prop where
  pc      : s'.pc = line
  length  : vs.length = count
  mirrors : Mirrors m s'
  stack   : s'.stack = vs ++ s.stack
  frames  : s'.calls = s.calls
  temps   : calls = false → ∀ j < d, j ≠ t →
    s'.read (Register.temp j).name = s.read (Register.temp j).name

section

variable {calls : Bool} {d line : Nat} {r : Register} {s s' : State} {v : Int} {m : Memory}

theorem Yields.mirrors (h : Yields calls d r s line v m s') (hr : ∀ x, Name x → x ≠ r.name) :
    Mirrors m s' where
  vars x hx := h.vars x hx (hr x hx)
  output    := h.output

theorem Pushes.push {t line₁ line₂ count : Nat} {vs : List Int} {m₁ m₂ : Memory} {s₁ s₂ : State}
    (h : Pushes calls d t s line₁ count vs m₁ s₁) (hy : Yields calls d (.temp t) s₁ line₂ v m₂ s₂) :
    Pushes calls d t s (line₂ + 1) (count + 1) (v :: vs) m₂
      { s₂ with stack := s₂.read (Register.temp t).name :: s₂.stack }.tick where
  pc              := congrArg (· + 1) hy.pc
  length          := congrArg (· + 1) h.length
  mirrors         := ⟨fun x hx => hy.vars x hx (name_ne_temp hx t), hy.output⟩
  stack           := by rw [State.tick_stack, hy.value, hy.stack, h.stack, List.cons_append]
  frames          := hy.frames.trans h.frames
  temps hc j hj hn := (hy.temps hc j hj fun he => hn (Register.temp_name_inj he)).trans
    (h.temps hc j hj hn)

-- The left operand waits in a temporary while the right one is computed.
theorem Yields.operate {line₁ line₂ : Nat} {a b : Int} {m₁ m₂ : Memory} {s₁ s₂ : State}
    (h₁ : Yields calls (d + 1) (.temp d) s line₁ a m₁ s₁)
    (h₂ : Yields false (d + 1) r s₁ line₂ b m₂ s₂) (v : Int) :
    Yields calls d r s (line₂ + 1) v m₂ (s₂.write r.name v).tick where
  pc              := by rw [State.tick_pc, State.write_pc, h₂.pc]
  value           := State.read_write_self s₂ r.name v
  vars x hx hn    := (State.read_write_of_ne hn s₂ v).trans (h₂.vars x hx hn)
  output          := h₂.output
  stack           := h₂.stack.trans h₁.stack
  frames          := h₂.frames.trans h₁.frames
  temps hc j hj hn := by
    have hd : (Register.temp j).name ≠ (Register.temp d).name :=
      fun h => Nat.ne_of_lt hj (Register.temp_name_inj h)
    have hj : j < d + 1 := Nat.lt_succ_of_lt hj
    calc (s₂.write r.name v).tick.read (Register.temp j).name
      _ = s₂.read (Register.temp j).name := State.read_write_of_ne hn s₂ v
      _ = s₁.read (Register.temp j).name := h₂.temps rfl j hj hn
      _ = s.read (Register.temp j).name  := h₁.temps hc j hj hd

theorem Mirrors.yields (h : Mirrors m s) (v : Int) :
    Yields calls d r s (s.pc + 1) v m (s.write r.name v).tick where
  pc             := rfl
  value          := State.read_write_self s r.name v
  vars x hx hn   := (State.read_write_of_ne hn s v).trans (h.vars x hx)
  output         := h.output
  stack          := rfl
  frames         := rfl
  temps _ _ _ hn := State.read_write_of_ne hn s v

end

-- A call is over: the machine is behind its line, with a value on the stack in place of the
-- arguments.
structure Returned (s : State) (stack : List Int) (v : Int) (m : Memory) (s' : State) : Prop where
  pc      : s'.pc = s.pc + 1
  stack   : s'.stack = v :: stack
  frames  : s'.calls = s.calls
  mirrors : Mirrors m s'

-- The machine finds functions where the context does, and its calls do what the context says.
structure Answers (img : Image) (fuel k : Nat) (c : Context) : Prop where
  line : ∀ i < k, ∃ n, c.line? (.function (toString i)) = some n ∧
    img.line? (Label.function (toString i)).name = some n
  call {callee : String} {vs stack : List Int} {m : Memory} {s : State} :
    img.ops[s.pc]? = some (.callValue callee) → s.stack = vs ++ stack → Mirrors m s →
    img.Runs fuel s (Returned s stack) (c.call (s.read callee) vs m)

section

variable {img : Image} {fuel k : Nat} {c : Context} {calls : Bool} {n : Node}

-- What the machine does for an expression. A value is discarded only if it is that of a call.
def Computes (img : Image) (fuel : Nat) (c : Context) (calls : Bool) (n : Node) : Prop :=
  ∀ {demand dst d s s' code st m}, (∃ r, dst = .register r) ∨ n.kind = .call →
    Emits (.node n demand dst) d s code s' →
    s.symbols.naming = .verbatim → Slot d dst.target → img.Has st.pc code → Mirrors m st →
    img.Runs fuel st (Yields calls d dst.target st (st.pc + code.length)) (expression c n m)

theorem computes_literal {token : Token} {v : Int} (hl : literal? token.text.toList = some v) :
    Computes img fuel c calls ⟨.numericLiteral, token, []⟩ := by
  intro demand dst d s s' code st m hd h hv hs hh hm
  have he : expression c ⟨.numericLiteral, token, []⟩ = pure v := by simp [expression, hl]
  rw [he]
  cases h
  case literalDiscarded => simp at hd
  case literal          => exact .steps (.load hh hl) <| .ok <| hm.yields v

theorem computes_identifier {token : Token} (hn : Name token.text) :
    Computes img fuel c calls ⟨.identifier, token, []⟩ := by
  intro demand dst d s s' code st m hd h hv hs hh hm
  have he : expression c ⟨.identifier, token, []⟩ m = .ok (st.read token.text, m) := by
    rw [hm.vars _ hn]
    rfl
  rw [he]
  cases h
  case identifier =>
    rw [Symbols.resolve_verbatim hv] at hh
    exact .steps (.move hh) <| .ok <| hm.yields _

theorem computes_reference {token : Token} {i : Nat} (hc : Answers img fuel k c) (hi : i < k)
    (ht : token.text = toString i) : Computes img fuel c calls ⟨.functionReference, token, []⟩ := by
  intro demand dst d s s' code st m hd h hv hs hh hm
  have ⟨line, hl, hl'⟩ := hc.line i hi
  have he : expression c ⟨.functionReference, token, []⟩ = pure ↑line := by
    rw [← ht] at hl
    simp [expression, hl]
  rw [he]
  cases h
  case reference =>
    rw [ht] at hh
    exact .steps (.loadAddress hh hl') <| .ok <| hm.yields _

theorem runs_operate {op : Operator} {a b : Int} {m : Memory} {st : State} {code : List Instruction}
    {r₁ r : Register} {Q : Int → Memory → State → Prop}
    (hh : img.Has st.pc (.binary op r₁ r r :: code)) (ha : st.read r₁.name = a)
    (hb : st.read r.name = b) (hq : ∀ v, Q v m (st.write r.name v).tick) :
    img.Runs fuel st Q (operate op a b m) := by
  subst ha hb
  cases he : eval op (st.read r₁.name) (st.read r.name)
  case ok v =>
    have hr : operate op (st.read r₁.name) (st.read r.name) = pure v := by simp [operate, he]
    rw [hr]
    exact .steps (.binary hh he) <| .ok <| hq v
  case error why =>
    have hr : operate op (st.read r₁.name) (st.read r.name) = throw (.arithmetic why) := by
      simp [operate, he]
    rw [hr]
    exact ⟨0, st, _, .refl, hh.op, Image.step_binary_error he⟩

theorem computes_binary {token : Token} {op : Operator} {lhs rhs : Node}
    (ho : Operator.ofSymbol? token.text = some op) (hl : Computes img fuel c calls lhs)
    (hr : Computes img fuel c false rhs) :
    Computes img fuel c calls ⟨.infixOperator, token, [lhs, rhs]⟩ := by
  intro demand dst d s s' code st m hd h hv hs hh hm
  have he : expression c ⟨.infixOperator, token, [lhs, rhs]⟩
      = expression c lhs >>= fun a => expression c rhs >>= fun b => operate op a b := by
    simp [expression, ho]
  rw [he]
  have hd : ∃ r, dst = .register r := by simpa using hd
  cases h
  case assignment ht _ _ => exact absurd ht (Operator.ne_assign ho)
  case binary op' code₁ s₁ code₂ ho' h₁ h₂ =>
    cases ho.symm.trans ho'
    have hv₁ : s₁.symbols.naming = .verbatim := h₁.keeps.naming.trans hv
    refine .bind (hl (.inl ⟨_, rfl⟩) h₁ hv (slot_temp (Nat.lt_succ_self d)) hh.left.left hm)
      fun a m₁ st₁ hy₁ => ?_
    have hm₁ := hy₁.mirrors fun x hx => name_ne_temp hx d
    have hh₂ := hh.left.right
    rw [← hy₁.pc] at hh₂
    refine .bind (hr (.inl hd) h₂ hv₁ hs.succ hh₂ hm₁) fun b m₂ st₂ hy₂ => ?_
    have hp : st₂.pc = st.pc + (code₁ ++ code₂).length := by
      rw [hy₂.pc, hy₁.pc, List.length_append, Nat.add_assoc]
    have hh₃ := hh.right
    rw [← hp] at hh₃
    have ha : st₂.read (Register.temp d).name = a :=
      (hy₂.temps rfl d (Nat.lt_succ_self d) (hs d (Nat.le_refl d))).trans hy₁.value
    refine runs_operate hh₃ ha hy₂.value fun v => ?_
    rw [List.length_append, ← Nat.add_assoc, ← hp, hy₂.pc]
    exact hy₁.operate hy₂ v

theorem runs_arguments {ns : List Node} (hn : ∀ n ∈ ns, Computes img fuel c calls n) {d t : Nat}
    {s s' : Stage} {code : List Instruction} {st : State} {m : Memory}
    (h : Emits (.arguments ns (.temp t)) d s code s') (hv : s.symbols.naming = .verbatim)
    (ht : t < d) (hh : img.Has st.pc code) (hm : Mirrors m st) :
    img.Runs fuel st (Pushes calls d t st (st.pc + code.length) ns.length) (arguments c ns m) := by
  induction ns generalizing s' code
  case nil =>
    cases h
    exact .ok ⟨rfl, rfl, hm, rfl, rfl, fun _ _ _ _ => rfl⟩
  case cons n ns hi =>
    have ⟨hn, hns⟩ := List.forall_mem_cons.mp hn
    cases h
    case argument code₁ s₁ code₂ h₁ h₂ =>
      have hv₁ : s₁.symbols.naming = .verbatim := h₁.keeps.naming.trans hv
      have he : arguments c (n :: ns) = arguments c ns >>= fun vs => expression c n >>= fun v =>
          pure (v :: vs) := by
        simp [arguments]
      rw [he]
      refine .bind (hi hns h₁ hh.left.left) fun vs m₁ st₁ hp => ?_
      have hh₂ := hh.left.right
      rw [← hp.pc] at hh₂
      refine .bind (hn (.inl ⟨_, rfl⟩) h₂ hv₁ (slot_temp ht) hh₂ hp.mirrors) fun v m₂ st₂ hy => ?_
      have hp₂ : st₂.pc = st.pc + (code₁ ++ code₂).length := by
        rw [hy.pc, hp.pc, List.length_append, Nat.add_assoc]
      have hh₃ := hh.right
      rw [← hp₂] at hh₃
      have hl : st.pc + (code₁ ++ code₂ ++ [Instruction.push (.temp t)]).length
          = st₁.pc + code₂.length + 1 := by
        rw [List.length_append, ← Nat.add_assoc, ← hp₂, hy.pc]
        rfl
      exact .steps (.push hh₃) <| .ok <| hl ▸ hp.push hy

-- Pops as many values as there are, and outputs them.
theorem steps_print {t : Register} {vs stack : List Int} {s : State} {count : Nat}
    (hn : vs.length = count) (hh : img.Has s.pc (List.replicate count [.pop t, .out t]).flatten)
    (hs : s.stack = vs ++ stack) :
    ∃ s', img.Steps (2 * count) s s' ∧ s'.pc = s.pc + 2 * count ∧ s'.stack = stack ∧
      s'.calls = s.calls ∧
      s'.output = vs.foldl .push s.output ∧ s'.jumps = s.jumps ∧
      s'.branchesTaken = s.branchesTaken ∧
      ∀ x, x ≠ t.name → s'.read x = s.read x := by
  subst hn
  induction vs generalizing s
  case nil => exact ⟨s, .refl, rfl, hs, rfl, rfl, rfl, rfl, fun _ _ => rfl⟩
  case cons v vs hi =>
    have hh :
        img.Has s.pc (.pop t :: .out t :: (List.replicate vs.length [.pop t, .out t]).flatten) := hh
    let s₁ := ({ s with stack := vs ++ stack }.write t.name v).tick
    let s₂ := { s₁ with output := s₁.output.push (s₁.read t.name) }.tick
    have h₁ : img.Steps 1 s s₁ := .pop hh hs
    have h₂ : img.Steps 1 s₁ s₂ := .out hh.tail
    have ⟨s', h, hp, hs', hc, ho, hj, hb, hr⟩ := @hi s₂ rfl hh.tail.tail
    have hv : s₁.read t.name = v := State.read_write_self ..
    have hn : 2 * (vs.length + 1) = 1 + (1 + 2 * vs.length) := by omega
    refine ⟨s', ?_, ?_, hs', hc, ?_, hj, hb, fun x hx => ?_⟩
    · rw [List.length_cons, hn]
      exact h₁.trans (h₂.trans h)
    · have hp : s'.pc = s.pc + 1 + 1 + 2 * vs.length := hp
      rw [hp, List.length_cons]
      omega
    · rw [ho, List.foldl_cons, State.tick_output, hv]
      rfl
    · exact (hr x hx).trans <| State.read_write_of_ne hx ..

-- The value of a call comes out of a temporary.
theorem runs_result {d line : Nat} {r : Register} {st st' : State} {v : Int} {m : Memory}
    {code : List Instruction} (hh : img.Has st'.pc (.move (.temp d) r :: code))
    (hv : st'.read (Register.temp d).name = v) (hm : Mirrors m st') (hp : st'.pc + 1 = line)
    (hs : st'.stack = st.stack) (hc : st'.calls = st.calls)
    (ht : calls = false →
      ∀ j < d, st'.read (Register.temp j).name = st.read (Register.temp j).name) :
    img.Runs fuel st' (Yields calls d r st line) (.ok (v, m)) := by
  subst hv hp
  refine .steps (.move hh) <| .ok ?_
  exact {
    pc     := rfl
    value  := State.read_write_self ..
    vars   := fun x hx hn => (State.read_write_of_ne hn ..).trans (hm.vars x hx)
    output := hm.output
    stack  := hs
    frames := hc
    temps  := fun hf j hj hn => (State.read_write_of_ne hn ..).trans (ht hf j hj)
  }

theorem length_printCode (t : Register) (n : Nat) (dst : Register) :
    (printCode t n dst).length = 2 * n + 2 := by
  simp [printCode]
  omega

theorem computes_print {token token' token'' : Token} {ns : List Node}
    (ht : token'.text = printName) (hn : ∀ n ∈ ns, Computes img fuel c calls n) :
    Computes img fuel c calls
      ⟨.call, token, [⟨.identifier, token', []⟩, ⟨.expressionList, token'', ns⟩]⟩ := by
  intro demand dst d s s' code st m hd h hv hs hh hm
  have he : expression c ⟨.call, token, [⟨.identifier, token', []⟩, ⟨.expressionList, token'', ns⟩]⟩
      = arguments c ns >>= fun vs => print vs >>= fun _ => pure 0 := by
    simp [expression, Node.text, ht]
  rw [he]
  cases h
  case call code _ hp h => exact absurd ht hp
  case print code _ _ h =>
    refine .bind (runs_arguments hn h hv (Nat.lt_succ_self d) hh.left hm) fun vs m₁ st₁ hp => ?_
    have hh₁ := hh.right
    rw [← hp.pc, printCode] at hh₁
    obtain ⟨st₂, hs₂, hp₂, hst, hc, ho, -, -, hr⟩ := steps_print hp.length hh₁.left hp.stack
    have hh₂ := hh₁.right
    have hl : (List.replicate ns.length [Instruction.pop (.temp d), .out (.temp d)]).flatten.length
        = 2 * ns.length := by
      simp [Nat.mul_comm]
    rw [hl, ← hp₂] at hh₂
    let st₃ := (st₂.write (Register.temp d).name 0).tick
    have h₃ : img.Steps 1 st₂ st₃ := .load hh₂ (by decide)
    have hr₃ (x) (hx : x ≠ (Register.temp d).name) : st₃.read x = st₁.read x :=
      (State.read_write_of_ne hx ..).trans (hr x hx)
    have hm₃ : Mirrors (m₁.print vs) st₃ := {
      vars   := fun x hx => (hr₃ x (name_ne_temp hx d)).trans (hp.mirrors.vars x hx)
      output := ho.trans <| congrArg (vs.foldl Array.push) hp.mirrors.output
    }
    have ht₃ (hc : calls = false) (j) (hj : j < d) :
        st₃.read (Register.temp j).name = st.read (Register.temp j).name := by
      have hjd : j ≠ d := Nat.ne_of_lt hj
      exact (hr₃ _ fun h => hjd (Register.temp_name_inj h)).trans
        (hp.temps hc j (Nat.lt_succ_of_lt hj) hjd)
    refine .steps (hs₂.trans h₃) <|
      runs_result hh₂.tail (State.read_write_self ..) hm₃ ?_ hst (hc.trans hp.frames) ht₃
    rw [List.length_append, length_printCode, State.tick_pc, State.write_pc, hp₂, hp.pc]
    omega

theorem computes_call {token token' token'' : Token} {ns : List Node} (hc : Answers img fuel k c)
    (ht : token'.text ≠ printName) (hx : Name token'.text)
    (hn : ∀ n ∈ ns, Computes img fuel c true n) :
    Computes img fuel c true
      ⟨.call, token, [⟨.identifier, token', []⟩, ⟨.expressionList, token'', ns⟩]⟩ := by
  intro demand dst d s s' code st m hd h hv hs hh hm
  have he : expression c ⟨.call, token, [⟨.identifier, token', []⟩, ⟨.expressionList, token'', ns⟩]⟩
      = arguments c ns >>= fun vs => read token'.text >>= fun f => c.call f vs := by
    simp [expression, Node.text, ht]
  rw [he]
  cases h
  case print hp _ => exact absurd hp ht
  case call code s₁ _ _ h =>
    refine .bind (runs_arguments hn h hv (Nat.lt_succ_self d) hh.left hm) fun vs m₁ st₁ hp => ?_
    have hv₁ : s₁.symbols.naming = .verbatim := h.keeps.naming.trans hv
    have hh₁ := hh.right
    simp only [Node.text, Symbols.resolve_verbatim hv₁] at hh₁
    rw [← hp.pc] at hh₁
    have hf : (read token'.text >>= fun f => c.call f vs) m₁ = c.call (st₁.read token'.text)
        vs m₁ := by
      rw [hp.mirrors.vars _ hx]
      rfl
    rw [hf]
    refine .andThen (hc.call hh₁.op hp.stack hp.mirrors) fun v m₂ st₂ hq => ?_
    have hh₂ := hh₁.tail
    rw [← hq.pc] at hh₂
    let st₃ := ({ st₂ with stack := st.stack }.write (Register.temp d).name v).tick
    have h₃ : img.Steps 1 st₂ st₃ := .pop hh₂ hq.stack
    have hm₃ : Mirrors m₂ st₃ := {
      vars   := fun x hx =>
        (State.read_write_of_ne (name_ne_temp hx d) ..).trans (hq.mirrors.vars x hx)
      output := hq.mirrors.output
    }
    refine .steps h₃ <| runs_result hh₂.tail (State.read_write_self ..) hm₃ ?_ rfl
      (hq.frames.trans hp.frames) (by simp)
    rw [List.length_append, ← Nat.add_assoc, ← hp.pc, State.tick_pc, State.write_pc]
    exact congrArg (· + 2) hq.pc

theorem Expression.computes (h : Expression k calls n) (hc : Answers img fuel k c) :
    Computes img fuel c calls n := by
  induction h
  case literal hl          => exact computes_literal hl
  case identifier hn       => exact computes_identifier hn
  case reference hi ht     => exact computes_reference hc hi ht
  case binary ho _ _ hl hr => exact computes_binary ho hl hr
  case print ht _ hi       => exact computes_print ht hi
  case call ht hx _ hi     => exact computes_call hc ht hx hi

end

end LineCode.Source

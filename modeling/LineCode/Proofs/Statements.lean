import LineCode.Proofs.Expressions

namespace LineCode.Source

open Lower Machine

-- A statement is over: the machine is at the given line, or at a RETURN with a value on the stack.
structure Ends (img : Image) (s : State) (line : Nat) (r : Option Int) (m : Memory) (s' : State) :
    Prop where
  pc      : r = none → s'.pc = line
  ret     : r ≠ none → img.ops[s'.pc]? = some .ret
  stack   : s'.stack = r.toList ++ s.stack
  frames  : s'.calls = s.calls
  mirrors : Mirrors m s'

namespace Ends

variable {img : Image} {s s₁ s' : State} {line line' : Nat} {r : Option Int} {m m' : Memory}

theorem proceed (hs : s'.stack = s.stack) (hc : s'.calls = s.calls) (hm : Mirrors m s')
    (hp : s'.pc = line) :
    Ends img s line none m s' :=
  ⟨fun _ => hp, nofun, hs, hc, hm⟩

-- From another state with the same stack.
theorem trans (h₁ : Ends img s line' none m' s₁) (h : Ends img s₁ line r m s') :
    Ends img s line r m s' where
  pc      := h.pc
  ret     := h.ret
  stack   := h.stack.trans <| congrArg (r.toList ++ ·) h₁.stack
  frames  := h.frames.trans h₁.frames
  mirrors := h.mirrors

-- On to another line, by a step that changes nothing else.
theorem tick (h : Ends img s line none m s') : Ends img s (line + 1) none m s'.tick :=
  proceed h.stack h.frames ⟨h.mirrors.vars, h.mirrors.output⟩ <| congrArg (· + 1) (h.pc rfl)

end Ends

-- What the machine does for a statement.
def Executes (img : Image) (fuel : Nat) (c : Context) (n : Node) : Prop :=
  ∀ {d s s' code st m}, Emits (.node n .any .discard) d s code s' → s.symbols.naming = .verbatim →
    img.Has st.pc code → Mirrors m st →
    img.Runs fuel st (Ends img st (st.pc + code.length)) (statement c fuel n m)

section

variable {img : Image} {fuel k : Nat} {c : Context} {n : Node}

theorem executes_call {token : Token} {children : List Node}
    (hc : Computes img fuel c true ⟨.call, token, children⟩) :
    Executes img fuel c ⟨.call, token, children⟩ := by
  intro d s s' code st m h hv hh hm
  have he : statement c fuel ⟨.call, token, children⟩
      = expression c ⟨.call, token, children⟩ >>= fun _ => pure none := by
    simp [statement]
  rw [he]
  have hs : Slot d Register.sink := slot_named (by decide)
  refine .bind (hc (.inr rfl) h hv hs hh hm) fun v m₁ st₁ hy => .ok ?_
  exact .proceed hy.stack hy.frames (hy.mirrors fun x hx => hx.ne_sink) hy.pc

theorem Target.assigned {symbols : Symbols} (h : Target n) (hv : symbols.naming = .verbatim) :
    ∃ x, Name x ∧ assignee? n = some x ∧ assigned? n symbols = some (.named x, symbols) := by
  cases h
  case identifier token hn =>
    exact ⟨token.text, hn, rfl, congrArg some <| Symbols.inFrame_verbatim hv ..⟩
  case declaration token hn =>
    exact ⟨token.text, hn, rfl, congrArg some <| Symbols.inFrame_verbatim hv ..⟩

theorem executes_assignment {token : Token} {target value : Node} (he : token.text = "=")
    (ht : Target target) (hx : Computes img fuel c true value) :
    Executes img fuel c ⟨.infixOperator, token, [target, value]⟩ := by
  intro d s s' code st m h hv hh hm
  have ⟨x, hn, ha, ha'⟩ := ht.assigned hv
  have hs : statement c fuel ⟨.infixOperator, token, [target, value]⟩
      = expression c value >>= fun v => assign x v >>= fun _ => pure none := by
    simp [statement, ha, he]
  rw [hs]
  cases h
  case binary ho _ _ => exact absurd he (Operator.ne_assign ho)
  case assignment ha'' h =>
    cases ha'.symm.trans ha''
    refine .bind (hx (.inl ⟨_, rfl⟩) h hv (slot_named hn.noDot) hh hm) fun v m₁ st₁ hy => .ok ?_
    exact .proceed hy.stack hy.frames (.set hy.value hy.vars hy.output) hy.pc

theorem runs_followedBy {st₀ st : State} {m : Memory} {line line' : Nat} {x y : Eval (Option Int)}
    (hx : img.Runs fuel st (Ends img st₀ line) (x m))
    (hy : ∀ m' st', Ends img st₀ line none m' st' → img.Runs fuel st' (Ends img st₀ line') (y m')) :
    img.Runs fuel st (Ends img st₀ line') (followedBy x y m) := by
  refine .bind hx fun r m₁ st₁ he => ?_
  cases r
  case some v => exact .ok { he with pc := nofun }
  case none   => exact hy m₁ st₁ he

theorem runs_statements {ns : List Node} (hn : ∀ n ∈ ns, Executes img fuel c n) {d : Nat}
    {s s' : Stage} {code : List Instruction} {st : State} {m : Memory}
    (h : Emits (.all ns .discard) d s code s') (hv : s.symbols.naming = .verbatim)
    (hh : img.Has st.pc code) (hm : Mirrors m st) :
    img.Runs fuel st (Ends img st (st.pc + code.length)) (statements c fuel ns m) := by
  induction ns generalizing s code st m
  case nil =>
    cases h
    exact .ok <| .proceed rfl rfl hm rfl
  case cons n ns hi =>
    have ⟨hn, hns⟩ := List.forall_mem_cons.mp hn
    cases h
    case cons code₁ s₁ code₂ h₁ h₂ =>
      have hv₁ : s₁.symbols.naming = .verbatim := h₁.keeps.naming.trans hv
      have he : statements c fuel (n :: ns) = followedBy (statement c fuel n)
          (statements c fuel ns) := by
        simp [statements]
      rw [he]
      refine runs_followedBy (hn h₁ hv hh.left hm) fun m₁ st₁ he₁ => ?_
      have hp := he₁.pc rfl
      have hh₂ := hh.right
      rw [← hp] at hh₂
      rw [List.length_append, ← Nat.add_assoc, ← hp]
      exact .andThen (hi hns h₂ hv₁ hh₂ he₁.mirrors) fun _ _ _ h => .ok (he₁.trans h)

theorem executes_block {token : Token} {ns : List Node} (hn : ∀ n ∈ ns, Executes img fuel c n) :
    Executes img fuel c ⟨.block, token, ns⟩ := by
  intro d s s' code st m h hv hh hm
  have he : statement c fuel ⟨.block, token, ns⟩ = statements c fuel ns := by simp [statement]
  rw [he]
  cases h
  case block h =>
    exact runs_statements hn h (Symbols.Keeps.modifyFrame .. |>.naming.trans hv) hh hm

-- The values to be returned go through one temporary.
structure Collects (t : Register) (s : State) (line : Nat) (vs : List Int) (m : Memory)
    (s' : State) : Prop where
  pc      : s'.pc = line
  last    : s'.read t.name = vs.getLast?.getD (s.read t.name)
  stack   : s'.stack = s.stack
  frames  : s'.calls = s.calls
  mirrors : Mirrors m s'

theorem runs_values {ns : List Node} (hn : ∀ n ∈ ns, Computes img fuel c true n) {d t : Nat}
    {s s' : Stage} {code : List Instruction} {st : State} {m : Memory}
    (h : Emits (.all ns (.register (.temp t))) d s code s') (hv : s.symbols.naming = .verbatim)
    (ht : t < d) (hh : img.Has st.pc code) (hm : Mirrors m st) :
    img.Runs fuel st (Collects (.temp t) st (st.pc + code.length)) (values c ns m) := by
  induction ns generalizing s code st m
  case nil =>
    cases h
    exact .ok ⟨rfl, rfl, rfl, rfl, hm⟩
  case cons n ns hi =>
    have ⟨hn, hns⟩ := List.forall_mem_cons.mp hn
    cases h
    case cons code₁ s₁ code₂ h₁ h₂ =>
      have hv₁ : s₁.symbols.naming = .verbatim := h₁.keeps.naming.trans hv
      have he : values c (n :: ns) = expression c n >>= fun v => values c ns >>= fun vs =>
          pure (v :: vs) := by
        simp [values]
      rw [he]
      refine .bind (hn (.inl ⟨_, rfl⟩) h₁ hv (slot_temp ht) hh.left hm) fun v m₁ st₁ hy => ?_
      have hv' : st₁.read (Register.temp t).name = v := hy.value
      have hm₁ := hy.mirrors fun x hx => name_ne_temp hx t
      have hh₂ := hh.right
      rw [← hy.pc] at hh₂
      refine .bind (hi hns h₂ hv₁ hh₂ hm₁) fun vs m₂ st₂ hc => .ok ?_
      exact {
        pc      := by rw [hc.pc, hy.pc, List.length_append, Nat.add_assoc]
        last    := by rw [hc.last, hv', List.getLast?_cons, Option.getD_some]
        stack   := hc.stack.trans hy.stack
        frames  := hc.frames.trans hy.frames
        mirrors := hc.mirrors
      }

theorem executes_returns {token : Token} {ns : List Node}
    (hn : ∀ n ∈ ns, Computes img fuel c true n) :
    Executes img fuel c ⟨.returnStatement, token, ns⟩ := by
  intro d s s' code st m h hv hh hm
  have he : statement c fuel ⟨.returnStatement, token, ns⟩
      = values c ns >>= fun vs => vs.getLast?.elim undefined (pure <| some ·) := by
    simp [statement]
  rw [he]
  cases h
  case returns code h =>
    refine .bind (runs_values hn h hv (Nat.lt_succ_self d) hh.left hm) fun vs m₁ st₁ hc => ?_
    match hl : vs.getLast? with
    | none   => trivial
    | some v =>
      have hr : st₁.read (Register.temp d).name = v := by rw [hc.last, hl, Option.getD_some]
      have hh₁ := hh.right
      rw [← hc.pc] at hh₁
      refine .steps (.push hh₁) <| .ok ?_
      exact {
        pc      := nofun
        ret     := fun _ => hh₁.tail.op
        stack   := by rw [State.tick_stack, hr, hc.stack]; rfl
        frames  := hc.frames
        mirrors := ⟨hc.mirrors.vars, hc.mirrors.output⟩
      }

-- What precedes the body of a branch: it is left for the line of the label if the condition is
-- zero.
theorem runs_condition {condition : Node} (hc : Computes img fuel c true condition)
    {demand : Demand} {d line : Nat} {s s' : Stage} {code : List Instruction} {l : Label}
    {st st₀ : State} {m : Memory}
    (h : Emits (.node condition demand (.register (.temp d))) (d + 1) s code s')
    (hv : s.symbols.naming = .verbatim)
    (hh : img.Has st.pc (code ++ [.negate (.temp d), .jumpIf l (.temp d)]))
    (hl : img.line? l.name = some line) (hm : Ends img st₀ st.pc none m st) {α : Type} {fuel' : Nat}
    (hf : fuel' ≤ fuel) {Q : α → Memory → State → Prop} {f g : Eval α}
    (hz : ∀ m' st', Ends img st₀ line none m' st' → img.Runs fuel' st' Q (f m'))
    (hn : ∀ m' st', Ends img st₀ (st.pc + code.length + 2) none m' st' →
      img.Runs fuel' st' Q (g m')) :
    img.Runs fuel' st Q ((expression c condition >>= fun v => if v = 0 then f else g) m) := by
  have hr := hc (.inl ⟨_, rfl⟩) h hv (slot_temp (Nat.lt_succ_self d)) hh.left hm.mirrors
  refine .bind (hr.mono hf) fun v m₁ st₁ hy => ?_
  have hh₁ := hh.right
  rw [← hy.pc] at hh₁
  let st₂ := (st₁.write (Register.temp d).name (truth (st₁.read (Register.temp d).name == 0))).tick
  have h₂ : img.Steps 1 st₁ st₂ := .not hh₁
  have hp₂ : st₂.pc = st.pc + code.length + 1 := congrArg (· + 1) hy.pc
  have hr₂ : st₂.read (Register.temp d).name = truth (v == 0) := by
    rw [State.tick_read, State.read_write_self]
    exact congrArg (truth <| · == 0) hy.value
  have hm₂ : Mirrors m₁ st₂ := {
    vars   := fun x hx =>
      (State.read_write_of_ne (name_ne_temp hx d) ..).trans (hy.vars x hx (name_ne_temp hx d))
    output := hy.output
  }
  have hs₂ : st₂.stack = st₀.stack := hy.stack.trans hm.stack
  have hc₂ : st₂.calls = st₀.calls := hy.frames.trans hm.frames
  by_cases hv : v = 0
  case pos =>
    have hj : st₂.read (Register.temp d).name ≠ 0 := by rw [hr₂, hv]; decide
    rw [if_pos hv]
    refine .steps (h₂.trans (.jumpIf hh₁.tail hl hj)) <| hz _ _ ?_
    exact .proceed hs₂ hc₂ ⟨hm₂.vars, hm₂.output⟩ rfl
  case neg =>
    have hj : st₂.read (Register.temp d).name = 0 := by simp [hr₂, hv, truth]
    rw [if_neg hv]
    refine .steps (h₂.trans (.jumpIf_zero hh₁.tail hj)) <| hn _ _ ?_
    exact .proceed hs₂ hc₂ ⟨hm₂.vars, hm₂.output⟩ (congrArg (· + 1) hp₂)

theorem runs_label {st₀ st : State} {line : Nat} {l : Label} {code : List Instruction}
    {r : Except Stop (Option Int × Memory)} (hh : img.Has line (.label l :: code))
    (h : img.Runs fuel st (Ends img st₀ line) r) :
    img.Runs fuel st (Ends img st₀ (line + 1)) r := by
  refine h.andThen fun r m st' he => ?_
  cases r
  case some v => exact .ok { he with pc := nofun }
  case none   =>
    rw [← he.pc rfl] at hh
    exact .steps (.label hh) <| .ok he.tick

theorem executes_ifThen {token : Token} {condition body : Node} (ht : token.text = "if")
    (hc : Computes img fuel c true condition) (hb : Executes img fuel c body) :
    Executes img fuel c ⟨.branch, token, [condition, body]⟩ := by
  intro d s s' code st m h hv hh hm
  have he : statement c fuel ⟨.branch, token, [condition, body]⟩
      = expression c condition >>= fun v => if v = 0 then pure none else statement c fuel body := by
    simp [statement, ht]
  rw [he]
  cases h
  case whileDo ht' _ _ => simp [ht] at ht'
  case ifThen code₁ s₁ code₂ _ h₁ h₂ =>
    have hv₁ : s₁.symbols.naming = .verbatim := h₁.keeps.naming.trans hv
    have hbody : img.Has (st.pc + code₁.length + 2) code₂ := hh.left.right.of_eq (by simp; omega)
    have hl : img.Has (st.pc + code₁.length + 2 + code₂.length) [.label s.label] :=
      hh.right.of_eq (by simp; omega)
    have hlen : st.pc + @List.length Instruction
        (code₁ ++ [.negate (.temp d), .jumpIf s.label (.temp d)] ++ code₂ ++
        [.label s.label]) = st.pc + code₁.length + 2 + code₂.length + 1 := by
      simp
      omega
    have hs : Ends img st st.pc none m st := .proceed rfl rfl hm rfl
    rw [hlen]
    refine runs_condition hc h₁ hv hh.left.left hl.line? hs (Nat.le_refl fuel) ?zero ?nonzero
    case zero => exact fun m₁ st₁ he => runs_label hl <| .ok he
    case nonzero =>
      intro m₁ st₁ he₁
      rw [← he₁.pc rfl] at hbody hl ⊢
      have hr := hb h₂ hv₁ hbody he₁.mirrors
      exact runs_label hl <| hr.andThen fun _ _ _ h => .ok (he₁.trans h)

-- By induction on the number of times the body is repeated. Each time ends with a jump, which is a
-- step of the machine.
theorem runs_loop {condition body : Node} (hc : Computes img fuel c true condition)
    (hb : Executes img fuel c body) {d head : Nat} {s s₁ s₂ : Stage}
    {code₁ code₂ : List Instruction} {start done : Label} {st₀ : State}
    (h₁ : Emits (.node condition .value (.register (.temp d))) (d + 1) s code₁ s₁)
    (h₂ : Emits (.node body .any .discard) (d + 1) s₁ code₂ s₂) (hv : s.symbols.naming = .verbatim)
    (hhead : img.Has head (.label start :: (code₁ ++ [.negate (.temp d), .jumpIf done (.temp d)])))
    (hbody : img.Has (head + 1 + code₁.length + 2) code₂)
    (hjump : img.Has (head + 1 + code₁.length + 2 + code₂.length) [.jump start, .label done])
    {n : Nat} (hn : n ≤ fuel) {st : State} {m : Memory} (he : Ends img st₀ head none m st) :
    img.Runs n st (Ends img st₀ (head + 1 + code₁.length + 2 + code₂.length + 2))
      (loop (expression c condition) (statement c fuel body) n m) := by
  induction n generalizing st m
  case zero => exact ⟨0, st, .refl, Nat.le_refl 0⟩
  case succ n hi =>
    have hl : loop (expression c condition) (statement c fuel body) (n + 1)
        = expression c condition >>= fun v => if v = 0 then pure none
          else followedBy (statement c fuel body)
            (loop (expression c condition) (statement c fuel body) n) := by
      simp [loop]
    rw [hl]
    have hv₁ : s₁.symbols.naming = .verbatim := h₁.keeps.naming.trans hv
    have hdone := hjump.tail
    obtain rfl : st.pc = head := he.pc rfl
    refine .steps (.label hhead) <|
      runs_condition hc h₁ hv hhead.tail hdone.line? he.tick hn ?zero ?nonzero
    case zero => exact fun m₁ st₁ he => runs_label hdone <| .ok he
    case nonzero =>
      intro m₁ st₁ he₁
      have hp₁ : st₁.pc = st.pc + 1 + code₁.length + 2 := he₁.pc rfl
      rw [← hp₁] at hbody hjump
      have hr := hb h₂ hv₁ hbody he₁.mirrors |>.mono hn
      refine runs_followedBy (hr.andThen fun _ _ _ h => .ok (he₁.trans h)) fun m₂ st₂ he₂ => ?_
      rw [← he₂.pc rfl] at hjump
      refine .later (.jump hjump hhead.line?) <| hi (Nat.le_of_succ_le hn) ?_
      exact .proceed he₂.stack he₂.frames ⟨he₂.mirrors.vars, he₂.mirrors.output⟩ rfl

theorem executes_whileDo {token : Token} {condition body : Node} (ht : token.text = "while")
    (hc : Computes img fuel c true condition) (hb : Executes img fuel c body) :
    Executes img fuel c ⟨.branch, token, [condition, body]⟩ := by
  intro d s s' code st m h hv hh hm
  have he : statement c fuel ⟨.branch, token, [condition, body]⟩
      = loop (expression c condition) (statement c fuel body) fuel := by
    simp [statement, ht]
  rw [he]
  cases h
  case ifThen ht' _ _ => simp [ht] at ht'
  case whileDo code₁ s₁ code₂ _ h₁ h₂ =>
    have hbody : img.Has (st.pc + 1 + code₁.length + 2) code₂ :=
      hh.left.right.of_eq (by simp; omega)
    have hjump : img.Has (st.pc + 1 + code₁.length + 2 + code₂.length) [.jump s.issue.label,
      .label s.label] :=
      hh.right.of_eq (by simp; omega)
    have hlen : st.pc + @List.length Instruction (.label s.issue.label :: code₁ ++
        [.negate (.temp d), .jumpIf s.label (.temp d)] ++ code₂ ++
          [.jump s.issue.label, .label s.label])
          = st.pc + 1 + code₁.length + 2 + code₂.length + 2 := by
      simp
      omega
    rw [hlen]
    exact runs_loop hc hb h₁ h₂ hv hh.left.left hbody hjump (Nat.le_refl fuel)
      (.proceed rfl rfl hm rfl)

theorem Statement.executes (h : Statement k n) (hc : Answers img fuel k c) :
    Executes img fuel c n := by
  induction h
  case block hi            => exact executes_block hi
  case assignment he ht hv => exact executes_assignment he ht (hv.computes hc)
  case ifThen ht hx _ hi   => exact executes_ifThen ht (hx.computes hc) hi
  case whileDo ht hx _ hi  => exact executes_whileDo ht (hx.computes hc) hi
  case returns hv          => exact executes_returns fun n hn => (hv n hn).computes hc
  case call hx             => exact executes_call (hx.computes hc)

end

end LineCode.Source

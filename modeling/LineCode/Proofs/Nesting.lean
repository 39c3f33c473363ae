import LineCode.Proofs.Convention

namespace LineCode

open Lower Machine Source

-- Names without blanks and dots, and literals that can be read. There may be definitions.
def Node.Spelled : Node → Prop :=
  Names (fun x => Text.Solid x.toList ∧ '.' ∉ x.toList) (fun x => Text.Solid x.toList ∧
    '.' ∉ x.toList)
    (Text.Solid ·.name.toList) Instruction.LegibleLiteral

instance : DecidablePred Node.Spelled := fun n =>
  inferInstanceAs (Decidable (n.Names (fun x => Text.Solid x.toList ∧ '.' ∉ x.toList)
    (fun x => Text.Solid x.toList ∧ '.' ∉ x.toList) (Text.Solid ·.name.toList)
      Instruction.LegibleLiteral))

theorem Node.Spelled.names {n : Node} (h : n.Spelled) :
    n.Names (Text.Solid ·.toList) (Text.Solid ·.toList) (Text.Solid ·.name.toList)
      Instruction.LegibleLiteral where
  name hk         := (h.name hk).left
  binding hk c hc := (h.binding hk c hc).left
  literal         := h.literal
  reference       := h.reference

namespace Machine.Image

-- The lines from the given one on, but for the names of labels.
def Lists (img : Image) (line : Nat) (code : List Instruction) : Prop :=
  ∀ j i, code[j]? = some i → img.ops[line + j]? = some i.op

-- A function in the code of another definition: what comes of calling it, of running into it with
-- and without as many values on the stack as it has parameters, and when the register for it has
-- its address and control is behind it, with nothing done but to pass its label.
structure Inline (img : Image) (line : Nat) (ps : List Node) (symbols : Symbols) (slot : Register)
    (length : Nat) :
    Prop where
  called {s callee vs stack} : img.ops[s.pc]? = some (.callValue callee) →
    address (s.read callee) = line →
    s.stack = vs ++ stack → vs.length = ps.length →
    ∃ s', img.Steps (1 + (1 + ps.length)) s s' ∧
      Entered ps symbols line vs stack ((s.pc + 1) :: s.calls) (fun _ => False) s s'
  reached {s vs stack} : s.pc = line → s.stack = vs ++ stack → vs.length = ps.length →
    ∃ s', img.Steps (1 + ps.length) s s' ∧
      Entered ps symbols line vs stack s.calls (fun _ => False) s s'
  fails {s} : s.pc = line → s.stack.length < ps.length →
    img.Finishes s (1 + s.stack.length + 1) (.error .emptyStack)
  passed_iff {s} : s.pc = line →
    ((∃ s', Relation.ReflTransGen (img.Moves (· = line)) s s' ∧ s'.pc = line + length ∧
      s'.stack = s.stack ∧
      address (s'.read slot.name) = line) ↔ length = 1 ∧ address (s.read slot.name) = line)

variable {img : Image} {s : State} {line : Nat} {vs stack : List Int} {l : Label}
  {slots : List Register} {code : List Instruction}

theorem Lists.pops (h : img.Lists line (.label l :: slots.map .pop ++ code)) :
    img.Has (line + 1) (slots.map .pop) := by
  intro j i hj
  have hlt := (List.getElem?_eq_some_iff.mp hj).fst
  refine ⟨?_, ?_⟩
  · have ho :=
      h (j + 1) i
        (by rw [List.cons_append, List.getElem?_cons_succ, List.getElem?_append_left hlt, hj])
    rwa [Nat.add_assoc, Nat.add_comm 1 j]
  · rintro l rfl
    simp at hj

-- The stack is empty when there is another parameter to come.
theorem finishes_underflow (hb : img.ops[s.pc]? = some .label)
    (hh : img.Has (s.pc + 1) (slots.map .pop)) (hl : s.stack.length < slots.length) :
    img.Finishes s (1 + s.stack.length + 1) (.error .emptyStack) := by
  have ht : (slots.take s.stack.length).length = s.stack.length :=
    List.length_take_of_le (Nat.le_of_lt hl)
  have ho : img.ops[s.pc + 1 + s.stack.length]? = some (.pop slots[s.stack.length].name) :=
    (hh s.stack.length (.pop slots[s.stack.length]) (by simp [hl])).left
  rw [← List.take_append_drop s.stack.length slots, List.map_append] at hh
  obtain ⟨s', h, hp, hs, -⟩ := steps_begin hb hh.left ht.symm (List.append_nil s.stack).symm
  rw [ht] at h hp
  rw [← hp] at ho
  refine h.finishes ho fun budget => ?_
  rw [runFrom_succ ho, step, exec, hs]

theorem Lists.inline {ps : List Node} {symbols : Symbols}
    (h : img.Lists line (.label l :: (parameterSlots ps symbols).map .pop ++ code))
    (hf : symbols.Flat) (hn : ∀ p ∈ ps, '.' ∉ p.text.toList) (slot : Register) :
    img.Inline line ps symbols slot (1 + ps.length + code.length) where
  called ho ha hs hl := by
    have hlen := hl.trans (length_parameterSlots ps symbols).symm
    obtain ⟨s', h', hp, hst, hc, hout, hr⟩ := steps_enter ho ha (h 0 _ rfl) h.pops hlen hs
    rw [length_parameterSlots] at h' hp
    exact ⟨s', h', hp, hst, hc, hout, hr, hr.parameter hf hn⟩
  reached hpc hs hl := by
    subst hpc
    have hlen := hl.trans (length_parameterSlots ps symbols).symm
    obtain ⟨s', h', hp, hst, hc, hout, hr⟩ := steps_begin (h 0 _ rfl) h.pops hlen hs
    rw [length_parameterSlots] at h' hp
    exact ⟨s', h', hp, hst, hc, hout, hr, hr.parameter hf hn⟩
  fails hpc hl := by
    subst hpc
    rw [← length_parameterSlots ps symbols] at hl
    exact finishes_underflow (h 0 _ rfl) h.pops hl
  passed_iff {s} hpc := by
    have hb : img.ops[s.pc]? = some .label := hpc ▸ h 0 _ rfl
    constructor
    · rintro ⟨s', hm, hp, -, ha⟩
      rcases hm.cases_head with rfl | ⟨s₁, ⟨-, op, ho, hs⟩, hm⟩
      · omega
      · rw [hb] at ho
        cases ho
        cases hs
        -- The label is behind, so that nothing more may be done.
        rcases hm.cases_head with rfl | ⟨s₂, ⟨hpc₁, -⟩, -⟩
        · have hp : s.pc + 1 = line + (1 + ps.length + code.length) := hp
          exact ⟨by omega, ha⟩
        · have hpc₁ : s.pc + 1 = line := hpc₁
          omega
    · rintro ⟨hl, ha⟩
      exact ⟨s.tick, .single ⟨hpc, .label, hb, rfl⟩, by rw [hl, ← hpc]; rfl, rfl, ha⟩

end Machine.Image

-- A function that is assigned to a variable stands in the code of the statement. It can be called
-- there, but the statement runs into it instead of passing it by.
theorem compile_nested {naming : Naming} {functions : List Node} {entry target params body : Node}
    {p : Program} {img : Image} {token token' : Token} {rest rest' : List Node} {demand : Demand}
    {dst : Destination} {g : Generator} {line : Nat} (hc : compile naming functions entry = .ok p)
    (hn : ∀ f ∈ entry :: functions, ∀ c ∈ f.children, c.Every Node.Spelled)
    (hl : Image.load p.text = .ok img) (ht : token.text = "=")
    (ho : Occurs naming functions entry p (.job (.node ⟨.infixOperator, token,
      target :: ⟨.functionDefinition, token', params :: body :: rest'⟩ :: rest⟩ demand dst)) g
        line) :
    ∃ slot symbols g' d code s, assigned? target g.symbols = some (slot, symbols) ∧
      lower ⟨.infixOperator, token,
        target :: ⟨.functionDefinition, token', params :: body :: rest'⟩ :: rest⟩ demand dst g
        = .ok () g' ∧
      g'.code.size = g.code.size + (1 + params.children.length + code.length) ∧
      Emits (.node body .any .discard) d
        (g.stage.withSymbols (parameterSymbols params.children (symbols.enter slot.name))) code s ∧
      img.Lists line
        (.label ⟨slot.name⟩ :: (parameterSlots params.children (symbols.enter slot.name)).map
          .pop ++ code) ∧
      img.Inline line params.children (symbols.enter slot.name) slot
        (1 + params.children.length + code.length) := by
  obtain ⟨_, hp⟩ := compile_eq_ok_iff.mp hc
  have hops := Image.load_ops
    ((program_sound hp).readable fun f hm c hc => (hn f hm c hc).imp fun _ => Node.Spelled.names) hl
  have hk : Node.Kind.infixOperator ≠ .functionDefinition := by decide
  have hnode := ho.every hp hk hn
  obtain ⟨d, pool, code, s, pre, post, -, hlow, he, hi, rfl⟩ := ho.emits hp hk
  have hlists : img.Lists pre.length code := by
    intro j i hj
    have hlt := (List.getElem?_eq_some_iff.mp hj).fst
    rw [hops, hi, List.getElem?_toArray, List.getElem?_map, List.append_assoc,
      List.getElem?_append_right (by omega),
      Nat.add_sub_cancel_left, List.getElem?_append_left hlt, hj]
    rfl
  cases he
  case binary hop _ _ => exact absurd ht (Operator.ne_assign hop)
  case assignment slot symbols _ ha he =>
    obtain ⟨_, _, _, tail, s₁, ⟨⟩, -, hps, hbody, rfl, -⟩ := he.definition_inv
    have hdot : ∀ q ∈ params.children, '.' ∉ q.text.toList := by
      intro q hq
      have hparams := (hnode.second.first.child hq).self
      exact (hparams.name (hps q hq)).right
    refine ⟨slot, symbols, _, d, tail, s₁, ha, hlow, ?_, hbody, hlists,
      hlists.inline (.enter _ _) hdot slot⟩
    simp [Generator.after, length_parameterSlots]
    omega

-- A program that has been found to have proper labels.
theorem exists_load {naming : Naming} {functions : List Node} {entry : Node} {Q : Program → Prop}
    (hn : ∀ f ∈ entry :: functions, ∀ c ∈ f.children, c.Every Node.Spelled)
    (h : ∃ p ∈ (compile naming functions entry).toOption, (∀ l ∈ p.labels, l.Legible) ∧
      p.labels.Nodup ∧ Q p) :
    ∃ p, compile naming functions entry = .ok p ∧ Image.load p.text = .ok (.ofCode p.instructions) ∧
      Q p := by
  obtain ⟨p, hp, hl, hd, hq⟩ := h
  have hc := eq_ok_of_toOption hp
  obtain ⟨_, hg⟩ := compile_eq_ok_iff.mp hc
  exact ⟨p, hc, (program_sound hg).load_labels
    (fun f hm c hc => (hn f hm c hc).imp fun _ => Node.Spelled.names) hl hd, hq⟩

theorem observed_of_labels {functions : List Node} {entry : Node}
    {r : Except RunError (Array Int × Option Int)}
    (hn : ∀ f ∈ entry :: functions, ∀ c ∈ f.children, c.Every Node.Spelled)
    (h : ∃ p ∈ (compile .verbatim functions entry).toOption, (∀ l ∈ p.labels, l.Legible) ∧
      p.labels.Nodup ∧
      (Image.ofCode p.instructions).run.map (fun s => (s.output, s.result?)) = r) :
    Observed functions entry r := by
  obtain ⟨p, hc, hl, hr⟩ := exists_load hn h
  exact ⟨p, _, hc, hl, hr⟩

-- A function in a function, with a value for its parameter on the stack and without one.
theorem compile_nested_twice :
    let inner := Node.assign (.ident "h") (.function ["m"] (.returns [.ident "m"]))
    let entry := Node.function [] (.block [.assign (.ident "g") (.function ["n"] (.block [inner]))])
    let s : State := { pc := 3, registers := ⟨[("main.g.h", 1)]⟩, stack := [5, 9] }
    ∃ p img, compile .scoped [] entry = .ok p ∧ Image.load p.text = .ok img ∧
      (∃ s', img.Steps 2 s s' ∧ s'.pc = 5 ∧ s'.stack = [9] ∧ s'.read "main.g.h.m" = 5 ∧
        s'.read "main.g.h" = 1) ∧
      img.Finishes { s with stack := [] } 2 (.error .emptyStack) := by
  intro inner entry s
  have hn : ∀ f ∈ [entry], ∀ c ∈ f.children, c.Every Node.Spelled := by decide +kernel
  obtain ⟨p, hc, hl, -⟩ : ∃ p, compile .scoped [] entry = .ok p ∧
      Image.load p.text = .ok (.ofCode p.instructions) ∧ True :=
    exists_load hn (by decide +kernel)
  obtain ⟨g, dst, ho, ha⟩ : ∃ g dst, Occurs .scoped [] entry p (.job (.node inner .any dst)) g 3 ∧
      (assigned? (.ident "h") g.symbols).map
        (fun x => (x.fst.name, parameterSlots [.ident "m"] (x.snd.enter x.fst.name)))
        = some ("main.g.h", [.named "main.g.h.m"]) := by
    exact ⟨_, _, ⟨_, _, _, _, .entry, .head (.body rfl rfl) <| .head .statements <| .head .first <|
      .head (.assignment rfl) <| .head (.value rfl) <| .head (.body rfl rfl) <| .head .statements <|
      .head .first .refl,
      by decide +kernel⟩, by decide +kernel⟩
  obtain ⟨slot, symbols, _, _, _, _, hs, -, -, -, -, h⟩ := compile_nested hc hn hl rfl ho
  obtain ⟨hslot, hslots⟩ : slot.name = "main.g.h" ∧
      parameterSlots [.ident "m"] (symbols.enter slot.name) = [.named "main.g.h.m"] := by
    simpa [hs] using ha
  obtain ⟨s', hsteps, hpc, hst, -, -, hr, -⟩ :=
    h.reached (s := s) rfl (show s.stack = [5] ++ [9] from rfl) rfl
  change Receives (parameterSlots [.ident "m"] (symbols.enter slot.name)) _ _ _ _ at hr
  rw [hslots] at hr
  refine ⟨p, _, hc, hl, ⟨s', hsteps, hpc, hst, ?_, ?_⟩, h.fails rfl Nat.zero_lt_one⟩
  · exact hr.value (i := 0) (r := .named "main.g.h.m") (by simp) rfl rfl
  · exact hr.kept (by decide) id

-- A statement that should only make a function takes a value off the stack, and another one does
-- what the function does.
theorem inline_function_runs :
    let print := Node.call "print" [.number "1"]
    let takes := Node.function []
      (.block [.assign (.ident "g") (.function ["n"] (.returns [.ident "n"])), print])
    let prints := Node.function []
      (.block [.assign (.ident "g") (.function [] (.block [.call "print" [.number "7"]])), print])
    Observed [] takes (.error .emptyStack) ∧ Observed [] prints (.ok (#[7, 1], none)) := by
  intro print takes prints
  exact ⟨observed_of_labels (by decide +kernel) (by decide +kernel),
    observed_of_labels (by decide +kernel) (by decide +kernel)⟩

end LineCode

import LineCode.Proofs.Expressions
import LineCode.Proofs.Insertion
import LineCode.Proofs.Splicing

namespace LineCode

open Lower Machine

namespace Source

theorem Discards.rhs {filled : Bool} {token : Token} {op : Operator} {lhs rhs : Node}
    {rest : List Node} (h : Discards filled ⟨.infixOperator, token, lhs :: rhs :: rest⟩)
    (ho : Operator.ofSymbol? token.text = some op) :
    Discards filled rhs ∧ (filled = false → op.IsComparison) := by
  cases h
  case other hi    => contradiction
  case operator hr => exact ⟨hr, nofun⟩
  case comparison hc ho' hr =>
    cases ho.symm.trans ho'
    exact ⟨hr, fun _ => hc⟩

theorem slot_sink (d : Nat) : Slot d .sink :=
  slot_named (by decide)

-- An expression has a value in the variables of the machine.
def Evaluates (s : State) (e : Node) : Prop :=
  ∃ v m, expression closed e ⟨s.read, s.output⟩ = .ok (v, m)

-- Some code of a program writes to no register, but for the sink, in which a left operand waits for
-- a call to return.
def Spares (program code : List Instruction) (s : State) : Prop :=
  ∀ k ∈ s.calls, ∀ i ∈ code, ∀ r ∈ i.written?, r ≠ .sink → ¬Awaits (program.drop k) r.name

instance {program code : List Instruction} {s : State} : Decidable (Spares program code s) :=
  inferInstanceAs (Decidable (∀ k ∈ s.calls, ∀ i ∈ code, ∀ r ∈ i.written?, r ≠ .sink →
    ¬Awaits (program.drop k) r.name))

-- Code has run from its first line to its last, and has changed nothing but what it writes.
structure Ran (code : List Instruction) (s s' : State) : Prop where
  pc     : s'.pc = s.pc + code.length
  kept   : ∀ y, (∀ i ∈ code, ∀ r ∈ i.written?, r.name ≠ y) → s'.read y = s.read y
  stack  : s'.stack = s.stack
  calls  : s'.calls = s.calls
  output : s'.output = s.output

namespace Ran

variable {code code₁ code₂ : List Instruction} {s s₁ s₂ s' : State} {m : Memory}

theorem nil (s : State) : Ran [] s s :=
  ⟨rfl, fun _ _ => rfl, rfl, rfl, rfl⟩

theorem single {i : Instruction} {r : Register} (hi : i.written? = some r) (s : State) (v : Int) :
    Ran [i] s (s.write r.name v).tick where
  pc        := rfl
  kept _ hy := State.read_write_of_ne (hy i List.mem_cons_self r hi).symm s v
  stack     := rfl
  calls     := rfl
  output    := rfl

theorem append (h₁ : Ran code₁ s s₁) (h₂ : Ran code₂ s₁ s₂) : Ran (code₁ ++ code₂) s s₂ where
  pc        := by rw [h₂.pc, h₁.pc, List.length_append, Nat.add_assoc]
  kept y hy := by
    obtain ⟨hy₁, hy₂⟩ := List.forall_mem_append.mp hy
    exact (h₂.kept y hy₂).trans (h₁.kept y hy₁)
  stack     := h₂.stack.trans h₁.stack
  calls     := h₂.calls.trans h₁.calls
  output    := h₂.output.trans h₁.output

theorem mirrors (h : Ran code s s') (hm : Mirrors m s)
    (hw : ∀ i ∈ code, ∀ r ∈ i.written?, ∀ y, Name y → r.name ≠ y) : Mirrors m s' where
  vars y hy := (h.kept y fun i hi r hr => hw i hi r hr y hy).trans (hm.vars y hy)
  output    := h.output.trans hm.output

end Ran

namespace Pure

variable {e : Node} {m m' : Memory} {v : Int} {demand : Demand} {dst : Destination} {d : Nat}
  {s s' : Stage} {code : List Instruction}

theorem memory_eq (hp : Pure e) (h : expression closed e m = .ok (v, m')) : m' = m := by
  induction hp generalizing m v m'
  case literal hl =>
    simp only [expression, hl, pure, StateT.pure, Except.pure, Except.ok.injEq, Prod.mk.injEq] at h
    exact h.right.symm
  case identifier =>
    cases h
    rfl
  case binary ho _ _ hl hr =>
    obtain ⟨a, m₁, b, h₁, h₂, -⟩ := binary_eq_ok ho h
    rw [hr h₂, hl h₁]

-- Beside the register for its value, an expression writes to temporaries that are not in use.
theorem written (hp : Pure e) (h : Emits (.node e demand dst) d s code s') :
    ∀ i ∈ code, ∀ r ∈ i.written?, r = dst.target ∨ ∃ j, d ≤ j ∧ r = .temp j := by
  induction hp generalizing demand dst d s code s'
  case literal =>
    cases h
    case literal          => simp [Instruction.written?]
    case literalDiscarded => simp
  case identifier =>
    cases h
    simp [Instruction.written?]
  case binary ho _ _ hl hr =>
    cases h
    case assignment ht _ _ => exact absurd ht (Operator.ne_assign ho)
    case binary h₁ h₂ =>
      simp only [List.forall_mem_append]
      refine ⟨⟨fun i hi r hw => ?_, fun i hi r hw => ?_⟩, by simp [Instruction.written?]⟩
      · obtain rfl | ⟨j, hj, rfl⟩ := hl h₁ i hi r hw
        · exact .inr ⟨d, Nat.le_refl d, rfl⟩
        · exact .inr ⟨j, Nat.le_of_succ_le hj, rfl⟩
      · refine (hr h₂ i hi r hw).imp_right ?_
        rintro ⟨j, hj, rfl⟩
        exact ⟨j, Nat.le_of_succ_le hj, rfl⟩

theorem written_ne (hp : Pure e) (h : Emits (.node e demand dst) d s code s')
    (hd : ∀ y, Name y → dst.target.name ≠ y) :
    ∀ i ∈ code, ∀ r ∈ i.written?, ∀ y, Name y → r.name ≠ y := by
  intro i hi r hw y hy
  obtain rfl | ⟨j, -, rfl⟩ := hp.written h i hi r hw
  · exact hd y hy
  · exact (name_ne_temp hy j).symm

-- The code of an expression runs to its end. The value is where it should be, unless it is
-- discarded and ends in a literal.
theorem runs {filled : Bool} {img : Image} {st : State} (hp : Pure e)
    (hf : (∃ r, dst = .register r) ∧ filled = true ∨ Discards filled e)
    (h : Emits (.node e demand dst) d s code s') (hv : s.symbols.naming = .verbatim)
    (hs : Slot d dst.target) (hh : img.Has st.pc code) (hm : Mirrors m st)
    (he : expression closed e m = .ok (v, m')) :
    ∃ n st', img.Steps n st st' ∧ Ran code st st' ∧
      (filled = true → st'.read dst.target.name = v) := by
  have hmem := hp.memory_eq he
  subst hmem
  induction hp generalizing filled demand dst d s s' code st v
  case literal hl =>
    cases h
    case literal =>
      simp only [expression, hl, pure, StateT.pure, Except.pure, Except.ok.injEq,
        Prod.mk.injEq] at he
      exact ⟨1, _, .load hh hl, .single rfl ..,
        fun _ => (State.read_write_self ..).trans he.left⟩
    case literalDiscarded =>
      obtain ⟨⟨r, hr⟩, -⟩ | hd := hf
      · contradiction
      · cases hd
        case other hk _ => contradiction
        case literal    => exact ⟨0, st, .refl, .nil st, (absurd · Bool.false_ne_true)⟩
  case identifier token hx =>
    cases h
    case identifier =>
      rw [Symbols.resolve_verbatim hv] at hh ⊢
      refine ⟨1, _, .move hh, .single rfl .., fun _ => (State.read_write_self ..).trans ?_⟩
      cases he
      exact hm.vars _ hx
  case binary op _ _ ho hl hr hil hir =>
    obtain ⟨a, m₁, b, h₁, h₂, hv'⟩ := binary_eq_ok ho he
    cases hl.memory_eq h₁
    cases h
    case assignment ht _ _ => exact absurd ht (Operator.ne_assign ho)
    case binary op' code₁ s₁ code₂ ho' he₁ he₂ =>
      cases ho.symm.trans ho'
      obtain ⟨n₁, st₁, hs₁, hr₁, ha⟩ := hil (.inl ⟨⟨_, rfl⟩, rfl⟩) he₁ hv
        (slot_temp (Nat.lt_succ_self d)) hh.left.left hm h₁
      have hm₁ := hr₁.mirrors hm (hl.written_ne he₁ fun y hy => (name_ne_temp hy d).symm)
      have hf₂ : (∃ r, dst = .register r) ∧ filled = true ∨ Discards filled _ :=
        hf.imp_right fun hd => (hd.rhs ho).left
      obtain ⟨n₂, st₂, hs₂, hr₂, hb⟩ := hir hf₂ he₂ (he₁.keeps.naming.trans hv) hs.succ
        (hr₁.pc ▸ hh.left.right) hm₁ h₂
      have hr₁₂ := hr₁.append hr₂
      -- The left operand is still in its temporary.
      have hw : st₂.read (Register.temp d).name = a := by
        refine (hr₂.kept _ fun i hi r hw => ?_).trans (ha rfl)
        obtain rfl | ⟨j, hj, rfl⟩ := hr.written he₂ i hi r hw
        · exact (hs d (Nat.le_refl d)).symm
        · exact fun he => Nat.ne_of_gt hj (Register.temp_name_inj he)
      obtain ⟨u, hu, huv⟩ : ∃ u, eval op a (st₂.read dst.target.name) = .ok u ∧
          (filled = true → u = v) := by
        cases filled
        case true  => exact ⟨v, hb rfl ▸ hv', fun _ => rfl⟩
        case false =>
          have hc := ((hf.resolve_left fun hr => by simp at hr).rhs ho).right rfl
          obtain ⟨u, hu⟩ := eval_comparison hc a (st₂.read dst.target.name)
          exact ⟨u, hu, (absurd · Bool.false_ne_true)⟩
      rw [← hw] at hu
      refine ⟨_, _, (hs₁.trans hs₂).trans (.binary (hr₁₂.pc ▸ hh.right) hu),
        hr₁₂.append (.single rfl ..), fun hf => (State.read_write_self ..).trans (huv hf)⟩

-- The code of a discarded expression does nothing that anybody looks at.
theorem harmless {filled : Bool} {x : Splice} {img : Image} (hp : Pure e) (hd : Discards filled e)
    (hc : Dropped e x.inserted) (hh : img.Holds x.long)
    (he : x.inserted ≠ [] → ∀ j s, img.Steps j {} s → s.pc = x.before.length →
      Evaluates s e ∧ Spares x.long x.inserted s) : x.Harmless img := by
  intro j s hj hs
  by_cases hi : x.inserted = []
  case pos =>
    exact ⟨0, s, .refl, by simp [hi, hs], fun _ _ => rfl, fun _ _ _ _ _ => rfl, rfl, rfl, rfl⟩
  case neg =>
    obtain ⟨d, st, st', hv, hc⟩ := hc.resolve_left hi
    obtain ⟨⟨v, m, he⟩, hk⟩ := he hi j s hj hs
    have hh : img.Has s.pc x.inserted := hs ▸ .of_holds hh
    obtain ⟨n, s', hn, hr, -⟩ :=
      hp.runs (.inr hd) hc hv (slot_sink d) hh ⟨fun _ _ => rfl, rfl⟩ he
    refine ⟨n, s', hn, hs ▸ hr.pc, fun y hy => ?_, fun k hm y hy hn => ?_, hr.stack, hr.calls,
      hr.output⟩
    · exact hr.kept y fun i hi r hw => hp.written_ne hc (fun y hy => hy.ne_sink.symm) i hi r hw y hy
    · refine hr.kept y fun i hi r hw he => ?_
      have hs : r ≠ .sink := by
        rintro rfl
        exact hn he.symm
      exact hk k hm i hi r hw hs (he ▸ hy)

end Pure

end Source

open Source

variable {functions functions' : List Node} {entry entry' e : Node} {filled : Bool} {p : Program}
  {img : Image} {budget : Nat} {s : State}

theorem observed_of_code {r : Except RunError (Array Int × Option Int)}
    (hf : ∀ f ∈ entry :: functions, ∀ c ∈ f.children, c.Every Fit)
    (h : (compile .verbatim functions entry).toOption.map
      (fun p => (Image.ofCode p.instructions).run.map fun s => (s.output, s.result?)) = some r) :
    Observed functions entry r := by
  obtain ⟨p, hc, hr⟩ := Option.map_eq_some_iff.mp h
  have hc := eq_ok_of_toOption hc
  obtain ⟨g, hg⟩ := compile_eq_ok_iff.mp hc
  exact ⟨p, _, hc, (load_fit (program_sound hg) hf).left, hr⟩

-- A discarded expression can be seen: by what a bare return gives back, in an operator that ends in
-- a literal, by another one of that kind, by an operand that has no value, by a caller with a left
-- operand, and by who looks at addresses.
theorem discarded_observed :
    let x        := Node.ident "x"
    let e        := Node.infixOp "+" (.number "7") x
    let program  := fun statements => Node.function [] (.block statements)
    let fill     := Node.assign x (.number "9223372036854775807")
    let one      := Node.infixOp "+" (.number "1") (.number "1")
    let unvalued := Node.returns [.infixOp "+" (.number "1") (.assign (.ident "y") (.number "2"))]
    let deep     := Node.infixOp "+" (.number "8") (.infixOp "+" (.number "9") x)
    let load     := Node.assign (.ident "f") (.functionRef 0)
    let sum      := Node.returns
      [.infixOp "+" (.number "2") (.infixOp "+" (.number "3") (.call "f" []))]
    let compare  := Node.returns [.infixOp "==" (.ident "f") (.number "9")]
    let number   := Node.assign (.ident "f") (.number "7")
    let result   := Node.returns [.call "f" []]
    let five     := program [.returns [.number "5"]]
    (Observed [] (program [.returns []]) (.ok (#[], some 0)) ∧
      Observed [] (program [e, .returns []]) (.ok (#[], some 7))) ∧
    (Observed [] (program []) (.ok (#[], none)) ∧
      Observed [] (program [.infixOp "/" x (.number "1")]) (.error (.arithmetic .divideByZero))) ∧
    (Observed [] (program [fill, one]) (.ok (#[], none)) ∧
      Observed [] (program [fill, x, one]) (.error (.arithmetic .addOverflow))) ∧
    (Observed [] (program [unvalued]) (.ok (#[], some 1)) ∧
      Observed [] (program [e, unvalued]) (.ok (#[], some 8))) ∧
    (Observed [five] (program [load, sum]) (.ok (#[], some 10)) ∧
      Observed [program [deep, .returns [.number "5"]]] (program [load, sum])
        (.ok (#[], some 17))) ∧
    (Observed [five] (program [load, compare]) (.ok (#[], some 1)) ∧
      Observed [five] (program [x, load, compare]) (.ok (#[], some 0))) ∧
    Observed [five] (program [number, result]) (.ok (#[], none)) ∧
      Observed [five] (program [x, number, result]) (.error .emptyStack) := by
  refine ⟨⟨?_, ?_⟩, ⟨?_, ?_⟩, ⟨?_, ?_⟩, ⟨?_, ?_⟩, ⟨?_, ?_⟩, ⟨?_, ?_⟩, ?_, ?_⟩
  all_goals exact observed_of_code (by decide +kernel) (by decide +kernel)

theorem AlikeAll.head? {x : Splice} {bs : List Bool} {vs vs' : List Int} (h : AlikeAll x bs vs vs')
    (hb : bs.head? ≠ some true) : vs'.head? = vs.head? := by
  cases h
  case nil => rfl
  case cons b _ _ _ _ _ ha _ =>
    cases ha
    case number => rfl
    case line   => simp at hb

-- Both runs start with nothing in the registers.
theorem beside_start (x : Splice) : Beside x {} {} {} :=
  ⟨⟨fun _ _ => Alike.number, .nil, .nil, rfl⟩, .inl (if_pos (Nat.zero_le _)).symm⟩

-- An expression without calls is put among the statements of a program, whose code stays the same
-- but for the lines of the expression. If the expression has a value each time they are reached,
-- and no left operand waits in a register they write, then a discreet run that ends still does so,
-- with the same output and the same result.
theorem compile_insertion (hc : compile .verbatim functions entry = .ok p)
    (hl : Image.load p.text = .ok img) (ho : ∀ f ∈ entry :: functions, Orderly f) (he : Pure e)
    (hd : Discards filled e) (hi : InsertsIn e (entry :: functions) (entry' :: functions'))
    (hr : img.runFrom budget {} = .ok s) (hs : img.discreet budget {} {} = true) :
    ∃ p' img' before code after, compile .verbatim functions' entry' = .ok p' ∧
      Image.load p'.text = .ok img' ∧ p.instructions = before ++ after ∧
      p'.instructions = before ++ code ++ after ∧ Dropped e code ∧
      (p'.instructions.length < 0x10000000000000000 →
        (code ≠ [] → ∀ j s', img'.Steps j {} s' → s'.pc = before.length →
          Evaluates s' e ∧ Spares p'.instructions code s') →
        ∀ budget', img'.runFrom budget' {} = .error .stepLimit ∨
          ∃ s', img'.runFrom budget' {} = .ok s' ∧ s'.output = s.output ∧
            s'.result? = s.result?) := by
  obtain ⟨g, hg⟩ := compile_eq_ok_iff.mp hc
  have hk := program_sound hg
  obtain ⟨before, code, after, hcode, ⟨p', hk', hcode'⟩, hdrop, hclean⟩ :=
    splices_program ho he hi hk
  obtain ⟨g', hg', -⟩ := program_complete hk'
  have hfit := fun f hm => (ho f hm).fit
  obtain ⟨hl₁, hh⟩ := load_fit hk hfit
  obtain ⟨hl', hh'⟩ := load_fit hk' (hi.fit he.every hfit)
  generalize Image.ofCode p'.instructions = img' at hl' hh'
  rw [Except.ok.inj (hl₁.symm.trans hl)] at hh
  refine ⟨p', img', before, code, after, compile_eq_ok_iff.mpr ⟨g', hg'⟩, hl', hcode, hcode',
    hdrop, fun hb hev budget' => ?_⟩
  let x : Splice := ⟨before, code, after⟩
  obtain ⟨tail, hblank, hsettled⟩ := settled_program ho hk
  rw [hblank] at hcode
  rw [hblank, hcode] at hh hsettled
  rw [hcode'] at hh' hb hev
  have ht : Twins x img img' := {
    left    := hh
    right   := hh'
    settled := hsettled
    after   := hclean.settled
    first   := by simp [x, Splice.short, ← hcode]
    bound   := hb
  }
  have hx : x.Harmless img' := he.harmless hd hdrop ht.right hev
  obtain ⟨m, htrack, hm⟩ := Image.tracks_of_runFrom hr hs
  obtain ⟨s', _, hends, hf⟩ := ht.ends hx htrack (beside_start x) .refl
  exact (hends budget').imp_right fun hr' => ⟨s', hr', hf.output, hf.stack.head? hm⟩

-- A comparison is put into a function that is called while two left operands wait, and addresses
-- are compared.
theorem compile_insertion_waiting :
    let e      := Node.infixOp "<" (.ident "n") (.number "3")
    let shown  := Node.call "print" [.ident "n"]
    let result := Node.returns [.ident "n"]
    let callee := fun body => Node.function ["n"] (.block body)
    let sum    := Node.infixOp "+" (.number "2")
      (.infixOp "+" (.number "3") (.call "f" [.ident "i"]))
    let next   := Node.assign (.ident "i") (.infixOp "-" (.ident "i") (.number "1"))
    let same   := Node.infixOp "==" (.ident "g") (.ident "f")
    let entry  := Node.function [] <| .block
      [.assign (.letIdent "f") (.functionRef 0), .assign (.ident "i") (.number "2"),
        .whileDo (.ident "i") (.block [.assign (.ident "y") sum, next]),
        .assign (.ident "g") (.ident "f"), .ifThen same (.block [.call "print" [.ident "y"]]),
        .returns [.ident "y"]]
    ∃ p img, compile .verbatim [callee [shown, e, result]] entry = .ok p ∧
      Image.load p.text = .ok img ∧
      ∀ budget, img.runFrom budget {} = .error .stepLimit ∨
        ∃ s, img.runFrom budget {} = .ok s ∧ s.output = #[2, 1, 6] ∧ s.result? = some 6 := by
  intro e shown result callee sum next same entry
  have hid {x} : Valued (.ident x) := .identifier
  have hnum {w} : Valued (.number w) := .literal
  have hprint {x} : Tidy true (.call "print" [.ident x]) :=
    .discarded (.call (by simpa using hid)) (.other nofun nofun)
  have hret {x} : Tidy true (.returns [.ident x]) := .returns rfl hid (by simpa using .value hid)
  have hcallee : Orderly (callee [shown, result]) := by
    refine ⟨by decide +kernel, fun body hb => ?_⟩
    obtain rfl := Option.some.inj hb
    exact .block (by simpa using ⟨hprint, hret⟩)
  have hentry : Orderly entry := by
    have hload : Tidy true (.assign (.letIdent "f") (.functionRef 0)) :=
      .assignment rfl (.value .reference)
    have hset : Tidy true (.assign (.ident "i") (.number "2")) := .assignment rfl (.value hnum)
    have hsum : Valued sum := .binary rfl hnum (.binary rfl hnum (.call (by simpa using hid)))
    have hnext : Tidy true next := .assignment rfl (.value (.binary rfl hid hnum))
    have hbody : Tidy true (.block [.assign (.ident "y") sum, next]) :=
      .block (by simpa using ⟨.assignment rfl (.value hsum), hnext⟩)
    have hcopy : Tidy true (.assign (.ident "g") (.ident "f")) := .assignment rfl (.value hid)
    have hif : Tidy true (.ifThen same (.block [.call "print" [.ident "y"]])) :=
      .branch (.binary rfl hid hid) (.block (by simpa using hprint))
    refine ⟨by decide +kernel, fun body hb => ?_⟩
    obtain rfl := Option.some.inj hb
    exact .block (by simpa using ⟨hload, hset, .branch hid hbody, hcopy, hif, hret⟩)
  have hthree : literal? "3".toList = some 3 := by decide
  have he : Pure e := .binary rfl (.identifier (by decide)) (.literal hthree)
  have hdis : Discards false e := .comparison rfl trivial .literal
  have hev (s : State) : Evaluates s e := ⟨_, _, rfl⟩
  have hi : InsertsIn e [entry, callee [shown, result]] [entry, callee [shown, e, result]] := by
    have hblock : Inserts e (.block [shown, result]) (.block [shown, e, result]) :=
      @Inserts.here e _ [shown] [result]
    refine ⟨[entry], _, _, [], rfl, rfl, ?_⟩
    exact @Inserts.child e .functionDefinition _ [_] _ _ [] hblock
  have hrun : (compile .verbatim [callee [shown, result]] entry).toOption.map (fun p =>
      (p.instructions.length, ((Image.ofCode p.instructions).runFrom 99 {}).toOption.map fun s =>
        (s.output, s.result?, (Image.ofCode p.instructions).discreet 99 {} {})))
        = some (51, some (#[2, 1, 6], some 6, true)) := by
    decide +kernel
  have hlater : (compile .verbatim [callee [shown, e, result]] entry).toOption.all (fun p =>
      p.instructions.length = 53 ∧ (Image.ofCode p.instructions).after? 99 {} = none ∧
        ∀ n < 99, ∀ s ∈ (Image.ofCode p.instructions).after? n {},
          Spares p.instructions ((p.instructions.drop s.pc).take 2) s) = true := by
    decide +kernel
  obtain ⟨p, hc, hrun⟩ := Option.map_eq_some_iff.mp hrun
  obtain ⟨hlen, hrun⟩ := Prod.mk.inj hrun
  obtain ⟨s, hr, hrun⟩ := Option.map_eq_some_iff.mp hrun
  obtain ⟨hout, hres, hd⟩ : s.output = #[2, 1, 6] ∧ s.result? = some 6 ∧ _ = true := by
    simpa using hrun
  have hc := eq_ok_of_toOption hc
  have ho : ∀ f ∈ [entry, callee [shown, result]], Orderly f := by simpa using ⟨hentry, hcallee⟩
  have hfit := fun f hm => (ho f hm).fit
  obtain ⟨g, hg⟩ := compile_eq_ok_iff.mp hc
  have hl := (load_fit (program_sound hg) hfit).left
  obtain ⟨p', img', before, code, after, hc', hl', hp, hp', -, h⟩ :=
    compile_insertion hc hl ho he hdis hi (eq_ok_of_toOption hr) hd
  obtain ⟨g', hg'⟩ := compile_eq_ok_iff.mp hc'
  have hl₁ := (load_fit (program_sound hg') (hi.fit he.every hfit)).left
  obtain rfl := Except.ok.inj (hl₁.symm.trans hl')
  rw [hc', Except.toOption, Option.all_some, decide_eq_true_iff] at hlater
  obtain ⟨hlen', hend, hspares⟩ := hlater
  have hcode : code = (p'.instructions.drop before.length).take 2 := by
    have hl : code.length = 2 := by
      have hp := congrArg List.length hp
      have hp' := congrArg List.length hp'
      simp only [List.length_append, hlen, hlen'] at hp hp'
      omega
    rw [hp', List.append_assoc, List.drop_left, ← hl, List.take_left]
  refine ⟨p', _, hc', hl', hout ▸ hres ▸ h (by omega) fun _ j s' hj hs => ⟨hev s', ?_⟩⟩
  rw [hcode, ← hs]
  let P := fun s : State => Spares p'.instructions ((p'.instructions.drop s.pc).take 2) s
  exact Image.forall_steps (P := P) hend hspares hj

end LineCode

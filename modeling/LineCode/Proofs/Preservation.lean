import LineCode.Proofs.Statements

namespace LineCode

namespace Lower

theorem parameterSlots_verbatim {symbols : Symbols} (h : symbols.naming = .verbatim)
    (ps : List Node) :
    parameterSlots ps symbols = ps.map fun p => .named p.text := by
  induction ps
  case nil => rfl
  case cons p ps hi =>
    have hd : symbols.declareParameter p.text = (.named p.text, symbols) :=
      Symbols.inFrame_verbatim h ..
    rw [parameterSlots, hd, hi, List.map_cons]

-- The code of each function is a part of the program's.
theorem Routines.split {naming : Naming} {index l l' i : Nat} {fs : List Node} {rs : List Routine}
    {f : Node} (h : Routines naming index l fs rs l') (hf : (f, i) ∈ fs.zipIdx index) :
    ∃ pre code post l₁ l₂, rs.flatMap (·.code ++ [.separator]) = pre ++ code ++ post ∧
      Defines naming (Label.function (toString i)).name f l₁ code l₂ := by
  induction h
  case nil => contradiction
  case cons code l₁ rs _ hd _ hi =>
    rw [List.zipIdx_cons, List.mem_cons] at hf
    rcases hf with hf | hf
    · cases hf
      exact ⟨[], code, .separator :: rs.flatMap (·.code ++ [.separator]), _, _, by simp, hd⟩
    · have ⟨pre, code', post, l₁, l₂, hs, hd'⟩ := hi hf
      exact ⟨code ++ [.separator] ++ pre, code', post, l₁, l₂, by simp [hs], hd'⟩

end Lower

open Machine

-- The loader and the program agree on the lines of labels.
theorem Program.line?_eq {p : Program} {img : Image} (h : img.Holds p.instructions) (l : Label) :
    p.line? l = img.line? l.name := by
  have hs {k} (hk : p.line? l = some k) : img.line? l.name = some k := by
    have ⟨hlt, he, _⟩ := List.findIdx?_eq_some_iff_getElem.mp hk
    exact h.line?_iff l k |>.mpr (List.getElem?_eq_some_iff.mpr ⟨hlt, by simpa using he⟩)
  cases hk : p.line? l
  case some k => exact (hs hk).symm
  case none =>
    cases hi : img.line? l.name
    case none => rfl
    case some k =>
      have hm := List.mem_of_getElem? <| h.line?_iff l k |>.mp hi
      have := List.findIdx?_eq_none_iff.mp hk _ hm
      simp at this

namespace Source

open Lower

-- The machine has the code of all functions, and the lines are those of their labels.
structure Installed (img : Image) (functions : List Node) (line? : Label → Option Nat) : Prop where
  line : ∀ l, line? l = img.line? l.name
  code : ∀ f i, (f, i) ∈ functions.zipIdx → ∃ line code l l',
    img.Has line code ∧ Defines .verbatim (Label.function (toString i)).name f l code l'

section

variable {img : Image} {functions : List Node} {line? : Label → Option Nat} {fuel : Nat}

theorem runs_bindParameters {s s₀ : State} {ps : List Node} {vs : List Int} {m : Memory}
    (hn : ∀ p ∈ ps, Name p.text) (hh : img.Has s.pc (ps.map fun p => .pop (.named p.text)))
    (hs : s.stack = vs ++ s₀.stack) (hc : s.calls = s₀.calls) (hm : Mirrors m s) :
    img.Runs fuel s (fun _ => Ends img s₀ (s.pc + ps.length) none) (bindParameters ps vs m) := by
  induction ps generalizing s vs m
  case nil =>
    cases vs
    case nil  => exact .ok <| .proceed hs hc hm rfl
    case cons => trivial
  case cons p ps hi =>
    have ⟨hp, hps⟩ := List.forall_mem_cons.mp hn
    cases vs
    case nil => trivial
    case cons v vs =>
      let s₁ := ({ s with stack := vs ++ s₀.stack }.write p.text v).tick
      have h₁ : img.Steps 1 s s₁ := .pop hh hs
      have hm₁ : Mirrors (m.set p.text v) s₁ :=
        .set (State.read_write_self ..)
          (fun x hx hn => (State.read_write_of_ne hn ..).trans (hm.vars x hx)) hm.output
      have hr := hi (s := s₁) hps hh.tail rfl hc hm₁
      have hl : s₁.pc + ps.length = s.pc + (p :: ps).length := by
        simp [s₁]
        omega
      rw [hl] at hr
      exact .steps h₁ hr

-- What the machine does for a definition, behind its label: it takes the arguments off the stack
-- and executes the body.
def Performs (img : Image) (fuel : Nat) (c : Context) (params : List Node) (body : Node)
    (code : List Instruction) :
    Prop :=
  ∀ {s s₀ vs m}, img.Has s.pc code → s.stack = vs ++ s₀.stack → s.calls = s₀.calls → Mirrors m s →
    img.Runs fuel s (Ends img s₀ (s.pc + code.length))
      ((bindParameters params vs >>= fun _ => statement c fuel body) m)

theorem Definition.performs {k : Nat} {c : Context} {f body : Node} {params : List Node}
    {name : String} {l l' : Nat} {code : List Instruction} (hf : Definition k params body f)
    (hd : Defines .verbatim name f l code l') (hc : Answers img fuel k c) :
    ∃ tail, code = .label ⟨name⟩ :: tail ∧ Performs img fuel c params body tail := by
  cases hf
  case intro hp hb =>
    obtain ⟨token, _, _, _, tail, symbols, hn, -, -, he, rfl⟩ := hd.inv
    cases hn
    refine ⟨_, List.cons_append, ?_⟩
    rw [parameterSlots_verbatim rfl, List.map_map]
    intro s s₀ vs m hh hs hcs hm
    refine .bind (runs_bindParameters (fun p hm => (hp p hm).right.right) hh.left hs hcs hm)
      fun _ m₁ s₁ he₁ => ?_
    have hp₁ := he₁.pc rfl
    have hh₁ : img.Has s₁.pc tail := hh.right.of_eq (by simp [hp₁])
    have hl : s.pc + (params.map (Instruction.pop ∘ fun p => .named p.text) ++ tail).length
        = s₁.pc + tail.length := by
      simp [hp₁, Nat.add_assoc]
    rw [hl]
    have hv := (parameterSymbols_keeps params (Symbols.enter { naming := .verbatim } name)).naming
    exact (hb.executes hc he hv hh₁ he₁.mirrors).andThen fun _ _ _ h => .ok (he₁.trans h)

theorem Installed.line_function (h : Installed img functions line?) {i : Nat}
    (hi : i < functions.length) :
    ∃ n, line? (.function (toString i)) = some n := by
  have ⟨line, code, l, l', hh, hd⟩ :=
    h.code functions[i] i (List.mk_mem_zipIdx_iff_getElem?.mpr (by simp [hi]))
  obtain ⟨token, params, body, rest, tail, symbols, -, -, -, -, rfl⟩ := hd.inv
  have hl : img.line? (Label.function (toString i)).name = some line := hh.line?
  exact ⟨line, by rw [h.line, hl]⟩

-- By induction on the depth of calls.
theorem answers_call (h : Installed img functions line?)
    (hf : ∀ f ∈ functions, ∃ params body, Definition functions.length params body f) (fuel : Nat) :
    Answers img fuel functions.length ⟨line?, call functions line? fuel⟩ := by
  have hl (i) (hi : i < functions.length) : ∃ n, line? (.function (toString i)) = some n ∧
      img.line? (Label.function (toString i)).name = some n := by
    obtain ⟨n, hn⟩ := h.line_function hi
    exact ⟨n, hn, h.line _ ▸ hn⟩
  induction fuel
  case zero => exact ⟨hl, fun _ _ _ => ⟨0, _, .refl, Nat.le_refl 0⟩⟩
  case succ fuel ha =>
    refine ⟨hl, fun {callee vs stack m s} ho hs hm => ?_⟩
    cases hfind : functions.zipIdx.find? fun fi =>
      line? (.function (toString fi.snd)) == some (address (s.read callee))
    case none =>
      simp only [call, hfind]
      trivial
    case some fi =>
      obtain ⟨f, i⟩ := fi
      have hmem := List.mem_of_find?_eq_some hfind
      have hline := List.find?_some hfind
      obtain ⟨params, body, hdef⟩ := hf f (List.fst_mem_of_mem_zipIdx hmem)
      obtain ⟨line, code, l, l', hh, hd⟩ := h.code f i hmem
      obtain ⟨tail, rfl, hp⟩ := hdef.performs hd ha
      obtain rfl : line = address (s.read callee) := by
        have hl : img.line? (Label.function (toString i)).name = some line := hh.line?
        rw [← h.line] at hl
        exact Option.some.inj <| hl.symm.trans (eq_of_beq hline)
      have he : Context.call ⟨line?, call functions line? (fuel + 1)⟩ (s.read callee) vs
          = (bindParameters params vs >>= fun _ => statement ⟨line?, call functions line? fuel⟩
            fuel body)
            >>= fun r => r.elim undefined pure := by
        cases hdef
        simp only [call, hfind, bind_assoc]
      rw [he]
      let s₁ := { s with
        pc    := address (s.read callee)
        calls := (s.pc + 1) :: s.calls
        steps := s.steps + 1 }
      have hh₁ : img.Has s₁.pc (.label (.function (toString i)) :: tail) := hh
      refine .later (.callValue ho) <| .steps (.label hh₁) ?_
      let s₀ := { s₁ with stack }
      have hs₁ : s₁.tick.stack = vs ++ s₀.stack := hs
      have hc₁ : s₁.tick.calls = s₀.calls := rfl
      refine .bind (hp hh₁.tail hs₁ hc₁ ⟨hm.vars, hm.output⟩) fun r m₂ s₂ he₂ => ?_
      cases r
      case none => trivial
      case some v =>
        refine .steps (.ret (he₂.ret nofun) he₂.frames) <| .ok ?_
        exact ⟨rfl, he₂.stack, rfl, he₂.mirrors.vars, he₂.mirrors.output⟩

end

-- A run is over: the machine halts at its next line and leaves a returned value on the stack.
structure Halts (img : Image) (r : Option Int) (m : Memory) (s : State) : Prop where
  halt    : ∃ op, img.ops[s.pc]? = some op ∧
    img.step s op = .ok (.halted { s with steps := s.steps + 1 })
  stack   : s.stack = r.toList
  mirrors : Mirrors m s

theorem Ends.halts {img : Image} {line : Nat} {r : Option Int} {m : Memory} {s s' : State}
    (h : Ends img s line r m s') (hs : s.stack = []) (hc : s.calls = [])
    (hl : img.ops[line]? = some .halt) : Halts img r m s' where
  halt := by
    cases r
    case none =>
      rw [← h.pc rfl] at hl
      exact ⟨_, hl, rfl⟩
    case some v =>
      refine ⟨_, h.ret nofun, ?_⟩
      simp only [Image.step, Image.exec, h.frames, hc]
  stack   := by simp [h.stack, hs]
  mirrors := h.mirrors

theorem mirrors_initial : Mirrors {} {} where
  vars _ _ := Registers.get_empty ..
  output   := rfl

theorem installed_of_links {functions : List Node} {entry : Node} {p : Program} {n : Nat}
    {img : Image} (h : Links .verbatim functions entry p n) (hh : img.Holds p.instructions) :
    Installed img functions p.line? where
  line := Program.line?_eq hh
  code f i hf := by
    obtain ⟨code, l, rs, -, hr, rfl⟩ := h
    have ⟨pre, code', post, l₁, l₂, hs, hd⟩ := hr.split hf
    have hh :
        img.Holds (Program.blankEntry code ++ [.halt, .separator] ++ pre ++ code' ++ post) := by
      simpa [Program.instructions, Program.link, hs] using hh
    exact ⟨_, code', l₁, l₂, .of_holds hh, hd⟩

theorem runs_of_links {functions : List Node} {entry body : Node} {p : Program} {n : Nat}
    {img : Image} (h : Links .verbatim functions entry p n) (hh : img.Holds p.instructions)
    (he : Definition functions.length [] body entry)
    (hf : ∀ f ∈ functions, ∃ params body, Definition functions.length params body f) (fuel : Nat) :
    img.Runs fuel {} (Halts img) (run functions entry p.line? fuel) := by
  have ha := answers_call (installed_of_links h hh) hf fuel
  have hs : run functions entry p.line? fuel
      = (bindParameters [] [] >>= fun _ => statement ⟨p.line?, call functions p.line? fuel⟩ fuel
        body) {} := by
    cases he
    rfl
  rw [hs]
  obtain ⟨code, l, rs, hd, -, hl⟩ := h
  obtain ⟨tail, rfl, hp⟩ := he.performs hd ha
  have hi : p.instructions = [] ++ (.blank :: tail ++ [.halt]) ++
      .separator :: rs.flatMap (·.code ++ [.separator]) := by
    have hb : Program.blankEntry (.label ⟨Program.entryLabel.name⟩ :: tail) = .blank :: tail := rfl
    simp [hl, Program.instructions, Program.link, hb]
  have hc : img.Has 0 (.blank :: tail ++ [.halt]) := .of_holds (hi ▸ hh)
  let s : State := {}
  have hst : s.tick.stack = [] ++ s.stack := rfl
  have hr := hp hc.left.tail hst rfl mirrors_initial.tick
  refine .steps (.blank hc) <| hr.andThen fun r m s' h => .ok <| h.halts rfl rfl ?_
  have ho := hc.right.op
  rwa [List.length_cons, Nat.add_comm tail.length, ← Nat.add_assoc] at ho

end Source

open Source

-- The program is accepted and does what evaluation says: it halts with the same output, variables
-- and value, or fails in the same way, or goes on for as long.
theorem compile_preserves {functions : List Node} {entry body : Node}
    (he : Definition functions.length [] body entry)
    (hf : ∀ f ∈ functions, ∃ params body, Definition functions.length params body f) :
    ∃ p img, compile .verbatim functions entry = .ok p ∧ Image.load p.text = .ok img ∧ ∀ fuel,
      match Source.run functions entry p.line? fuel with
      | .ok (r, m) =>
        ∃ n s, img.Finishes {} n (.ok s) ∧ s.output = m.output ∧ s.stack = r.toList ∧
        ∀ x, Name x → s.read x = m.vars x
      | .error (.arithmetic why) => ∃ n, img.Finishes {} n (.error (.arithmetic why))
      | .error .timeout          => ∀ budget < fuel, img.runFrom budget {} = .error .stepLimit
      | .error .undefined        => True := by
  have ⟨p, n, hl⟩ := links_exist he hf .verbatim
  have ⟨g, hg, _⟩ := Lower.program_complete hl
  have ⟨img, hi, hh⟩ := hl.load he.legible fun f hm => have ⟨_, _, hd⟩ := hf f hm; hd.legible
  refine ⟨p, img, compile_eq_ok_iff.mpr ⟨g, hg⟩, hi, fun fuel => ?_⟩
  have hr := runs_of_links hl hh he hf fuel
  match hs : Source.run functions entry p.line? fuel with
  | .ok (r, m) =>
    rw [hs] at hr
    have ⟨n, s, hn, ⟨⟨op, ho, ht⟩, hst, hm⟩⟩ := hr
    have ht (b) : img.runFrom (b + 1) s = .ok { s with steps := s.steps + 1 } := by
      rw [Image.runFrom_succ ho, ht]
    exact ⟨n + 1, _, hn.finishes ho ht, hm.output, hst, hm.vars⟩
  | .error (.arithmetic why) =>
    rw [hs] at hr
    have ⟨n, s, op, hn, ho, ht⟩ := hr
    have ht (b) : img.runFrom (b + 1) s = .error (.arithmetic why) := by
      rw [Image.runFrom_succ ho, ht]
    exact ⟨n + 1, hn.finishes ho ht⟩
  | .error .timeout =>
    rw [hs] at hr
    have ⟨n, s, hn, hf⟩ := hr
    exact fun b hb => hn.runFrom_stepLimit (Nat.lt_of_lt_of_le hb hf)
  | .error .undefined => trivial

-- A function that calls itself through a variable, called in a loop and for the value of the
-- program.
theorem compile_preserves_gcd :
    let rem   := Node.infixOp "-" (.ident "a")
      (.infixOp "*" (.infixOp "/" (.ident "a") (.ident "b")) (.ident "b"))
    let gcd   := Node.function ["a", "b"] <| .block
      [.ifThen (.ident "b") (.returns [.call "g" [.ident "b", rem]]), .returns [.ident "a"]]
    let loop  := Node.whileDo (.infixOp "<" (.ident "i") (.number "2")) <| .block
      [.call "print" [.ident "i",
        .infixOp "-" (.call "g" [.number "48", .number "36"]) (.call "print" [.ident "a"])],
        .assign (.ident "i") (.infixOp "+" (.ident "i") (.number "1"))]
    let entry := Node.function [] <| .block
      [.assign (.letIdent "g") (.functionRef 0), loop,
        .returns [.call "g" [.number "12", .number "18"]]]
    ∃ p img n s, compile .verbatim [gcd] entry = .ok p ∧ Image.load p.text = .ok img ∧
      img.Finishes {} n (.ok s) ∧
      s.output = #[12, 0, 12, 12, 1, 12] ∧ s.stack = [6] := by
  intro rem gcd loop entry
  have hid {calls x} (hx : Name x) : Expression 1 calls (.ident x) := .identifier hx
  have hnum {calls text} (hl : (literal? text.toList).isSome) : Expression 1 calls (.number text) :=
    .literal (Option.some_get hl).symm
  have hcall {x y} (hx : Expression 1 true x) (hy : Expression 1 true y) :
      Expression 1 true (.call "g" [x, y]) :=
    .call (by decide) (by decide) (by simpa using ⟨hx, hy⟩)
  have ha {calls} : Expression 1 calls (.ident "a") := hid (by decide)
  have hb {calls} : Expression 1 calls (.ident "b") := hid (by decide)
  have hi {calls} : Expression 1 calls (.ident "i") := hid (by decide)
  have hgcd : ∃ params body, Definition 1 params body gcd := by
    have hrem : Expression 1 true rem := .binary rfl ha (.binary rfl (.binary rfl ha hb) hb)
    have hif : Statement 1 (.ifThen (.ident "b") (.returns [.call "g" [.ident "b", rem]])) :=
      .ifThen rfl hb (.returns (by simp) (by simpa using hcall hb hrem))
    have hret : Statement 1 (.returns [.ident "a"]) := .returns (by simp) (by simpa using ha)
    exact ⟨_, _, .intro (by decide) (.block (by simpa using ⟨hif, hret⟩))⟩
  obtain ⟨body, hentry⟩ : ∃ body, Definition 1 [] body entry := by
    have hlet : Statement 1 (.assign (.letIdent "g") (.functionRef 0)) :=
      .assignment rfl (.declaration (by decide)) (.reference Nat.zero_lt_one rfl)
    have hdiff : Expression 1 true
        (.infixOp "-" (.call "g" [.number "48", .number "36"]) (.call "print" [.ident "a"])) :=
      .binary rfl (hcall (hnum (by decide)) (hnum (by decide))) (.print rfl (by simpa using ha))
    have hprint : Statement 1 (.call "print" [.ident "i",
        .infixOp "-" (.call "g" [.number "48", .number "36"]) (.call "print" [.ident "a"])]) :=
      .call (.print rfl (by simpa using ⟨hi, hdiff⟩))
    have hnext : Statement 1 (.assign (.ident "i") (.infixOp "+" (.ident "i") (.number "1"))) :=
      .assignment rfl (.identifier (by decide)) (.binary rfl hi (hnum (by decide)))
    have hloop : Statement 1 loop :=
      .whileDo rfl (.binary rfl hi (hnum (by decide))) (.block (by simpa using ⟨hprint, hnext⟩))
    have hret : Statement 1 (.returns [.call "g" [.number "12", .number "18"]]) :=
      .returns (by simp) (by simpa using hcall (hnum (by decide)) (hnum (by decide)))
    exact ⟨_, .intro (by simp) (.block (by simpa using ⟨hlet, hloop, hret⟩))⟩
  obtain ⟨p, img, hc, hl, hr⟩ := @compile_preserves [gcd] entry body hentry fun f hf =>
    List.mem_singleton.mp hf ▸ hgcd
  have he :
      ((compile .verbatim [gcd] entry).toOption.bind fun p =>
        (Source.run [gcd] entry p.line? 9).toOption).map
      (Prod.map id Memory.output) = some (some 6, #[12, 0, 12, 12, 1, 12]) := by decide +kernel
  have hr := hr 9
  cases hs : Source.run [gcd] entry p.line? 9
  case error => simp [hc, hs, Except.toOption] at he
  case ok rm =>
    obtain ⟨r, m⟩ := rm
    obtain ⟨rfl, hm⟩ : r = some 6 ∧ m.output = #[12, 0, 12, 12, 1, 12] := by
      simpa [hc, hs, Except.toOption] using he
    rw [hs] at hr
    obtain ⟨n, s, hn, ho, hst, _⟩ := hr
    exact ⟨p, img, n, s, hc, hl, hn, ho.trans hm, hst⟩

end LineCode

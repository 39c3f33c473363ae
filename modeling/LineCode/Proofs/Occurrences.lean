import LineCode.Proofs.Acceptance
import LineCode.Proofs.Balance
import LineCode.Proofs.Vocabulary

namespace LineCode

-- The code of the one generator is the beginning of the other's.
def Generator.Extends (g g' : Generator) : Prop :=
  ∃ code : List Instruction, g'.code = g.code ++ code.toArray

namespace Generator.Extends

variable {g g₁ g₂ : Generator}

theorem of_eq (h : g₁.code = g.code) : g.Extends g₁ :=
  ⟨[], by simp [h]⟩

theorem refl (g : Generator) : g.Extends g :=
  of_eq rfl

theorem push {i : Instruction} (h : g₁.code = g.code.push i) : g.Extends g₁ :=
  ⟨[i], by simp [h]⟩

theorem trans (h₁ : g.Extends g₁) (h₂ : g₁.Extends g₂) : g.Extends g₂ := by
  obtain ⟨code₁, h₁⟩ := h₁
  obtain ⟨code₂, h₂⟩ := h₂
  exact ⟨code₁ ++ code₂, by simp [h₂, h₁]⟩

end Generator.Extends

namespace Lower

open Generator (Extends)

variable {α β : Type}

-- What has been emitted stays.
def Grows (x : Lower α) : Prop := ∀ d g a g', g.pool.Stacked d → x g = .ok a g' → g.Extends g'

namespace Grows

variable {x : Lower α} {f : α → Lower β}

theorem of_realizes {R : Nat → Stage → α → List Instruction → Stage → Prop}
    (h : ∀ d s, Realizes x d s (R d s)) :
    Grows x := by
  intro d g a g' hp hx
  obtain ⟨pool, code, s', -, rfl, -⟩ := (h d g.stage).sound rfl hp hx
  exact ⟨code, rfl⟩

theorem job (job : Job) : Grows job.run :=
  of_realizes job.realized

theorem emit (i : Instruction) : Grows (emit i) :=
  of_realizes fun _ _ => .emit i

theorem seq {f k : Lower Unit} (hf : Grows f) (hr : Restores f) (hk : Grows k) :
    Grows (f >>= fun _ => k) := by
  intro d g a g' hp h
  obtain ⟨_, g₁, h₁, h₂⟩ := bind_eq_ok h
  exact (hf d g _ g₁ hp h₁).trans (hk d g₁ a g' (hr.stacked hp h₁) h₂)

theorem emitThen {k : Lower Unit} (hk : Grows k) (i : Instruction) :
    Grows (Lower.emit i >>= fun _ => k) :=
  (emit i).seq (.emit i) hk

theorem emitAfter (j : Job) (i : Instruction) : Grows (j.run >>= fun _ => Lower.emit i) :=
  (job j).seq (restores_job j) (emit i)

end Grows

-- When the action succeeds, it has gone on from a certain generator.
def Passes (x : Lower α) (g g₁ : Generator) : Prop := ∀ a g', x g = .ok a g' → g₁.Extends g'

namespace Passes

variable {x : Lower α} {g g₁ g₂ : Generator} {d : Nat}

theorem of_ok {a : α} (h : x g = .ok a g₁) : Passes x g g₁ := by
  intro b g' h'
  cases h.symm.trans h'
  exact .refl _

theorem bind {f : α → Lower β} (h : Passes x g g₁) (hp : g.pool.Stacked d) (hr : Restores x)
    (hf : ∀ a, Grows (f a)) :
    Passes (x >>= f) g g₁ := by
  intro b g' hb
  obtain ⟨a, g₂, hx, hb⟩ := bind_eq_ok hb
  exact (h a g₂ hx).trans (hf a d g₂ b g' (hr.stacked hp hx) hb)

theorem after {a : α} {f : α → Lower β} (hx : x g = .ok a g₂) (h : Passes (f a) g₂ g₁) :
    Passes (x >>= f) g g₁ := by
  intro b g' hb
  rw [bind_apply, hx] at hb
  exact h b g' hb

-- What is done to the generator before an action and after it does not touch the code.
theorem bracket {x' : Lower α} (before after : Generator → Generator)
    (hc : ∀ g, (after g).code = g.code)
    (hx : x' g =
      match x (before g) with
      | .ok a g    => .ok a (after g)
      | .error e g => .error e (after g)) (h : Passes x (before g) g₁) : Passes x' g g₁ := by
  intro a g' hx'
  rw [hx] at hx'
  split at hx'
  case h_2 => contradiction
  case h_1 hx =>
    cases hx'
    exact (h _ _ hx).trans (.of_eq (hc _))

theorem within {construct : String} :
    Passes x (g.inside construct) g₁ → Passes (within construct x) g g₁ :=
  bracket (·.inside construct) (fun g => { g with trail := g.trail.tail }) (fun _ => rfl)
    (within_apply ..)

theorem inBlock : Passes x { g with symbols := g.symbols.openBlock } g₁ → Passes (inBlock x) g g₁ :=
  bracket (fun g => { g with symbols := g.symbols.openBlock })
    (fun g => { g with symbols := g.symbols.closeBlock })
    (fun _ => rfl) (inBlock_apply ..)

theorem inDefinition {name : String} :
    Passes x { g with symbols := g.symbols.enter name } g₁ → Passes (inDefinition name x) g g₁ :=
  bracket (fun g => { g with symbols := g.symbols.enter name })
    (fun g => { g with symbols := g.symbols.leave })
    (fun _ => rfl) (inDefinition_apply ..)

theorem withTemp {f : Register → Lower α} (h : Passes (f g.pool.borrow.fst) g.lending g₁) :
    Passes (withTemp f) g g₁ := by
  intro a g' hx
  rw [withTemp_apply] at hx
  split at hx
  case h_1 hx' =>
    split at hx
    case h_1 =>
      cases hx
      exact (h _ _ hx').trans (.of_eq rfl)
    case h_2 => contradiction
  case h_2 => split at hx <;> contradiction

end Passes

section

variable {a b : Call × Generator} {d : Nat} {g : Generator}

-- What lowering a part emits is the beginning of what the whole emits from there on.
theorem Starts.passes (h : Starts a b) (hp : a.snd.pool.Stacked d)
    (hb : b.fst.run b.snd = .ok () g) :
    Passes a.fst.run a.snd g := by
  have hl := hp.borrow.right
  have hf : Passes b.fst.run b.snd g := .of_ok hb
  have hj (j) (i) := Grows.emitAfter j i
  cases h
  case first      => exact .bind hf hp (restores_job (.node ..)) fun _ => .job (.all ..)
  case rest h     => exact .after h hf
  case later      => exact .bind hf hp (restores_job (.arguments ..)) fun _ => hj (.node ..) _
  case argument h =>
    exact .after h <| .bind hf ((restores_job (.arguments ..)).stacked hp h)
      (restores_job (.node ..)) fun _ => .emit _
  case value h    => exact .after h hf
  case statements => exact .inBlock hf
  case values ns _ _ =>
    have ht := restores_pushLast fun t => restores_job (.all ns (.register t))
    exact .within <| .bind (.withTemp <|
      .bind hf (by exact hl) (restores_job (.all ..)) fun _ => .emit _) (by exact hp) ht
      fun _ => .emit _
  case assignment children _ _ _ ht =>
    match children with
    | [] | [_] | _ :: _ :: _ =>
      show Passes (Lower.within _ (if _ = "=" then _ else _)) _ g
      rw [if_pos ht]
      exact .within hf
  case operation ht =>
    show Passes (Lower.within _ (if _ = "=" then _ else _)) _ g
    rw [if_neg ht]
    exact .within hf
  case left ho =>
    simp only [Call.run, ho]
    exact .withTemp <| .bind hf hl (restores_job (.node ..)) fun _ => hj (.node ..) _
  case right lhs _ _ _ _ _ ho h =>
    simp only [Call.run, ho]
    have hg := (restores_job (.node lhs ..)).stacked hl h
    exact .withTemp <| .after h <| .bind hf hg (restores_job (.node ..)) fun _ => .emit _
  case arguments target _ ns _ _ _ _ ht =>
    show Passes (if _ = _ then _ else _) _ g
    rw [if_pos ht]
    have hr := Restores.withTemp fun t => restores_job (.arguments ns t)
    refine .within <| .bind (.withTemp hf) (by exact hp) hr fun _ => ?_
    split
    case isTrue  => exact .of_realizes fun _ _ => realizes_printArguments ..
    case isFalse => exact .of_realizes fun _ _ => realizes_callVariable ..
  case printing ht hc h =>
    show Passes (if _ = _ then _ else _) _ g
    rw [if_pos ht]
    refine .within <| .after h ?_
    rw [if_pos hc]
    exact hf
  case calling ht hc h =>
    show Passes (if _ = _ then _ else _) _ g
    rw [if_pos ht]
    refine .within <| .after h ?_
    rw [if_neg hc]
    exact hf
  case body hk h =>
    show Passes (if _ = _ then _ else _) _ g
    rw [if_pos hk]
    exact .after rfl <| .inDefinition <| .within <| .after h hf
  case conditional ht | loop ht =>
    simp only [Call.run, Job.run, lower, ht]
    exact .within hf
  case ifCondition body _ =>
    exact .withTemp <| .after rfl <| .bind hf hl (restores_job (.node ..)) fun _ =>
      (hj (.node body ..) _).emitThen _ |>.emitThen _
  case ifBody h =>
    have hg := (restores_job (.node ..)).stacked (by exact hl) h
    exact .withTemp <| .after rfl <| .after h <| .after rfl <| .after rfl <|
      .bind hf hg (restores_job (.node ..)) fun _ => .emit _
  case whileCondition body _ =>
    exact .withTemp <| .after rfl <| .after rfl <| .after rfl <|
      .bind hf hl (restores_job (.node ..)) fun _ =>
      .emitThen (.emitThen
        (Grows.seq (.job (.node body ..)) (restores_job _) ((Grows.emit _).emitThen _)) _) _
  case whileBody h =>
    have hg := (restores_job (.node ..)).stacked (by exact hl) h
    exact .withTemp <| .after rfl <| .after rfl <| .after rfl <| .after h <| .after rfl <|
      .after rfl <|
      .bind hf hg (restores_job (.node ..)) fun _ => (Grows.emit _).emitThen _

theorem Starts.extends (h : Starts a b) (hp : a.snd.pool.Stacked d) : a.snd.Extends b.snd := by
  have hl := hp.borrow.right
  cases h
  case value target _ _ _ _ _ h =>
    exact .trans (.of_eq rfl)
      (Grows.of_realizes (fun _ _ => realizes_assignmentTarget target) _ _ _ _ hp h)
  case body params _ _ _ _ _ _ _ h =>
    exact .trans (.push rfl) <|
      Grows.of_realizes (fun _ _ => realizes_popParameters params.children) _ _ _ _ (by exact hp) h
  case rest h     => exact Grows.job (.node ..) _ _ _ _ hp h
  case argument h => exact Grows.job (.arguments ..) _ _ _ _ hp h
  case right h =>
    have hg := Grows.job (.node ..) _ _ _ _ (by exact hl) h
    exact .trans (.of_eq rfl) hg
  case printing ns _ _ _ _ _ _ _ h | calling ns _ _ _ _ _ _ _ h =>
    have hr (d s) := Realizes.withTemp (Job.realized (.arguments ns (.temp d)) (d + 1) s)
    have hg := Grows.of_realizes hr _ _ _ _ (by exact hp) h
    exact .trans (.of_eq rfl) hg
  case ifBody h =>
    have hg := Grows.job (.node ..) _ _ _ _ (by exact hl) h
    exact .trans (.of_eq rfl) <| hg.trans <| .trans (.push rfl) (.push rfl)
  case whileCondition => exact .push rfl
  case whileBody h =>
    have hg := Grows.job (.node ..) _ _ _ _ (by exact hl) h
    exact .trans (.push rfl) <| hg.trans <| .trans (.push rfl) (.push rfl)
  all_goals exact .of_eq rfl

theorem extends_of_starts (h : Relation.ReflTransGen Starts a b) (hp : a.snd.pool.Stacked d) :
    a.snd.Extends b.snd := by
  induction h
  case refl => exact .refl _
  case tail h h' hi =>
    obtain ⟨⟨d', hp'⟩, -⟩ := balanced_of_starts h hp
    exact hi.trans (h'.extends hp')

-- An action that a successful one begins, however deep, succeeds. Its code is a part of the code of
-- the whole.
theorem succeeds_of_starts (h : Relation.ReflTransGen Starts a b) (hp : a.snd.pool.Stacked d)
    (ha : a.fst.run a.snd = .ok () g) :
    (∃ d', b.snd.pool.Stacked d') ∧ ∃ g', b.fst.run b.snd = .ok () g' ∧ g'.Extends g := by
  induction h
  case refl => exact ⟨⟨d, hp⟩, g, ha, .refl g⟩
  case tail b c _ h hi =>
    obtain ⟨⟨d', hp'⟩, g', hb, hg⟩ := hi
    refine ⟨h.stacked hp', ?_⟩
    cases hc : c.fst.run c.snd
    case error e g₁ =>
      obtain ⟨g₂, hf⟩ := h.fails hp' ⟨g₁, hc⟩
      cases hb.symm.trans hf
    case ok g₁ => exact ⟨g₁, rfl, (h.passes hp' hc _ _ hb).trans hg⟩

end

end Lower

namespace Program

variable {p : Program} {name : String} {line : Nat} {code : List Instruction}

theorem routines_split {rs : List Routine} {i : Nat} {r : Routine} (h : rs[i]? = some r) :
    ∃ pre post, rs.flatMap (·.code ++ [.separator]) = pre ++ r.code ++ .separator :: post ∧
      pre.length = offset rs i := by
  induction rs generalizing i
  case nil => contradiction
  case cons r' rs hi =>
    cases i
    case zero =>
      obtain rfl := Option.some.inj h
      exact ⟨[], rs.flatMap (·.code ++ [.separator]), by simp, by simp [offset]⟩
    case succ i =>
      obtain ⟨pre, post, hs, hl⟩ := hi h
      refine ⟨r'.code ++ [.separator] ++ pre, post, by simp [hs], ?_⟩
      rw [offset_cons_succ, ← hl]
      simp
      omega

-- The code of a definition stands on its lines, and something that is not code follows it.
theorem Section.split (h : p.Section name line code) :
    ∃ pre last post, p.instructions = pre ++ code ++ last :: post ∧ pre.length = line ∧
      (name = entryLabel.name → last = .halt) ∧ (name ≠ entryLabel.name → last = .separator) := by
  cases h
  case entry =>
    exact ⟨[], .halt, .separator :: p.routines.flatMap (·.code ++ [.separator]), by
      simp [instructions], rfl, by simp⟩
  case routine i r hi =>
    obtain ⟨pre, post, hs, hl⟩ := routines_split hi
    refine ⟨p.entry ++ [.halt, .separator] ++ pre, .separator, post, by simp [instructions, hs], ?_,
      fun he => ?_,
      fun _ => rfl⟩
    · simp [start, hl]
      omega
    · exact absurd (Label.ext he) (function_ne_entryLabel _)

end Program

namespace Lower

variable {naming : Naming} {functions : List Node} {entry node : Node} {p : Program}
  {g g₀ g' : Generator} {name : String} {line : Nat}

-- The generator when a definition of a program comes up, and the line on which its code will start.
inductive Begins (naming : Naming) (functions : List Node) (entry : Node) (p : Program) :
    (name : String) → Node → Generator → (line : Nat) → Prop
  | entry : Begins naming functions entry p Program.entryLabel.name entry (.new naming) 0
  | function {i f q g} :
    functions[i]? = some f → program (functions.take i) entry (.new naming) = .ok q g →
    Begins naming functions entry p (Label.function (toString i)).name f g (p.start i)

-- An action is begun somewhere in a program, and its code will start on the given line.
def Occurs (naming : Naming) (functions : List Node) (entry : Node) (p : Program) (call : Call)
    (g : Generator) (line : Nat) : Prop :=
  ∃ name node g₀ start, Begins naming functions entry p name node g₀ start ∧
    Relation.ReflTransGen Starts (.job (.node node .value (.register (.named name))), g₀)
      (call, g) ∧
    line = start + g.code.size

theorem Routines.length_eq {index l l' : Nat} {fs : List Node} {rs : List Routine}
    (h : Routines naming index l fs rs l') : rs.length = fs.length := by
  induction h
  case nil     => rfl
  case cons hi => exact congrArg (· + 1) hi

theorem Links.length_routines {n : Nat} (h : Links naming functions entry p n) :
    p.routines.length = functions.length := by
  obtain ⟨_, _, _, _, hr, rfl⟩ := h
  exact hr.length_eq

theorem routines_append {index : Nat} {fs gs : List Node} {rs : List Routine}
    (h : routines index (fs ++ gs) g = .ok rs g') :
    ∃ rs₁ g₁ rs₂, routines index fs g = .ok rs₁ g₁ ∧
      routines (index + fs.length) gs g₁ = .ok rs₂ g' ∧
      rs = rs₁ ++ rs₂ ∧ rs₁.length = fs.length := by
  induction fs generalizing index g rs
  case nil => exact ⟨[], g, rs, rfl, h, rfl, rfl⟩
  case cons f fs hi =>
    obtain ⟨code, g₁, hf, h⟩ := bind_eq_ok h
    obtain ⟨rs', g₂, hr, h⟩ := bind_eq_ok h
    cases h
    obtain ⟨rs₁, g₃, rs₂, h₁, h₂, rfl, hl⟩ := hi hr
    refine ⟨{ index, label := .function (toString index), code } :: rs₁, g₃, rs₂, ?_, ?_, rfl,
      congrArg (· + 1) hl⟩
    · simp only [routines, bind_apply, hf, h₁]
      rfl
    · rwa [List.length_cons, Nat.add_comm fs.length, ← Nat.add_assoc]

theorem generate_eq_ok {code : List Instruction} (h : generate name node g = .ok code g') :
    node.kind = .functionDefinition ∧
      ∃ g₁, lower node .value (.register (.named name)) g = .ok () g₁ ∧ code = g₁.code.toList := by
  by_cases hk : node.kind = .functionDefinition
  case neg => simp [generate, hk, unhandled, reject] at h
  case pos =>
    rw [generate_apply hk] at h
    split at h
    case h_2 => contradiction
    case h_1 g₁ hl =>
      cases h
      exact ⟨hk, g₁, hl, rfl⟩

theorem program_eq_ok (h : program functions entry g = .ok p g') :
    ∃ code g₁ rs, generate Program.entryLabel.name entry g = .ok code g₁ ∧
      routines 0 functions g₁ = .ok rs g' ∧
      p = .link code rs := by
  obtain ⟨code, g₁, hf, h⟩ := bind_eq_ok h
  obtain ⟨rs, g₂, hr, h⟩ := bind_eq_ok h
  cases h
  exact ⟨code, g₁, rs, hf, hr, rfl⟩

theorem Defines.first {l l' : Nat} {code : List Instruction}
    (h : Defines naming name node l code l') :
    ∃ tail, code = .label ⟨name⟩ :: tail := by
  obtain ⟨_, _, _, _, tail, _, -, -, -, -, ht⟩ := h.inv
  exact ⟨_, ht⟩

-- A definition that comes up is lowered from an idle generator, to the code of its section.
theorem Begins.lowers (hp : program functions entry (.new naming) = .ok p g)
    (h : Begins naming functions entry p name node g₀ line) :
    node.kind = .functionDefinition ∧ ∃ g' l code first tail, Idle g₀ naming l ∧
      lower node .value (.register (.named name)) g₀ = .ok () g' ∧ p.Section name line code ∧
      code = first :: tail ∧
      g'.code.toList = .label ⟨name⟩ :: tail := by
  obtain ⟨code, g₁, rs, hf, hr, rfl⟩ := program_eq_ok hp
  obtain ⟨l₁, hd, hg₁⟩ := generate_sound (idle_new naming) hf
  cases h
  case entry =>
    obtain ⟨hk, g', hl, rfl⟩ := generate_eq_ok hf
    obtain ⟨tail, ht⟩ := hd.first
    have hs : (Program.link g'.code.toList rs).entry = .blank :: tail := by
      rw [ht]
      rfl
    exact ⟨hk, g', 0, _, .blank, tail, idle_new naming, hl, .entry, hs, ht⟩
  case function i q hi hq =>
    obtain ⟨_, _, rs', hf', hr', -⟩ := program_eq_ok hq
    cases hf.symm.trans hf'
    obtain ⟨hlt, rfl⟩ := List.getElem?_eq_some_iff.mp hi
    have hsplit : functions = functions.take i ++ functions[i] :: functions.drop (i + 1) := by
      rw [← List.drop_eq_getElem_cons hlt, List.take_append_drop]
    rw [hsplit] at hr
    obtain ⟨rs₁, g₃, rs₂, h₁, h₂, rfl, hn⟩ := routines_append hr
    cases hr'.symm.trans h₁
    rw [List.length_take_of_le (Nat.le_of_lt hlt)] at hn
    rw [Nat.zero_add, List.length_take_of_le (Nat.le_of_lt hlt)] at h₂
    obtain ⟨code₂, g₄, hf₂, h₂⟩ := bind_eq_ok h₂
    obtain ⟨rs₃, g₅, -, h₂⟩ := bind_eq_ok h₂
    cases h₂
    obtain ⟨l, -, hg₀⟩ := routines_sound hg₁ h₁
    obtain ⟨l', hd₂, -⟩ := generate_sound hg₀ hf₂
    obtain ⟨hk, g', hl, rfl⟩ := generate_eq_ok hf₂
    obtain ⟨tail, ht⟩ := hd₂.first
    let r : Routine := ⟨i, .function (toString i), g'.code.toList⟩
    have hr : (Program.link code (rs' ++ r :: rs₃)).routines[i]? = some r := by
      simp [Program.link, ← hn]
    exact ⟨hk, g', l, _, _, tail, hg₀, hl, .routine hr, ht, ht⟩

-- What a definition begins comes after its label.
theorem size_ne_zero_of_starts {token : Token} {children : List Node} {demand : Demand}
    {dst : Destination} {d : Nat} {b : Call × Generator} (hp : g.pool.Stacked d)
    (h : Relation.ReflTransGen Starts
      (.job (.node ⟨.functionDefinition, token, children⟩ demand dst), g) b)
    (hb : b.fst ≠ .job (.node ⟨.functionDefinition, token, children⟩ demand dst)) :
    b.snd.code.size ≠ 0 := by
  rcases h.cases_head with rfl | ⟨c, hc, h⟩
  · exact absurd rfl hb
  · cases hc
    case body hg =>
      have he := Grows.of_realizes (fun _ _ => realizes_popParameters _) _ _ _ _ (by exact hp) hg
      obtain ⟨code, hc⟩ :=
        he.trans (extends_of_starts h ((restores_popParameters _).stacked (by exact hp) hg))
      simp [hc, Generator.defining, Generator.inside, Generator.emitting]

-- What a part emits is found in the program where the part occurs.
theorem Occurs.emits {n : Node} {demand : Demand} {dst : Destination}
    (hp : program functions entry (.new naming) = .ok p g) (hn : n.kind ≠ .functionDefinition)
    (h : Occurs naming functions entry p (.job (.node n demand dst)) g₀ line) :
    ∃ d pool code s' pre post, g₀.pool.Stacked d ∧
      lower n demand dst g₀ = .ok () (g₀.after pool code s') ∧
      Emits (.node n demand dst) d g₀.stage code s' ∧ p.instructions = pre ++ code ++ post ∧
      pre.length = line := by
  obtain ⟨name, node, gs, start, hb, hs, rfl⟩ := h
  obtain ⟨hk, g', l, _, first, tail, hi, hl, hsec, rfl, hc⟩ := hb.lowers hp
  obtain ⟨kind, token, children⟩ := node
  obtain rfl : kind = .functionDefinition := hk
  have hz : g₀.code.size ≠ 0 :=
    size_ne_zero_of_starts hi.pool hs (by rintro h; cases h; exact hn rfl)
  obtain ⟨⟨d, hd⟩, g₁, hg₁, code₂, hc₂⟩ := succeeds_of_starts hs hi.pool hl
  obtain ⟨pool, code, s', -, rfl, he⟩ :=
    (Job.realized (.node n demand dst) d g₀.stage).sound rfl hd hg₁
  obtain ⟨pre, last, post, hinst, rfl, -, -⟩ := hsec.split
  obtain ⟨i, code₁, hc₁⟩ : ∃ i code₁, g₀.code.toList = i :: code₁ :=
    List.exists_cons_of_ne_nil (by simpa using hz)
  have ht : tail = code₁ ++ code ++ code₂ := by
    have h : g'.code.toList = g₀.code.toList ++ code ++ code₂ := by simp [hc₂, Generator.after]
    rw [hc, hc₁] at h
    exact (List.cons.inj h).right
  refine ⟨d, pool, code, s', pre ++ first :: code₁, code₂ ++ last :: post, hd, hg₁,
    he, by simp [hinst, ht], ?_⟩
  rw [← Array.length_toList, hc₁, List.length_append, List.length_cons, List.length_cons]

theorem Begins.labelled (h : Begins naming functions entry p name node g₀ line) :
    Labelled functions entry name node := by
  cases h
  case entry         => exact .entry
  case function hi _ => exact .function hi

-- What occurs in a definition occurs in its body, which is lowered once the parameters are known.
theorem Occurs.body {n : Node} {demand : Demand} {dst : Destination}
    (hp : program functions entry (.new naming) = .ok p g) (hn : n.kind ≠ .functionDefinition)
    (h : Occurs naming functions entry p (.job (.node n demand dst)) g₀ line) :
    ∃ name token params body rest g₁,
      Labelled functions entry name ⟨.functionDefinition, token, params :: body :: rest⟩ ∧
      g₁.pool.Stacked 0 ∧ g₁.symbols = parameterSymbols params.children
        (Symbols.enter { naming } name) ∧
      Relation.ReflTransGen Starts (.job (.node body .any .discard), g₁)
        (.job (.node n demand dst), g₀) := by
  obtain ⟨name, ⟨kind, token, children⟩, gs, start, hb, hs, -⟩ := h
  obtain ⟨hk, g', l, _, first, tail, hi, -, -, -, -⟩ := hb.lowers hp
  obtain rfl : kind = .functionDefinition := hk
  have hsym : gs.symbols = { naming } := congrArg Stage.symbols hi.stage
  rcases hs.cases_head with he | ⟨c, hc, hs⟩
  · cases he
    exact absurd rfl hn
  · cases hc
    case body hg =>
      have hl := popParameters_leaves (d := 0) (by exact hi.pool) hg
      refine ⟨name, token, _, _, _, _, hb.labelled, hl.pool, ?_, hs⟩
      rw [hl.symbols, ← hsym]
      rfl

def Call.Every (P : Node → Prop) : Call → Prop
  | job j                      => j.Every P
  | assignment _ children      => ∀ c ∈ children, c.Every P
  | operation _ lhs rhs _      => lhs.Every P ∧ rhs.Every P
  | conditional condition body => condition.Every P ∧ body.Every P
  | loop condition body        => condition.Every P ∧ body.Every P
  | printing _ _               => True
  | calling _ _                => True

section

variable {P : Node → Prop} {a b : Call × Generator} {d : Nat}

theorem Starts.every (h : Starts a b) (ha : a.fst.Every P) : b.fst.Every P := by
  cases h
  case assignment             => exact fun c hc => Node.Every.child ha hc
  case value                  => exact ha _ (by simp)
  case operation              => exact ⟨Node.Every.first ha, Node.Every.second ha⟩
  case left                   => exact ha.left
  case right                  => exact ha.right
  case arguments              => exact fun n hn => (Node.Every.second ha).child hn
  case printing | calling     => trivial
  case body                   => exact Node.Every.second ha
  case statements | values    => exact fun n hn => Node.Every.child ha hn
  case conditional | loop     => exact ⟨Node.Every.first ha, Node.Every.second ha⟩
  case ifCondition | whileCondition => exact ha.left
  case ifBody | whileBody     => exact ha.right
  case first                  => exact ha _ (by simp)
  case rest | later           => exact fun n hn => ha n (by simp [hn])
  case argument               => exact ha _ (by simp)

theorem every_of_starts (h : Relation.ReflTransGen Starts a b) (ha : a.fst.Every P) :
    b.fst.Every P := by
  induction h
  case refl         => exact ha
  case tail _ h hi  => exact h.every hi

end

-- An invariant of the symbols, as long as there is no definition in a definition.
section

variable {I : Symbols → Prop} {a b : Call × Generator} {d : Nat}
  (v : Vocabulary I (fun _ => True) (fun _ => True) (fun _ => True) (fun _ => True) fun _ => True)

include v

theorem Emits.invariant {job : Job} {s s' : Stage} {code : List Instruction}
    (h : Emits job d s code s') (hn : job.Every (·.kind ≠ .functionDefinition)) (hi : I s.symbols) :
    I s'.symbols := by
  have hpart (n : Node) (h : n.Every (·.kind ≠ .functionDefinition)) :
      n.EveryPart (Node.Over (fun _ => True) (fun _ => True) (fun _ => True) fun _ => True) :=
    h.everyPart.imp fun _ => Node.over_true
  have hn :
      job.EveryPart (Node.Over (fun _ => True) (fun _ => True) (fun _ => True) fun _ => True) := by
    cases job
    case node      => exact hpart _ hn
    case all       => exact fun n hm => hpart n (hn n hm)
    case arguments => exact fun n hm => hpart n (hn n hm)
  exact (h.over v hn trivial hi).right

theorem Job.invariant (job : Job) (hp : g.pool.Stacked d) (h : job.run g = .ok () g')
    (hn : job.Every (·.kind ≠ .functionDefinition)) (hi : I g.symbols) : I g'.symbols := by
  obtain ⟨pool, code, s', -, rfl, he⟩ := (job.realized d g.stage).sound rfl hp h
  exact he.invariant v hn hi

theorem Starts.invariant (h : Starts a b) (hp : a.snd.pool.Stacked d)
    (ha : a.fst.Every (·.kind ≠ .functionDefinition)) (hi : I a.snd.symbols) : I b.snd.symbols := by
  have hl := hp.borrow.right
  cases h
  case value target _ _ _ _ _ h =>
    obtain ⟨pool, code, s', -, rfl, symbols, hs, rfl, -⟩ :=
      (realizes_assignmentTarget target).sound rfl hp h
    exact (v.assigned hs ⟨by simp, by simp, by simp, by simp⟩ hi).right
  case right h    => exact Job.invariant v (.node ..) (by exact hl) h ha.left hi
  case rest h     => exact Job.invariant v (.node ..) hp h (ha _ (by simp)) hi
  case argument h => exact Job.invariant v (.arguments ..) hp h (fun n hn => ha n (by simp [hn])) hi
  case printing ns _ _ _ _ _ _ _ h | calling ns _ _ _ _ _ _ _ h =>
    have hr (s) := Realizes.withTemp (Job.realized (.arguments ns (.temp d)) (d + 1) s)
    obtain ⟨pool, code, s', -, rfl, he⟩ := (hr _).sound rfl (by exact hp) h
    exact he.invariant v (fun n hn => (Node.Every.second ha).child hn) hi
  case body       => exact absurd rfl (Node.Every.self ha)
  case statements => exact v.openBlock hi
  case ifBody h | whileBody h =>
    have hg := Job.invariant v (.node ..) (by exact hl) h ha.left hi
    exact hg
  all_goals exact hi

theorem invariant_of_starts (h : Relation.ReflTransGen Starts a b) (hp : a.snd.pool.Stacked d)
    (ha : a.fst.Every (·.kind ≠ .functionDefinition)) (hi : I a.snd.symbols) : I b.snd.symbols := by
  induction h
  case refl => exact hi
  case tail h h' hi =>
    obtain ⟨⟨d', hp'⟩, -⟩ := balanced_of_starts h hp
    exact h'.invariant v hp' (every_of_starts h ha) hi

end

end Lower
end LineCode

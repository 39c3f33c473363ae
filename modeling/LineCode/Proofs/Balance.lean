import LineCode.Proofs.Sections

namespace LineCode

-- The number of blocks that are open in each frame.
def Symbols.shape (s : Symbols) : List Nat := s.frames.map (·.blocks.length)

namespace Symbols

variable {s t : Symbols}

theorem shape_leave (s : Symbols) : s.leave.shape = s.shape.tail :=
  List.map_tail

theorem shape_openBlock (s : Symbols) : s.openBlock.shape = s.shape.modifyHead (· + 1) := by
  unfold openBlock modifyFrame
  split
  case h_1 hs => simp [shape, hs]
  case h_2 hs => simp [shape, hs, Frame.openBlock]

theorem shape_closeBlock (s : Symbols) : s.closeBlock.shape = s.shape.modifyHead (· - 1) := by
  unfold closeBlock modifyFrame
  split
  case h_1 hs => simp [shape, hs]
  case h_2 hs => simp [shape, hs, Frame.closeBlock]

theorem shape_inFrame {ident : String} {f : Frame → Register × Frame}
    (hf : ∀ frame, (f frame).snd.blocks.length = frame.blocks.length) :
    (s.inFrame ident f).snd.shape = s.shape := by
  unfold inFrame
  split
  case h_1 hs => simp [shape, hs, hf]
  case h_2    => rfl

theorem length_blocks_bindInner (f : Frame) (ident : String) :
    (f.bindInner ident).blocks.length = f.blocks.length := by
  unfold Frame.bindInner
  split
  case h_1    => rfl
  case h_2 hf => simp [hf]

theorem shape_declare (s : Symbols) (ident : String) : (s.declare ident).snd.shape = s.shape :=
  shape_inFrame (length_blocks_bindInner · ident)

theorem shape_declareParameter (s : Symbols) (ident : String) :
    (s.declareParameter ident).snd.shape = s.shape :=
  shape_inFrame fun _ => rfl

theorem shape_resolve (s : Symbols) (ident : String) : (s.resolve ident).snd.shape = s.shape := by
  refine shape_inFrame fun frame => ?_
  split <;> rfl

end Symbols

namespace Generator

-- One generator holds the same resources as the other, and has used up no fewer.
structure Steady (g g' : Generator) : Prop where
  borrowed : ∀ i, g'.pool.Borrowed i ↔ g.pool.Borrowed i
  trail    : g'.trail = g.trail
  naming   : g'.symbols.naming = g.symbols.naming
  shape    : g'.symbols.shape = g.symbols.shape
  issued   : g.labels.issued ≤ g'.labels.issued
  capacity : g.pool.capacity ≤ g'.pool.capacity
  peak     : g.pool.peak ≤ g'.pool.peak

namespace Steady

variable {g g₁ g₂ g₃ : Generator}

theorem refl (g : Generator) : g.Steady g :=
  ⟨fun _ => .rfl, rfl, rfl, rfl, Nat.le_refl _, Nat.le_refl _, Nat.le_refl _⟩

theorem trans (h₁ : g₁.Steady g₂) (h₂ : g₂.Steady g₃) : g₁.Steady g₃ where
  borrowed i := (h₂.borrowed i).trans (h₁.borrowed i)
  trail      := h₂.trail.trans h₁.trail
  naming     := h₂.naming.trans h₁.naming
  shape      := h₂.shape.trans h₁.shape
  issued     := Nat.le_trans h₁.issued h₂.issued
  capacity   := Nat.le_trans h₁.capacity h₂.capacity
  peak       := Nat.le_trans h₁.peak h₂.peak

end Steady

-- How a generator is got ready for a part of what it lowers.

def inside (g : Generator) (construct : String) : Generator :=
  { g with trail := construct :: g.trail }

def lending (g : Generator) : Generator := { g with pool := g.pool.borrow.snd }

def issuing (g : Generator) : Generator := { g with labels := g.labels.next.snd }

def emitting (g : Generator) (i : Instruction) : Generator := { g with code := g.code.push i }

def defining (g : Generator) (name : String) : Generator :=
  { g with symbols := g.symbols.enter name }.inside name

-- The generators that a sequence of top-level definitions leads to, whether or not they are
-- rejected.
inductive Reachable (naming : Naming) : Generator → Prop
  | new : Reachable naming (.new naming)
  | generated {g g' name node code} :
    Reachable naming g → Lower.generate name node g = .ok code g' → Reachable naming g'
  | failed {g g' name node e} :
    Reachable naming g → Lower.generate name node g = .error e g' → Reachable naming g'

end Generator

namespace Lower

variable {α β : Type}

-- However an action ends, the generator holds the same resources again. The pool has refused
-- nothing.
inductive Restored (d : Nat) (g : Generator) : EStateM.Result Generator.Failure Generator α → Prop
  | ok {a g'} : g'.pool.Stacked d → g.Steady g' → Restored d g (.ok a g')
  | rejected {why g'} : g'.pool.Stacked d → g.Steady g' → Restored d g (.error (.rejected why) g')

def Restores (x : Lower α) : Prop := ∀ d g, g.pool.Stacked d → Restored d g (x g)

namespace Restores

variable {x : Lower α}

theorem pure (a : α) : Restores (Pure.pure a) :=
  fun _ g hp => .ok hp (.refl g)

theorem bind {f : α → Lower β} (hx : Restores x) (hf : ∀ a, Restores (f a)) :
    Restores (x >>= f) := by
  intro d g hp
  have hr := hx d g hp
  rw [bind_apply]
  generalize x g = r at hr
  cases hr
  case rejected hp₁ h₁ => exact .rejected hp₁ h₁
  case ok a g₁ hp₁ h₁ =>
    have hr := hf a d g₁ hp₁
    simp only
    generalize f a g₁ = r at hr
    cases hr
    case ok hp₂ h₂       => exact .ok hp₂ (h₁.trans h₂)
    case rejected hp₂ h₂ => exact .rejected hp₂ (h₁.trans h₂)

theorem seq {f k : Lower Unit} (hf : Restores f) (hk : Restores k) : Restores (f >>= fun _ => k) :=
  hf.bind fun _ => hk

theorem emit (i : Instruction) : Restores (emit i) :=
  fun _ g hp => .ok hp { Generator.Steady.refl g with }

theorem freshLabel : Restores freshLabel :=
  fun _ g hp => .ok hp { Generator.Steady.refl g with issued := Nat.le_succ _ }

theorem reject (span : Span) (cause : Cause) : Restores (reject span cause : Lower α) :=
  fun _ g hp => .rejected hp (.refl g)

theorem lookup {f : Symbols → Register × Symbols} (hn : ∀ s, (f s).snd.naming = s.naming)
    (hs : ∀ s, (f s).snd.shape = s.shape) : Restores (lookup f) :=
  fun _ g hp => .ok hp { Generator.Steady.refl g with naming := hn _, shape := hs _ }

theorem within (construct : String) (hx : Restores x) : Restores (within construct x) := by
  intro d g hp
  have hr := hx d { g with trail := construct :: g.trail } hp
  rw [within_apply]
  generalize x _ = r at hr
  cases hr
  case ok hp' h       => exact .ok hp' { h with trail := congrArg List.tail h.trail }
  case rejected hp' h => exact .rejected hp' { h with trail := congrArg List.tail h.trail }

-- The temporary is in use as long as the action goes on, so it can be given back.
theorem withTemp {f : Register → Lower α} (hf : ∀ t, Restores (f t)) : Restores (withTemp f) := by
  intro d g hp
  obtain ⟨ht, hpb⟩ := hp.borrow
  have hr := hf g.pool.borrow.fst (d + 1) { g with pool := g.pool.borrow.snd } hpb
  -- What the action leaves, once the temporary is back.
  have back {g'} (hp' : g'.pool.Stacked (d + 1))
      (h : { g with pool := g.pool.borrow.snd : Generator }.Steady g') :
      ∃ pool, g'.pool.release g.pool.borrow.fst = .ok pool ∧ pool.Stacked d ∧
        g.Steady { g' with pool } := by
    obtain ⟨pool, hq, hpool⟩ := hp'.release
    rw [← ht] at hq
    obtain ⟨hc, hk⟩ := Pool.release_keeps hq
    refine ⟨pool, hq, hpool, { h with borrowed := fun i => ?_, capacity := ?_, peak := ?_ }⟩
    · rw [hpool.borrowed_iff, hp.borrowed_iff]
    · exact hc ▸ Nat.le_trans g.pool.borrow_capacity_le h.capacity
    · exact hk ▸ Nat.le_trans g.pool.borrow_peak_le h.peak
  rw [withTemp_apply]
  generalize f _ _ = r at hr
  cases hr
  case ok hp' h =>
    obtain ⟨pool, hq, hpool, hs⟩ := back hp' h
    simp only [hq]
    exact .ok hpool hs
  case rejected hp' h =>
    obtain ⟨pool, hq, hpool, hs⟩ := back hp' h
    simp only [hq]
    exact .rejected hpool hs

-- Blocks and definitions change the symbols before an action, and undo it afterwards.
theorem bracket {x' : Lower α} (before after : Symbols → Symbols) (hx : Restores x)
    (hn : ∀ s t, t.naming = (before s).naming → (after t).naming = s.naming)
    (hs : ∀ s t, t.shape = (before s).shape → (after t).shape = s.shape)
    (hx' : ∀ g : Generator, x' g =
      match x { g with symbols := before g.symbols } with
      | .ok a g    => .ok a { g with symbols := after g.symbols }
      | .error e g => .error e { g with symbols := after g.symbols }) : Restores x' := by
  intro d g hp
  have hr := hx d { g with symbols := before g.symbols } hp
  rw [hx']
  generalize x _ = r at hr
  cases hr
  case ok hp' h       => exact .ok hp' { h with naming := hn _ _ h.naming, shape := hs _ _ h.shape }
  case rejected hp' h =>
    exact .rejected hp' { h with naming := hn _ _ h.naming, shape := hs _ _ h.shape }

theorem inBlock (hx : Restores x) : Restores (inBlock x) := by
  have hn (s : Symbols) (f : Frame → Frame) : (s.modifyFrame f).naming = s.naming :=
    (Symbols.Keeps.modifyFrame s f).naming
  refine bracket .openBlock .closeBlock hx (fun s t h => ?_) (fun s t h => ?_) (inBlock_apply x)
  · exact (hn t _).trans (h.trans (hn s _))
  · rw [Symbols.shape_closeBlock, h, Symbols.shape_openBlock, List.modifyHead_modifyHead]
    exact congrFun List.modifyHead_id s.shape

theorem inDefinition (name : String) (hx : Restores x) : Restores (inDefinition name x) := by
  refine bracket (·.enter name) .leave hx (fun s t h => h) (fun s t h => ?_)
    (inDefinition_apply name x)
  rw [Symbols.shape_leave, h]
  rfl

end Restores

-- The constructs, given that their parts restore what they use.
section

theorem restores_resolve (ident : String) : Restores (resolve ident) :=
  .lookup (fun s => s.inFrame_naming ..) (Symbols.shape_resolve · ident)

theorem restores_declare (ident : String) : Restores (declare ident) :=
  .lookup (fun s => s.inFrame_naming ..) (Symbols.shape_declare · ident)

theorem restores_declareParameter (ident : String) : Restores (declareParameter ident) :=
  .lookup (fun s => s.inFrame_naming ..) (Symbols.shape_declareParameter · ident)

theorem restores_literal (text : String) (dst : Destination) : Restores (literal text dst) := by
  cases dst
  case discard  => exact .pure ()
  case register => exact .emit _

theorem restores_identifier (name : String) (dst : Register) : Restores (identifier name dst) :=
  (restores_resolve name).bind fun _ => .emit _

theorem restores_binary {op : Operator} {lhs : Register → Lower Unit} {rhs : Lower Unit}
    {dst : Register} (hl : ∀ t, Restores (lhs t)) (hr : Restores rhs) :
    Restores (binary op lhs rhs dst) :=
  .withTemp fun t => (hl t).seq <| hr.seq <| .emit _

theorem restores_assignmentTarget (target : Node) : Restores (assignmentTarget target) := by
  unfold assignmentTarget
  split
  case h_1 => exact restores_resolve _
  case h_2 =>
    split
    case h_1 => exact .reject _ _
    case h_2 => exact restores_declare _
  case h_3 => exact .reject _ _

theorem restores_pushLast {values : Register → Lower Unit} (hv : ∀ t, Restores (values t)) :
    Restores (withTemp fun t => values t >>= fun _ => emit (.push t)) :=
  .withTemp fun t => (hv t).seq <| .emit _

theorem restores_returnLast {values : Register → Lower Unit} (hv : ∀ t, Restores (values t)) :
    Restores (returnLast values) :=
  (restores_pushLast hv).seq (.emit _)

theorem restores_ifThen {condition : Register → Lower Unit} {body : Lower Unit}
    (hc : ∀ t, Restores (condition t)) (hb : Restores body) : Restores (ifThen condition body) :=
  .withTemp fun t => Restores.freshLabel.bind fun _ =>
    (hc t).seq <| .seq (.emit _) <| .seq (.emit _) <| hb.seq <| .emit _

theorem restores_whileDo {condition : Register → Lower Unit} {body : Lower Unit}
    (hc : ∀ t, Restores (condition t)) (hb : Restores body) : Restores (whileDo condition body) :=
  .withTemp fun t => Restores.freshLabel.bind fun _ => Restores.freshLabel.bind fun _ =>
    .seq (.emit _) <| (hc t).seq <| .seq (.emit _) <| .seq (.emit _) <| hb.seq <|
    .seq (.emit _) <| .emit _

theorem restores_outputPopped (t : Register) (n : Nat) : Restores (outputPopped t n) := by
  induction n
  case zero      => exact .pure ()
  case succ n hi => exact .seq (.emit _) <| .seq (.emit _) hi

theorem restores_printArguments (count : Nat) (dst : Register) :
    Restores (printArguments count dst) :=
  .withTemp fun t => (restores_outputPopped t count).seq <| .seq (.emit _) <| .emit _

theorem restores_callVariable (callee : String) (dst : Register) :
    Restores (callVariable callee dst) :=
  (restores_resolve callee).bind fun _ => .seq (.emit _) <| .withTemp fun _ =>
    .seq (.emit _) <| .emit _

theorem restores_call {callee : String} {arguments : Register → Lower Unit} {count : Nat}
    {dst : Register} (ha : ∀ t, Restores (arguments t)) :
    Restores (call callee arguments count dst) := by
  refine .within _ <| .seq (.withTemp ha) ?_
  split
  case isTrue  => exact restores_printArguments count dst
  case isFalse => exact restores_callVariable callee dst

theorem restores_popParameters (ps : List Node) : Restores (popParameters ps) := by
  induction ps
  case nil => exact .pure ()
  case cons p ps hi =>
    simp only [popParameters]
    split
    case isTrue  => exact (restores_declareParameter p.text).bind fun _ => .seq (.emit _) hi
    case isFalse => exact .seq (.reject _ _) hi

theorem restores_definition {name : String} {params : List Node} {body : Lower Unit}
    (hb : Restores body) :
    Restores (definition name params body) :=
  .seq (.emit _) <| .inDefinition name <| .within name <| (restores_popParameters params).seq hb

theorem restores_statement {demand : Demand} {token : Token} {x : Lower Unit} (hx : Restores x) :
    Restores (statement demand token x) := by
  cases demand
  case any   => exact hx
  case value => exact .reject _ _

end

-- A node of any shape is lowered with what it uses restored.
section

variable {token : Token} {children : List Node}

theorem restores_lowerAll {ns : List Node}
    (hn : ∀ n ∈ ns, ∀ demand dst, Restores (lower n demand dst)) (dst : Destination) :
    Restores (lowerAll ns dst) := by
  induction ns
  case nil          => exact .pure ()
  case cons n ns hi => exact .seq (hn n (by simp) _ _) <| hi fun m hm => hn m (by simp [hm])

theorem restores_pushArguments {ns : List Node}
    (hn : ∀ n ∈ ns, ∀ demand dst, Restores (lower n demand dst)) (t : Register) :
    Restores (pushArguments ns t) := by
  induction ns
  case nil          => exact .pure ()
  case cons n ns hi =>
    exact .seq (hi fun m hm => hn m (by simp [hm])) <| .seq (hn n (by simp) _ _) <| .emit _

theorem restores_infix (hc : ∀ n ∈ children, ∀ demand dst, Restores (lower n demand dst))
    (demand : Demand) (dst : Destination) :
    Restores (lower ⟨.infixOperator, token, children⟩ demand dst) := by
  match children with
  | [] =>
    show Restores (within _ (if token.text = "=" then _ else _))
    split <;> exact .within _ (.reject _ _)
  | [target] =>
    show Restores (within _ (if token.text = "=" then _ else _))
    split
    · exact .within _ <| (restores_assignmentTarget target).bind fun _ => .reject _ _
    · exact .within _ (.reject _ _)
  | lhs :: rhs :: rest =>
    show Restores (within _ (if token.text = "=" then _ else _))
    split
    · exact .within _ <| (restores_assignmentTarget lhs).bind fun _ => hc rhs (by simp) _ _
    · cases Operator.ofSymbol? token.text
      case none    => exact .within _ (.reject _ _)
      case some op =>
        exact .within _ <| restores_binary (fun _ => hc lhs (by simp) _ _) (hc rhs (by simp) _ _)

theorem restores_callNode (ha : ∀ c ∈ children, ∀ t, Restores (pushArguments c.children t))
    (demand : Demand) (dst : Destination) :
    Restores (lower ⟨.call, token, children⟩ demand dst) := by
  match children with
  | []       => exact .reject _ _
  | [target] =>
    show Restores (if target.kind = .identifier then _ else _)
    split <;> exact .reject _ _
  | target :: ⟨kind, token', arguments⟩ :: rest =>
    show Restores (if target.kind = .identifier then if kind = .expressionList then _ else _ else _)
    split
    case isFalse => exact .reject _ _
    case isTrue  =>
      split
      case isFalse => exact .reject _ _
      case isTrue  => exact restores_call (ha ⟨kind, token', arguments⟩ (by simp))

theorem restores_definitionNode (hc : ∀ n ∈ children, ∀ demand dst, Restores (lower n demand dst))
    (demand : Demand) (dst : Destination) :
    Restores (lower ⟨.functionDefinition, token, children⟩ demand dst) := by
  match children with
  | []       => exact .reject _ _
  | [params] =>
    show Restores (if params.kind = .identifierList then _ else _)
    split <;> exact .reject _ _
  | params :: body :: rest =>
    show Restores (if params.kind = .identifierList then _ else _)
    split
    case isFalse => exact .reject _ _
    case isTrue  => exact restores_definition (hc body (by simp) _ _)

theorem restores_branch (hc : ∀ n ∈ children, ∀ demand dst, Restores (lower n demand dst))
    (demand : Demand) (dst : Destination) :
    Restores (lower ⟨.branch, token, children⟩ demand dst) := by
  match children with
  | [] | [_] => exact restores_statement (.reject _ _)
  | condition :: body :: rest =>
    have h₁ := fun t => hc condition (by simp) .value (.register t)
    have h₂ := hc body (by simp) .any .discard
    simp only [lower]
    apply restores_statement
    split
    case h_1 => exact .within _ (restores_ifThen h₁ h₂)
    case h_2 => exact .within _ (restores_whileDo h₁ h₂)
    case h_3 => exact .reject _ _

-- Calls reach past their children to the arguments, hence the second half.
theorem restores_node (n : Node) :
    (∀ demand dst, Restores (lower n demand dst)) ∧ ∀ t, Restores (pushArguments n.children t) := by
  induction n using Node.induction
  case h kind token children hc =>
    have hl := fun c h => (hc c h).left
    refine ⟨fun demand dst => ?_, restores_pushArguments hl⟩
    cases kind
    case numericLiteral     => exact restores_literal token.text dst
    case identifier         => exact restores_identifier token.text dst.target
    case functionReference  => exact .emit _
    case infixOperator      => exact restores_infix hl demand dst
    case call               => exact restores_callNode (fun c h => (hc c h).right) demand dst
    case functionDefinition => exact restores_definitionNode hl demand dst
    case block              => exact restores_statement (.inBlock (restores_lowerAll hl .discard))
    case returnStatement =>
      exact restores_statement (.within _ (restores_returnLast fun _ => restores_lowerAll hl _))
    case branch             => exact restores_branch hl demand dst
    all_goals exact .reject _ _

theorem restores_job (job : Job) : Restores job.run := by
  have hl := fun (n : Node) => (restores_node n).left
  cases job
  case node n demand dst => exact hl n demand dst
  case all ns dst        => exact restores_lowerAll (fun n _ => hl n) dst
  case arguments ns t    => exact restores_pushArguments (fun n _ => hl n) t

end

-- The actions that lowering is made of. Beside the three recursions, these are the constructs that
-- are lowered once their surroundings are set up.
inductive Call where
  | job (job : Job)
  | assignment (token : Token) (children : List Node)
  | operation (token : Token) (lhs rhs : Node) (dst : Destination)
  | conditional (condition body : Node)
  | loop (condition body : Node)
  | printing (count : Nat) (dst : Register)
  | calling (callee : String) (dst : Register)

def Call.run : Call → Lower Unit
  | job j                              => j.run
  | assignment token []                => missing token 0
  | assignment token [target]          => do
    let _ ← assignmentTarget target
    missing token 1
  | assignment _ (target :: value :: _) => do
    let slot ← assignmentTarget target
    lower value .any (.register slot)
  | operation token lhs rhs dst        =>
    match Operator.ofSymbol? token.text with
    | none    => reject token.span (.unknownOperator token.text token.print)
    | some op => binary op (lower lhs .any ∘ .register) (lower rhs .any dst) dst.target
  | conditional condition body =>
    ifThen (lower condition .value ∘ .register) (lower body .any .discard)
  | loop condition body =>
    whileDo (lower condition .value ∘ .register) (lower body .any .discard)
  | printing count dst                 => printArguments count dst
  | calling callee dst                 => callVariable callee dst

theorem restores_run (call : Call) : Restores call.run := by
  have hl := fun (n : Node) => (restores_node n).left
  match call with
  | .job job                               => exact restores_job job
  | .assignment _ []                       => exact .reject _ _
  | .assignment _ [target] =>
    exact (restores_assignmentTarget target).bind fun _ => .reject _ _
  | .assignment _ (target :: value :: _) =>
    exact (restores_assignmentTarget target).bind fun _ => hl value _ _
  | .conditional condition body =>
    exact restores_ifThen (fun _ => hl condition _ _) (hl body _ _)
  | .loop condition body =>
    exact restores_whileDo (fun _ => hl condition _ _) (hl body _ _)
  | .printing count dst                    => exact restores_printArguments count dst
  | .calling callee dst                    => exact restores_callVariable callee dst
  | .operation token lhs rhs dst           =>
    simp only [Call.run]
    split
    case h_1 => exact .reject _ _
    case h_2 => exact restores_binary (fun _ => hl lhs _ _) (hl rhs _ _)

-- `Starts (call, g) (call', g')`: the first action, begun with the generator `g`, begins the second
-- one with `g'`.
inductive Starts : Call × Generator → Call × Generator → Prop
  | assignment {token children demand dst g} :
    token.text = "=" →
    Starts (.job (.node ⟨.infixOperator, token, children⟩ demand dst), g)
      (.assignment token children, g.inside ("infix '" ++ token.text ++ "'"))
  | value {token target value rest slot g g'} :
    assignmentTarget target g = .ok slot g' →
    Starts (.assignment token (target :: value :: rest), g)
      (.job (.node value .any (.register slot)), g')
  | operation {token lhs rhs rest demand dst g} :
    token.text ≠ "=" →
    Starts (.job (.node ⟨.infixOperator, token, lhs :: rhs :: rest⟩ demand dst), g)
      (.operation token lhs rhs dst, g.inside ("infix '" ++ token.text ++ "'"))
  | left {token lhs rhs dst op g} :
    Operator.ofSymbol? token.text = some op →
    Starts (.operation token lhs rhs dst, g) (.job (.node lhs .any (.register g.pool.borrow.fst)),
      g.lending)
  | right {token lhs rhs dst op g g'} :
    Operator.ofSymbol? token.text = some op →
    lower lhs .any (.register g.pool.borrow.fst) g.lending = .ok () g' →
    Starts (.operation token lhs rhs dst, g) (.job (.node rhs .any dst), g')
  | arguments {token target token' ns rest demand dst g} :
    target.kind = .identifier →
    Starts
      (.job (.node ⟨.call, token, target :: ⟨.expressionList, token', ns⟩ :: rest⟩ demand dst), g)
      (.job (.arguments ns g.pool.borrow.fst), (g.inside ("call '" ++ target.text ++ "'")).lending)
  | printing {token target token' ns rest demand dst g g'} :
    target.kind = .identifier → target.text = printName →
    withTemp (pushArguments ns) (g.inside ("call '" ++ target.text ++ "'")) = .ok () g' →
    Starts
      (.job (.node ⟨.call, token, target :: ⟨.expressionList, token', ns⟩ :: rest⟩ demand dst), g)
      (.printing ns.length dst.target, g')
  | calling {token target token' ns rest demand dst g g'} :
    target.kind = .identifier → target.text ≠ printName →
    withTemp (pushArguments ns) (g.inside ("call '" ++ target.text ++ "'")) = .ok () g' →
    Starts
      (.job (.node ⟨.call, token, target :: ⟨.expressionList, token', ns⟩ :: rest⟩ demand dst), g)
      (.calling target.text dst.target, g')
  | body {token params body rest demand dst g g'} :
    params.kind = .identifierList →
    popParameters params.children ((g.emitting (.label ⟨dst.target.name⟩)).defining dst.target.name)
    = .ok () g' →
    Starts (.job (.node ⟨.functionDefinition, token, params :: body :: rest⟩ demand dst), g)
      (.job (.node body .any .discard), g')
  | statements {token ns dst g} :
    Starts (.job (.node ⟨.block, token, ns⟩ .any dst), g)
      (.job (.all ns .discard), { g with symbols := g.symbols.openBlock })
  | values {token ns dst g} :
    Starts (.job (.node ⟨.returnStatement, token, ns⟩ .any dst), g)
      (.job (.all ns (.register g.pool.borrow.fst)), (g.inside "return").lending)
  | conditional {token condition body rest dst g} :
    token.text = "if" →
    Starts (.job (.node ⟨.branch, token, condition :: body :: rest⟩ .any dst), g)
      (.conditional condition body, g.inside "if")
  | ifCondition {condition body g} :
    Starts (.conditional condition body, g)
      (.job (.node condition .value (.register g.pool.borrow.fst)), g.lending.issuing)
  | ifBody {condition body g g'} :
    lower condition .value (.register g.pool.borrow.fst) g.lending.issuing = .ok () g' →
    Starts (.conditional condition body, g) (.job (.node body .any .discard),
      (g'.emitting (.negate g.pool.borrow.fst)).emitting
        (.jumpIf (.numbered g.labels.issued) g.pool.borrow.fst))
  | loop {token condition body rest dst g} :
    token.text = "while" →
    Starts (.job (.node ⟨.branch, token, condition :: body :: rest⟩ .any dst), g)
      (.loop condition body, g.inside "while")
  | whileCondition {condition body g} :
    Starts (.loop condition body, g) (.job (.node condition .value (.register g.pool.borrow.fst)),
      g.lending.issuing.issuing.emitting (.label (.numbered (g.labels.issued + 1))))
  | whileBody {condition body g g'} :
    lower condition .value (.register g.pool.borrow.fst)
      (g.lending.issuing.issuing.emitting (.label (.numbered (g.labels.issued + 1)))) = .ok () g' →
    Starts (.loop condition body, g) (.job (.node body .any .discard),
      (g'.emitting (.negate g.pool.borrow.fst)).emitting
        (.jumpIf (.numbered g.labels.issued) g.pool.borrow.fst))
  | first {n ns dst g} : Starts (.job (.all (n :: ns) dst), g) (.job (.node n .any dst), g)
  | rest {n ns dst g g'} :
    lower n .any dst g = .ok () g' → Starts (.job (.all (n :: ns) dst), g) (.job (.all ns dst), g')
  | later {n ns t g} : Starts (.job (.arguments (n :: ns) t), g) (.job (.arguments ns t), g)
  | argument {n ns t g g'} :
    pushArguments ns t g = .ok () g' →
    Starts (.job (.arguments (n :: ns) t), g) (.job (.node n .value (.register t)), g')

section

variable {d : Nat} {g g' : Generator} {x : Lower α} {a : α}

theorem Restores.stacked (hx : Restores x) (hp : g.pool.Stacked d) (h : x g = .ok a g') :
    g'.pool.Stacked d := by
  have hr := hx d g hp
  rw [h] at hr
  cases hr
  assumption

theorem Restores.steady (hx : Restores x) (hp : g.pool.Stacked d) (h : x g = .ok a g') :
    g.Steady g' := by
  have hr := hx d g hp
  rw [h] at hr
  cases hr
  assumption

end

-- An action is begun with the temporaries below some bound in use.
theorem Starts.stacked {a b : Call × Generator} {d : Nat} (h : Starts a b)
    (hp : a.snd.pool.Stacked d) :
    ∃ d', b.snd.pool.Stacked d' := by
  have hl := hp.borrow.right
  have hn {n demand dst} {g g' : Generator} (hg : g.pool.Stacked (d + 1))
      (h : lower n demand dst g = .ok () g') :
      g'.pool.Stacked (d + 1) := (restores_job (.node n demand dst)).stacked hg h
  have ha {ns} {g g' : Generator} (hg : g.pool.Stacked d)
      (h : withTemp (pushArguments ns) g = .ok () g') :
      g'.pool.Stacked d := (Restores.withTemp fun t => restores_job (.arguments ns t)).stacked hg h
  cases h
  case value h    => exact ⟨_, (restores_assignmentTarget _).stacked hp h⟩
  case body h     => exact ⟨_, (restores_popParameters _).stacked (by exact hp) h⟩
  case rest h     => exact ⟨_, (restores_job (.node ..)).stacked hp h⟩
  case argument h => exact ⟨_, (restores_job (.arguments ..)).stacked hp h⟩
  case right h    => exact ⟨_, hn (by exact hl) h⟩
  case printing h | calling h => exact ⟨_, ha (by exact hp) h⟩
  case ifBody h | whileBody h =>
    have hg := hn (by exact hl) h
    exact ⟨_, hg⟩
  case left | arguments | values | ifCondition | whileCondition => exact ⟨_, hl⟩
  all_goals exact ⟨_, hp⟩

-- An action is rejected for a certain reason.
def Fails (x : Lower α) (g : Generator) (e : Generator.Failure) : Prop := ∃ g', x g = .error e g'

namespace Fails

variable {x : Lower α} {g g₁ : Generator} {e : Generator.Failure}

theorem bind {f : α → Lower β} (h : Fails x g e) : Fails (x >>= f) g e := by
  obtain ⟨g', h⟩ := h
  exact ⟨g', by rw [bind_apply, h]⟩

theorem after {a : α} {f : α → Lower β} (hx : x g = .ok a g₁) (h : Fails (f a) g₁ e) :
    Fails (x >>= f) g e := by
  obtain ⟨g', h⟩ := h
  exact ⟨g', by rw [bind_apply, hx]; exact h⟩

theorem within {construct : String} (h : Fails x (g.inside construct) e) :
    Fails (within construct x) g e := by
  obtain ⟨g', h⟩ := h
  exact ⟨_, by rw [within_apply]; simp only [Generator.inside] at h; rw [h]⟩

theorem inBlock (h : Fails x { g with symbols := g.symbols.openBlock } e) :
    Fails (inBlock x) g e := by
  obtain ⟨g', h⟩ := h
  exact ⟨_, by rw [inBlock_apply, h]⟩

theorem inDefinition {name : String} (h : Fails x { g with symbols := g.symbols.enter name } e) :
    Fails (inDefinition name x) g e := by
  obtain ⟨g', h⟩ := h
  exact ⟨_, by rw [inDefinition_apply, h]⟩

-- The pool does not refuse the temporary that comes back.
theorem withTemp {f : Register → Lower α} {d : Nat} (hp : g.pool.Stacked d)
    (hr : Restores (Lower.withTemp f)) (h : Fails (f g.pool.borrow.fst) g.lending e) :
    Fails (withTemp f) g e := by
  obtain ⟨g', h⟩ := h
  have hr := hr d g hp
  simp only [Generator.lending] at h
  rw [withTemp_apply, h] at hr
  cases hq : g'.pool.release g.pool.borrow.fst
  case ok pool => exact ⟨{ g' with pool }, by simp only [withTemp_apply, h, hq]⟩
  case error   =>
    simp only [hq] at hr
    cases hr

-- Of two parts, the first one is rejected, or the first one is accepted and the second one is
-- rejected.
section

variable {d : Nat} {f : Register → Lower Unit} {k : Lower Unit} (hp : g.pool.Stacked d)
  (hf : ∀ t, Restores (f t)) (hk : Restores k)

include hp hf hk

theorem binary {op : Operator} {dst : Register}
    (h : Fails (f g.pool.borrow.fst) g.lending e ∨
      ∃ g', f g.pool.borrow.fst g.lending = .ok () g' ∧ Fails k g' e) :
    Fails (binary op f k dst) g e := by
  refine .withTemp hp (restores_binary hf hk) ?_
  rcases h with h | ⟨g', h', h⟩
  · exact h.bind
  · exact .after h' h.bind

theorem ifThen
    (h : Fails (f g.pool.borrow.fst) g.lending.issuing e ∨
      ∃ g', f g.pool.borrow.fst g.lending.issuing = .ok () g' ∧
      Fails k ((g'.emitting (.negate g.pool.borrow.fst)).emitting
        (.jumpIf (.numbered g.labels.issued) g.pool.borrow.fst)) e) : Fails (ifThen f k) g e := by
  refine .withTemp hp (restores_ifThen hf hk) <| .after rfl ?_
  rcases h with h | ⟨g', h', h⟩
  · exact h.bind
  · exact .after h' <| .after rfl <| .after rfl h.bind

theorem whileDo
    (h : Fails (f g.pool.borrow.fst)
        (g.lending.issuing.issuing.emitting (.label (.numbered (g.labels.issued + 1)))) e ∨
      ∃ g', f g.pool.borrow.fst
        (g.lending.issuing.issuing.emitting (.label (.numbered (g.labels.issued + 1))))
        = .ok () g' ∧
      Fails k ((g'.emitting (.negate g.pool.borrow.fst)).emitting
        (.jumpIf (.numbered g.labels.issued) g.pool.borrow.fst)) e) : Fails (whileDo f k) g e := by
  refine .withTemp hp (restores_whileDo hf hk) <| .after rfl <| .after rfl <| .after rfl ?_
  rcases h with h | ⟨g', h', h⟩
  · exact h.bind
  · exact .after h' <| .after rfl <| .after rfl h.bind

end

end Fails

-- What goes wrong in a part goes wrong in the whole.
theorem Starts.fails {a b : Call × Generator} {d : Nat} {e : Generator.Failure} (h : Starts a b)
    (hp : a.snd.pool.Stacked d) (hf : Fails b.fst.run b.snd e) : Fails a.fst.run a.snd e := by
  have hn (n demand dst) : Restores (lower n demand dst) := (restores_node n).left demand dst
  cases h
  case first      => exact .bind hf
  case rest h     => exact .after h hf
  case later      => exact .bind hf
  case argument h => exact .after h (.bind hf)
  case value h    => exact .after h hf
  case statements => exact .inBlock hf
  case values =>
    exact .within <| .bind <| .withTemp hp (restores_pushLast fun _ => restores_job (.all _ _)) <|
      .bind hf
  case assignment children _ _ _ ht =>
    match children with
    | [] | [_] | _ :: _ :: _ =>
      show Fails (Lower.within _ (if _ = "=" then _ else _)) _ e
      rw [if_pos ht]
      exact .within hf
  case operation ht =>
    show Fails (Lower.within _ (if _ = "=" then _ else _)) _ e
    rw [if_neg ht]
    exact .within hf
  case left ho =>
    simp only [Call.run, ho]
    exact .binary hp (fun _ => hn _ _ _) (hn _ _ _) (.inl hf)
  case right ho h =>
    simp only [Call.run, ho]
    exact .binary hp (fun _ => hn _ _ _) (hn _ _ _) (.inr ⟨_, h, hf⟩)
  case arguments ns _ _ _ _ ht =>
    show Fails (if _ = _ then _ else _) _ e
    rw [if_pos ht]
    exact .within <| .bind <| .withTemp hp (.withTemp fun t => restores_job (.arguments ns t)) hf
  case printing ht hc h =>
    show Fails (if _ = _ then _ else _) _ e
    rw [if_pos ht]
    refine .within <| .after h ?_
    rw [if_pos hc]
    exact hf
  case calling ht hc h =>
    show Fails (if _ = _ then _ else _) _ e
    rw [if_pos ht]
    refine .within <| .after h ?_
    rw [if_neg hc]
    exact hf
  case body hk h =>
    show Fails (if _ = _ then _ else _) _ e
    rw [if_pos hk]
    exact .after rfl <| .inDefinition <| .within <| .after h hf
  case conditional ht | loop ht =>
    simp only [Call.run, Job.run, lower, ht]
    exact .within hf
  case ifCondition    => exact .ifThen hp (fun _ => hn _ _ _) (hn _ _ _) (.inl hf)
  case ifBody h       => exact .ifThen hp (fun _ => hn _ _ _) (hn _ _ _) (.inr ⟨_, h, hf⟩)
  case whileCondition => exact .whileDo hp (fun _ => hn _ _ _) (hn _ _ _) (.inl hf)
  case whileBody h    => exact .whileDo hp (fun _ => hn _ _ _) (hn _ _ _) (.inr ⟨_, h, hf⟩)

-- An action that a definition begins, however deep, has the generator in good order, and is
-- rejected only together with the definition.
theorem balanced_of_starts {a b : Call × Generator} {d : Nat} (h : Relation.ReflTransGen Starts a b)
    (hp : a.snd.pool.Stacked d) :
    (∃ d', b.snd.pool.Stacked d') ∧ ∀ e, Fails b.fst.run b.snd e → Fails a.fst.run a.snd e := by
  induction h
  case refl => exact ⟨⟨d, hp⟩, fun _ => id⟩
  case tail h hi =>
    obtain ⟨⟨d', hp'⟩, hf⟩ := hi
    exact ⟨h.stacked hp', fun e he => hf e (h.fails hp' he)⟩

end Lower

namespace Generator

open Lower

variable {naming : Naming} {g g' : Generator}

-- Between definitions, a generator holds nothing.
structure Settled (naming : Naming) (g : Generator) : Prop where
  pool    : g.pool.Stacked 0
  symbols : g.symbols = { naming }
  trail   : g.trail = []
  code    : g.code = #[]

namespace Settled

theorem of_steady (h : Settled naming g) (hp : g'.pool.Stacked 0) (hg : g.Steady g') :
    Settled naming { g' with code := #[] } := by
  have hn := hg.naming
  have hs := hg.shape
  rw [h.symbols] at hn hs
  exact ⟨hp, Symbols.ext hn (List.map_eq_nil_iff.mp hs), hg.trail.trans h.trail, rfl⟩

theorem generate (h : Settled naming g) (name : String) (node : Node) :
    ∃ g', ((∃ code, generate name node g = .ok code g') ∨
      ∃ why, Lower.generate name node g = .error (.rejected why) g') ∧
      g.Steady g' ∧ Settled naming g' := by
  by_cases hk : node.kind = .functionDefinition
  case neg =>
    have hr : ∃ why, Lower.generate name node g = .error (.rejected why) g := by
      unfold Lower.generate
      rw [if_neg hk]
      exact ⟨_, rfl⟩
    exact ⟨g, .inr hr, .refl g, h⟩
  case pos =>
    have hr := (restores_node node).left .value (.register (.named name)) 0 g h.pool
    rw [generate_apply hk]
    generalize lower node _ _ g = r at hr
    cases hr
    case ok g' hp hg           => exact ⟨_, .inl ⟨_, rfl⟩, { hg with }, h.of_steady hp hg⟩
    case rejected why g' hp hg => exact ⟨_, .inr ⟨why, rfl⟩, { hg with }, h.of_steady hp hg⟩

end Settled

theorem Reachable.settled (h : g.Reachable naming) : Settled naming g := by
  induction h
  case new => exact ⟨Pool.stacked_new, rfl, rfl, rfl⟩
  case generated name node _ _ hr hi | failed name node _ _ hr hi =>
    obtain ⟨g', hg, -, hs⟩ := hi.generate name node
    rw [hr] at hg
    rcases hg with ⟨_, hg⟩ | ⟨_, hg⟩ <;> cases hg
    exact hs

end Generator

namespace Lower

-- Whatever was lowered before, and whether or not it was rejected: the next definition leaves a
-- generator that holds nothing, and so does every action on the way with what it did not bring
-- along. The pool refuses no register.
theorem generate_balanced {naming : Naming} {g : Generator} (h : g.Reachable naming) (name : String)
    (node : Node) :
    (∃ g', ((∃ code, generate name node g = .ok code g') ∨
      ∃ why, generate name node g = .error (.rejected why) g') ∧
      g.Steady g' ∧ g'.pool.outstanding = 0 ∧ g'.symbols.depth = 0 ∧ g'.trail = [] ∧
        g'.code = #[]) ∧
    ∀ call g', node.kind = .functionDefinition →
      Relation.ReflTransGen Starts (.job (.node node .value (.register (.named name))), g)
        (call, g') →
      (∃ d, Restored d g' (call.run g')) ∧ ∀ e, Fails call.run g' e →
      Fails (generate name node) g e := by
  have hs := h.settled
  refine ⟨?_, fun call g' hk hc => ?_⟩
  · obtain ⟨g', hr, hg, hs'⟩ := hs.generate name node
    exact ⟨g', hr, hg, hs'.pool.outstanding_eq, by rw [hs'.symbols]; rfl, hs'.trail, hs'.code⟩
  · obtain ⟨⟨d, hp⟩, hf⟩ := balanced_of_starts hc hs.pool
    refine ⟨⟨d, restores_run call d g' hp⟩, fun e he => ?_⟩
    obtain ⟨g₁, h₁⟩ := hf e he
    change lower node .value (.register (.named name)) g = _ at h₁
    exact ⟨{ g₁ with code := #[] }, by rw [generate_apply hk, h₁]⟩

-- The condition of a loop is rejected after a temporary and two labels have been handed out. The
-- definition that comes next is rejected as well, with two temporaries in use.
theorem generate_balanced_rejections :
    let g    : Generator := { pool := ⟨1, [0], 1⟩, labels := ⟨2⟩, symbols := { naming := .scoped } }
    let loop := Node.function [] (.whileDo (.block []) (.block []))
    let sum  := Node.function ["a"] (.returns [.infixOp "+" (.ident "a") (.letIdent "b")])
    (∃ e, generate "f" loop (.new .scoped) = .error e g) ∧
      (∃ g', ((∃ code, generate "f" sum g = .ok code g') ∨
        ∃ why, generate "f" sum g = .error (.rejected why) g') ∧
        g.Steady g' ∧ g'.pool.outstanding = 0 ∧ g'.symbols.depth = 0 ∧ g'.trail = [] ∧
          g'.code = #[]) ∧
      ∃ d, Restored d g (lower sum .value (.register (.named "f")) g) := by
  intro g loop sum
  have hg : ∃ e, generate "f" loop (.new .scoped) = .error e g := ⟨_, rfl⟩
  obtain ⟨e, he⟩ := hg
  obtain ⟨hr, hc⟩ := generate_balanced (.failed .new he) "f" sum
  exact ⟨⟨e, he⟩, hr, (hc _ _ rfl .refl).left⟩

end Lower
end LineCode

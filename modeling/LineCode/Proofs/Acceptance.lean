import LineCode.Proofs.Balance
import LineCode.Proofs.Labels

namespace LineCode.Lower

-- An assignment can be made to a variable, and to a new variable that has a name.
inductive Assignable : Node → Prop
  | identifier {token children} : Assignable ⟨.identifier, token, children⟩
  | letBinding {token name rest} : Assignable ⟨.letBinding, token, name :: rest⟩

-- The trees that can be lowered. Where a value is demanded, there is none for blocks, returns and
-- branches.
inductive Accepted : Demand → Node → Prop
  | literal {token children demand} : Accepted demand ⟨.numericLiteral, token, children⟩
  | identifier {token children demand} : Accepted demand ⟨.identifier, token, children⟩
  | reference {token children demand} : Accepted demand ⟨.functionReference, token, children⟩
  | assignment {token target value rest demand} :
    token.text = "=" → Assignable target → Accepted .any value →
    Accepted demand ⟨.infixOperator, token, target :: value :: rest⟩
  | operation {token lhs rhs rest demand} (op : Operator) :
    token.text = op.symbol → Accepted .any lhs → Accepted .any rhs →
    Accepted demand ⟨.infixOperator, token, lhs :: rhs :: rest⟩
  | call {token target token' arguments rest demand} :
    target.kind = .identifier → (∀ a ∈ arguments, Accepted .value a) →
    Accepted demand ⟨.call, token, target :: ⟨.expressionList, token', arguments⟩ :: rest⟩
  | definition {token params body rest demand} :
    params.kind = .identifierList → (∀ p ∈ params.children, p.kind = .identifier) →
      Accepted .any body →
    Accepted demand ⟨.functionDefinition, token, params :: body :: rest⟩
  | block {token statements} : (∀ n ∈ statements, Accepted .any n) →
    Accepted .any ⟨.block, token, statements⟩
  | returns {token values} : (∀ n ∈ values, Accepted .any n) →
    Accepted .any ⟨.returnStatement, token, values⟩
  | branch {token condition body rest} :
    token.text = "if" ∨ token.text = "while" → Accepted .value condition → Accepted .any body →
    Accepted .any ⟨.branch, token, condition :: body :: rest⟩

-- What is wrong at a token, inside the constructs of a trail.
def flaw (token : Token) (trail : List String) (cause : Cause) : Diagnostic :=
  ⟨cause, token.span, " > ".intercalate trail.reverse⟩

def absent (token : Token) (index : Nat) (trail : List String) : Diagnostic :=
  flaw token trail (.missingChild token.print index)

def misplaced (token : Token) (position : Position) (trail : List String) : Diagnostic :=
  flaw token trail (.unhandledNode token.print position)

-- Something is wrong unless a condition holds.
def require (p : Prop) [Decidable p] (why : Diagnostic) : List Diagnostic := if p then [] else [why]

def targetFlaws (target : Node) (trail : List String) : List Diagnostic :=
  match target.kind, target.children with
  | .identifier, _      => []
  | .letBinding, _ :: _ => []
  | .letBinding, []     => [absent target.token 0 trail]
  | _, _                => [flaw target.token trail (.malformedAssignment target.token.print)]

def parameterFlaws (ps : List Node) (trail : List String) : List Diagnostic :=
  (ps.filter (·.kind ≠ .identifier)).map (misplaced ·.token .parameter trail)

mutual

-- What is wrong with a node, in the order in which it is looked at. A definition is named in
-- messages by the register it is lowered to, so the temporaries in use and the symbols matter.
def flaws : Node → Demand → Destination → Nat → Symbols → List String → List Diagnostic
  | ⟨.numericLiteral, _, _⟩ => fun _ _ _ _ _ => []
  | ⟨.identifier, _, _⟩ => fun _ _ _ _ _ => []
  | ⟨.functionReference, _, _⟩ => fun _ _ _ _ _ => []
  | ⟨.infixOperator, token, children⟩ => fun _ dst d s outer =>
    let trail := ("infix '" ++ token.text ++ "'") :: outer
    if token.text = "=" then
      match children with
      | []                   => [absent token 0 trail]
      | [target]             => targetFlaws target trail ++ [absent token 1 trail]
      | target :: value :: _ =>
        match assigned? target s with
        | none           => targetFlaws target trail
        | some (slot, s) => flaws value .any (.register slot) d s trail
    else
      match children with
      | []              => [absent token 0 trail]
      | [_]             => [absent token 1 trail]
      | lhs :: rhs :: _ =>
        require ((Operator.ofSymbol? token.text).isSome)
          (flaw token trail (.unknownOperator token.text token.print)) ++
          flaws lhs .any (.register (.temp d)) (d + 1) s trail ++
          flaws rhs .any dst (d + 1) (destinations lhs (.register (.temp d)) (d + 1) s).snd trail
  | ⟨.call, token, children⟩ => fun _ _ d s trail =>
    match children with
    | []             => [absent token 0 trail]
    | target :: rest =>
      require (target.kind = .identifier) (misplaced target.token .callTarget trail) ++
        match rest with
        | []                             => [absent token 1 trail]
        | ⟨kind, token', arguments⟩ :: _ =>
          require (kind = .expressionList) (misplaced token' .argumentList trail) ++
            argumentFlaws arguments (.temp d) (d + 1) s (("call '" ++ target.text ++ "'") :: trail)
  | ⟨.functionDefinition, token, children⟩ => fun _ dst d s trail =>
    match children with
    | []             => [absent token 0 trail]
    | params :: rest =>
      require (params.kind = .identifierList)
          (flaw params.token trail (.malformedFunctionDefinition params.token.print)) ++
        match rest with
        | []        => [absent token 1 trail]
        | body :: _ =>
          parameterFlaws params.children (dst.target.name :: trail) ++
            flaws body .any .discard d (parameterSymbols params.children (s.enter dst.target.name))
              (dst.target.name :: trail)
  | ⟨.block, token, statements⟩ => fun demand _ d s trail =>
    require (demand = .any) (misplaced token .expression trail) ++
    allFlaws statements .discard d s.openBlock trail
  | ⟨.returnStatement, token, values⟩ => fun demand _ d s trail =>
    require (demand = .any) (misplaced token .expression trail) ++
      allFlaws values (.register (.temp d)) (d + 1) s ("return" :: trail)
  | ⟨.branch, token, children⟩ => fun demand _ d s trail =>
    require (demand = .any) (misplaced token .expression trail) ++
      match children with
      | []                     => [absent token 0 trail]
      | [_]                    => [absent token 1 trail]
      | condition :: body :: _ =>
        require (token.text = "if" ∨ token.text = "while")
          (flaw token trail (.unknownBranch token.text)) ++
          flaws condition .value (.register (.temp d)) (d + 1) s (token.text :: trail) ++
          flaws body .any .discard (d + 1)
            (destinations condition (.register (.temp d)) (d + 1) s).snd
            (token.text :: trail)
  | ⟨.identifierList, token, _⟩ =>
    fun demand dst _ _ trail => [misplaced token (demand.position dst) trail]
  | ⟨.expressionList, token, _⟩ =>
    fun demand dst _ _ trail => [misplaced token (demand.position dst) trail]
  | ⟨.letBinding, token, _⟩ =>
    fun demand dst _ _ trail => [misplaced token (demand.position dst) trail]

def allFlaws : List Node → Destination → Nat → Symbols → List String → List Diagnostic
  | []      => fun _ _ _ _ => []
  | n :: ns => fun dst d s trail =>
    flaws n .any dst d s trail ++ allFlaws ns dst d (destinations n dst d s).snd trail

-- The last argument comes first.
def argumentFlaws : List Node → Register → Nat → Symbols → List String → List Diagnostic
  | []      => fun _ _ _ _ => []
  | n :: ns => fun t d s trail =>
    argumentFlaws ns t d s trail ++
    flaws n .value (.register t) d (argumentDestinations ns t d s).snd trail

end

-- What is wrong with a top-level definition.
def definitionFlaws (naming : Naming) (name : String) (node : Node) : List Diagnostic :=
  if node.kind = .functionDefinition then flaws node .value (.register (.named name)) 0
    { naming } []
  else [misplaced node.token .definition []]

@[simp]
theorem require_eq_nil_iff {p : Prop} [Decidable p] {why : Diagnostic} :
    require p why = [] ↔ p := by
  unfold require
  split <;> simp_all

theorem parameterFlaws_eq_nil_iff {ps : List Node} {trail : List String} :
    parameterFlaws ps trail = [] ↔ ∀ p ∈ ps, p.kind = .identifier := by
  simp [parameterFlaws]

theorem isSome_assigned?_iff {target : Node} {s : Symbols} :
    (assigned? target s).isSome ↔ Assignable target := by
  obtain ⟨kind, token, children⟩ := target
  constructor
  case mp =>
    intro h
    cases kind
    case identifier => exact .identifier
    case letBinding =>
      cases children
      case nil  => contradiction
      case cons => exact .letBinding
    all_goals contradiction
  case mpr =>
    intro h
    cases h <;> rfl

theorem targetFlaws_ne_nil {target : Node} {s : Symbols} {trail : List String}
    (h : assigned? target s = none) :
    targetFlaws target trail ≠ [] := by
  obtain ⟨kind, token, children⟩ := target
  cases kind
  case identifier => contradiction
  case letBinding => cases children <;> [exact List.cons_ne_nil _ _; contradiction]
  all_goals exact List.cons_ne_nil _ _

-- A tree has no flaws exactly when it is accepted.
section

variable {token : Token} {children ns : List Node} {demand : Demand} {dst : Destination} {d : Nat}
  {s : Symbols} {trail : List String}

theorem allFlaws_eq_nil_iff
    (h : ∀ n ∈ ns, ∀ dst d s trail, flaws n .any dst d s trail = [] ↔ Accepted .any n) :
    allFlaws ns dst d s trail = [] ↔ ∀ n ∈ ns, Accepted .any n := by
  induction ns generalizing s
  case nil => simp [allFlaws]
  case cons n ns hi =>
    obtain ⟨hn, hns⟩ := List.forall_mem_cons.mp h
    rw [allFlaws, List.append_eq_nil_iff, hn, hi hns, List.forall_mem_cons]

theorem argumentFlaws_eq_nil_iff {t : Register}
    (h : ∀ n ∈ ns, ∀ dst d s trail, flaws n .value dst d s trail = [] ↔ Accepted .value n) :
    argumentFlaws ns t d s trail = [] ↔ ∀ n ∈ ns, Accepted .value n := by
  induction ns generalizing s
  case nil => simp [argumentFlaws]
  case cons n ns hi =>
    obtain ⟨hn, hns⟩ := List.forall_mem_cons.mp h
    rw [argumentFlaws, List.append_eq_nil_iff, hn, hi hns, List.forall_mem_cons, and_comm]

theorem accepted_assignment_iff {target value : Node} {rest : List Node} (ht : token.text = "=") :
    Accepted demand ⟨.infixOperator, token, target :: value :: rest⟩ ↔
      Assignable target ∧ Accepted .any value := by
  constructor
  case mp =>
    intro h
    cases h
    case assignment ha hv       => exact ⟨ha, hv⟩
    case operation op ho hl hr =>
      exact absurd ht (Operator.ne_assign (Operator.ofSymbol?_eq_some_iff.mpr ho))
  case mpr => exact fun h => .assignment ht h.left h.right

theorem accepted_operation_iff {lhs rhs : Node} {rest : List Node} (ht : token.text ≠ "=") :
    Accepted demand ⟨.infixOperator, token, lhs :: rhs :: rest⟩ ↔
      (Operator.ofSymbol? token.text).isSome ∧ Accepted .any lhs ∧ Accepted .any rhs := by
  constructor
  case mp =>
    intro h
    cases h
    case assignment ht' _ _    => exact absurd ht' ht
    case operation op ho hl hr => exact ⟨by rw [Operator.ofSymbol?_eq_some_iff.mpr ho]; rfl, hl, hr⟩
  case mpr =>
    rintro ⟨ho, hl, hr⟩
    obtain ⟨op, ho⟩ := Option.isSome_iff_exists.mp ho
    exact .operation op (Operator.ofSymbol?_eq_some_iff.mp ho) hl hr

theorem infixFlaws_eq_nil_iff
    (h : ∀ c ∈ children, ∀ demand dst d s trail, flaws c demand dst d s trail = [] ↔
      Accepted demand c) :
    flaws ⟨.infixOperator, token, children⟩ demand dst d s trail = [] ↔
      Accepted demand ⟨.infixOperator, token, children⟩ := by
  match children with
  | [] | [_] =>
    refine iff_of_false ?_ (by rintro ⟨⟩)
    simp only [flaws]
    split <;> simp
  | target :: value :: rest =>
    have hl := h target (by simp)
    have hr := h value (by simp)
    simp only [flaws]
    split
    case isTrue ht =>
      rw [accepted_assignment_iff ht, ← isSome_assigned?_iff (s := s)]
      split
      case h_1 hs => simp [hs, targetFlaws_ne_nil hs]
      case h_2 hs => simp [hs, hr]
    case isFalse ht =>
      rw [List.append_eq_nil_iff, List.append_eq_nil_iff, require_eq_nil_iff, hl, hr,
        accepted_operation_iff ht,
        and_assoc]

theorem callFlaws_eq_nil_iff
    (h : ∀ c ∈ children, ∀ t d s trail,
      argumentFlaws c.children t d s trail = [] ↔ ∀ a ∈ c.children, Accepted .value a) :
    flaws ⟨.call, token, children⟩ demand dst d s trail = [] ↔
      Accepted demand ⟨.call, token, children⟩ := by
  match children with
  | []       => exact iff_of_false (by simp [flaws]) (by rintro ⟨⟩)
  | [target] => exact iff_of_false (by simp [flaws]) (by rintro ⟨⟩)
  | target :: ⟨kind, token', arguments⟩ :: rest =>
    have ha := h ⟨kind, token', arguments⟩ (by simp)
    simp only [flaws, List.append_eq_nil_iff, require_eq_nil_iff, ha]
    constructor
    case mp =>
      rintro ⟨ht, rfl, hs⟩
      exact .call ht hs
    case mpr =>
      intro ha
      cases ha
      case call ht ha => exact ⟨ht, rfl, ha⟩

theorem definitionNodeFlaws_eq_nil_iff
    (h : ∀ c ∈ children, ∀ demand dst d s trail, flaws c demand dst d s trail = [] ↔
      Accepted demand c) :
    flaws ⟨.functionDefinition, token, children⟩ demand dst d s trail = [] ↔
      Accepted demand ⟨.functionDefinition, token, children⟩ := by
  match children with
  | []       => exact iff_of_false (by simp [flaws]) (by rintro ⟨⟩)
  | [params] => exact iff_of_false (by simp [flaws]) (by rintro ⟨⟩)
  | params :: body :: rest =>
    have hb := h body (by simp)
    simp only [flaws, List.append_eq_nil_iff, require_eq_nil_iff, parameterFlaws_eq_nil_iff, hb]
    constructor
    case mp =>
      rintro ⟨hk, hp, hb⟩
      exact .definition hk hp hb
    case mpr =>
      intro ha
      cases ha
      case definition hk hp hb => exact ⟨hk, hp, hb⟩

theorem branchFlaws_eq_nil_iff
    (h : ∀ c ∈ children, ∀ demand dst d s trail, flaws c demand dst d s trail = [] ↔
      Accepted demand c) :
    flaws ⟨.branch, token, children⟩ demand dst d s trail = [] ↔
      Accepted demand ⟨.branch, token, children⟩ := by
  match children with
  | []  => exact iff_of_false (by simp [flaws]) (by rintro ⟨⟩)
  | [_] => exact iff_of_false (by simp [flaws]) (by rintro ⟨⟩)
  | condition :: body :: rest =>
    have hc := h condition (by simp)
    have hb := h body (by simp)
    simp only [flaws, List.append_eq_nil_iff, require_eq_nil_iff, hc, hb]
    constructor
    case mp =>
      rintro ⟨rfl, ⟨ht, hc⟩, hb⟩
      exact .branch ht hc hb
    case mpr =>
      intro ha
      cases ha
      case branch ht hc hb => exact ⟨rfl, ⟨ht, hc⟩, hb⟩

-- Calls reach past their children to the arguments, hence the second half.
theorem flaws_eq_nil_iff (n : Node) :
    (∀ demand dst d s trail, flaws n demand dst d s trail = [] ↔ Accepted demand n) ∧
      ∀ t d s trail, argumentFlaws n.children t d s trail = [] ↔
        ∀ a ∈ n.children, Accepted .value a := by
  induction n using Node.induction
  case h kind token children hc =>
    have hl := fun c h => (hc c h).left
    refine ⟨fun demand dst d s trail => ?_,
      fun t d s trail => argumentFlaws_eq_nil_iff fun n hn => hl n hn .value⟩
    have ha {dst d s trail} : allFlaws children dst d s trail = [] ↔
        ∀ n ∈ children, Accepted .any n :=
      allFlaws_eq_nil_iff fun n hn => hl n hn .any
    cases kind
    case numericLiteral     => exact iff_of_true rfl .literal
    case identifier         => exact iff_of_true rfl .identifier
    case functionReference  => exact iff_of_true rfl .reference
    case infixOperator      => exact infixFlaws_eq_nil_iff hl
    case call               => exact callFlaws_eq_nil_iff fun c h => (hc c h).right
    case functionDefinition => exact definitionNodeFlaws_eq_nil_iff hl
    case branch             => exact branchFlaws_eq_nil_iff hl
    case block =>
      simp only [flaws, List.append_eq_nil_iff, require_eq_nil_iff, ha]
      constructor
      case mp =>
        rintro ⟨rfl, h⟩
        exact .block h
      case mpr =>
        intro h
        cases h
        case block h => exact ⟨rfl, h⟩
    case returnStatement =>
      simp only [flaws, List.append_eq_nil_iff, require_eq_nil_iff, ha]
      constructor
      case mp =>
        rintro ⟨rfl, h⟩
        exact .returns h
      case mpr =>
        intro h
        cases h
        case returns h => exact ⟨rfl, h⟩
    all_goals exact iff_of_false (List.cons_ne_nil _ _) (by rintro ⟨⟩)

end

instance (demand : Demand) (n : Node) : Decidable (Accepted demand n) :=
  decidable_of_iff _ ((flaws_eq_nil_iff n).left demand .discard 0 {} [])

-- What an action ends with, given what is wrong: it succeeds if nothing is, and otherwise reports
-- what comes first.
inductive Verdict {α : Type} : List Diagnostic → EStateM.Result Generator.Failure Generator α → Prop
  | accepted {a g} : Verdict [] (.ok a g)
  | rejected {why others g} : Verdict (why :: others) (.error (.rejected why) g)

namespace Verdict

variable {α β : Type} {g : Generator} {vs vs' : List Diagnostic} {x : Lower α}

theorem reject {token : Token} {cause : Cause} {trail : List String} (h : g.trail = trail) :
    Verdict (flaw token trail cause :: vs) (reject token.span cause g : EStateM.Result _ _ α) :=
  h ▸ .rejected

theorem bind {k : α → Lower β} (hx : Verdict vs (x g))
    (hk : ∀ a g', x g = .ok a g' → Verdict vs' (k a g')) :
    Verdict (vs ++ vs') ((x >>= k) g) := by
  rw [bind_apply]
  generalize x g = r at hx hk
  cases hx
  case accepted a g' => exact hk a g' rfl
  case rejected      => exact .rejected

-- What follows cannot fail.
theorem andThen {k : α → Lower β} (hx : Verdict vs (x g))
    (hk : ∀ a g', x g = .ok a g' → Verdict [] (k a g')) :
    Verdict vs ((x >>= k) g) := by
  have h := hx.bind hk
  rwa [List.append_nil] at h

theorem within {construct : String} (h : Verdict vs (x (g.inside construct))) :
    Verdict vs (within construct x g) := by
  rw [within_apply]
  simp only [Generator.inside] at h
  generalize x _ = r at h
  cases h
  case accepted => exact .accepted
  case rejected => exact .rejected

theorem withTemp {f : Register → Lower α} {d : Nat} (hp : g.pool.Stacked d)
    (hr : Restores (Lower.withTemp f)) (h : Verdict vs (f (.temp d) g.lending)) :
    Verdict vs (withTemp f g) := by
  obtain ⟨ht, -⟩ := hp.borrow
  have hr := hr d g hp
  rw [withTemp_apply, ht] at hr ⊢
  simp only [Generator.lending] at h
  generalize f _ _ = r at h hr
  cases h
  case accepted g' =>
    simp only at hr ⊢
    generalize g'.pool.release _ = q at hr
    cases q
    case ok    => exact .accepted
    case error => cases hr
  case rejected g' =>
    simp only at hr ⊢
    generalize g'.pool.release _ = q at hr
    cases q
    case ok    => exact .rejected
    case error => cases hr

theorem inBlock (h : Verdict vs (x { g with symbols := g.symbols.openBlock })) :
    Verdict vs (inBlock x g) := by
  rw [inBlock_apply]
  generalize x _ = r at h
  cases h
  case accepted => exact .accepted
  case rejected => exact .rejected

theorem inDefinition {name : String}
    (h : Verdict vs (x { g with symbols := g.symbols.enter name })) :
    Verdict vs (inDefinition name x g) := by
  rw [inDefinition_apply]
  generalize x _ = r at h
  cases h
  case accepted => exact .accepted
  case rejected => exact .rejected

theorem emitThen {i : Instruction} (h : Verdict vs (x (g.emitting i))) :
    Verdict vs ((emit i >>= fun _ => x) g) :=
  h

-- What comes later does not matter once something is wrong.
theorem stop {k : α → Lower β} (hx : Verdict vs (x g)) (hv : vs ≠ []) :
    Verdict vs ((x >>= k) g) := by
  rw [bind_apply]
  generalize x g = r at hx
  cases hx
  case accepted => contradiction
  case rejected => exact .rejected

theorem require {p : Prop} [Decidable p] {why : Diagnostic}
    {r : EStateM.Result Generator.Failure Generator α} (h₁ : p → Verdict vs r)
    (h₂ : ¬p → Verdict (why :: vs) r) : Verdict (require p why ++ vs) r := by
  unfold Lower.require
  split
  case isTrue h  => exact h₁ h
  case isFalse h => exact h₂ h

end Verdict

def Job.flaws : Job → Nat → Symbols → List String → List Diagnostic
  | node n demand dst => Lower.flaws n demand dst
  | all ns dst        => allFlaws ns dst
  | arguments ns t    => argumentFlaws ns t

def Job.Judged (job : Job) : Prop :=
  ∀ d g, g.pool.Stacked d → Verdict (job.flaws d g.symbols g.trail) (job.run g)

-- What an action leaves when it succeeds, if it changes the symbols in a certain way.
structure Leaves (d : Nat) (g g' : Generator) (symbols : Symbols) : Prop where
  pool    : g'.pool.Stacked d
  trail   : g'.trail = g.trail
  symbols : g'.symbols = symbols

section

variable {d : Nat} {g g' : Generator}

theorem Leaves.emitting {symbols : Symbols} {i : Instruction} (h : Leaves d g g' symbols) :
    Leaves d g (g'.emitting i) symbols :=
  ⟨h.pool, h.trail, h.symbols⟩

theorem Job.realized (job : Job) : job.Realized := by
  cases job
  case node n demand dst => exact (realized_node n).left demand dst
  case all               => exact realized_all fun n _ => (realized_node n).left _ _
  case arguments         => exact realized_arguments fun n _ => (realized_node n).left _ _

theorem Job.leaves {job : Job} (hp : g.pool.Stacked d) (h : job.run g = .ok () g') :
    Leaves d g g' (job.destinations d g.symbols).snd := by
  obtain ⟨pool, code, s, hpool, rfl, he⟩ := (job.realized d g.stage).sound rfl hp h
  obtain ⟨rs, hd, -⟩ := he.accounts
  exact ⟨hpool, rfl, (congrArg Prod.snd hd).symm⟩

theorem popParameters_leaves {ps : List Node} (hp : g.pool.Stacked d)
    (h : popParameters ps g = .ok () g') :
    Leaves d g g' (parameterSymbols ps g.symbols) := by
  obtain ⟨pool, code, s, hpool, rfl, -, rfl, -⟩ :=
    (realizes_popParameters ps (s := g.stage)).sound rfl hp h
  exact ⟨hpool, rfl, rfl⟩

theorem Job.Judged.after {job : Job} {symbols : Symbols} (hj : job.Judged)
    (hg : Leaves d g g' symbols) :
    Verdict (job.flaws d symbols g.trail) (job.run g') := by
  rw [← hg.symbols, ← hg.trail]
  exact hj d g' hg.pool

theorem Job.Judged.bind {job : Job} {k : Lower Unit} {vs : List Diagnostic} (hj : job.Judged)
    (hp : g.pool.Stacked d)
    (hk : ∀ g', Leaves d g g' (job.destinations d g.symbols).snd → Verdict vs (k g')) :
    Verdict (job.flaws d g.symbols g.trail ++ vs) ((job.run >>= fun _ => k) g) :=
  (hj d g hp).bind fun _ g' h => hk g' (Job.leaves hp h)

theorem verdict_assignmentTarget (target : Node) {trail : List String} (h : g.trail = trail) :
    Verdict (targetFlaws target trail) (assignmentTarget target g) := by
  obtain ⟨kind, token, children⟩ := target
  cases kind
  case identifier => exact .accepted
  case letBinding =>
    cases children
    case nil  => exact .reject h
    case cons => exact .accepted
  all_goals exact .reject h

theorem assignmentTarget_apply {target : Node} {slot : Register} {s : Symbols}
    (h : assigned? target g.symbols = some (slot, s)) :
    assignmentTarget target g = .ok slot { g with symbols := s } := by
  obtain ⟨kind, token, children⟩ := target
  cases kind
  case identifier =>
    have h : g.symbols.resolve token.text = (slot, s) := Option.some.inj h
    show EStateM.Result.ok (g.symbols.resolve token.text).fst
      { g with symbols := (g.symbols.resolve token.text).snd } = _
    rw [h]
  case letBinding =>
    cases children
    case nil            => contradiction
    case cons name rest =>
      have h : g.symbols.declare name.text = (slot, s) := Option.some.inj h
      show EStateM.Result.ok (g.symbols.declare name.text).fst
        { g with symbols := (g.symbols.declare name.text).snd } = _
      rw [h]
  all_goals contradiction

theorem verdict_printArguments {n : Nat} {dst : Register} (hp : g.pool.Stacked d) :
    Verdict [] (printArguments n dst g) := by
  obtain ⟨pool, -, h⟩ :=
    (realizes_printArguments n dst).complete (g := g) (a := ()) rfl hp ⟨rfl, rfl⟩
  rw [h]
  exact .accepted

theorem verdict_callVariable {callee : String} {dst : Register} (hp : g.pool.Stacked d) :
    Verdict [] (callVariable callee dst g) := by
  obtain ⟨pool, -, h⟩ :=
    (realizes_callVariable callee dst).complete (g := g) (a := ()) rfl hp ⟨rfl, rfl⟩
  rw [h]
  exact .accepted

theorem verdict_popParameters (ps : List Node) (g : Generator) :
    Verdict (parameterFlaws ps g.trail) (popParameters ps g) := by
  induction ps generalizing g
  case nil => exact .accepted
  case cons p ps hi =>
    simp only [popParameters]
    split
    case isTrue hk =>
      have hf : parameterFlaws (p :: ps) g.trail = parameterFlaws ps g.trail := by
        simp [parameterFlaws, hk]
      rw [hf]
      exact hi { g with
        symbols := (g.symbols.declareParameter p.text).snd
        code    := g.code.push (.pop (g.symbols.declareParameter p.text).fst) }
    case isFalse hk =>
      have hf : parameterFlaws (p :: ps) g.trail = misplaced p.token .parameter g.trail ::
          parameterFlaws ps g.trail := by
        simp [parameterFlaws, hk]
      rw [hf]
      exact .stop (.reject rfl) (List.cons_ne_nil _ _)

-- Each construct reports what is wrong, given that its parts do.

variable {token : Token} {children ns : List Node} {demand : Demand} {dst : Destination}

theorem verdict_statement {x : Lower Unit} {vs : List Diagnostic} (hx : Verdict vs (x g)) :
    Verdict (require (demand = .any) (misplaced token .expression g.trail) ++ vs)
      (statement demand token x g) := by
  cases demand
  case any   => exact .require (fun _ => hx) (absurd rfl)
  case value => exact .require (fun h => by cases h) fun _ => .reject rfl

theorem judged_all (h : ∀ n ∈ ns, ∀ dst, Job.Judged (.node n .any dst)) :
    Job.Judged (.all ns dst) := by
  induction ns
  case nil => exact fun d g hp => .accepted
  case cons n ns hi =>
    obtain ⟨hn, hns⟩ := List.forall_mem_cons.mp h
    intro d g hp
    exact (hn dst).bind hp fun g' hg => (hi hns).after hg

theorem judged_arguments {t : Register} (h : ∀ n ∈ ns, ∀ dst, Job.Judged (.node n .value dst)) :
    Job.Judged (.arguments ns t) := by
  induction ns
  case nil => exact fun d g hp => .accepted
  case cons n ns hi =>
    obtain ⟨hn, hns⟩ := List.forall_mem_cons.mp h
    intro d g hp
    exact (hi hns).bind hp fun g' hg => .andThen ((hn _).after hg) fun _ _ _ => .accepted

theorem judged_infix (h : ∀ c ∈ children, ∀ demand dst, Job.Judged (.node c demand dst)) :
    Job.Judged (.node ⟨.infixOperator, token, children⟩ demand dst) := by
  intro d g hp
  match children with
  | [] =>
    show Verdict (if token.text = "=" then _ else _)
      (within _ (if token.text = "=" then _ else _) g)
    split <;> exact .within (.reject rfl)
  | [target] =>
    show Verdict (if token.text = "=" then _ else _)
      (within _ (if token.text = "=" then _ else _) g)
    split
    case isTrue =>
      have ht : (g.inside ("infix '" ++ token.text ++ "'")).trail = _ := rfl
      exact .within <| (verdict_assignmentTarget target ht).bind fun _ _ h =>
        .reject ((restores_assignmentTarget target).steady (by exact hp) h).trail
    case isFalse => exact .within (.reject rfl)
  | lhs :: rhs :: rest =>
    have hl := h lhs (by simp) .any (.register (.temp d))
    have hr := h rhs (by simp) .any
    show Verdict (if token.text = "=" then _ else _)
      (within _ (if token.text = "=" then _ else _) g)
    split
    case isTrue =>
      show Verdict (match assigned? lhs g.symbols with | none => _ | some (slot, s) => _) _
      split
      case h_1 hs =>
        exact .within <| .stop (verdict_assignmentTarget lhs rfl) (targetFlaws_ne_nil hs)
      case h_2 slot s hs =>
        refine .within ?_
        rw [bind_apply, assignmentTarget_apply (g := g.inside _) hs]
        exact hr (.register slot) d { g.inside _ with symbols := s } hp
    case isFalse =>
      refine .within ?_
      rw [List.append_assoc]
      cases ho : Operator.ofSymbol? token.text
      case none    => exact .require (fun h => by cases h) fun _ => .reject rfl
      case some op =>
        refine .require (fun _ => .withTemp hp ?_ ?_) (absurd rfl)
        · exact restores_binary (fun t => restores_job (.node lhs .any (.register t)))
            (restores_job (.node rhs .any dst))
        · exact hl.bind (g := (g.inside _).lending) hp.borrow.right fun g' hg =>
            .andThen ((hr dst).after hg) fun _ _ _ => .accepted

theorem judged_call (h : ∀ c ∈ children, ∀ t, Job.Judged (.arguments c.children t)) :
    Job.Judged (.node ⟨.call, token, children⟩ demand dst) := by
  intro d g hp
  match children with
  | []       => exact .reject rfl
  | [target] =>
    show Verdict (require (target.kind = .identifier) _ ++ _)
      ((if target.kind = .identifier then _ else _ : Lower Unit) g)
    refine .require (fun hk => ?_) fun hk => ?_
    · rw [if_pos hk]
      exact .reject rfl
    · rw [if_neg hk]
      exact .reject rfl
  | target :: ⟨kind, token', arguments⟩ :: rest =>
    have ha := h ⟨kind, token', arguments⟩ (by simp) (.temp d)
    show Verdict (require (target.kind = .identifier) _ ++
      (require (kind = .expressionList) _ ++ _))
      ((if target.kind = .identifier then if kind = .expressionList then _ else _ else _ :
        Lower Unit) g)
    refine .require (fun hk => ?_) fun hk => ?_
    · rw [if_pos hk]
      refine .require (fun hl => ?_) fun hl => ?_
      · rw [if_pos hl]
        have hr := Restores.withTemp fun t => restores_job (.arguments arguments t)
        refine .within <| .andThen
          (.withTemp hp hr (ha (d + 1) (g.inside _).lending hp.borrow.right)) fun _ g' hg => ?_
        have hp' : g'.pool.Stacked d := hr.stacked (by exact hp) hg
        split
        case isTrue  => exact verdict_printArguments hp'
        case isFalse => exact verdict_callVariable hp'
      · rw [if_neg hl]
        exact .reject rfl
    · rw [if_neg hk]
      exact .reject rfl

theorem judged_definition (h : ∀ c ∈ children, ∀ demand dst, Job.Judged (.node c demand dst)) :
    Job.Judged (.node ⟨.functionDefinition, token, children⟩ demand dst) := by
  intro d g hp
  match children with
  | []       => exact .reject rfl
  | [params] =>
    show Verdict (require (params.kind = .identifierList) _ ++ _)
      ((if params.kind = .identifierList then _ else _ : Lower Unit) g)
    refine .require (fun hk => ?_) fun hk => ?_
    · rw [if_pos hk]
      exact .reject rfl
    · rw [if_neg hk]
      exact .reject rfl
  | params :: body :: rest =>
    have hb := h body (by simp) .any .discard
    show Verdict (require (params.kind = .identifierList) _ ++ _)
      ((if params.kind = .identifierList then _ else _ : Lower Unit) g)
    refine .require (fun hk => ?_) fun hk => ?_
    · rw [if_pos hk]
      let g₁ := (g.emitting (.label ⟨dst.target.name⟩)).defining dst.target.name
      exact .inDefinition <| .within <|
        (verdict_popParameters params.children g₁).bind fun _ g' hg =>
        hb.after (popParameters_leaves (g := g₁) hp hg)
    · rw [if_neg hk]
      exact .reject rfl

theorem judged_branch (h : ∀ c ∈ children, ∀ demand dst, Job.Judged (.node c demand dst)) :
    Job.Judged (.node ⟨.branch, token, children⟩ demand dst) := by
  intro d g hp
  match children with
  | [] | [_] => exact verdict_statement (.reject rfl)
  | condition :: body :: rest =>
    have hc := h condition (by simp) .value (.register (.temp d))
    have hb := h body (by simp) .any .discard
    have hrc := fun t => restores_job (.node condition .value (.register t))
    have hrb := restores_job (.node body .any .discard)
    simp only [Job.flaws, Job.run, flaws, lower, List.append_assoc]
    refine verdict_statement ?_
    generalize hk : token.text = keyword
    split
    case h_1 =>
      refine .require (fun _ => .within <| .withTemp hp (restores_ifThen hrc hrb) ?_)
        (absurd (.inl rfl))
      refine hc.bind (g := (g.inside _).lending.issuing) hp.borrow.right fun g' hg => ?_
      exact .emitThen <| .emitThen <|
        .andThen (hb.after hg.emitting.emitting) fun _ _ _ => .accepted
    case h_2 =>
      refine .require (fun _ => .within <| .withTemp hp (restores_whileDo hrc hrb) ?_)
        (absurd (.inr rfl))
      refine hc.bind (g := (g.inside _).lending.issuing.issuing.emitting _) hp.borrow.right
        fun g' hg => ?_
      exact .emitThen <| .emitThen <|
        .andThen (hb.after hg.emitting.emitting) fun _ _ _ => .accepted
    case h_3 h₁ h₂ => exact .require (fun h => (h.elim h₁ h₂).elim) fun _ => .reject rfl

theorem judged_node (n : Node) :
    (∀ demand dst, Job.Judged (.node n demand dst)) ∧
      ∀ t, Job.Judged (.arguments n.children t) := by
  induction n using Node.induction
  case h kind token children hc =>
    have hl := fun c h => (hc c h).left
    refine ⟨fun demand dst => ?_, fun t => judged_arguments fun n hn => hl n hn .value⟩
    cases kind
    case numericLiteral     => cases dst <;> exact fun d g hp => .accepted
    case identifier         => exact fun d g hp => .accepted
    case functionReference  => exact fun d g hp => .accepted
    case infixOperator      => exact judged_infix hl
    case call               => exact judged_call fun c h => (hc c h).right
    case functionDefinition => exact judged_definition hl
    case branch             => exact judged_branch hl
    case block =>
      have ha : Job.Judged (.all children .discard) := judged_all fun n hn => hl n hn .any
      exact fun d g hp => verdict_statement <|
        .inBlock (ha d { g with symbols := g.symbols.openBlock } hp)
    case returnStatement =>
      intro d g hp
      have ha : Job.Judged (.all children (.register (.temp d))) :=
        judged_all fun n hn => hl n hn .any
      have hr := restores_pushLast fun t => restores_job (.all children (.register t))
      refine verdict_statement <| .within <| .andThen (.withTemp hp hr ?_) fun _ _ _ => .accepted
      exact .andThen (ha (d + 1) (g.inside _).lending hp.borrow.right) fun _ _ _ => .accepted
    all_goals exact fun d g hp => .reject rfl

end

variable {naming : Naming} {g : Generator}

theorem definitionFlaws_eq_nil_iff (naming : Naming) (name : String) (node : Node) :
    definitionFlaws naming name node = [] ↔
      node.kind = .functionDefinition ∧ Accepted .value node := by
  unfold definitionFlaws
  split
  case isTrue hk  => simp [hk, (flaws_eq_nil_iff node).left]
  case isFalse hk => simp [hk]

theorem verdict_generate (h : g.Settled naming) (name : String) (node : Node) :
    Verdict (definitionFlaws naming name node) (generate name node g) := by
  unfold definitionFlaws
  split
  case isTrue hk =>
    have hv := (judged_node node).left .value (.register (.named name)) 0 g h.pool
    rw [h.symbols, h.trail] at hv
    rw [generate_apply hk]
    change Verdict (flaws node .value (.register (.named name)) 0 { naming } [])
      (lower _ _ _ g) at hv
    generalize lower _ _ _ g = r at hv
    generalize flaws _ _ _ _ _ _ = vs at hv
    cases hv
    case accepted => exact .accepted
    case rejected => exact .rejected
  case isFalse hk =>
    unfold generate
    rw [if_neg hk]
    exact .reject h.trail

-- Whatever was lowered before, a definition is accepted exactly when the grammar admits it, and is
-- rejected for the first of its flaws.
theorem generate_accepts (h : g.Reachable naming) (name : String) (node : Node) :
    ((∃ code g', generate name node g = .ok code g') ↔
      node.kind = .functionDefinition ∧ Accepted .value node) ∧
      ∀ e, (∃ g', generate name node g = .error e g') ↔
        ∃ why, (definitionFlaws naming name node).head? = some why ∧ e = .rejected why := by
  have hv := verdict_generate h.settled name node
  rw [← definitionFlaws_eq_nil_iff naming name]
  generalize definitionFlaws naming name node = vs at hv
  generalize generate name node g = r at hv
  cases hv
  case accepted code g' => simp
  case rejected why others g' => simp [eq_comm]

-- After a definition that was rejected inside a loop. Both arguments of the call are wrong, and the
-- last one is met first. The definition around it is known by the second slot of the variable it is
-- assigned to.
theorem generate_accepts_arguments :
    let g    : Generator := { pool := ⟨1, [0], 1⟩, labels := ⟨2⟩, symbols := { naming := .scoped } }
    let loop := Node.function [] (.whileDo (.block []) (.block []))
    let call := Node.call "f" [.block [], .letIdent "y"]
    let node := Node.function [] (.block [.assign (.letIdent "x") (.number "1"),
      .assign (.letIdent "x") (.function [] (.returns [call]))])
    (∃ e, generate "main" loop (.new .scoped) = .error e g) ∧ ¬Accepted .value node ∧
      ∃ g', generate "main" node g = .error (.rejected
        ⟨.unhandledNode "TOKEN('LET', 'let')" .expression, {},
          "main > infix '=' > main.x.1 > return > call 'f'"⟩) g' := by
  intro g loop call node
  have hg : ∃ e, generate "main" loop (.new .scoped) = .error e g := ⟨_, rfl⟩
  obtain ⟨e, he⟩ := hg
  have hf : (definitionFlaws .scoped "main" node).head? = some
      ⟨.unhandledNode "TOKEN('LET', 'let')" .expression, {},
        "main > infix '=' > main.x.1 > return > call 'f'"⟩ := by
    decide +kernel
  obtain ⟨-, hr⟩ := generate_accepts (.failed .new he) "main" node
  exact ⟨⟨e, he⟩, by decide +kernel, (hr _).mpr ⟨_, hf, rfl⟩⟩

end LineCode.Lower

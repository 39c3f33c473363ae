import LineCode.Proofs.Balance

namespace LineCode

namespace Node

-- The kinds of nodes whose texts lowering reads.
def Kind.readsText : Kind → Bool
  | numericLiteral | identifier | functionReference | infixOperator | branch => true
  | block | returnStatement | identifierList | expressionList | functionDefinition | call |
    letBinding => false

-- How many of its children lowering looks at.
def Kind.reach : Kind → (total : Nat) → Nat
  | block, total | returnStatement, total | identifierList, total | expressionList, total => total
  | functionDefinition, _ | branch, _ | infixOperator, _ | call, _ => 2
  | numericLiteral, _ | identifier, _ | functionReference, _ | letBinding, _ => 0

def inspected (n : Node) : List Node := n.children.take (n.kind.reach n.children.length)

-- The name that is bound by an assignment to a `let`. This is all that is read of the children of a
-- `let`, and it is read only there.
def boundName? (n : Node) : Option String := do
  let target ← n.children.head?
  if n.kind = .infixOperator ∧ n.text = "=" ∧
  target.kind = .letBinding then text <$> target.children.head? else none

-- What lowering reads of the roots of two trees is the same.
structure SameRoot (n m : Node) : Prop where
  kind       : n.kind = m.kind
  text       : n.kind.readsText → n.text = m.text
  boundName? : n.boundName? = m.boundName?
  length     : n.inspected.length = m.inspected.length

instance (n m : Node) : Decidable (n.SameRoot m) :=
  decidable_of_iff
    (n.kind = m.kind ∧ (n.kind.readsText → n.text = m.text) ∧ n.boundName? = m.boundName? ∧
      n.inspected.length = m.inspected.length)
    ⟨fun ⟨h₁, h₂, h₃, h₄⟩ => ⟨h₁, h₂, h₃, h₄⟩, fun ⟨h₁, h₂, h₃, h₄⟩ => ⟨h₁, h₂, h₃, h₄⟩⟩

-- Trees that lowering cannot tell apart by what it inspects. Their tokens may be of any kinds and
-- come from any places, and there may be more below them than is inspected.
inductive Alike : Node → Node → Prop
  | intro {n m : Node} : n.SameRoot m → (∀ p ∈ n.inspected.zip m.inspected, p.fst.Alike p.snd) →
    n.Alike m

theorem SameRoot.target_eq {token token' : Token} {target target' : Node} {rest rest' : List Node}
    (h : SameRoot ⟨.infixOperator, token, target :: rest⟩ ⟨.infixOperator, token',
      target' :: rest'⟩) (ha : target.kind = target'.kind) (he : token.text = "=")
    (hk : target.kind = .letBinding) :
    target.children.head?.map Node.text = target'.children.head?.map Node.text := by
  have he' : token'.text = "=" := (h.text rfl).symm.trans he
  simpa [Node.boundName?, Node.text, he, he', ← ha, hk] using h.boundName?

namespace Alike

variable {n m : Node}

theorem root (h : n.Alike m) : n.SameRoot m := by
  cases h
  assumption

theorem inspected (h : n.Alike m) : List.Forall₂ Alike n.inspected m.inspected := by
  cases h
  case intro hm hc => exact List.forall₂_iff_zip.mpr ⟨hm.length, fun hp => hc _ hp⟩

mutual

def decide : (n m : Node) → Decidable (n.Alike m)
  | ⟨kind, token, children⟩, m =>
    match (inferInstance : Decidable (SameRoot ⟨kind, token, children⟩ m)),
      decideZip children (kind.reach children.length) m.inspected with
    | isTrue h, isTrue hc => isTrue (.intro h hc)
    | isFalse h, _        => isFalse fun ha => h ha.root
    | _, isFalse h =>
      isFalse fun ha => h fun _ hp => (List.forall₂_iff_zip.mp ha.inspected).right hp

def decideZip : (ns : List Node) → (k : Nat) → (ms : List Node) →
    Decidable (∀ p ∈ (ns.take k).zip ms, p.fst.Alike p.snd)
  | [], _, _                => isTrue (by simp)
  | _ :: _, 0, _            => isTrue (by simp)
  | _ :: _, _ + 1, []       => isTrue (by simp)
  | n :: ns, k + 1, m :: ms =>
    match decide n m, decideZip ns k ms with
    | isTrue h, isTrue hs => isTrue (List.forall_mem_cons.mpr ⟨h, hs⟩)
    | isFalse h, _        => isFalse fun hs => h (hs (n, m) List.mem_cons_self)
    | _, isFalse h        => isFalse fun hs => h fun p hp => hs p (List.mem_cons_of_mem _ hp)

end

instance : DecidableRel Alike := decide

end Alike
end Node

-- The same fault, with another token to show.
inductive Cause.Alike : Cause → Cause → Prop
  | malformedAssignment {t t'} : Alike (malformedAssignment t) (malformedAssignment t')
  | unknownOperator {operator t t'} :
    Alike (unknownOperator operator t) (unknownOperator operator t')
  | malformedFunctionDefinition {t t'} :
    Alike (malformedFunctionDefinition t) (malformedFunctionDefinition t')
  | unhandledNode {t t' position} : Alike (unhandledNode t position) (unhandledNode t' position)
  | missingChild {t t' index} : Alike (missingChild t index) (missingChild t' index)
  | unknownBranch {keyword} : Alike (unknownBranch keyword) (unknownBranch keyword)

theorem Cause.Alike.refl (c : Cause) : c.Alike c := by
  cases c <;> constructor

-- The same fault in the same surroundings.
structure Diagnostic.Alike (d d' : Diagnostic) : Prop where
  cause   : d.cause.Alike d'.cause
  context : d.context = d'.context

namespace Lower

variable {α β : Type}

-- The ends of two actions: the same value or the same fault, and the same generator. The
-- temporaries below `d` are in use before and after, so that the pool refuses nothing.
inductive Outcomes (d : Nat) :
    EStateM.Result Generator.Failure Generator α → EStateM.Result Generator.Failure Generator α →
      Prop
  | ok {a g} : g.pool.Stacked d → Outcomes d (.ok a g) (.ok a g)
  | rejected {why why' g} : g.pool.Stacked d → why.Alike why' →
    Outcomes d (.error (.rejected why) g) (.error (.rejected why') g)

def Agree (x y : Lower α) : Prop := ∀ d g, g.pool.Stacked d → Outcomes d (x g) (y g)

namespace Agree

variable {x y : Lower α}

theorem refl (hx : Restores x) : Agree x x := by
  intro d g hp
  have hr := hx d g hp
  generalize x g = r at hr
  cases hr
  case ok hp' _             => exact .ok hp'
  case rejected why _ hp' _ => exact .rejected hp' ⟨.refl why.cause, rfl⟩

theorem reject {span span' : Span} {cause cause' : Cause} (h : cause.Alike cause') :
    Agree (reject span cause : Lower α) (reject span' cause') :=
  fun _ _ hp => .rejected hp ⟨h, rfl⟩

theorem bind {f f' : α → Lower β} (hx : Agree x y) (hf : ∀ a, Agree (f a) (f' a)) :
    Agree (x >>= f) (y >>= f') := by
  intro d g hp
  have hr := hx d g hp
  rw [bind_apply, bind_apply]
  generalize x g = r, y g = r' at hr
  cases hr
  case ok a g' hp'    => exact hf a d g' hp'
  case rejected hp' h => exact .rejected hp' h

theorem seq {f f' k k' : Lower Unit} (hf : Agree f f') (hk : Agree k k') :
    Agree (f >>= fun _ => k) (f' >>= fun _ => k') :=
  hf.bind fun _ => hk

theorem ite {x' y' : Lower α} {p q : Prop} [Decidable p] [Decidable q] (h : p ↔ q)
    (hx : p → Agree x x') (hy : ¬p → Agree y y') :
    Agree (if p then x else y) (if q then x' else y') := by
  by_cases hp : p
  case pos =>
    rw [if_pos hp, if_pos (h.mp hp)]
    exact hx hp
  case neg =>
    rw [if_neg hp, if_neg (hp ∘ h.mpr)]
    exact hy hp

theorem withTemp {f f' : Register → Lower α} (hf : ∀ t, Agree (f t) (f' t)) :
    Agree (withTemp f) (withTemp f') := by
  intro d g hp
  obtain ⟨ht, hb⟩ := hp.borrow
  have hr := hf g.pool.borrow.fst (d + 1) { g with pool := g.pool.borrow.snd } hb
  rw [withTemp_apply, withTemp_apply, ht]
  rw [ht] at hr
  generalize f _ _ = r, f' _ _ = r' at hr
  cases hr
  case ok hp' =>
    obtain ⟨pool, hq, hpool⟩ := hp'.release
    simp only [hq]
    exact .ok hpool
  case rejected hp' h =>
    obtain ⟨pool, hq, hpool⟩ := hp'.release
    simp only [hq]
    exact .rejected hpool h

-- What an action is lowered in is set up before it and taken down after it, and has nothing to do
-- with temporaries.
theorem bracket {x' y' : Lower α} (before after : Generator → Generator)
    (hb : ∀ g, (before g).pool = g.pool) (ha : ∀ g, (after g).pool = g.pool) (hx : Agree x y)
    (hx' : ∀ g, x' g =
      match x (before g) with
      | .ok a g    => .ok a (after g)
      | .error e g => .error e (after g))
    (hy' : ∀ g, y' g =
      match y (before g) with
      | .ok a g    => .ok a (after g)
      | .error e g => .error e (after g)) : Agree x' y' := by
  intro d g hp
  have hr := hx d (before g) (hb g ▸ hp)
  rw [hx', hy']
  generalize x _ = r, y _ = r' at hr
  cases hr
  case ok g' hp'          => exact .ok (ha g' ▸ hp')
  case rejected g' hp' hw => exact .rejected (ha g' ▸ hp') hw

theorem within {construct : String} (hx : Agree x y) :
    Agree (within construct x) (within construct y) :=
  bracket (fun g => { g with trail := construct :: g.trail })
    (fun g => { g with trail := g.trail.tail })
    (fun _ => rfl) (fun _ => rfl) hx (within_apply construct x) (within_apply construct y)

theorem inBlock (hx : Agree x y) : Agree (inBlock x) (inBlock y) :=
  bracket (fun g => { g with symbols := g.symbols.openBlock })
    (fun g => { g with symbols := g.symbols.closeBlock })
    (fun _ => rfl) (fun _ => rfl) hx (inBlock_apply x) (inBlock_apply y)

theorem inDefinition {name : String} (hx : Agree x y) :
    Agree (inDefinition name x) (inDefinition name y) :=
  bracket (fun g => { g with symbols := g.symbols.enter name })
    (fun g => { g with symbols := g.symbols.leave })
    (fun _ => rfl) (fun _ => rfl) hx (inDefinition_apply name x) (inDefinition_apply name y)

end Agree

-- The constructs, given that their parts agree.
section

theorem agree_emit (i : Instruction) : Agree (emit i) (emit i) :=
  .refl (.emit i)

theorem agree_binary {op : Operator} {lhs lhs' : Register → Lower Unit} {rhs rhs' : Lower Unit}
    {dst : Register} (hl : ∀ t, Agree (lhs t) (lhs' t)) (hr : Agree rhs rhs') :
    Agree (binary op lhs rhs dst) (binary op lhs' rhs' dst) :=
  .withTemp fun t => (hl t).seq <| hr.seq <| agree_emit _

theorem agree_assignmentTarget {target target' : Node} (ht : target.Alike target')
    (hb : target.kind = .letBinding →
      target.children.head?.map Node.text = target'.children.head?.map Node.text) :
    Agree (assignmentTarget target) (assignmentTarget target') := by
  obtain ⟨kind, token, children⟩ := target
  obtain ⟨kind', token', children'⟩ := target'
  obtain rfl : kind = kind' := ht.root.kind
  cases kind
  case identifier =>
    have hn : token.text = token'.text := ht.root.text rfl
    show Agree (resolve token.text) (resolve token'.text)
    rw [hn]
    exact .refl (restores_resolve _)
  case letBinding =>
    have hb := hb rfl
    rcases children with _ | ⟨name, _⟩ <;> rcases children' with _ | ⟨name', _⟩
    · exact .reject .missingChild
    · contradiction
    · contradiction
    · have hn : name.text = name'.text := Option.some.inj hb
      show Agree (declare name.text) (declare name'.text)
      rw [hn]
      exact .refl (restores_declare _)
  all_goals exact .reject .malformedAssignment

theorem agree_returnLast {values values' : Register → Lower Unit}
    (hv : ∀ t, Agree (values t) (values' t)) :
    Agree (returnLast values) (returnLast values') :=
  .seq (.withTemp fun t => (hv t).seq <| agree_emit _) (agree_emit _)

theorem agree_ifThen {condition condition' : Register → Lower Unit} {body body' : Lower Unit}
    (hc : ∀ t, Agree (condition t) (condition' t)) (hb : Agree body body') :
    Agree (ifThen condition body) (ifThen condition' body') :=
  .withTemp fun t => .bind (.refl .freshLabel) fun _ =>
    (hc t).seq <| .seq (agree_emit _) <| .seq (agree_emit _) <| hb.seq <| agree_emit _

theorem agree_whileDo {condition condition' : Register → Lower Unit} {body body' : Lower Unit}
    (hc : ∀ t, Agree (condition t) (condition' t)) (hb : Agree body body') :
    Agree (whileDo condition body) (whileDo condition' body') :=
  .withTemp fun t => .bind (.refl .freshLabel) fun _ => .bind (.refl .freshLabel) fun _ =>
    .seq (agree_emit _) <| (hc t).seq <| .seq (agree_emit _) <| .seq (agree_emit _) <| hb.seq <|
      .seq (agree_emit _) <| agree_emit _

theorem agree_call {callee : String} {arguments arguments' : Register → Lower Unit} {count : Nat}
    {dst : Register} (ha : ∀ t, Agree (arguments t) (arguments' t)) :
    Agree (call callee arguments count dst) (call callee arguments' count dst) := by
  refine .within <| .seq (.withTemp ha) (.refl ?_)
  split
  case isTrue  => exact restores_printArguments count dst
  case isFalse => exact restores_callVariable callee dst

theorem agree_popParameters {ps ps' : List Node} (h : List.Forall₂ Node.Alike ps ps') :
    Agree (popParameters ps) (popParameters ps') := by
  induction h
  case nil => exact .refl (.pure ())
  case cons p p' ps ps' hp _ hi =>
    refine .ite (by rw [hp.root.kind]) (fun hk => ?_) fun _ => .seq (.reject .unhandledNode) hi
    rw [hp.root.text (by rw [hk]; rfl)]
    exact .bind (.refl (restores_declareParameter _)) fun _ => .seq (agree_emit _) hi

theorem agree_definition {name : String} {params params' : List Node} {body body' : Lower Unit}
    (hp : List.Forall₂ Node.Alike params params') (hb : Agree body body') :
    Agree (definition name params body) (definition name params' body') :=
  .seq (agree_emit _) <| .inDefinition <| .within <| (agree_popParameters hp).seq hb

theorem agree_statement {demand : Demand} {token token' : Token} {x y : Lower Unit}
    (h : Agree x y) :
    Agree (statement demand token x) (statement demand token' y) := by
  cases demand
  case any   => exact h
  case value => exact .reject .unhandledNode

end

-- Lists that correspond as far as their first two nodes go.
inductive FirstTwo (R : Node → Node → Prop) : List Node → List Node → Prop
  | none : FirstTwo R [] []
  | one {a a'} : R a a' → FirstTwo R [a] [a']
  | two {a a' b b' rest rest'} : R a a' → R b b' → FirstTwo R (a :: b :: rest) (a' :: b' :: rest')

theorem firstTwo_of_take {R : Node → Node → Prop} {ns ms : List Node}
    (h : List.Forall₂ R (ns.take 2) (ms.take 2)) :
    FirstTwo R ns ms := by
  rcases ns with _ | ⟨a, _ | ⟨b, rest⟩⟩ <;> rcases ms with _ | ⟨a', _ | ⟨b', rest'⟩⟩ <;> simp at h
  · exact .none
  · exact .one h
  · exact .two h.left h.right

-- Trees that can be lowered in place of each other. Calls reach past their children to the
-- arguments, hence the last part.
structure Interchange (n m : Node) : Prop where
  alike     : n.Alike m
  lower     : ∀ demand dst, Agree (lower n demand dst) (lower m demand dst)
  arguments : n.kind = .expressionList →
    ∀ t, Agree (pushArguments n.children t) (pushArguments m.children t)

section

variable {token token' : Token} {children children' : List Node}

theorem agree_lowerAll (h : List.Forall₂ Interchange children children') (dst : Destination) :
    Agree (lowerAll children dst) (lowerAll children' dst) := by
  induction h
  case nil          => exact .refl (.pure ())
  case cons hn _ hi => exact .seq (hn.lower .any dst) hi

theorem agree_pushArguments (h : List.Forall₂ Interchange children children') (t : Register) :
    Agree (pushArguments children t) (pushArguments children' t) := by
  induction h
  case nil          => exact .refl (.pure ())
  case cons hn _ hi => exact .seq hi <| .seq (hn.lower .value (.register t)) (agree_emit _)

-- An infix node is an assignment or an operation.
theorem agree_within_infix {x y x' y' : Lower Unit} (ht : token.text = token'.text)
    (hx : token.text = "=" → Agree x x') (hy : Agree y y') :
    Agree (within ("infix '" ++ token.text ++ "'") (if token.text = "=" then x else y))
      (within ("infix '" ++ token'.text ++ "'") (if token'.text = "=" then x' else y')) := by
  rw [← ht]
  exact .within (.ite .rfl hx fun _ => hy)

theorem agree_infix
    (h : Node.SameRoot ⟨.infixOperator, token, children⟩ ⟨.infixOperator, token', children'⟩)
    (hc : FirstTwo Interchange children children') (demand : Demand) (dst : Destination) :
    Agree (lower ⟨.infixOperator, token, children⟩ demand dst)
      (lower ⟨.infixOperator, token', children'⟩ demand dst) := by
  have ht : token.text = token'.text := h.text rfl
  cases hc
  case none => exact agree_within_infix ht (fun _ => .reject .missingChild) (.reject .missingChild)
  case one target target' hn =>
    refine agree_within_infix ht (fun he => ?_) (.reject .missingChild)
    exact .bind (agree_assignmentTarget hn.alike (h.target_eq hn.alike.root.kind he)) fun _ =>
      .reject .missingChild
  case two lhs lhs' rhs rhs' _ _ hl hr =>
    refine agree_within_infix ht (fun he => ?_) ?_
    · refine .bind (agree_assignmentTarget hl.alike (h.target_eq hl.alike.root.kind he))
        fun slot => ?_
      exact hr.lower .any (.register slot)
    · rw [ht]
      cases Operator.ofSymbol? token'.text
      case none    => exact .reject .unknownOperator
      case some op => exact agree_binary (fun t => hl.lower .any (.register t)) (hr.lower .any dst)

theorem agree_callNode (hc : FirstTwo Interchange children children') (demand : Demand)
    (dst : Destination) :
    Agree (lower ⟨.call, token, children⟩ demand dst)
      (lower ⟨.call, token', children'⟩ demand dst) := by
  cases hc
  case none => exact .reject .missingChild
  case one target target' h =>
    have hk := h.alike.root.kind
    exact .ite (by rw [hk]) (fun _ => .reject .missingChild) fun _ => .reject .unhandledNode
  case two target target' list list' _ _ ht hl =>
    obtain ⟨kind, _, arguments⟩ := list
    obtain ⟨kind', _, arguments'⟩ := list'
    obtain rfl : kind = kind' := hl.alike.root.kind
    have hk := ht.alike.root.kind
    refine .ite (by rw [hk]) (fun hi => ?_) fun _ => .reject .unhandledNode
    refine .ite .rfl (fun he => ?_) fun _ => .reject .unhandledNode
    subst he
    have hn : target.text = target'.text := ht.alike.root.text (by rw [hi]; rfl)
    have hs : arguments.length = arguments'.length := by
      simpa [Node.inspected, Node.Kind.reach] using hl.alike.root.length
    rw [hn, hs]
    exact agree_call (hl.arguments rfl)

theorem agree_definitionNode (hc : FirstTwo Interchange children children') (demand : Demand)
    (dst : Destination) :
    Agree (lower ⟨.functionDefinition, token, children⟩ demand dst)
      (lower ⟨.functionDefinition, token', children'⟩ demand dst) := by
  cases hc
  case none => exact .reject .missingChild
  case one params params' h =>
    have hk := h.alike.root.kind
    exact .ite (by rw [hk]) (fun _ => .reject .missingChild) fun _ =>
      .reject .malformedFunctionDefinition
  case two params params' body body' _ _ hp hb =>
    have hk := hp.alike.root.kind
    refine .ite (by rw [hk]) (fun hi => ?_) fun _ => .reject .malformedFunctionDefinition
    have hps : List.Forall₂ Node.Alike params.children params'.children := by
      simpa [Node.inspected, Node.Kind.reach, ← hk, hi] using hp.alike.inspected
    exact agree_definition hps (hb.lower .any .discard)

theorem agree_branch (ht : token.text = token'.text) (hc : FirstTwo Interchange children children')
    (demand : Demand) (dst : Destination) :
    Agree (lower ⟨.branch, token, children⟩ demand dst)
      (lower ⟨.branch, token', children'⟩ demand dst) := by
  cases hc
  case none | one => exact agree_statement (.reject .missingChild)
  case two condition condition' body body' _ _ hc hb =>
    simp only [lower, ht]
    apply agree_statement
    split
    case h_1 =>
      exact .within (agree_ifThen (fun t => hc.lower .value (.register t)) (hb.lower .any .discard))
    case h_2 =>
      exact .within (agree_whileDo (fun t => hc.lower .value (.register t))
        (hb.lower .any .discard))
    case h_3 => exact .reject .unknownBranch

theorem interchange_of_alike {n m : Node} (h : n.Alike m) : Interchange n m := by
  induction h
  case intro n m hr hc hi =>
    have ha : n.Alike m := .intro hr hc
    have hin : List.Forall₂ Interchange n.inspected m.inspected :=
      List.forall₂_iff_zip.mpr ⟨hr.length, fun hp => hi _ hp⟩
    obtain ⟨kind, token, children⟩ := n
    obtain ⟨kind', token', children'⟩ := m
    obtain rfl : kind = kind' := hr.kind
    have hall (hk : kind.reach = fun total => total) :
        List.Forall₂ Interchange children children' := by
      simpa [Node.inspected, hk] using hin
    have htwo (hk : kind.reach = fun _ => 2) : FirstTwo Interchange children children' := by
      refine firstTwo_of_take ?_
      simpa [Node.inspected, hk] using hin
    refine ⟨ha, fun demand dst => ?_,
      fun hk => agree_pushArguments (hall (congrArg Node.Kind.reach hk))⟩
    cases kind
    case numericLiteral =>
      have ht : token.text = token'.text := hr.text rfl
      show Agree (literal token.text dst) (literal token'.text dst)
      exact ht ▸ .refl (restores_literal _ dst)
    case identifier =>
      have ht : token.text = token'.text := hr.text rfl
      show Agree (identifier token.text dst.target) (identifier token'.text dst.target)
      exact ht ▸ .refl (restores_identifier _ dst.target)
    case functionReference =>
      have ht : token.text = token'.text := hr.text rfl
      show Agree (functionReference token.text dst.target)
        (functionReference token'.text dst.target)
      exact ht ▸ agree_emit _
    case infixOperator      => exact agree_infix hr (htwo rfl) demand dst
    case call               => exact agree_callNode (htwo rfl) demand dst
    case functionDefinition => exact agree_definitionNode (htwo rfl) demand dst
    case branch             => exact agree_branch (hr.text rfl) (htwo rfl) demand dst
    case block              => exact agree_statement (.inBlock (agree_lowerAll (hall rfl) .discard))
    case returnStatement    =>
      exact agree_statement
        (.within (agree_returnLast fun t => agree_lowerAll (hall rfl) (.register t)))
    all_goals exact .reject .unhandledNode

end

theorem agree_generate {n m : Node} (h : n.Alike m) (name : String) :
    Agree (generate name n) (generate name m) := by
  have hk := h.root.kind
  by_cases hd : n.kind = .functionDefinition
  case neg =>
    rw [generate, if_neg hd, generate, if_neg (hk ▸ hd)]
    exact .reject .unhandledNode
  case pos =>
    intro d g hp
    have hr := (interchange_of_alike h).lower .value (.register (.named name)) d g hp
    rw [generate_apply hd, generate_apply (hk ▸ hd)]
    generalize lower n _ _ g = r, lower m _ _ g = r' at hr
    cases hr
    case ok hp'         => exact .ok hp'
    case rejected hp' h => exact .rejected hp' h

theorem agree_routines {fs fs' : List Node} (h : List.Forall₂ Node.Alike fs fs') (index : Nat) :
    Agree (routines index fs) (routines index fs') := by
  induction h generalizing index
  case nil          => exact .refl (.pure [])
  case cons hf _ hi =>
    exact .bind (agree_generate hf _) fun _ => .bind (hi (index + 1)) fun _ => .refl (.pure _)

theorem agree_program {functions functions' : List Node} {entry entry' : Node}
    (he : entry.Alike entry') (hf : List.Forall₂ Node.Alike functions functions') :
    Agree (program functions entry) (program functions' entry') :=
  .bind (agree_generate he _) fun _ => .bind (agree_routines hf 0) fun _ => .refl (.pure _)

end Lower

-- What lowering does not inspect has no influence on the code. Two programs that are alike in what
-- it does inspect are compiled to the same code, or rejected for the same fault, of which only the
-- token and its place may differ.
theorem compile_alike (naming : Naming) {functions functions' : List Node} {entry entry' : Node}
    (he : entry.Alike entry') (hf : List.Forall₂ Node.Alike functions functions') :
    (∃ p, compile naming functions entry = .ok p ∧ compile naming functions' entry' = .ok p) ∨
      ∃ d d', compile naming functions entry = .error (.rejected d) ∧
        compile naming functions' entry' = .error (.rejected d') ∧ d.Alike d' := by
  have hr := Lower.agree_program he hf 0 (.new naming) Pool.stacked_new
  unfold compile
  generalize Lower.program functions entry _ = r, Lower.program functions' entry' _ = r' at hr
  cases hr
  case ok p _ _             => exact .inl ⟨p, rfl, rfl⟩
  case rejected d d' _ _ hd => exact .inr ⟨d, d', rfl, rfl, hd⟩

-- All tokens are other ones at another place, and there are more children than are called for. The
-- name that is bound is found at a branch. In the program that is rejected, a `let` is empty that
-- is no target.
theorem compile_alike_disguised :
    let node (kind : Node.Kind) (text : String) (children : List Node) : Node :=
      ⟨kind, ⟨.comma, text, ⟨7, 3, 1⟩⟩, children⟩
    let extra    := Node.number "9"
    let entry    := Node.function [] (.block [.assign (.letIdent "x") (.number "2"),
      .whileDo (.ident "x") (.call "print" [.ident "x"])])
    let entry'   := node .functionDefinition "" [node .identifierList "" [], node .block "" [
      node .infixOperator "=" [node .letBinding "" [node .branch "x" [], extra],
        node .numericLiteral "2" [extra], extra],
      node .branch "while" [node .identifier "x" [extra],
        node .call "" [node .identifier "print" [],
          node .expressionList "" [node .identifier "x" []], extra], extra]],
      extra]
    let invalid  := Node.function ["y"] (.returns [.infixOp "%" (.ident "y") (.letIdent "z")])
    let invalid' := node .functionDefinition "" [node .identifierList "" [node .identifier "y" []],
      node .returnStatement ""
        [node .infixOperator "%" [node .identifier "y" [], node .letBinding "" []]]]
    let d        := Diagnostic.mk (.unknownOperator "%" "TOKEN('INFOP', '%')") {}
      "fn0 > return > infix '%'"
    let d'       := Diagnostic.mk (.unknownOperator "%" "TOKEN('COMMA', '%')") ⟨7, 3, 1⟩
      "fn0 > return > infix '%'"
    (∃ p, compile .scoped [entry] entry = .ok p ∧ compile .scoped [entry'] entry' = .ok p) ∧
      compile .scoped [invalid] entry = .error (.rejected d) ∧
      compile .scoped [invalid'] entry' = .error (.rejected d') ∧
      d.Alike d' := by
  intro node extra entry entry' invalid invalid' d d'
  have he : entry.Alike entry' := by decide
  have hi : invalid.Alike invalid' := by decide
  have ho : (compile .scoped [entry] entry).isOk = true := by decide +kernel
  have hd : compile .scoped [invalid] entry = .error (.rejected d) := by decide +kernel
  have hd' : compile .scoped [invalid'] entry' = .error (.rejected d') := by decide +kernel
  refine ⟨?_, hd, hd', ?_⟩
  · rcases compile_alike .scoped he (.cons he .nil) with hp | ⟨e, _, h, -⟩
    · exact hp
    · simp [h, Except.isOk, Except.toBool] at ho
  · rcases compile_alike .scoped he (.cons hi .nil) with ⟨p, h, -⟩ | ⟨e, e', h, h', ha⟩
    · exact absurd (hd.symm.trans h) (by simp)
    · have h₁ : d = e := Generator.Failure.rejected.inj (Except.error.inj (hd.symm.trans h))
      have h₂ : d' = e' := Generator.Failure.rejected.inj (Except.error.inj (hd'.symm.trans h'))
      rw [h₁, h₂]
      exact ha

end LineCode

import LineCode.Proofs.Vocabulary

namespace LineCode

-- The same instruction on registers and labels that correspond.
inductive Instruction.Corresponds (R : Register → Register → Prop) (L : Label → Label → Prop) :
    Instruction → Instruction → Prop
  | label {l l'} : L l l' → Corresponds R L (label l) (label l')
  | blank : Corresponds R L blank blank
  | load {literal dst dst'} : R dst dst' → Corresponds R L (load literal dst) (load literal dst')
  | loadAddress {l l' dst dst'} :
    L l l' → R dst dst' → Corresponds R L (loadAddress l dst) (loadAddress l' dst')
  | move {src src' dst dst'} : R src src' → R dst dst' →
    Corresponds R L (move src dst) (move src' dst')
  | binary {op lhs lhs' rhs rhs' dst dst'} : R lhs lhs' → R rhs rhs' → R dst dst' →
    Corresponds R L (binary op lhs rhs dst) (binary op lhs' rhs' dst')
  | not {src src' dst dst'} : R src src' → R dst dst' →
    Corresponds R L (not src dst) (not src' dst')
  | jump {l l'} : L l l' → Corresponds R L (jump l) (jump l')
  | jumpIf {l l' r r'} : L l l' → R r r' → Corresponds R L (jumpIf l r) (jumpIf l' r')
  | push {r r'} : R r r' → Corresponds R L (push r) (push r')
  | pop {r r'} : R r r' → Corresponds R L (pop r) (pop r')
  | callValue {r r'} : R r r' → Corresponds R L (callValue r) (callValue r')
  | ret : Corresponds R L ret ret
  | out {r r'} : R r r' → Corresponds R L (out r) (out r')
  | halt : Corresponds R L halt halt
  | separator : Corresponds R L separator separator

inductive Destination.Corresponds (R : Register → Register → Prop) :
    Destination → Destination → Prop
  | discard : Corresponds R discard discard
  | register {r r'} : R r r' → Corresponds R (register r) (register r')

-- Both fail, or both succeed.
inductive Coincide {ε α β : Type} (F : ε → ε → Prop) (Q : α → β → Prop) :
    Except ε α → Except ε β → Prop
  | ok {a b} : Q a b → Coincide F Q (.ok a) (.ok b)
  | error {e e'} : F e e' → Coincide F Q (.error e) (.error e')

namespace Coincide

variable {ε α β : Type} {F F' : ε → ε → Prop} {Q Q' : α → β → Prop} {x : Except ε α}
  {y : Except ε β}

theorem imp (h : Coincide F Q x y) (hf : ∀ e e', F e e' → F' e e') (hq : ∀ a b, Q a b → Q' a b) :
    Coincide F' Q' x y := by
  cases h
  case ok h    => exact .ok (hq _ _ h)
  case error h => exact .error (hf _ _ h)

theorem eq_map {f : α → β} (h : Coincide Eq (fun a b => b = f a) x y) : y = x.map f := by
  cases h
  case ok h    => exact congrArg Except.ok h
  case error h => exact congrArg Except.error h.symm

end Coincide

namespace Lower

-- Two generators that deal with different things, and what corresponds to what. Pools do so while
-- the temporaries below some bound are in use. Not every tree will do: there may be conditions on
-- its identifiers, and on the names of definitions.
structure Correspondence where
  pool     : Nat → Pool → Pool → Prop
  register : Register → Register → Prop
  label    : Label → Label → Prop
  symbols  : Symbols → Symbols → Prop
  issued   : Nat → Nat → Prop
  failure  : Generator.Failure → Generator.Failure → Prop
  ident    : String → Prop
  name     : String → Prop

-- What lowering does to the one and to the other keeps up the correspondence.
class Correspondence.Lawful (c : Correspondence) : Prop where
  stacked {d p q} : c.pool d p q → p.Stacked d ∧ q.Stacked d
  borrow {d p q} : c.pool d p q → c.pool (d + 1) p.borrow.snd q.borrow.snd
  release {d p q p' q'} : c.pool (d + 1) p q → p.release (.temp d) = .ok p' →
    q.release (.temp d) = .ok q' →
    c.pool d p' q'
  temp (d : Nat) : c.register (.temp d) (.temp d)
  sink : c.register .sink .sink
  fresh {m n} : c.issued m n → c.label (.numbered m) (.numbered n) ∧ c.issued (m + 1) (n + 1)
  function (ref : String) : c.label (.function ref) (.function ref)
  definition {n} : c.name n → c.label ⟨n⟩ ⟨n⟩
  same (e : Generator.Failure) : c.failure e e
  resolve {s t x} : c.symbols s t → c.ident x →
    c.register (s.resolve x).fst (t.resolve x).fst ∧ c.symbols (s.resolve x).snd (t.resolve x).snd
  declare {s t x} : c.symbols s t → c.ident x →
    c.register (s.declare x).fst (t.declare x).fst ∧ c.symbols (s.declare x).snd (t.declare x).snd
  declareParameter {s t x} : c.symbols s t → c.ident x →
    c.register (s.declareParameter x).fst (t.declareParameter x).fst ∧
      c.symbols (s.declareParameter x).snd (t.declareParameter x).snd
  openBlock {s t} : c.symbols s t → c.symbols s.openBlock t.openBlock
  closeBlock {s t} : c.symbols s t → c.symbols s.closeBlock t.closeBlock
  enter {s t n} : c.symbols s t → c.name n → c.symbols (s.enter n) (t.enter n)
  leave {s t} : c.symbols s t → c.symbols s.leave t.leave

namespace Correspondence

variable (c : Correspondence)

abbrev Instructions : List Instruction → List Instruction → Prop :=
  List.Forall₂ (Instruction.Corresponds c.register c.label)

-- Generators that hold the temporaries below `d`.
structure Generators (d : Nat) (g h : Generator) : Prop where
  pool    : c.pool d g.pool h.pool
  trail   : g.trail = h.trail
  symbols : c.symbols g.symbols h.symbols
  issued  : c.issued g.labels.issued h.labels.issued
  code    : c.Instructions g.code.toList h.code.toList

inductive Results {α β : Type} (d : Nat) (Q : α → β → Prop) :
    EStateM.Result Generator.Failure Generator α → EStateM.Result Generator.Failure Generator β →
      Prop
  | ok {a b g h} : Q a b → c.Generators d g h → Results d Q (.ok a g) (.ok b h)
  | error {e e' g h} : c.failure e e' → c.Generators d g h → Results d Q (.error e g) (.error e' h)

-- Two actions that do the same, one on each side.
def Parallel {α β : Type} (d : Nat) (Q : α → β → Prop) (x : Lower α) (y : Lower β) : Prop :=
  ∀ g h, c.Generators d g h → c.Results d Q (x g) (y h)

abbrev Steps (d : Nat) (x y : Lower Unit) : Prop := c.Parallel d (fun _ _ => True) x y

namespace Parallel

variable {c} {α β γ δ : Type} {d : Nat} {Q : α → β → Prop} {Q' : γ → δ → Prop} {x : Lower α}
  {y : Lower β}

theorem pure {a : α} {b : β} (h : Q a b) : c.Parallel d Q (Pure.pure a) (Pure.pure b) :=
  fun _ _ hg => .ok h hg

theorem bind {f : α → Lower γ} {f' : β → Lower δ} (hx : c.Parallel d Q x y)
    (hf : ∀ a b, Q a b → c.Parallel d Q' (f a) (f' b)) : c.Parallel d Q' (x >>= f) (y >>= f') := by
  intro g h hg
  rw [bind_apply, bind_apply]
  match x g, y h, hx g h hg with
  | _, _, .ok hq hg    => exact hf _ _ hq _ _ hg
  | _, _, .error he hg => exact .error he hg

theorem seq {f f' : Lower Unit} {k k' : Lower Unit} (hf : c.Steps d f f') (hk : c.Steps d k k') :
    c.Steps d (f >>= fun _ => k) (f' >>= fun _ => k') :=
  hf.bind fun _ _ _ => hk

theorem emit {i j : Instruction} (h : i.Corresponds c.register c.label j) :
    c.Steps d (emit i) (emit j) := by
  intro g h' hg
  refine .ok trivial { hg with code := ?_ }
  simpa using List.rel_append hg.code (.cons h .nil)

theorem within {construct : String} (hx : c.Parallel d Q x y) :
    c.Parallel d Q (within construct x) (within construct y) := by
  intro g h hg
  rw [within_apply, within_apply]
  have hr := hx { g with trail := construct :: g.trail } { h with trail := construct :: h.trail }
    { hg with trail := congrArg (construct :: ·) hg.trail }
  match x _, y _, hr with
  | _, _, .ok hq hg    => exact .ok hq { hg with trail := congrArg List.tail hg.trail }
  | _, _, .error he hg => exact .error he { hg with trail := congrArg List.tail hg.trail }

-- Blocks and definitions change the symbols before an action and after it.
theorem bracket {x' : Lower α} {y' : Lower β} (before after : Symbols → Symbols)
    (hb : ∀ s t, c.symbols s t → c.symbols (before s) (before t))
    (ha : ∀ s t, c.symbols s t → c.symbols (after s) (after t)) (hx : c.Parallel d Q x y)
    (hx' : ∀ g : Generator, x' g =
      match x { g with symbols := before g.symbols } with
      | .ok a g    => .ok a { g with symbols := after g.symbols }
      | .error e g => .error e { g with symbols := after g.symbols })
    (hy' : ∀ g : Generator, y' g =
      match y { g with symbols := before g.symbols } with
      | .ok a g    => .ok a { g with symbols := after g.symbols }
      | .error e g => .error e { g with symbols := after g.symbols }) : c.Parallel d Q x' y' := by
  intro g h hg
  rw [hx', hy']
  have hr := hx { g with symbols := before g.symbols } { h with symbols := before h.symbols }
    { hg with symbols := hb _ _ hg.symbols }
  match x _, y _, hr with
  | _, _, .ok hq hg    => exact .ok hq { hg with symbols := ha _ _ hg.symbols }
  | _, _, .error he hg => exact .error he { hg with symbols := ha _ _ hg.symbols }

theorem lookup {f : Symbols → Register × Symbols}
    (hf : ∀ s t, c.symbols s t → c.register (f s).fst (f t).fst ∧ c.symbols (f s).snd (f t).snd) :
    c.Parallel d c.register (lookup f) (lookup f) := by
  intro g h hg
  obtain ⟨hr, hs⟩ := hf _ _ hg.symbols
  exact .ok hr { hg with symbols := hs }

variable [c.Lawful]

theorem freshLabel : c.Parallel d c.label freshLabel freshLabel := by
  intro g h hg
  obtain ⟨hl, hi⟩ := Lawful.fresh hg.issued
  exact .ok hl { hg with issued := hi }

theorem withTemp {f : Register → Lower α} {f' : Register → Lower β}
    (hf : c.Parallel (d + 1) Q (f (.temp d)) (f' (.temp d))) :
    c.Parallel d Q (withTemp f) (withTemp f') := by
  intro g h hg
  obtain ⟨hl, hr⟩ := Lawful.stacked hg.pool
  rw [withTemp_apply, withTemp_apply, hl.borrow.left, hr.borrow.left]
  have hr := hf { g with pool := g.pool.borrow.snd } { h with pool := h.pool.borrow.snd }
    { hg with pool := Lawful.borrow hg.pool }
  -- Both pools take the temporary back.
  have back {g h : Generator} (hg : c.Generators (d + 1) g h) :
      ∃ p q, g.pool.release (.temp d) = .ok p ∧ h.pool.release (.temp d) = .ok q ∧
        c.Generators d { g with pool := p } { h with pool := q } := by
    obtain ⟨hl, hr⟩ := Lawful.stacked hg.pool
    obtain ⟨p, hp, -⟩ := hl.release
    obtain ⟨q, hq, -⟩ := hr.release
    exact ⟨p, q, hp, hq, { hg with pool := Lawful.release hg.pool hp hq }⟩
  generalize f _ _ = x, f' _ _ = y at hr
  cases hr
  case ok hq hg =>
    obtain ⟨p, q, hp, hq', hg⟩ := back hg
    simp only [hp, hq']
    exact .ok hq hg
  case error he hg =>
    obtain ⟨p, q, hp, hq, hg⟩ := back hg
    simp only [hp, hq]
    exact .error he hg

theorem reject (span : Span) (cause : Cause) :
    c.Parallel d Q (reject span cause) (reject span cause) := by
  intro g h hg
  have he : g.context = h.context := by rw [Generator.context, Generator.context, hg.trail]
  simp only [Lower.reject, he]
  exact .error (Lawful.same _) hg

theorem inBlock (hx : c.Parallel d Q x y) : c.Parallel d Q (inBlock x) (inBlock y) :=
  bracket .openBlock .closeBlock (fun _ _ => Lawful.openBlock) (fun _ _ => Lawful.closeBlock) hx
    (inBlock_apply x)
    (inBlock_apply y)

theorem inDefinition {name : String} (hn : c.name name) (hx : c.Parallel d Q x y) :
    c.Parallel d Q (inDefinition name x) (inDefinition name y) :=
  bracket (Symbols.enter · name) .leave (fun _ _ hs => Lawful.enter hs hn)
    (fun _ _ => Lawful.leave) hx
    (inDefinition_apply name x) (inDefinition_apply name y)

end Parallel

-- The constructs, given that their parts go in parallel.
section

variable {c} {d : Nat} {r r' : Register} {ident : String}

theorem literal {dst dst' : Destination} (h : dst.Corresponds c.register dst') (text : String) :
    c.Steps d (Lower.literal text dst) (Lower.literal text dst') := by
  cases h
  case discard    => exact .pure trivial
  case register h => exact .emit (.load h)

theorem outputPopped (h : c.register r r') (n : Nat) :
    c.Steps d (Lower.outputPopped r n) (Lower.outputPopped r' n) := by
  induction n
  case zero      => exact .pure trivial
  case succ n hi => exact .seq (.emit (.pop h)) <| .seq (.emit (.out h)) hi

variable [c.Lawful]

theorem resolves (hi : c.ident ident) :
    c.Parallel d c.register (Lower.resolve ident) (Lower.resolve ident) :=
  .lookup fun _ _ hs => Lawful.resolve hs hi

theorem identifier (hi : c.ident ident) (h : c.register r r') :
    c.Steps d (Lower.identifier ident r) (Lower.identifier ident r') :=
  (resolves hi).bind fun _ _ hs => .emit (.move hs h)

theorem binary {lhs lhs' : Register → Lower Unit} {rhs rhs' : Lower Unit}
    (hl : c.Steps (d + 1) (lhs (.temp d)) (lhs' (.temp d))) (hr : c.Steps (d + 1) rhs rhs')
    (h : c.register r r') (op : Operator) :
    c.Steps d (Lower.binary op lhs rhs r) (Lower.binary op lhs' rhs' r') :=
  .withTemp <| hl.seq <| hr.seq <| .emit <| .binary (Lawful.temp d) h h

theorem assignmentTarget {target : Node} {L : Label → Prop} {W : String → Prop}
    (ht : target.Over c.ident c.ident L W) :
    c.Parallel d c.register (Lower.assignmentTarget target) (Lower.assignmentTarget target) := by
  obtain ⟨kind, token, children⟩ := target
  cases kind
  case identifier => exact resolves (ht.name rfl)
  case letBinding =>
    cases children
    case nil         => exact .reject _ _
    case cons name _ => exact .lookup fun _ _ hs => Lawful.declare hs (ht.binding rfl name rfl)
  all_goals exact .reject _ _

theorem returnLast {values values' : Register → Lower Unit}
    (hv : c.Steps (d + 1) (values (.temp d)) (values' (.temp d))) :
    c.Steps d (Lower.returnLast values) (Lower.returnLast values') :=
  .seq (.withTemp <| hv.seq <| .emit <| .push (Lawful.temp d)) (.emit .ret)

theorem ifThen {condition condition' : Register → Lower Unit} {body body' : Lower Unit}
    (hc : c.Steps (d + 1) (condition (.temp d)) (condition' (.temp d)))
    (hb : c.Steps (d + 1) body body') :
    c.Steps d (Lower.ifThen condition body) (Lower.ifThen condition' body') := by
  have ht : c.register (.temp d) (.temp d) := Lawful.temp d
  refine .withTemp <| .bind .freshLabel fun done done' hl => ?_
  exact hc.seq <| .seq (.emit (.not ht ht)) <| .seq (.emit (.jumpIf hl ht)) <| hb.seq <|
    .emit (.label hl)

theorem whileDo {condition condition' : Register → Lower Unit} {body body' : Lower Unit}
    (hc : c.Steps (d + 1) (condition (.temp d)) (condition' (.temp d)))
    (hb : c.Steps (d + 1) body body') :
    c.Steps d (Lower.whileDo condition body) (Lower.whileDo condition' body') := by
  have ht : c.register (.temp d) (.temp d) := Lawful.temp d
  refine .withTemp <| .bind .freshLabel fun done done' hd =>
    .bind .freshLabel fun start start' hs => ?_
  exact .seq (.emit (.label hs)) <| hc.seq <| .seq (.emit (.not ht ht)) <|
    .seq (.emit (.jumpIf hd ht)) <|
    hb.seq <| .seq (.emit (.jump hs)) <| .emit (.label hd)

theorem printArguments (h : c.register r r') (count : Nat) :
    c.Steps d (Lower.printArguments count r) (Lower.printArguments count r') :=
  have ht : c.register (.temp d) (.temp d) := Lawful.temp d
  .withTemp <| .seq (outputPopped ht count) <| .seq (.emit (.load ht)) <| .emit (.move ht h)

theorem callVariable (hi : c.ident ident) (h : c.register r r') :
    c.Steps d (Lower.callVariable ident r) (Lower.callVariable ident r') :=
  (resolves hi).bind fun _ _ hs => .seq (.emit (.callValue hs)) <|
    .withTemp <| .seq (.emit (.pop (Lawful.temp d))) <| .emit (.move (Lawful.temp d) h)

theorem call {arguments arguments' : Register → Lower Unit}
    (ha : c.Steps (d + 1) (arguments (.temp d)) (arguments' (.temp d))) (h : c.register r r')
    (hi : ident ≠ printName → c.ident ident) (count : Nat) :
    c.Steps d (Lower.call ident arguments count r) (Lower.call ident arguments' count r') := by
  refine .within <| .seq (.withTemp ha) ?_
  split
  case isTrue     => exact printArguments h count
  case isFalse hn => exact callVariable (hi hn) h

theorem popParameters {ps : List Node} (hp : ∀ p ∈ ps, p.kind = .identifier → c.ident p.text) :
    c.Steps d (Lower.popParameters ps) (Lower.popParameters ps) := by
  induction ps
  case nil => exact .pure trivial
  case cons p ps hi =>
    obtain ⟨hp, hps⟩ := List.forall_mem_cons.mp hp
    by_cases hk : p.kind = .identifier
    case pos =>
      simp only [Lower.popParameters, hk, if_true]
      exact .bind (.lookup fun _ _ hs => Lawful.declareParameter hs (hp hk)) fun _ _ hr =>
        .seq (.emit (.pop hr)) (hi hps)
    case neg =>
      simp only [Lower.popParameters, hk, if_false]
      exact .seq (.reject _ _) (hi hps)

theorem definitions {name : String} {params : List Node} {body body' : Lower Unit}
    (hn : c.name name) (hp : ∀ p ∈ params, p.kind = .identifier → c.ident p.text)
    (hb : c.Steps d body body') :
    c.Steps d (Lower.definition name params body) (Lower.definition name params body') :=
  .seq (.emit (.label (Lawful.definition hn))) <| .inDefinition hn <| .within <|
    .seq (popParameters hp) hb

end

-- Lowering a node to destinations that correspond.
def Lowers (n : Node) : Prop :=
  ∀ d demand dst dst', dst.Corresponds c.register dst' →
    c.Steps d (lower n demand dst) (lower n demand dst')

def Admits (n : Node) : Prop := n.Over c.ident c.ident (fun _ => True) (fun _ => True)

section

variable {c} {d : Nat} {token : Token} {children : List Node}

theorem lowers_all {ns : List Node} (hn : ∀ n ∈ ns, c.Lowers n) {dst dst' : Destination}
    (hd : dst.Corresponds c.register dst') : c.Steps d (lowerAll ns dst) (lowerAll ns dst') := by
  induction ns
  case nil          => exact .pure trivial
  case cons n ns hi => exact .seq (hn n (by simp) _ _ _ _ hd) <| hi fun m hm => hn m (by simp [hm])

theorem lowers_arguments {ns : List Node} (hn : ∀ n ∈ ns, c.Lowers n) {r r' : Register}
    (hr : c.register r r') :
    c.Steps d (pushArguments ns r) (pushArguments ns r') := by
  induction ns
  case nil => exact .pure trivial
  case cons n ns hi =>
    exact .seq (hi fun m hm => hn m (by simp [hm])) <|
      .seq (hn n (by simp) _ _ _ _ (.register hr)) <| .emit (.push hr)

variable [c.Lawful]

theorem target {dst dst' : Destination} (h : dst.Corresponds c.register dst') :
    c.register dst.target dst'.target := by
  cases h
  case discard    => exact Lawful.sink
  case register h => exact h

theorem lowers_infix (hc : ∀ n ∈ children, c.Admits n ∧ c.Lowers n) :
    c.Lowers ⟨.infixOperator, token, children⟩ := by
  intro d demand dst dst' hd
  match children with
  | [] =>
    show c.Steps d (within _ (if token.text = "=" then _ else _))
      (within _ (if token.text = "=" then _ else _))
    split <;> exact .within (.reject _ _)
  | [target] =>
    show c.Steps d (within _ (if token.text = "=" then _ else _))
      (within _ (if token.text = "=" then _ else _))
    split
    · exact .within (.bind (assignmentTarget (hc target (by simp)).left) fun _ _ _ => .reject _ _)
    · exact .within (.reject _ _)
  | lhs :: rhs :: rest =>
    obtain ⟨hln, hl⟩ := hc lhs (by simp)
    obtain ⟨_, hr⟩ := hc rhs (by simp)
    show c.Steps d (within _ (if token.text = "=" then _ else _))
      (within _ (if token.text = "=" then _ else _))
    split
    · exact .within <| .bind (assignmentTarget hln) fun _ _ hs => hr _ _ _ _ (.register hs)
    · cases Operator.ofSymbol? token.text
      case none    => exact .within (.reject _ _)
      case some op =>
        exact .within <| binary (hl _ _ _ _ (.register (Lawful.temp d))) (hr _ _ _ _ hd)
          (target hd) op

theorem lowers_call
    (ht : ∀ callee rest, children = callee :: rest → callee.kind = .identifier →
      callee.text ≠ printName →
      c.ident callee.text)
    (ha : ∀ callee list rest, children = callee :: list :: rest → list.kind = .expressionList →
      ∀ d r r', c.register r r' →
        c.Steps d (pushArguments list.children r) (pushArguments list.children r')) :
    c.Lowers ⟨.call, token, children⟩ := by
  intro d demand dst dst' hd
  match children with
  | [] => exact .reject _ _
  | [callee] =>
    show c.Steps d (if callee.kind = .identifier then _ else _)
      (if callee.kind = .identifier then _ else _)
    split <;> exact .reject _ _
  | callee :: ⟨kind, token', arguments⟩ :: rest =>
    show c.Steps d (if callee.kind = .identifier then if kind = .expressionList then _
      else _ else _)
      (if callee.kind = .identifier then if kind = .expressionList then _ else _ else _)
    split
    case isFalse => exact .reject _ _
    case isTrue hk =>
      split
      case isFalse => exact .reject _ _
      case isTrue hl =>
        exact call (ha _ _ _ rfl hl _ _ _ (Lawful.temp d)) (target hd) (ht _ _ rfl hk) _

theorem lowers_statement {kind : Node.Kind}
    (hk : kind = .block ∨ kind = .returnStatement ∨ kind = .branch) {dst dst' : Destination} :
    c.Steps d (lower ⟨kind, token, children⟩ .value dst)
      (lower ⟨kind, token, children⟩ .value dst') := by
  rcases hk with rfl | rfl | rfl <;> unfold lower <;> exact .reject _ _

theorem lowers_branch (hc : ∀ n ∈ children, c.Lowers n) : c.Lowers ⟨.branch, token, children⟩ := by
  intro d demand dst dst' hd
  cases demand
  case value => exact lowers_statement (by simp)
  case any =>
    match children with
    | [] | [_] => exact .reject _ _
    | condition :: body :: rest =>
      have h₁ := hc condition (by simp) (d + 1) .value _ _ (.register (Lawful.temp d))
      have h₂ := hc body (by simp) (d + 1) .any _ _ .discard
      simp only [lower, statement]
      split
      case h_1 => exact .within (ifThen h₁ h₂)
      case h_2 => exact .within (whileDo h₁ h₂)
      case h_3 => exact .reject _ _

theorem lowers_unhandled {kind : Node.Kind}
    (hk : kind = .identifierList ∨ kind = .expressionList ∨ kind = .letBinding) :
    c.Lowers ⟨kind, token, children⟩ := by
  intro d demand dst dst' hd
  have hp : demand.position dst = demand.position dst' := by
    cases hd
    case discard  => rfl
    case register => cases demand <;> rfl
  rcases hk with rfl | rfl | rfl <;> unfold lower <;> rw [hp] <;> exact .reject _ _

-- Calls reach past their children to the arguments, hence the second half.
theorem lowers_node {n : Node} (h : n.EveryPart c.Admits) :
    c.Lowers n ∧ (n.kind = .expressionList → ∀ d r r', c.register r r' →
      c.Steps d (pushArguments n.children r) (pushArguments n.children r')) := by
  induction h
  case intro n hn hp hi =>
    have hs : ∀ c' ∈ n.parts, c.Admits c' := fun c' hc => (hp c' hc).self
    obtain ⟨kind, token, children⟩ := n
    by_cases hk : kind = .call
    case pos =>
      subst hk
      refine ⟨lowers_call (fun callee rest he ht hne => ?_)
        (fun callee list rest he => ?_), by simp⟩
      · exact (hs callee (by simp [Node.parts, he, hne])).name ht
      · refine (hi list ?_).right
        simp only [Node.parts, he]
        split <;> simp
    case neg =>
      rw [Node.parts_eq hk] at hi hs
      have hl := fun c' hc => (hi c' hc).left
      refine ⟨?_, fun _ d r r' hr => lowers_arguments hl hr⟩
      cases kind
      case numericLiteral     => exact fun d demand dst dst' hd => literal hd token.text
      case identifier =>
        exact fun d demand dst dst' hd => identifier (hn.name rfl) (target hd)
      case functionReference =>
        exact fun d demand dst dst' hd => .emit (.loadAddress (Lawful.function _) (target hd))
      case infixOperator      => exact lowers_infix fun c' hc => ⟨hs c' hc, hl c' hc⟩
      case functionDefinition => exact absurd rfl hn.noDefinition
      case call               => contradiction
      case branch             => exact lowers_branch hl
      case block =>
        intro d demand dst dst' hd
        cases demand
        case any   => exact .inBlock (lowers_all hl .discard)
        case value => exact lowers_statement (by simp)
      case returnStatement =>
        intro d demand dst dst' hd
        cases demand
        case any   => exact .within (returnLast (lowers_all hl (.register (Lawful.temp d))))
        case value => exact lowers_statement (by simp)
      all_goals exact lowers_unhandled (by simp)

theorem lowers_definition {name : String} (hn : c.name name)
    (hc : ∀ n ∈ children, n.EveryPart c.Admits) (demand : Demand) :
    c.Steps d (lower ⟨.functionDefinition, token, children⟩ demand (.register (.named name)))
      (lower ⟨.functionDefinition, token, children⟩ demand (.register (.named name))) := by
  match children with
  | [] => exact .reject _ _
  | [params] =>
    show c.Steps d (if params.kind = .identifierList then _ else _)
      (if params.kind = .identifierList then _ else _)
    split <;> exact .reject _ _
  | params :: body :: rest =>
    show c.Steps d (if params.kind = .identifierList then _ else _)
      (if params.kind = .identifierList then _ else _)
    split
    case isFalse => exact .reject _ _
    case isTrue hk =>
      have hp := fun p hp => ((hc params (by simp)).child (c := p) (by simp [hk]) hp).self.name
      exact definitions hn hp ((lowers_node (hc body (by simp))).left _ _ _ _ .discard)

theorem generates {name : String} {node : Node} (hn : c.name name)
    (hc : ∀ n ∈ node.children, n.EveryPart c.Admits) :
    c.Parallel d c.Instructions (generate name node) (generate name node) := by
  by_cases hk : node.kind = .functionDefinition
  case neg =>
    rw [generate, if_neg hk]
    exact .reject _ _
  case pos =>
    obtain ⟨kind, token, children⟩ := node
    subst hk
    intro g h hg
    have hl : c.Steps d
        (lower ⟨.functionDefinition, token, children⟩ .value (.register (.named name))) _ :=
      lowers_definition hn hc .value
    have hr := hl g h hg
    rw [generate_apply rfl, generate_apply rfl]
    generalize lower _ _ _ g = x, lower _ _ _ h = y at hr
    cases hr
    case ok hg       => exact .ok hg.code { hg with code := .nil }
    case error he hg => exact .error he { hg with code := .nil }

end

structure Routines (r r' : Routine) : Prop where
  index : r.index = r'.index
  label : r.label = r'.label
  code  : c.Instructions r.code r'.code

structure Programs (p q : Program) : Prop where
  entry    : c.Instructions p.entry q.entry
  routines : List.Forall₂ c.Routines p.routines q.routines

section

variable {c}

theorem blankEntry (hl : ∀ l l', c.label l l' → l = l') {code code' : List Instruction}
    (h : c.Instructions code code') :
    c.Instructions (Program.blankEntry code) (Program.blankEntry code') := by
  cases h
  case nil => exact .nil
  case cons i j code code' hi hc =>
    cases hi
    case label l l' h =>
      obtain rfl := hl _ _ h
      simp only [Program.blankEntry]
      split
      · exact .cons .blank hc
      · exact .cons (.label h) hc
    all_goals exact .cons (by constructor <;> assumption) hc

variable [c.Lawful]

theorem routines {index : Nat} {fs : List Node}
    (hn : ∀ i : Nat, c.name (Label.function (toString i)).name)
    (hc : ∀ f ∈ fs, ∀ n ∈ f.children, n.EveryPart c.Admits) :
    c.Parallel 0 (List.Forall₂ c.Routines) (Lower.routines index fs) (Lower.routines index fs) := by
  induction fs generalizing index
  case nil => exact .pure .nil
  case cons f fs hi =>
    obtain ⟨hf, hfs⟩ := List.forall_mem_cons.mp hc
    refine .bind (generates (hn index) hf) fun code code' hcode => ?_
    exact .bind (hi hfs) fun rs rs' hrs => .pure (.cons ⟨rfl, rfl, hcode⟩ hrs)

-- Two compilations of the same program, whatever the naming.
theorem compiles (hl : ∀ l l', c.label l l' → l = l')
    (hn : ∀ i : Nat, c.name (Label.function (toString i)).name)
    (he : c.name Program.entryLabel.name) {naming naming' : Naming}
    (hs : c.symbols { naming } { naming := naming' }) (hi : c.issued 0 0) (hp : c.pool 0 {} {})
    {functions : List Node} {entry : Node}
    (hc : ∀ f ∈ entry :: functions, ∀ n ∈ f.children, n.EveryPart c.Admits) :
    Coincide c.failure c.Programs (compile naming functions entry)
      (compile naming' functions entry) := by
  obtain ⟨hce, hcf⟩ := List.forall_mem_cons.mp hc
  have hg : c.Generators 0 (.new naming) (.new naming') := ⟨hp, rfl, hs, hi, .nil⟩
  have hp : c.Parallel 0 c.Programs (program functions entry) (program functions entry) :=
    .bind (generates he hce) fun _ _ hcode => .bind (routines hn hcf) fun _ _ hrs =>
      .pure ⟨blankEntry hl hcode, hrs⟩
  unfold compile
  match program functions entry (.new naming), program functions entry (.new naming'),
  hp _ _ hg with
  | _, _, .ok h _    => exact .ok h
  | _, _, .error h _ => exact .error h

end

end Correspondence
end Lower
end LineCode

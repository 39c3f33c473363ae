import LineCode.Proofs.Evaluation
import LineCode.Proofs.Legibility

namespace LineCode

namespace Register

theorem temp_name_inj {i j : Nat} (h : (temp i).name = (temp j).name) : i = j :=
  toString_inj <| (String.append_right_inj ".t").mp h

theorem temp_name_ne {x : String} (h : '.' ∉ x.toList) (j : Nat) : (temp j).name ≠ x := by
  rintro rfl
  simp [name] at h

end Register

namespace Source

open Text Lower

-- A name that the machine can read and that is neither a temporary's nor the sink's.
structure Name (x : String) : Prop where
  solid   : Solid x.toList
  noDot   : '.' ∉ x.toList
  ne_sink : x ≠ Register.sink.name

instance : DecidablePred Name := fun x =>
  decidable_of_iff (Solid x.toList ∧ '.' ∉ x.toList ∧ x ≠ Register.sink.name)
    ⟨fun ⟨hs, hd, hn⟩ => ⟨hs, hd, hn⟩, fun h => ⟨h.solid, h.noDot, h.ne_sink⟩⟩

theorem name_ne_temp {x : String} (h : Name x) (j : Nat) : x ≠ (Register.temp j).name :=
  (Register.temp_name_ne h.noDot j).symm

-- The expressions of a program with `k` functions. A function may be called where no left operand
-- is waiting: the callee uses the same temporaries.
inductive Expression (k : Nat) : (calls : Bool) → Node → Prop
  | literal {calls token v} :
    Machine.literal? token.text.toList = some v → Expression k calls ⟨.numericLiteral, token, []⟩
  | identifier {calls token} : Name token.text → Expression k calls ⟨.identifier, token, []⟩
  | reference {calls token i} :
    i < k → token.text = toString i → Expression k calls ⟨.functionReference, token, []⟩
  | binary {calls token op lhs rhs} :
    Operator.ofSymbol? token.text = some op → Expression k calls lhs → Expression k false rhs →
    Expression k calls ⟨.infixOperator, token, [lhs, rhs]⟩
  | print {calls token token' token'' ns} :
    token'.text = printName → (∀ n ∈ ns, Expression k calls n) →
    Expression k calls ⟨.call, token, [⟨.identifier, token', []⟩, ⟨.expressionList, token'', ns⟩]⟩
  | call {token token' token'' ns} :
    token'.text ≠ printName → Name token'.text → (∀ n ∈ ns, Expression k true n) →
    Expression k true ⟨.call, token, [⟨.identifier, token', []⟩, ⟨.expressionList, token'', ns⟩]⟩

-- What is on the left of an assignment.
inductive Target : Node → Prop
  | identifier {token} : Name token.text → Target ⟨.identifier, token, []⟩
  | declaration {token token'} :
    Name token'.text → Target ⟨.letBinding, token, [⟨.identifier, token', []⟩]⟩

inductive Statement (k : Nat) : Node → Prop
  | block {token ns} : (∀ n ∈ ns, Statement k n) → Statement k ⟨.block, token, ns⟩
  | assignment {token target value} :
    token.text = "=" → Target target → Expression k true value →
    Statement k ⟨.infixOperator, token, [target, value]⟩
  | ifThen {token condition body} :
    token.text = "if" → Expression k true condition → Statement k body →
    Statement k ⟨.branch, token, [condition, body]⟩
  | whileDo {token condition body} :
    token.text = "while" → Expression k true condition → Statement k body →
    Statement k ⟨.branch, token, [condition, body]⟩
  | returns {token ns} :
    ns ≠ [] → (∀ n ∈ ns, Expression k true n) → Statement k ⟨.returnStatement, token, ns⟩
  | call {token children} : Expression k true ⟨.call, token, children⟩ →
    Statement k ⟨.call, token, children⟩

inductive Definition (k : Nat) : (params : List Node) → (body : Node) → Node → Prop
  | intro {token token' params body} :
    (∀ p ∈ params, p.kind = .identifier ∧ p.children = [] ∧ Name p.text) → Statement k body →
    Definition k params body ⟨.functionDefinition, token, [⟨.identifierList, token', params⟩, body]⟩

theorem natural?_isDigit {cs : List Char} {n : Nat} (h : natural? cs = some n) :
    cs ≠ [] ∧ ∀ c ∈ cs, c.isDigit := by
  unfold natural? at h
  split at h
  case isTrue hc => simpa using hc
  case isFalse   => contradiction

theorem integer?_chars {cs : List Char} {v : Int} (h : integer? cs = some v) :
    cs ≠ [] ∧ ∀ c ∈ cs, c.isDigit ∨ c = '+' ∨ c = '-' := by
  unfold integer? at h
  split at h
  all_goals
    have ⟨n, hn, _⟩ := Option.map_eq_some_iff.mp h
    have ⟨hc, hd⟩ := natural?_isDigit hn
  case h_1 => exact ⟨by simp, by simpa using fun c h => .inl (hd c h)⟩
  case h_2 => exact ⟨by simp, by simpa using fun c h => .inl (hd c h)⟩
  case h_3 => exact ⟨hc, fun c h => .inl (hd c h)⟩

theorem literal_legible {text : String} {v : Int} (h : Machine.literal? text.toList = some v) :
    Instruction.LegibleLiteral text := by
  have ⟨hi, _⟩ := Option.filter_eq_some_iff.mp h
  have ⟨hn, hc⟩ := integer?_chars hi
  refine ⟨hn, fun c h => ?_, fun hm => ?_⟩
  · rcases hc c h with hd | rfl | rfl
    · exact isBlank_of_isDigit hd
    · decide
    · decide
  · have := hc '&' (List.mem_of_head? hm)
    contradiction

-- The names of a program are those of variables, its literals are numbers, and there is no
-- definition in it.
def Fit : Node → Prop :=
  Node.Over Name Name (Text.Solid ·.name.toList) fun w => (Machine.literal? w.toList).isSome

instance : DecidablePred Fit := fun n =>
  inferInstanceAs (Decidable (n.Over Name Name (Text.Solid ·.name.toList) fun w =>
    (Machine.literal? w.toList).isSome))

theorem Fit.readable {n : Node} (h : Fit n) : n.Readable where
  noDefinition := h.noDefinition
  name hk      := (h.name hk).solid
  binding hk   := fun c hc => (h.binding hk c hc).solid
  literal hk   := by
    obtain ⟨v, hv⟩ := Option.isSome_iff_exists.mp (h.literal hk)
    exact literal_legible hv
  reference    := h.reference

-- A program with such names and literals is loaded just as it was generated.
theorem load_fit {functions : List Node} {entry : Node} {p : Program} {k : Nat}
    (h : Links .verbatim functions entry p k)
    (hf : ∀ f ∈ entry :: functions, ∀ c ∈ f.children, c.Every Fit) :
    Machine.Image.load p.text = .ok (.ofCode p.instructions) ∧
      (Machine.Image.ofCode p.instructions).Holds p.instructions :=
  h.load_ofCode fun f hm c hc => (hf f hm c hc).imp fun _ => Fit.readable

section

variable {k : Nat} {calls : Bool} {n target body : Node}

-- Nodes that have no text of their own in the code.
theorem legible_inner {kind : Node.Kind} {token : Token} {children : List Node}
    (hk : kind ∈ [.block, .infixOperator, .returnStatement, .identifierList, .branch, .call,
      .expressionList]) (hc : ∀ c ∈ children, c.Every (Node.Legible k)) :
    Node.Every (Node.Legible k) ⟨kind, token, children⟩ := by
  refine .intro ?_ hc
  constructor <;> rintro rfl <;> simp at hk

theorem legible_identifier {token : Token} (h : Solid token.text.toList) :
    Node.Every (Node.Legible k) ⟨.identifier, token, []⟩ :=
  .intro ⟨nofun, fun _ => h, nofun, nofun, nofun⟩ nofun

theorem legible_call {token token' token'' : Token} {ns : List Node} (ht : Solid token'.text.toList)
    (h : ∀ n ∈ ns, n.Every (Node.Legible k)) :
    Node.Every (Node.Legible k)
      ⟨.call, token, [⟨.identifier, token', []⟩, ⟨.expressionList, token'', ns⟩]⟩ := by
  have hns : Node.Every (Node.Legible k) ⟨.expressionList, token'', ns⟩ := legible_inner (by simp) h
  exact legible_inner (by simp) (by simpa using ⟨legible_identifier ht, hns⟩)

theorem Expression.legible (h : Expression k calls n) : n.Every (Node.Legible k) := by
  induction h
  case literal hl =>
    exact .intro ⟨nofun, nofun, nofun, fun _ => literal_legible hl, nofun⟩ nofun
  case identifier hn   => exact legible_identifier hn.solid
  case reference hi ht => exact .intro ⟨nofun, nofun, nofun, nofun, fun _ => ⟨_, hi, ht⟩⟩ nofun
  case binary hl hr    => exact legible_inner (by simp) (by simpa using ⟨hl, hr⟩)
  case print ht _ hi   => exact legible_call (ht ▸ by decide) hi
  case call hn _ hi    => exact legible_call hn.solid hi

theorem Target.legible (h : Target n) : n.Every (Node.Legible k) := by
  cases h
  case identifier hn  => exact legible_identifier hn.solid
  case declaration hn =>
    have hc := legible_identifier (k := k) hn.solid
    exact .intro ⟨nofun, nofun, fun _ c hm => Option.some.inj hm ▸ hn.solid, nofun, nofun⟩
      (by simpa using hc)

theorem Statement.legible (h : Statement k n) : n.Every (Node.Legible k) := by
  induction h
  case block hi         => exact legible_inner (by simp) hi
  case assignment ht hv => exact legible_inner (by simp) (by simpa using ⟨ht.legible, hv.legible⟩)
  case ifThen hc _ hi   => exact legible_inner (by simp) (by simpa using ⟨hc.legible, hi⟩)
  case whileDo hc _ hi  => exact legible_inner (by simp) (by simpa using ⟨hc.legible, hi⟩)
  case returns hv       => exact legible_inner (by simp) fun n hn => (hv n hn).legible
  case call hc          => exact hc.legible

theorem Definition.legible {params : List Node} (h : Definition k params body n) :
    ∀ c ∈ n.children, c.Every (Node.Legible k) := by
  cases h
  case intro token' hp hb =>
    have hps : ∀ p ∈ params, p.Every (Node.Legible k) := by
      intro p hm
      have ⟨hk, hc, hn⟩ := hp p hm
      obtain ⟨kind, token, children⟩ := p
      subst hk hc
      exact legible_identifier hn.solid
    have hl : Node.Every (Node.Legible k) ⟨.identifierList, token', params⟩ :=
      legible_inner (by simp) hps
    simpa using ⟨hl, hb.legible⟩

end

-- Lowering accepts the whole fragment.
section

variable {k : Nat} {calls : Bool} {n : Node} {ns : List Node}

theorem emits_all {dst : Destination} {d : Nat}
    (h : ∀ n ∈ ns, ∀ s, ∃ code s', Emits (.node n .any dst) d s code s') (s : Stage) :
    ∃ code s', Emits (.all ns dst) d s code s' := by
  induction ns generalizing s
  case nil => exact ⟨_, _, .nil⟩
  case cons n ns hi =>
    have ⟨hn, hns⟩ := List.forall_mem_cons.mp h
    have ⟨code₁, s₁, h₁⟩ := hn s
    have ⟨code₂, s₂, h₂⟩ := hi hns s₁
    exact ⟨_, _, .cons h₁ h₂⟩

theorem emits_arguments {t : Register} {d : Nat}
    (h : ∀ n ∈ ns, ∀ s, ∃ code s', Emits (.node n .value (.register t)) d s code s') (s : Stage) :
    ∃ code s', Emits (.arguments ns t) d s code s' := by
  induction ns generalizing s
  case nil => exact ⟨_, _, .noArgument⟩
  case cons n ns hi =>
    have ⟨hn, hns⟩ := List.forall_mem_cons.mp h
    have ⟨code₁, s₁, h₁⟩ := hi hns s
    have ⟨code₂, s₂, h₂⟩ := hn s₁
    exact ⟨_, _, .argument h₁ h₂⟩

theorem Expression.emits (h : Expression k calls n) (demand : Demand) (dst : Destination) (d : Nat)
    (s : Stage) :
    ∃ code s', Emits (.node n demand dst) d s code s' := by
  induction h generalizing demand dst d s
  case literal =>
    cases dst
    case discard  => exact ⟨_, _, .literalDiscarded⟩
    case register => exact ⟨_, _, .literal⟩
  case identifier => exact ⟨_, _, .identifier⟩
  case reference  => exact ⟨_, _, .reference⟩
  case binary ho _ _ hl hr =>
    have ⟨code₁, s₁, h₁⟩ := hl .any (.register (.temp d)) (d + 1) s
    have ⟨code₂, s₂, h₂⟩ := hr .any dst (d + 1) s₁
    exact ⟨_, _, .binary ho h₁ h₂⟩
  case print ht _ hi =>
    have ⟨code, s', h⟩ :=
      emits_arguments (fun n hn => hi n hn .value (.register (.temp d)) (d + 1)) s
    exact ⟨_, _, .print rfl ht h⟩
  case call ht _ _ hi =>
    have ⟨code, s', h⟩ :=
      emits_arguments (fun n hn => hi n hn .value (.register (.temp d)) (d + 1)) s
    exact ⟨_, _, .call rfl ht h⟩

theorem Statement.emits (h : Statement k n) (dst : Destination) (d : Nat) (s : Stage) :
    ∃ code s', Emits (.node n .any dst) d s code s' := by
  induction h generalizing dst d s
  case block hi =>
    have ⟨code, s', h⟩ :=
      emits_all (fun n hn => hi n hn .discard d) (s.withSymbols s.symbols.openBlock)
    exact ⟨_, _, .block h⟩
  case assignment target value he ht hv =>
    have ⟨slot, symbols, ha⟩ :
        ∃ slot symbols, assigned? target s.symbols = some (slot, symbols) := by
      cases ht <;> exact ⟨_, _, rfl⟩
    have ⟨code, s', h⟩ := hv.emits .any (.register slot) d (s.withSymbols symbols)
    exact ⟨_, _, .assignment he ha h⟩
  case ifThen ht hc _ hi =>
    have ⟨code₁, s₁, h₁⟩ := hc.emits .value (.register (.temp d)) (d + 1) s.issue
    have ⟨code₂, s₂, h₂⟩ := hi .discard (d + 1) s₁
    exact ⟨_, _, .ifThen ht h₁ h₂⟩
  case whileDo ht hc _ hi =>
    have ⟨code₁, s₁, h₁⟩ := hc.emits .value (.register (.temp d)) (d + 1) s.issue.issue
    have ⟨code₂, s₂, h₂⟩ := hi .discard (d + 1) s₁
    exact ⟨_, _, .whileDo ht h₁ h₂⟩
  case returns hv =>
    have ⟨code, s', h⟩ :=
      emits_all (fun n hn => (hv n hn).emits .any (.register (.temp d)) (d + 1)) s
    exact ⟨_, _, .returns h⟩
  case call hc => exact hc.emits ..

theorem Definition.defines {params : List Node} {body : Node} (h : Definition k params body n)
    (naming : Naming) (name : String) (l : Nat) : ∃ code l', Defines naming name n l code l' := by
  cases h
  case intro token token' hp hb =>
    have ⟨code, s', he⟩ :=
      hb.emits .discard 0 ⟨l, parameterSymbols params (Symbols.enter { naming } name)⟩
    have hd :
        Emits (.node ⟨.functionDefinition, token, [⟨.identifierList, token', params⟩, body]⟩ .value
        (.register (.named name))) 0 ⟨l, { naming }⟩ _ _ :=
          .definition rfl (fun p hm => (hp p hm).left) he
    have hs : s'.symbols.leave = { naming } := hd.keeps.eq_of_frames_nil rfl
    rw [hs] at hd
    exact ⟨_, _, rfl, hd⟩

theorem routines_exist {fs : List Node} (h : ∀ f ∈ fs, ∃ params body, Definition k params body f)
    (naming : Naming) (index l : Nat) : ∃ rs l', Routines naming index l fs rs l' := by
  induction fs generalizing index l
  case nil => exact ⟨_, _, .nil⟩
  case cons f fs hi =>
    have ⟨⟨params, body, hf⟩, hfs⟩ := List.forall_mem_cons.mp h
    have ⟨code, l₁, hd⟩ := hf.defines naming (Label.function (toString index)).name l
    have ⟨rs, l', hr⟩ := hi hfs (index + 1) l₁
    exact ⟨_, _, .cons hd hr⟩

theorem links_exist {functions : List Node} {entry body : Node} {params : List Node}
    (he : Definition k params body entry)
    (hf : ∀ f ∈ functions, ∃ params body, Definition k params body f) (naming : Naming) :
    ∃ p n, Links naming functions entry p n := by
  have ⟨code, l, hd⟩ := he.defines naming Program.entryLabel.name 0
  have ⟨rs, n, hr⟩ := routines_exist hf naming 0 l
  exact ⟨_, n, code, l, rs, hd, hr, rfl⟩

end

end Source
end LineCode

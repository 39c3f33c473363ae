import LineCode.Proofs.Scratch

namespace LineCode.Source

open Lower

-- A statement has been put into a block, at any position of any block in the tree.
inductive Inserts (e : Node) : Node → Node → Prop
  | here {token pre post} : Inserts e ⟨.block, token, pre ++ post⟩ ⟨.block, token, pre ++ e :: post⟩
  | child {kind token pre c c' post} :
    Inserts e c c' → Inserts e ⟨kind, token, pre ++ c :: post⟩ ⟨kind, token, pre ++ c' :: post⟩

-- The same in one tree out of several.
def InsertsIn (e : Node) (ns ns' : List Node) : Prop :=
  ∃ pre n n' post, ns = pre ++ n :: post ∧ ns' = pre ++ n' :: post ∧ Inserts e n n'

theorem Inserts.kind_eq {e n n' : Node} (h : Inserts e n n') : n'.kind = n.kind := by
  cases h <;> rfl

theorem Inserts.text_eq {e n n' : Node} (h : Inserts e n n') : n'.text = n.text := by
  cases h <;> rfl

namespace InsertsIn

variable {e n n' : Node} {ns ns' : List Node}

theorem cons_inv (h : InsertsIn e (n :: ns) (n' :: ns')) :
    Inserts e n n' ∧ ns' = ns ∨ n' = n ∧ InsertsIn e ns ns' := by
  obtain ⟨pre, m, m', post, h₁, h₂, hi⟩ := h
  cases pre
  case nil =>
    obtain ⟨rfl, rfl⟩ := List.cons.inj h₁
    obtain ⟨rfl, rfl⟩ := List.cons.inj h₂
    exact .inl ⟨hi, rfl⟩
  case cons k pre =>
    obtain ⟨rfl, rfl⟩ := List.cons.inj h₁
    obtain ⟨rfl, rfl⟩ := List.cons.inj h₂
    exact .inr ⟨rfl, pre, m, m', post, rfl, rfl, hi⟩

theorem eq_cons (h : InsertsIn e (n :: ns) ns') : ∃ m ms, ns' = m :: ms := by
  obtain ⟨pre, m, m', post, -, rfl, -⟩ := h
  exact List.exists_cons_of_ne_nil (by simp)

theorem length_eq (h : InsertsIn e ns ns') : ns'.length = ns.length := by
  obtain ⟨pre, n, n', post, rfl, rfl, -⟩ := h
  simp

theorem head_text (h : InsertsIn e ns ns') : ns'.head?.map Node.text = ns.head?.map Node.text := by
  obtain ⟨pre, n, n', post, rfl, rfl, hi⟩ := h
  cases pre
  case nil  => simp [hi.text_eq]
  case cons => rfl

-- Parameters are known by their names alone.
theorem parameters_eq (h : InsertsIn e ns ns') (symbols : Symbols) :
    parameterSymbols ns' symbols = parameterSymbols ns symbols ∧
      parameterSlots ns' symbols = parameterSlots ns symbols ∧
      ((∀ p ∈ ns, p.kind = .identifier) → ∀ p ∈ ns', p.kind = .identifier) := by
  obtain ⟨pre, n, n', post, rfl, rfl, hi⟩ := h
  induction pre generalizing symbols
  case nil => simp [parameterSymbols, parameterSlots, hi.text_eq, hi.kind_eq]
  case cons p pre hp =>
    obtain ⟨h₁, h₂, h₃⟩ := hp (symbols.declareParameter p.text).snd
    refine ⟨h₁, congrArg _ h₂, fun h => ?_⟩
    obtain ⟨hk, h⟩ := List.forall_mem_cons.mp h
    exact List.forall_mem_cons.mpr ⟨hk, h₃ h⟩

end InsertsIn

theorem forall_mem_insert {P : Node → Prop} {n : Node} {pre post : List Node}
    (h : ∀ c ∈ pre ++ post, P c) (hn : P n) :
    ∀ c ∈ pre ++ n :: post, P c := by
  intro c hc
  rcases List.mem_cons.mp (List.perm_middle.mem_iff.mp hc) with rfl | hc
  · exact hn
  · exact h c hc

theorem forall_mem_replace {P : Node → Prop} {n n' : Node} {pre post : List Node}
    (h : ∀ c ∈ pre ++ n :: post, P c) (hn : P n → P n') : ∀ c ∈ pre ++ n' :: post, P c := by
  refine forall_mem_insert (fun c hc => h c ?_) (hn (h n (by simp)))
  exact List.perm_middle.mem_iff.mpr (List.mem_cons_of_mem n hc)

namespace Inserts

variable {e n n' a b : Node} {kind : Node.Kind} {token : Token} {children rest : List Node}

-- Everywhere but in a block, one child has been changed.
theorem inv (h : Inserts e ⟨kind, token, children⟩ n') (hk : kind ≠ .block) :
    ∃ children', n' = ⟨kind, token, children'⟩ ∧ InsertsIn e children children' := by
  generalize hn : (⟨kind, token, children⟩ : Node) = n at h
  cases h <;> cases hn
  case here     => contradiction
  case child hi => exact ⟨_, rfl, _, _, _, _, rfl, rfl, hi⟩

theorem block_inv (h : Inserts e ⟨.block, token, children⟩ n') :
    (∃ pre post, children = pre ++ post ∧ n' = ⟨.block, token, pre ++ e :: post⟩) ∨
      ∃ children', n' = ⟨.block, token, children'⟩ ∧ InsertsIn e children children' := by
  generalize hn : (⟨.block, token, children⟩ : Node) = n at h
  cases h <;> cases hn
  case here     => exact .inl ⟨_, _, rfl, rfl⟩
  case child hi => exact .inr ⟨_, rfl, _, _, _, _, rfl, rfl, hi⟩

-- Nodes with two children or more.
theorem pair_inv (h : Inserts e ⟨kind, token, a :: b :: rest⟩ n') (hk : kind ≠ .block) :
    (∃ a', n' = ⟨kind, token, a' :: b :: rest⟩ ∧ Inserts e a a') ∨
      (∃ b', n' = ⟨kind, token, a :: b' :: rest⟩ ∧ Inserts e b b') ∨
      ∃ rest', n' = ⟨kind, token, a :: b :: rest'⟩ := by
  obtain ⟨children, rfl, hc⟩ := h.inv hk
  obtain ⟨a', tail, rfl⟩ := hc.eq_cons
  obtain ⟨ha, rfl⟩ | ⟨rfl, ht⟩ := hc.cons_inv
  · exact .inl ⟨a', rfl, ha⟩
  obtain ⟨b', rest', rfl⟩ := ht.eq_cons
  obtain ⟨hb, rfl⟩ | ⟨rfl, -⟩ := ht.cons_inv
  · exact .inr <| .inl ⟨b', rfl, hb⟩
  · exact .inr <| .inr ⟨rest', rfl⟩

theorem assigned?_eq (h : Inserts e n n') (symbols : Symbols) :
    assigned? n' symbols = assigned? n symbols := by
  obtain ⟨kind, token, children⟩ := n
  by_cases hk : kind = .letBinding
  case neg =>
    have hk' : n'.kind ≠ .letBinding := h.kind_eq ▸ hk
    unfold assigned?
    rw [h.kind_eq, h.text_eq]
    cases kind <;> first | rfl | contradiction
  case pos =>
    subst hk
    obtain ⟨children', rfl, hc⟩ := h.inv (by simp)
    have hh := congrArg (Option.map symbols.declare) hc.head_text
    rw [Option.map_map, Option.map_map] at hh
    exact hh

theorem every (h : Inserts e n n') (he : e.Every Fit) (hn : n.Every Fit) : n'.Every Fit := by
  induction h
  case here =>
    exact .intro ⟨⟨nofun, nofun, nofun, nofun⟩, nofun⟩ <| forall_mem_insert (fun _ => hn.child) he
  case child pre c c' post hi hc =>
    have hs := hn.self
    refine .intro ⟨⟨hs.name, fun hk => ?_, hs.literal, hs.reference⟩, hs.noDefinition⟩ ?_
    · have hb := hs.binding hk
      cases pre
      case nil  => simpa [hi.text_eq] using hb
      case cons => simpa using hb
    · exact forall_mem_replace (fun _ => hn.child) hc

theorem every_child (h : Inserts e n n') (he : e.Every Fit) (hn : ∀ c ∈ n.children, c.Every Fit) :
    ∀ c ∈ n'.children, c.Every Fit := by
  cases h
  case here     => exact forall_mem_insert hn he
  case child hi => exact forall_mem_replace hn (hi.every he)

end Inserts

theorem InsertsIn.fit {e : Node} {fs fs' : List Node} (h : InsertsIn e fs fs') (he : e.Every Fit)
    (hf : ∀ f ∈ fs, ∀ c ∈ f.children, c.Every Fit) : ∀ f ∈ fs', ∀ c ∈ f.children, c.Every Fit := by
  obtain ⟨pre, f, f', post, rfl, rfl, hi⟩ := h
  exact forall_mem_replace hf (hi.every_child he)

-- Expressions without calls and references.
inductive Pure : Node → Prop
  | literal {token v} : Machine.literal? token.text.toList = some v →
    Pure ⟨.numericLiteral, token, []⟩
  | identifier {token} : Name token.text → Pure ⟨.identifier, token, []⟩
  | binary {token op lhs rhs} :
    Operator.ofSymbol? token.text = some op → Pure lhs → Pure rhs →
      Pure ⟨.infixOperator, token, [lhs, rhs]⟩

namespace Pure

variable {e : Node}

theorem every (h : Pure e) : e.Every Fit := by
  induction h
  case literal hl =>
    exact .intro ⟨⟨nofun, nofun, fun _ => Option.isSome_iff_exists.mpr ⟨_, hl⟩, nofun⟩, nofun⟩ nofun
  case identifier hx   => exact .intro ⟨⟨fun _ => hx, nofun, nofun, nofun⟩, nofun⟩ nofun
  case binary hl hr =>
    exact .intro ⟨⟨nofun, nofun, nofun, nofun⟩, nofun⟩ (by simpa using ⟨hl, hr⟩)

-- They can be lowered anywhere, and leave no trace in the symbols.
theorem emits (h : Pure e) (demand : Demand) (dst : Destination) (d : Nat) {s : Stage}
    (hv : s.symbols.naming = .verbatim) : ∃ code, Emits (.node e demand dst) d s code s := by
  induction h generalizing demand dst d
  case literal =>
    cases dst
    case discard  => exact ⟨_, .literalDiscarded⟩
    case register => exact ⟨_, .literal⟩
  case identifier token _ =>
    have hi : Emits (.node ⟨.identifier, token, []⟩ demand dst) d s _ _ := .identifier
    rw [Symbols.resolve_verbatim hv] at hi
    exact ⟨_, hi⟩
  case binary ho _ _ hl hr =>
    obtain ⟨code₁, h₁⟩ := hl .any (.register (.temp d)) (d + 1)
    obtain ⟨code₂, h₂⟩ := hr .any dst (d + 1)
    exact ⟨_, .binary ho h₁ h₂⟩

end Pure

-- The code of a discarded statement, or none if the statement is not lowered.
def Dropped (e : Node) (code : List Instruction) : Prop :=
  code = [] ∨ ∃ d s s', s.symbols.naming = .verbatim ∧ Emits (.node e .any .discard) d s code s'

-- The code of a statement fits into some code, and what comes behind it takes no notice of the
-- temporaries.
def Splices (e : Node) (code : List Instruction) (P : List Instruction → Prop) : Prop :=
  ∃ before inserted after,
    code = before ++ after ∧ P (before ++ inserted ++ after) ∧ Dropped e inserted ∧ Clean after

namespace Splices

variable {e : Node} {code : List Instruction} {P Q : List Instruction → Prop}

theorem same (h : P code) : Splices e code P :=
  ⟨code, [], [], by simp, by simpa using h, .inl rfl, .nil⟩

theorem wrap (h : Splices e code P) (pre : List Instruction) {post : List Instruction}
    (hc : Clean post) (hp : ∀ code', P code' → Q (pre ++ code' ++ post)) :
    Splices e (pre ++ code ++ post) Q := by
  obtain ⟨before, inserted, after, rfl, h, hd, ha⟩ := h
  refine ⟨pre ++ before, inserted, after ++ post, by simp, ?_, hd, ha.append hc⟩
  simpa using hp _ h

theorem prepend (h : Splices e code P) (pre : List Instruction)
    (hp : ∀ code', P code' → Q (pre ++ code')) :
    Splices e (pre ++ code) Q := by
  obtain ⟨before, inserted, after, rfl, h, hd, ha⟩ := h
  exact ⟨pre ++ before, inserted, after, by simp, by simpa using hp _ h, hd, ha⟩

theorem mono (h : Splices e code P) (hp : ∀ code', P code' → Q code') : Splices e code Q := by
  obtain ⟨before, inserted, after, hc, h, hd, ha⟩ := h
  exact ⟨before, inserted, after, hc, hp _ h, hd, ha⟩

end Splices

section

variable {e n n' : Node} {ns ns' : List Node} {b : Bool} {demand : Demand} {dst : Destination}
  {d : Nat} {s s' : Stage} {code : List Instruction}

theorem emits_arguments_of_inserts {t : Register} (hi : InsertsIn e ns ns')
    (hn : ∀ n ∈ ns, ∀ {n' s code s'}, Inserts e n n' →
      Emits (.node n .value (.register t)) d s code s' →
      Emits (.node n' .value (.register t)) d s code s') (h : Emits (.arguments ns t) d s code s') :
    Emits (.arguments ns' t) d s code s' := by
  obtain ⟨pre, n, n', post, rfl, rfl, hi⟩ := hi
  induction pre generalizing s' code
  case nil =>
    cases h
    case argument h₁ h₂ => exact .argument h₁ (hn n (by simp) hi h₂)
  case cons m pre hp =>
    cases h
    case argument h₁ h₂ => exact .argument (hp (fun n hm => hn n (by simp_all)) h₁) h₂

theorem emits_call_of_inserts {token token' : Token} {target : Node} {rest : List Node}
    (hi : Inserts e ⟨.call, token, target :: ⟨.expressionList, token', ns⟩ :: rest⟩ n')
    (hn : ∀ n ∈ ns, ∀ {n' t s code s'}, Inserts e n n' →
      Emits (.node n .value (.register t)) (d + 1) s code s' →
      Emits (.node n' .value (.register t)) (d + 1) s code s')
    (h : Emits (.node ⟨.call, token, target :: ⟨.expressionList, token', ns⟩ :: rest⟩ demand dst) d
      s code s') :
    Emits (.node n' demand dst) d s code s' := by
  obtain ⟨target', rfl, ht⟩ | ⟨list, rfl, hl⟩ | ⟨rest', rfl⟩ := hi.pair_inv (by simp)
  · cases h
    case print hk hp h => exact .print (ht.kind_eq.trans hk) (ht.text_eq.trans hp) h
    case call hk hp h =>
      rw [← ht.text_eq] at hp ⊢
      exact .call (ht.kind_eq.trans hk) hp h
  · obtain ⟨ns', rfl, hs⟩ := hl.inv (by simp)
    have hc : ns'.length = ns.length := hs.length_eq
    cases h
    case print hk hp h =>
      rw [← hc]
      exact .print hk hp (emits_arguments_of_inserts hs (fun n hm => hn n hm) h)
    case call hk hp h => exact .call hk hp (emits_arguments_of_inserts hs (fun n hm => hn n hm) h)
  · cases h
    case print hk hp h => exact .print hk hp h
    case call hk hp h  => exact .call hk hp h

-- There is no block in an expression, apart from what is not lowered.
theorem Valued.emits_of_inserts (hx : Valued n) (hi : Inserts e n n')
    (h : Emits (.node n demand dst) d s code s') :
    Emits (.node n' demand dst) d s code s' := by
  induction hx generalizing n' demand dst d s code s'
  case literal =>
    obtain ⟨children, rfl, -⟩ := hi.inv (by simp)
    cases h
    case literal          => exact .literal
    case literalDiscarded => exact .literalDiscarded
  case identifier =>
    obtain ⟨children, rfl, -⟩ := hi.inv (by simp)
    cases h
    exact .identifier
  case reference =>
    obtain ⟨children, rfl, -⟩ := hi.inv (by simp)
    cases h
    exact .reference
  case binary ho _ _ hl hr =>
    cases h
    case assignment ht _ _ => exact absurd ht (Operator.ne_assign ho)
    case binary ho h₁ h₂ =>
      obtain ⟨lhs', rfl, hi'⟩ | ⟨rhs', rfl, hi'⟩ | ⟨rest', rfl⟩ := hi.pair_inv (by simp)
      · exact .binary ho (hl hi' h₁) h₂
      · exact .binary ho h₁ (hr hi' h₂)
      · exact .binary ho h₁ h₂
  case call hn => exact emits_call_of_inserts hi (fun n hm => hn n hm) h

-- A statement is put between others.
theorem splices_here {pre post : List Node} (he : Pure e)
    (h : Emits (.all (pre ++ post) .discard) d s code s') (hv : s.symbols.naming = .verbatim)
    (hc : ∀ {s code}, s.symbols.naming = .verbatim → Emits (.all post .discard) d s code s' →
      Clean code) :
    Splices e code fun code' => Emits (.all (pre ++ e :: post) .discard) d s code' s' := by
  obtain ⟨code₁, s₁, code₂, h₁, h₂, rfl⟩ := emits_all_append.mp h
  have hv₁ : s₁.symbols.naming = .verbatim := h₁.keeps.naming.trans hv
  obtain ⟨inserted, h'⟩ := he.emits .any .discard d hv₁
  refine ⟨code₁, inserted, code₂, rfl, ?_, .inr ⟨d, s₁, s₁, hv₁, h'⟩, hc hv₁ h₂⟩
  exact emits_all_middle.mpr ⟨_, _, _, _, _, h₁, h', h₂, rfl⟩

-- It is put into one of them.
theorem splices_child {pre post : List Node} {tail : List Instruction} {P : List Instruction → Prop}
    (h : Emits (.all (pre ++ n :: post) dst) d s code s') (hv : s.symbols.naming = .verbatim)
    (hn : ∀ {s code s'}, Emits (.node n .any dst) d s code s' → s.symbols.naming = .verbatim →
      Splices e code fun code' => Emits (.node n' .any dst) d s code' s')
    (hc : ∀ {s code}, s.symbols.naming = .verbatim → Emits (.all post dst) d s code s' →
      Clean (code ++ tail))
    (hp : ∀ {code'}, Emits (.all (pre ++ n' :: post) dst) d s code' s' → P (code' ++ tail)) :
    Splices e (code ++ tail) P := by
  obtain ⟨code₁, s₁, code₂, s₂, code₃, h₁, h₂, h₃, rfl⟩ := emits_all_middle.mp h
  have hv₁ : s₁.symbols.naming = .verbatim := h₁.keeps.naming.trans hv
  have hv₂ : s₂.symbols.naming = .verbatim := h₂.keeps.naming.trans hv₁
  rw [List.append_assoc _ code₃]
  refine (hn h₂ hv₁).wrap code₁ (hc hv₂ h₃) fun code' h' => ?_
  rw [← List.append_assoc]
  exact hp (emits_all_middle.mpr ⟨_, _, _, _, _, h₁, h', h₃, rfl⟩)

-- The code of a statement, in whose blocks another one has been put.
theorem Tidy.splices (ht : Tidy b n) (he : Pure e) (hi : Inserts e n n') (hn : n.Every Fit)
    (h : Emits (.node n demand dst) d s code s') (hd : dst.isDiscard = b)
    (hv : s.symbols.naming = .verbatim) :
    Splices e code fun code' => Emits (.node n' demand dst) d s code' s' := by
  induction ht generalizing n' demand dst d s code s'
  case value hx       => exact .same (hx.emits_of_inserts hi h)
  case discarded hx _ => exact .same (hx.emits_of_inserts hi h)
  case assignment hq _ hs =>
    cases h
    case binary ho _ _ => exact absurd hq (Operator.ne_assign ho)
    case assignment ha h =>
      obtain ⟨target', rfl, hi'⟩ | ⟨value', rfl, hi'⟩ | ⟨rest', rfl⟩ := hi.pair_inv (by simp)
      · exact .same <| .assignment hq ((hi'.assigned?_eq _).trans ha) h
      · exact (hs hi' hn.second h rfl ((assigned?_keeps ha).naming.trans hv)).mono fun _ =>
          .assignment hq ha
      · exact .same <| .assignment hq ha h
  case block ns hb hs =>
    cases h
    case block h =>
      have hv : s.symbols.openBlock.naming = .verbatim :=
        (Symbols.Keeps.modifyFrame _ _).naming.trans hv
      have hc {post : List Node} (hp : post ⊆ ns) {s code s'} (hv : s.symbols.naming = .verbatim)
          (h : Emits (.all post .discard) d s code s') : Clean code :=
        clean_statements (fun n hm => hb n (hp hm)) (fun n hm => hn.child (hp hm)) h rfl hv
      obtain ⟨pre, post, rfl, rfl⟩ | ⟨ns', rfl, pre, c, c', post, rfl, rfl, hi'⟩ := hi.block_inv
      · exact (splices_here he h hv (hc (by simp))).mono fun _ => .block
      · rw [← List.append_nil code]
        refine splices_child h hv (hs c (by simp) hi' (hn.child (by simp)) · rfl ·) (fun hv h => ?_)
          fun h' => ?_
        · rw [List.append_nil]
          exact hc (fun n hm => by simp [hm]) hv h
        · rw [List.append_nil]
          exact .block h'
  case returns n hl hx hb hs =>
    cases h
    case returns h =>
      obtain ⟨ns', rfl, pre, c, c', post, rfl, rfl, hi'⟩ := hi.inv (by simp)
      -- Behind the last value nothing is written before it is pushed; but then it is an expression.
      by_cases hp : post = []
      case pos =>
        subst hp
        obtain rfl : c = n := by simpa using hl
        obtain ⟨code₁, s₁, code₂, s₂, code₃, h₁, h₂, h₃, rfl⟩ := emits_all_middle.mp h
        exact .same <| .returns <|
          emits_all_middle.mpr ⟨_, _, _, _, _, h₁, hx.emits_of_inserts hi' h₂, h₃, rfl⟩
      case neg =>
        have hl : post.getLast? = some n := by
          rwa [List.append_cons, List.getLast?_append_of_ne_nil _ hp] at hl
        refine splices_child h hv (hs c (by simp) hi' (hn.child (by simp)) · rfl ·)
          (fun hv h => ?_) .returns
        refine clean_returned hl hx (hn.child (by simp [List.mem_of_getLast? hl]))
          (fun n hm => ?_) h hv
        exact fun h hv => (hb n (by simp [hm])).clean (hn.child (by simp [hm])) h rfl hv
  case branch hx hb hs =>
    cases h
    case ifThen hk h₁ h₂ =>
      obtain ⟨condition', rfl, hi'⟩ | ⟨body', rfl, hi'⟩ | ⟨rest', rfl⟩ := hi.pair_inv (by simp)
      · exact .same <| .ifThen hk (hx.emits_of_inserts hi' h₁) h₂
      · refine (hs hi' hn.second h₂ rfl (h₁.keeps.naming.trans hv)).wrap _ ?_ fun _ => .ifThen hk h₁
        exact .of_reads (by simp [Instruction.reads])
      · exact .same <| .ifThen hk h₁ h₂
    case whileDo hk h₁ h₂ =>
      obtain ⟨condition', rfl, hi'⟩ | ⟨body', rfl, hi'⟩ | ⟨rest', rfl⟩ := hi.pair_inv (by simp)
      · exact .same <| .whileDo hk (hx.emits_of_inserts hi' h₁) h₂
      · refine (hs hi' hn.second h₂ rfl (h₁.keeps.naming.trans hv)).wrap _ ?_ fun _ =>
          .whileDo hk h₁
        exact .of_reads (by simp [Instruction.reads])
      · exact .same <| .whileDo hk h₁ h₂

end

-- The bodies of some definitions are tidy, and their names and literals are as they should be.
structure Orderly (f : Node) : Prop where
  fit  : ∀ c ∈ f.children, c.Every Fit
  tidy : ∀ body ∈ f.children[1]?, Tidy true body

section

variable {e f f' : Node} {fs fs' : List Node} {name : String} {index l l' : Nat} {rs : List Routine}
  {code : List Instruction}

theorem Orderly.clean_definition (ho : Orderly f) (h : Defines .verbatim name f l code l') :
    ∃ tail, code = .label ⟨name⟩ :: tail ∧ Clean tail := by
  obtain ⟨token, params, body, rest, tail, symbols, rfl, hk, hp, hb, rfl⟩ := h.inv
  have hv :=
    (parameterSymbols_keeps params.children (Symbols.enter { naming := .verbatim } name)).naming
  refine ⟨_, rfl, .append (.of_reads (by simp [Instruction.reads])) ?_⟩
  exact (ho.tidy body rfl).clean (ho.fit body (by simp)) hb rfl hv

theorem defines_intro {token : Token} {params body : Node} {rest : List Node} {symbols : Symbols}
    (hk : params.kind = .identifierList) (hp : ∀ p ∈ params.children, p.kind = .identifier)
    (hb : Emits (.node body .any .discard) 0
      ⟨l, parameterSymbols params.children (Symbols.enter { naming := .verbatim } name)⟩ code
        ⟨l', symbols⟩) :
    Defines .verbatim name ⟨.functionDefinition, token, params :: body :: rest⟩ l
      (.label ⟨name⟩ ::
        ((parameterSlots params.children (Symbols.enter { naming := .verbatim } name)).map .pop ++
          code)) l' := by
  have hs : symbols.leave = { naming := .verbatim } :=
    ((parameterSymbols_keeps ..).trans hb.keeps).leave_eq
  have hd : Emits (.node ⟨.functionDefinition, token, params :: body :: rest⟩ .value
      (.register (.named name))) 0 ⟨l, { naming := .verbatim }⟩ _
      (Stage.withSymbols ⟨l', symbols⟩ symbols.leave) :=
    .definition hk hp hb
  rw [hs] at hd
  exact ⟨rfl, hd⟩

theorem Orderly.splices_definition (ho : Orderly f) (he : Pure e) (hi : Inserts e f f')
    (h : Defines .verbatim name f l code l') : ∃ tail, code = .label ⟨name⟩ :: tail ∧
      Splices e tail fun tail' => Defines .verbatim name f' l (.label ⟨name⟩ :: tail') l' := by
  obtain ⟨token, params, body, rest, tail, symbols, rfl, hk, hp, hb, rfl⟩ := h.inv
  have hv :=
    (parameterSymbols_keeps params.children (Symbols.enter { naming := .verbatim } name)).naming
  refine ⟨_, rfl, ?_⟩
  obtain ⟨params', rfl, hi'⟩ | ⟨body', rfl, hi'⟩ | ⟨rest', rfl⟩ := hi.pair_inv (by simp)
  · obtain ⟨kind, token', ps⟩ := params
    obtain ⟨ps', rfl, hps⟩ := hi'.inv (by rintro rfl; cases hk)
    obtain ⟨h₁, h₂, h₃⟩ := hps.parameters_eq (Symbols.enter { naming := .verbatim } name)
    rw [← h₁] at hb
    rw [← h₂]
    exact .same <| defines_intro hk (h₃ hp) hb
  · have hs := (ho.tidy body rfl).splices he hi' (ho.fit body (by simp)) hb rfl hv
    exact hs.prepend _ fun _ => defines_intro hk hp
  · exact .same <| defines_intro hk hp hb

-- The code of functions, one behind the other.
def joined (rs : List Routine) : List Instruction := rs.flatMap (·.code ++ [.separator])

theorem joined_cons (r : Routine) (rs : List Routine) :
    joined (r :: rs) = r.code ++ .separator :: joined rs := by
  simp [joined]

theorem clean_routines (ho : ∀ f ∈ fs, Orderly f) (h : Routines .verbatim index l fs rs l') :
    Clean (joined rs) := by
  induction h
  case nil => exact .nil
  case cons hd _ hi =>
    have ⟨hf, hfs⟩ := List.forall_mem_cons.mp ho
    obtain ⟨tail, rfl, hc⟩ := hf.clean_definition hd
    rw [joined_cons]
    exact (hc.append ((hi hfs).cons rfl)).cons rfl

theorem splices_routines (ho : ∀ f ∈ fs, Orderly f) (he : Pure e) (hi : InsertsIn e fs fs')
    (h : Routines .verbatim index l fs rs l') :
    Splices e (joined rs) fun code => ∃ rs', Routines .verbatim index l fs' rs' l' ∧
      joined rs' = code := by
  induction h generalizing fs'
  case nil =>
    obtain ⟨pre, _, _, _, hf, -⟩ := hi
    simp at hf
  case cons hd hr hs =>
    have ⟨hf, hfs⟩ := List.forall_mem_cons.mp ho
    obtain ⟨f', gs, rfl⟩ := hi.eq_cons
    rw [joined_cons]
    obtain ⟨hi', rfl⟩ | ⟨rfl, hi'⟩ := hi.cons_inv
    · obtain ⟨tail, rfl, ht⟩ := hf.splices_definition he hi' hd
      have hc := clean_routines hfs hr
      refine ht.wrap [.label _] (hc.cons rfl) fun tail' hd' => ⟨_, .cons hd' hr, ?_⟩
      rw [joined_cons]
      rfl
    · rw [List.append_cons]
      refine (hs hfs hi').prepend _ ?_
      rintro code ⟨rs', hr', rfl⟩
      refine ⟨_, .cons hd hr', ?_⟩
      rw [joined_cons, List.append_cons]

variable {functions functions' : List Node} {entry entry' : Node} {p : Program} {k : Nat}

theorem instructions_link (code : List Instruction) (rs : List Routine) :
    (Program.link (.label Program.entryLabel :: code) rs).instructions
      = .blank :: (code ++ .halt :: .separator :: joined rs) := by
  simp [Program.instructions, Program.link, Program.blankEntry, joined]

-- A program begins with a blank line, and looks at no temporary that is left over.
theorem settled_program (ho : ∀ f ∈ entry :: functions, Orderly f)
    (h : Links .verbatim functions entry p k) :
    ∃ code, p.instructions = .blank :: code ∧ Settled p.instructions := by
  have ⟨hf, hfs⟩ := List.forall_mem_cons.mp ho
  obtain ⟨code, l, rs, hd, hr, rfl⟩ := h
  obtain ⟨tail, rfl, hc⟩ := hf.clean_definition hd
  have hr := clean_routines hfs hr
  have hp : Clean (.blank :: (tail ++ .halt :: .separator :: joined rs)) :=
    (hc.append ((hr.cons rfl).cons rfl)).cons rfl
  rw [instructions_link]
  exact ⟨_, rfl, hp.settled⟩

-- The code of the program grows by the code of the statement at one place.
theorem splices_program (ho : ∀ f ∈ entry :: functions, Orderly f) (he : Pure e)
    (hi : InsertsIn e (entry :: functions) (entry' :: functions'))
    (h : Links .verbatim functions entry p k) :
    Splices e p.instructions fun code => ∃ p', Links .verbatim functions' entry' p' k ∧
      p'.instructions = code := by
  have ⟨hf, hfs⟩ := List.forall_mem_cons.mp ho
  obtain ⟨code, l, rs, hd, hr, rfl⟩ := h
  obtain ⟨hi', rfl⟩ | ⟨rfl, hi'⟩ := hi.cons_inv
  · obtain ⟨tail, rfl, ht⟩ := hf.splices_definition he hi' hd
    have hc : Clean (.halt :: .separator :: joined rs) :=
      ((clean_routines hfs hr).cons rfl).cons rfl
    rw [instructions_link]
    refine ht.wrap [.blank] hc fun tail' hd' => ⟨_, ⟨_, _, _, hd', hr, rfl⟩, ?_⟩
    exact instructions_link tail' rs
  · obtain ⟨tail, rfl, -⟩ := hf.clean_definition hd
    have hl (rs) : (Program.link (.label Program.entryLabel :: tail) rs).instructions
        = .blank :: (tail ++ [.halt, .separator]) ++ joined rs := by
      simp [instructions_link]
    rw [hl]
    refine (splices_routines hfs he hi' hr).prepend _ ?_
    rintro _ ⟨rs', hr', rfl⟩
    exact ⟨_, ⟨_, _, _, hd, hr', rfl⟩, hl rs'⟩

end

end LineCode.Source

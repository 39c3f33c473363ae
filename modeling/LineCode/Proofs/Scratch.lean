import LineCode.Proofs.Fragment
import LineCode.Proofs.Structure

namespace LineCode

-- The operators that have a value for all operands.
def Operator.IsComparison : Operator → Prop
  | equal | notEqual | less | greater => True
  | add | sub | mul | div             => False

instance : DecidablePred Operator.IsComparison
  | .equal | .notEqual | .less | .greater => .isTrue trivial
  | .add | .sub | .mul | .div             => .isFalse id

theorem Machine.eval_comparison {op : Operator} (h : op.IsComparison) (a b : Int) :
    ∃ v, eval op a b = .ok v := by
  cases op
  case add | sub | mul | div => exact h.elim
  all_goals exact ⟨_, rfl⟩

namespace Instruction

-- The registers that an instruction looks at.
def reads : Instruction → List Register
  | move src _ | not src _ | push src | out src => [src]
  | binary _ lhs rhs _                          => [lhs, rhs]
  | jumpIf _ condition                          => [condition]
  | callValue callee                            => [callee]
  | _                                           => []

-- A comparison that is discarded goes well whatever it looks at.
def Indifferent : Instruction → Prop
  | binary op _ _ dst => op.IsComparison ∧ dst = .sink
  | _                 => False

instance : DecidablePred Indifferent
  | binary op _ _ dst => inferInstanceAs (Decidable (op.IsComparison ∧ dst = .sink))
  | label _ | blank | load _ _ | loadAddress _ _ | move _ _ | not _ _ | jump _ | jumpIf _ _ | push _
  | pop _ | callValue _ | ret | out _ | halt | separator => .isFalse id

end Instruction

-- The code looks at a register before it writes it. What a discarded comparison looks at does not
-- count, unless its result is looked at in turn.
def Awaits : List Instruction → String → Prop
  | [], _           => False
  | i :: code, name =>
    (∃ r ∈ i.reads, r.name = name ∧ (i.Indifferent → Awaits code Register.sink.name)) ∨
      (∀ r ∈ i.written?, r.name ≠ name) ∧ Awaits code name

namespace Awaits

instance decidable : (code : List Instruction) → (name : String) → Decidable (Awaits code name)
  | [], _           => .isFalse id
  | i :: code, name =>
    have := decidable code Register.sink.name
    have := decidable code name
    inferInstanceAs (Decidable ((∃ r ∈ i.reads, r.name = name ∧
      (i.Indifferent → Awaits code Register.sink.name)) ∨
        (∀ r ∈ i.written?, r.name ≠ name) ∧ Awaits code name))

variable {i : Instruction} {code code₁ code₂ : List Instruction} {name : String}

theorem of_cons {r : Register} (h : Awaits (i :: code) name) (hr : i.reads = [r]) :
    name = r.name ∨ (∀ r ∈ i.written?, r.name ≠ name) ∧ Awaits code name := by
  rcases h with ⟨q, hq, rfl, -⟩ | h
  · obtain rfl : q = r := by simpa [hr] using hq
    exact .inl rfl
  · exact .inr h

theorem append_left (h : Awaits code₁ name) : Awaits (code₁ ++ code₂) name := by
  induction code₁ generalizing name
  case nil => contradiction
  case cons i code hi =>
    rcases h with ⟨r, hr, hn, hs⟩ | ⟨hw, h⟩
    · exact .inl ⟨r, hr, hn, fun hd => hi (hs hd)⟩
    · exact .inr ⟨hw, hi h⟩

end Awaits

namespace Source

open Lower

-- On the way to a label anything may have happened to the temporaries and to the sink, and during a
-- call anything may have happened to the sink. The code that follows does not look at them.
def Guarded : List Instruction → Prop
  | []                   => True
  | .label _ :: code     => (∀ y, Awaits code y → Name y) ∧ Guarded code
  | .callValue _ :: code => ¬Awaits code Register.sink.name ∧ Guarded code
  | _ :: code            => Guarded code

-- All that the code looks at are variables, and what it has written itself.
structure Settled (code : List Instruction) : Prop where
  vars    : ∀ y, Awaits code y → Name y
  guarded : Guarded code

-- Code that can be put in front of such code.
def Clean (code : List Instruction) : Prop := ∀ rest, Settled rest → Settled (code ++ rest)

theorem not_name_sink : ¬Name Register.sink.name :=
  fun h => h.ne_sink rfl

section

variable {i : Instruction} {code code₁ code₂ rest : List Instruction}

theorem Guarded.tail (h : Guarded (i :: code)) : Guarded code := by
  cases i
  case label | callValue => exact h.right
  all_goals exact h

theorem Guarded.drop (h : Guarded code) (k : Nat) : Guarded (code.drop k) := by
  induction k generalizing code
  case zero => exact h
  case succ k hi =>
    cases code
    case nil  => exact h
    case cons => exact hi h.tail

theorem Guarded.at_label {k : Nat} {l : Label} {y : String} (h : Guarded code)
    (hk : code[k]? = some (.label l)) (hy : Awaits (code.drop k) y) : Name y := by
  have hd : code.drop k = .label l :: code.drop (k + 1) := by
    rw [List.drop_eq_getElem?_toList_append, hk]
    rfl
  have hg := h.drop k
  rw [hd] at hg hy
  rcases hy with ⟨r, hr, -⟩ | ⟨-, hy⟩
  · contradiction
  · exact hg.left y hy

-- What is awaited is awaited in the first part already, if the second one looks at variables only.
theorem Settled.awaits_append {y : String} (hs : Settled code₂) (h : Awaits (code₁ ++ code₂) y) :
    Name y ∨ Awaits code₁ y := by
  induction code₁ generalizing y
  case nil => exact .inl (hs.vars y h)
  case cons i code hi =>
    rcases h with ⟨r, hr, hn, h⟩ | ⟨hw, h⟩
    · exact .inr <| .inl ⟨r, hr, hn, fun hd => (hi (h hd)).resolve_left not_name_sink⟩
    · exact (hi h).imp_right fun h => .inr ⟨hw, h⟩

-- An instruction that does not look at temporaries.
theorem Settled.cons (h : Settled code) (hr : ∀ r ∈ i.reads, Name r.name) :
    Settled (i :: code) where
  vars y hy := by
    rcases hy with ⟨r, hm, rfl, -⟩ | ⟨-, hy⟩
    · exact hr r hm
    · exact h.vars y hy
  guarded := by
    cases i
    case label     => exact ⟨h.vars, h.guarded⟩
    case callValue => exact ⟨fun hs => not_name_sink (h.vars _ hs), h.guarded⟩
    all_goals exact h.guarded

namespace Clean

theorem nil : Clean [] :=
  fun _ => id

theorem append (h₁ : Clean code₁) (h₂ : Clean code₂) : Clean (code₁ ++ code₂) := by
  intro rest h
  rw [List.append_assoc]
  exact h₁ _ (h₂ rest h)

theorem cons (h : Clean code) (hi : i.reads = []) : Clean (i :: code) :=
  fun rest hs => (h rest hs).cons (by simp [hi])

theorem of_reads (h : ∀ i ∈ code, i.reads = []) : Clean code := by
  induction code
  case nil => exact nil
  case cons i code hi =>
    obtain ⟨hr, hc⟩ := List.forall_mem_cons.mp h
    exact (hi hc).cons hr

theorem settled (h : Clean code) : Settled code := by
  have hn : Settled [] := ⟨fun _ hy => hy.elim, trivial⟩
  simpa using h [] hn

end Clean

end

-- The expressions that have a value.
inductive Valued : Node → Prop
  | literal {token children} : Valued ⟨.numericLiteral, token, children⟩
  | identifier {token children} : Valued ⟨.identifier, token, children⟩
  | reference {token children} : Valued ⟨.functionReference, token, children⟩
  | binary {token op lhs rhs rest} :
    Operator.ofSymbol? token.text = some op → Valued lhs → Valued rhs →
    Valued ⟨.infixOperator, token, lhs :: rhs :: rest⟩
  | call {token target token' ns rest} :
    (∀ n ∈ ns, Valued n) → Valued ⟨.call, token, target :: ⟨.expressionList, token', ns⟩ :: rest⟩

-- What becomes of the sink when an expression is discarded. A literal does not get there, so that
-- an operator to its left finds what was there before; comparisons do not mind.
inductive Discards : (filled : Bool) → Node → Prop
  | literal {token children} : Discards false ⟨.numericLiteral, token, children⟩
  | other {kind token children} :
    kind ≠ .numericLiteral → kind ≠ .infixOperator → Discards true ⟨kind, token, children⟩
  | operator {token lhs rhs rest} :
    Discards true rhs → Discards true ⟨.infixOperator, token, lhs :: rhs :: rest⟩
  | comparison {token op lhs rhs rest} :
    Operator.ofSymbol? token.text = some op → op.IsComparison → Discards false rhs →
    Discards false ⟨.infixOperator, token, lhs :: rhs :: rest⟩

-- The statements that only look at values that are there, where the value of an expression is
-- discarded or put somewhere.
inductive Tidy : (discarded : Bool) → Node → Prop
  | value {n} : Valued n → Tidy false n
  | discarded {filled n} : Valued n → Discards filled n → Tidy true n
  | assignment {b token target value rest} :
    token.text = "=" → Tidy false value →
    Tidy b ⟨.infixOperator, token, target :: value :: rest⟩
  | block {b token ns} : (∀ n ∈ ns, Tidy true n) → Tidy b ⟨.block, token, ns⟩
  | returns {b token ns n} :
    ns.getLast? = some n → Valued n → (∀ n ∈ ns, Tidy false n) →
    Tidy b ⟨.returnStatement, token, ns⟩
  | branch {b token condition body rest} :
    Valued condition → Tidy true body → Tidy b ⟨.branch, token, condition :: body :: rest⟩

-- The code puts a value into a register. Whatever else the code behind it looks at was there
-- before.
structure Fills (r : Register) (code : List Instruction) : Prop where
  vars {rest y} : Awaits (code ++ rest) y → Name y ∨ y ≠ r.name ∧ Awaits rest y
  guarded {rest} : (Awaits rest Register.sink.name → r.name = Register.sink.name) →
    Guarded rest → Guarded (code ++ rest)

-- The code leaves its values on the stack.
structure Passes (code : List Instruction) : Prop where
  vars {rest y} : Awaits (code ++ rest) y → Name y ∨ Awaits rest y
  guarded {rest} : ¬Awaits rest Register.sink.name → Guarded rest → Guarded (code ++ rest)

section

variable {r t : Register} {i : Instruction} {code code₁ code₂ rest : List Instruction}

namespace Fills

-- Nobody behind the code can tell what was in the sink before.
theorem not_awaits_sink (h : Fills r code)
    (hr : Awaits rest Register.sink.name → r.name = Register.sink.name) :
    ¬Awaits (code ++ rest) Register.sink.name := by
  intro hs
  obtain hs | ⟨hn, hs⟩ := h.vars hs
  · exact not_name_sink hs
  · exact hn (hr hs).symm

-- The code behind it looks at the register and at variables.
theorem settled (h : Fills r code) (hr : ∀ y, Awaits rest y → Name y ∨ y = r.name)
    (hg : Guarded rest) : Settled (code ++ rest) where
  vars y hy := by
    obtain hy | ⟨hn, hy⟩ := h.vars hy
    · exact hy
    · exact (hr y hy).resolve_right hn
  guarded := h.guarded (fun hs => ((hr _ hs).resolve_left not_name_sink).symm) hg

theorem clean (h : Fills r code) : Clean code :=
  fun _ hs => h.settled (fun y hy => .inl (hs.vars y hy)) hs.guarded

theorem single (hr : ∀ r ∈ i.reads, Name r.name) (hw : i.written? = some r) : Fills r [i] where
  vars := by
    rintro rest y (⟨r, hm, rfl, -⟩ | ⟨hn, hy⟩)
    · exact .inl (hr r hm)
    · exact .inr ⟨(hn r hw).symm, hy⟩
  guarded _ hg := by
    cases i
    case label | callValue => cases hw
    all_goals exact hg

theorem fresh (hr : i.reads = []) (hw : i.written? = some r) : Fills r [i] :=
  single (by simp [hr]) hw

theorem move (h : Fills t code) : Fills r (code ++ [.move t r]) where
  vars {rest y} hy := by
    rw [List.append_assoc] at hy
    obtain hy | ⟨hn, hy⟩ := h.vars hy
    · exact .inl hy
    · obtain ⟨hw, hy⟩ := (hy.of_cons rfl).resolve_left hn
      exact .inr ⟨(hw r rfl).symm, hy⟩
  guarded {rest} hr hg := by
    rw [List.append_assoc]
    refine h.guarded (fun hs => ?_) hg
    obtain hs | ⟨hw, hs⟩ := hs.of_cons rfl
    · exact hs.symm
    · exact absurd (hr hs) (hw r rfl)

-- The left operand is in a temporary, and the right one where the result goes.
theorem operate {op : Operator} {d : Nat} (h₁ : Fills (.temp d) code₁) (h₂ : Fills r code₂) :
    Fills r (code₁ ++ code₂ ++ [.binary op (.temp d) r r]) := by
  have hb {rest y} (hy : Awaits (.binary op (.temp d) r r :: rest) y) :
      y = (Register.temp d).name ∨ y = r.name ∨ Awaits rest y := by
    rcases hy with ⟨q, hq, rfl, -⟩ | ⟨-, hy⟩
    · obtain rfl | rfl : q = .temp d ∨ q = r := by simpa [Instruction.reads] using hq
      · exact .inl rfl
      · exact .inr <| .inl rfl
    · exact .inr <| .inr hy
  refine ⟨fun hy => ?_, fun {rest} hr hg => ?_⟩
  · rw [List.append_assoc, List.append_assoc] at hy
    obtain hy | ⟨ht, hy⟩ := h₁.vars hy
    · exact .inl hy
    obtain hy | ⟨hn, hy⟩ := h₂.vars hy
    · exact .inl hy
    · exact .inr ⟨hn, ((hb hy).resolve_left ht).resolve_left hn⟩
  · rw [List.append_assoc, List.append_assoc]
    have hs (hs : Awaits (.binary op (.temp d) r r :: rest) Register.sink.name) :
        r.name = Register.sink.name := by
      obtain he | he | hs := hb hs
      · exact absurd he.symm (Register.temp_name_ne (by decide) d)
      · exact he.symm
      · exact hr hs
    exact h₁.guarded (fun hs' => absurd hs' (h₂.not_awaits_sink hs)) (h₂.guarded hs hg)

theorem call {x : String} (hx : Name x) (h : Fills r code) :
    Fills r (.callValue (.named x) :: code) where
  vars hy := by
    obtain rfl | ⟨-, hy⟩ := hy.of_cons rfl
    · exact .inl hx
    · exact h.vars hy
  guarded hr hg := ⟨h.not_awaits_sink hr, h.guarded hr hg⟩

end Fills

namespace Passes

theorem nil : Passes [] :=
  ⟨.inr, fun _ => id⟩

theorem fills (h₁ : Passes code₁) (h₂ : Fills r code₂) : Fills r (code₁ ++ code₂) where
  vars hy := by
    rw [List.append_assoc] at hy
    obtain hy | hy := h₁.vars hy
    · exact .inl hy
    · exact h₂.vars hy
  guarded hr hg := by
    rw [List.append_assoc]
    exact h₁.guarded (h₂.not_awaits_sink hr) (h₂.guarded hr hg)

-- A value goes to where it is only looked at once.
theorem consume (h : Fills t code) (hi : i = .push t ∨ i = .out t) : Passes (code ++ [i]) := by
  have hb {rest y} (hy : Awaits (i :: rest) y) : y = t.name ∨ Awaits rest y := by
    have hr : i.reads = [t] := by
      obtain rfl | rfl := hi <;> rfl
    exact (hy.of_cons hr).imp_right And.right
  refine ⟨fun hy => ?_, fun hr hg => ?_⟩
  · rw [List.append_assoc] at hy
    obtain hy | ⟨hn, hy⟩ := h.vars hy
    · exact .inl hy
    · exact .inr ((hb hy).resolve_left hn)
  · rw [List.append_assoc]
    refine h.guarded (fun hs => ((hb hs).resolve_right hr).symm) ?_
    obtain rfl | rfl := hi <;> exact hg

end Passes

theorem fills_printCode (n : Nat) : Fills r (printCode t n r) := by
  induction n
  case zero =>
    have hl : Fills t [.load "0" t] := .fresh rfl rfl
    exact hl.move
  case succ n hi =>
    have hc : printCode t (n + 1) r = [.pop t, .out t] ++ printCode t n r := by
      simp [printCode, List.replicate_succ]
    have hp : Fills t [.pop t] := .fresh rfl rfl
    rw [hc]
    exact (Passes.consume hp (.inr rfl)).fills hi

theorem fills_call {x : String} (hx : Name x) :
    Fills r [.callValue (.named x), .pop t, .move t r] := by
  have hp : Fills t [.pop t] := .fresh rfl rfl
  exact hp.move.call hx

end

section

variable {filled : Bool} {n : Node} {ns : List Node} {demand : Demand} {dst : Destination} {d : Nat}
  {s s' : Stage} {code : List Instruction}

theorem passes_arguments {t : Register}
    (hn : ∀ n ∈ ns, ∀ {s code s'}, Emits (.node n .value (.register t)) d s code s' →
      s.symbols.naming = .verbatim → Fills t code)
    (h : Emits (.arguments ns t) d s code s') (hv : s.symbols.naming = .verbatim) :
    Passes code := by
  induction ns generalizing s' code
  case nil =>
    cases h
    exact .nil
  case cons n ns hi =>
    obtain ⟨hn, hns⟩ := List.forall_mem_cons.mp hn
    cases h
    case argument h₁ h₂ =>
      exact .consume ((hi hns h₁).fills (hn h₂ (h₁.keeps.naming.trans hv))) (.inl rfl)

-- An expression puts its value where it is to go, the sink included if it does not end in a
-- literal.
theorem Valued.fills (h : Valued n) (hn : n.Every Fit)
    (hd : (∃ r, dst = .register r) ∨ Discards true n)
    (he : Emits (.node n demand dst) d s code s') (hv : s.symbols.naming = .verbatim) :
    Fills dst.target code := by
  induction h generalizing demand dst d s code s'
  case literal =>
    cases he
    case literal => exact .fresh rfl rfl
    case literalDiscarded =>
      obtain ⟨r, hr⟩ | hd := hd
      · contradiction
      · cases hd
        contradiction
  case identifier token _ =>
    cases he
    rw [Symbols.resolve_verbatim hv]
    refine .single (fun r hm => ?_) rfl
    obtain rfl : r = .named token.text := by simpa [Instruction.reads] using hm
    exact hn.self.name rfl
  case reference =>
    cases he
    exact .fresh rfl rfl
  case binary ho _ _ hl hr =>
    cases he
    case assignment ht _ _ => exact absurd ht (Operator.ne_assign ho)
    case binary h₁ h₂ =>
      have hd : (∃ r, dst = .register r) ∨ Discards true _ := hd.imp_right fun h => by
        cases h
        case other h    => contradiction
        case operator h => exact h
      have hf₁ := hl hn.first (.inl ⟨_, rfl⟩) h₁ hv
      have hf₂ := hr hn.second hd h₂ (h₁.keeps.naming.trans hv)
      exact hf₁.operate hf₂
  case call target _ _ _ _ hi =>
    cases he
    case print h =>
      refine (passes_arguments (fun n hm => ?_) h hv).fills (fills_printCode _)
      exact fun h hv => hi n hm (hn.second.child hm) (.inl ⟨_, rfl⟩) h hv
    case call s₁ hk _ h =>
      have hv₁ : s₁.symbols.naming = .verbatim := h.keeps.naming.trans hv
      rw [Symbols.resolve_verbatim hv₁]
      refine (passes_arguments (fun n hm => ?_) h hv).fills (fills_call (hn.first.self.name hk))
      exact fun h hv => hi n hm (hn.second.child hm) (.inl ⟨_, rfl⟩) h hv

-- If it does, then there are only comparisons to its left.
theorem Discards.clean (h : Discards filled n) (hx : Valued n) (hn : n.Every Fit)
    (he : Emits (.node n demand .discard) d s code s') (hv : s.symbols.naming = .verbatim) :
    Clean code := by
  induction h generalizing demand d s code s'
  case literal =>
    cases he
    exact .nil
  case other hl hi   => exact (hx.fills hn (.inr (.other hl hi)) he hv).clean
  case operator hr _ => exact (hx.fills hn (.inr (.operator hr)) he hv).clean
  case comparison ho hc _ hi =>
    cases hx
    case binary hl hr =>
      cases he
      case assignment ht _ _ => exact absurd ht (Operator.ne_assign ho)
      case binary ho' h₁ h₂ =>
        cases ho.symm.trans ho'
        have hf₁ := hl.fills hn.first (.inl ⟨_, rfl⟩) h₁ hv
        have hf₂ := hi hr hn.second h₂ (h₁.keeps.naming.trans hv)
        refine .append (.append hf₁.clean hf₂) fun rest hs => ⟨?_, hs.guarded⟩
        rintro y (⟨r, -, -, hy⟩ | ⟨-, hy⟩)
        · exact absurd (hs.vars _ (hy ⟨hc, rfl⟩)) not_name_sink
        · exact hs.vars y hy

theorem clean_all
    (hc : ∀ n ∈ ns, ∀ {s code s'}, Emits (.node n .any dst) d s code s' →
      s.symbols.naming = .verbatim → Clean code)
    (h : Emits (.all ns dst) d s code s') (hv : s.symbols.naming = .verbatim) : Clean code := by
  induction ns generalizing s code
  case nil =>
    cases h
    exact .nil
  case cons n ns hi =>
    obtain ⟨hn, hns⟩ := List.forall_mem_cons.mp hc
    cases h
    case cons h₁ h₂ => exact .append (hn h₁ hv) (hi hns h₂ (h₁.keeps.naming.trans hv))

-- The condition of a branch is in a temporary, which is negated in place.
theorem Fills.branch {t : Register} {l : Label} (h : Fills t code) :
    Clean (code ++ [.negate t, .jumpIf l t]) := by
  intro rest hs
  rw [List.append_assoc]
  refine h.settled (fun y hy => ?_) hs.guarded
  obtain hy | ⟨-, hy⟩ := hy.of_cons rfl
  · exact .inr hy
  obtain hy | ⟨-, hy⟩ := hy.of_cons rfl
  · exact .inr hy
  · exact .inl (hs.vars y hy)

theorem Fills.returned {t : Register} (h : Fills t code) : Clean (code ++ [.push t, .ret]) := by
  intro rest hs
  rw [List.append_assoc]
  have hs : Settled (.ret :: rest) := hs.cons (by simp [Instruction.reads])
  refine h.settled (fun y hy => ?_) hs.guarded
  obtain hy | ⟨-, hy⟩ := hy.of_cons rfl
  · exact .inr hy
  · exact .inl (hs.vars y hy)

-- All that is returned goes through one temporary, and the last value is there in the end.
theorem clean_returned {t : Register} (hl : ns.getLast? = some n) (hx : Valued n)
    (hn : n.Every Fit)
    (hc : ∀ n ∈ ns, ∀ {s code s'}, Emits (.node n .any (.register t)) d s code s' →
      s.symbols.naming = .verbatim → Clean code)
    (h : Emits (.all ns (.register t)) d s code s') (hv : s.symbols.naming = .verbatim) :
    Clean (code ++ [.push t, .ret]) := by
  induction ns generalizing s code
  case nil => simp at hl
  case cons m ns hi =>
    obtain ⟨hm, hns⟩ := List.forall_mem_cons.mp hc
    cases h
    case cons h₁ h₂ =>
      have hv₁ := h₁.keeps.naming.trans hv
      cases ns
      case nil =>
        cases h₂
        obtain rfl : m = n := by simpa using hl
        rw [List.append_nil]
        exact (hx.fills hn (.inl ⟨_, rfl⟩) h₁ hv).returned
      case cons m' ns =>
        rw [List.append_assoc]
        exact .append (hm h₁ hv) (hi (by simpa using hl) hns h₂ hv₁)

-- No statement looks at a temporary that is left over from before it.
theorem Tidy.clean {b : Bool} (h : Tidy b n) (hn : n.Every Fit)
    (he : Emits (.node n demand dst) d s code s') (hd : dst.isDiscard = b)
    (hv : s.symbols.naming = .verbatim) : Clean code := by
  induction h generalizing demand dst d s code s'
  case value hx =>
    cases dst
    case discard  => contradiction
    case register => exact (hx.fills hn (.inl ⟨_, rfl⟩) he hv).clean
  case discarded hx hs =>
    cases dst
    case discard  => exact hs.clean hx hn he hv
    case register => contradiction
  case assignment ht _ hi =>
    cases he
    case binary ho _ _ => exact absurd ht (Operator.ne_assign ho)
    case assignment ha h => exact hi hn.second h rfl ((assigned?_keeps ha).naming.trans hv)
  case block hi =>
    cases he
    case block h =>
      refine clean_all (fun n hm => ?_) h ((Symbols.Keeps.modifyFrame _ _).naming.trans hv)
      exact fun h hv => hi n hm (hn.child hm) h rfl hv
  case returns hl hx _ hi =>
    cases he
    case returns h =>
      refine clean_returned hl hx (hn.child (List.mem_of_getLast? hl)) (fun n hm => ?_) h hv
      exact fun h hv => hi n hm (hn.child hm) h rfl hv
  case branch hx _ hi =>
    cases he
    case ifThen h₁ h₂ =>
      have hf := hx.fills hn.first (.inl ⟨_, rfl⟩) h₁ hv
      have hb := hi hn.second h₂ rfl (h₁.keeps.naming.trans hv)
      exact .append (.append hf.branch hb) (.of_reads (by simp [Instruction.reads]))
    case whileDo h₁ h₂ =>
      have hf := hx.fills hn.first (.inl ⟨_, rfl⟩) h₁ hv
      have hb := hi hn.second h₂ rfl (h₁.keeps.naming.trans hv)
      exact .append (.append (hf.branch.cons rfl) hb) (.of_reads (by simp [Instruction.reads]))

theorem clean_statements {b : Bool} (hs : ∀ n ∈ ns, Tidy b n) (hn : ∀ n ∈ ns, n.Every Fit)
    (h : Emits (.all ns dst) d s code s') (hd : dst.isDiscard = b)
    (hv : s.symbols.naming = .verbatim) : Clean code :=
  clean_all (fun n hm _ _ _ h hv => (hs n hm).clean (hn n hm) h hd hv) h hv

end

end Source
end LineCode

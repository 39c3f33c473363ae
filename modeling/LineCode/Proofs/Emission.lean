import LineCode.Proofs.Realizes

namespace LineCode

theorem Node.induction {P : Node → Prop}
    (h : ∀ kind token children, (∀ c ∈ children, P c) → P ⟨kind, token, children⟩) : ∀ n, P n
  | ⟨kind, token, children⟩ => h kind token children fun c _ => Node.induction h c

theorem Operator.ne_assign {text : String} {op : Operator} (h : ofSymbol? text = some op) :
    text ≠ "=" := by
  rintro rfl
  simp [ofSymbol?] at h

namespace Lower

-- The three recursions of lowering, as values.
inductive Job where
  | node (n : Node) (demand : Demand) (dst : Destination)
  | all (ns : List Node) (dst : Destination)
  | arguments (ns : List Node) (t : Register)

def Job.run : Job → Lower Unit
  | node n demand dst => lower n demand dst
  | all ns dst        => lowerAll ns dst
  | arguments ns t    => pushArguments ns t

-- `Emits job d s code s'`: with the temporaries below `d` in use, the job leads from `s` to `s'`
-- and emits the code. There is one rule for each way in which a job can succeed.
inductive Emits : Job → Nat → Stage → List Instruction → Stage → Prop
  | literalDiscarded {token children demand d s} :
    Emits (.node ⟨.numericLiteral, token, children⟩ demand .discard) d s [] s
  | literal {token children demand r d s} :
    Emits (.node ⟨.numericLiteral, token, children⟩ demand (.register r)) d s [.load token.text r] s
  | identifier {token children demand dst d s} :
    Emits (.node ⟨.identifier, token, children⟩ demand dst) d s
      [.move (s.symbols.resolve token.text).fst dst.target]
      (s.withSymbols (s.symbols.resolve token.text).snd)
  | reference {token children demand dst d s} :
    Emits (.node ⟨.functionReference, token, children⟩ demand dst) d s
      [.loadAddress (.function token.text) dst.target] s
  | assignment {token target value rest demand dst d s slot symbols code s'} :
    token.text = "=" →
    assigned? target s.symbols = some (slot, symbols) →
    Emits (.node value .any (.register slot)) d (s.withSymbols symbols) code s' →
    Emits (.node ⟨.infixOperator, token, target :: value :: rest⟩ demand dst) d s code s'
  | binary {token lhs rhs rest demand dst op d s code₁ s₁ code₂ s₂} :
    Operator.ofSymbol? token.text = some op →
    Emits (.node lhs .any (.register (.temp d))) (d + 1) s code₁ s₁ →
    Emits (.node rhs .any dst) (d + 1) s₁ code₂ s₂ →
    Emits (.node ⟨.infixOperator, token, lhs :: rhs :: rest⟩ demand dst) d s
      (code₁ ++ code₂ ++ [.binary op (.temp d) dst.target dst.target]) s₂
  | print {token target token' arguments rest demand dst d s code s'} :
    target.kind = .identifier → target.text = printName →
    Emits (.arguments arguments (.temp d)) (d + 1) s code s' →
    Emits
      (.node ⟨.call, token, target :: ⟨.expressionList, token', arguments⟩ :: rest⟩ demand dst) d s
      (code ++ printCode (.temp d) arguments.length dst.target) s'
  | call {token target token' arguments rest demand dst d s code s'} :
    target.kind = .identifier → target.text ≠ printName →
    Emits (.arguments arguments (.temp d)) (d + 1) s code s' →
    Emits
      (.node ⟨.call, token, target :: ⟨.expressionList, token', arguments⟩ :: rest⟩ demand dst) d s
      (code ++ [.callValue (s'.symbols.resolve target.text).fst, .pop (.temp d),
        .move (.temp d) dst.target])
      (s'.withSymbols (s'.symbols.resolve target.text).snd)
  | definition {token params body rest demand dst d s code s'} :
    params.kind = .identifierList → (∀ p ∈ params.children, p.kind = .identifier) →
    Emits (.node body .any .discard) d
      (s.withSymbols (parameterSymbols params.children (s.symbols.enter dst.target.name))) code s' →
    Emits (.node ⟨.functionDefinition, token, params :: body :: rest⟩ demand dst) d s
      (.label ⟨dst.target.name⟩ ::
        (parameterSlots params.children (s.symbols.enter dst.target.name)).map .pop ++ code)
      (s'.withSymbols s'.symbols.leave)
  | block {token statements dst d s code s'} :
    Emits (.all statements .discard) d (s.withSymbols s.symbols.openBlock) code s' →
    Emits (.node ⟨.block, token, statements⟩ .any dst) d s code
      (s'.withSymbols s'.symbols.closeBlock)
  | returns {token values dst d s code s'} :
    Emits (.all values (.register (.temp d))) (d + 1) s code s' →
    Emits (.node ⟨.returnStatement, token, values⟩ .any dst) d s
      (code ++ [.push (.temp d), .ret]) s'
  | ifThen {token condition body rest dst d s code₁ s₁ code₂ s₂} :
    token.text = "if" →
    Emits (.node condition .value (.register (.temp d))) (d + 1) s.issue code₁ s₁ →
    Emits (.node body .any .discard) (d + 1) s₁ code₂ s₂ →
    Emits (.node ⟨.branch, token, condition :: body :: rest⟩ .any dst) d s
      (code₁ ++ [.negate (.temp d), .jumpIf s.label (.temp d)] ++ code₂ ++ [.label s.label]) s₂
  | whileDo {token condition body rest dst d s code₁ s₁ code₂ s₂} :
    token.text = "while" →
    Emits (.node condition .value (.register (.temp d))) (d + 1) s.issue.issue code₁ s₁ →
    Emits (.node body .any .discard) (d + 1) s₁ code₂ s₂ →
    Emits (.node ⟨.branch, token, condition :: body :: rest⟩ .any dst) d s
      (.label s.issue.label :: code₁ ++ [.negate (.temp d), .jumpIf s.label (.temp d)] ++ code₂ ++
        [.jump s.issue.label, .label s.label]) s₂
  | nil {dst d s} : Emits (.all [] dst) d s [] s
  | cons {n ns dst d s code₁ s₁ code₂ s₂} :
    Emits (.node n .any dst) d s code₁ s₁ →
    Emits (.all ns dst) d s₁ code₂ s₂ →
    Emits (.all (n :: ns) dst) d s (code₁ ++ code₂) s₂
  | noArgument {t d s} : Emits (.arguments [] t) d s [] s
  | argument {n ns t d s code₁ s₁ code₂ s₂} :
    Emits (.arguments ns t) d s code₁ s₁ →
    Emits (.node n .value (.register t)) d s₁ code₂ s₂ →
    Emits (.arguments (n :: ns) t) d s (code₁ ++ code₂ ++ [.push t]) s₂

-- Lowering follows the rules, and every rule is followed by lowering.
def Job.Realized (job : Job) : Prop :=
  ∀ d s, Realizes job.run d s fun _ code s' => Emits job d s code s'

namespace Job.Realized

variable {token : Token} {children : List Node} {demand : Demand} {dst : Destination} {t : Register}

theorem literal : Realized (.node ⟨.numericLiteral, token, children⟩ demand dst) := by
  intro d s
  cases dst
  case discard =>
    refine Realizes.pure () |>.congr fun _ c s' => ⟨?_, ?_⟩
    · rintro ⟨-, rfl, rfl⟩
      exact .literalDiscarded
    · rintro ⟨⟩
      exact ⟨rfl, rfl, rfl⟩
  case register r =>
    refine Realizes.emit (.load token.text r) |>.congr fun _ c s' => ⟨?_, ?_⟩
    · rintro ⟨rfl, rfl⟩
      exact .literal
    · rintro ⟨⟩
      exact ⟨rfl, rfl⟩

theorem identifier : Realized (.node ⟨.identifier, token, children⟩ demand dst) := by
  intro d s
  refine Realizes.lookupThen (Realizes.emit _) |>.congr fun _ c s' => ⟨?_, ?_⟩
  · rintro ⟨rfl, rfl⟩
    exact .identifier
  · rintro ⟨⟩
    exact ⟨rfl, rfl⟩

theorem reference : Realized (.node ⟨.functionReference, token, children⟩ demand dst) := by
  intro d s
  refine Realizes.emit (.loadAddress (.function token.text) dst.target) |>.congr fun _ c s' =>
    ⟨?_, ?_⟩
  · rintro ⟨rfl, rfl⟩
    exact .reference
  · rintro ⟨⟩
    exact ⟨rfl, rfl⟩

-- An action that never succeeds, for a job to which no rule applies.
theorem rejected {job : Job} (h : ∀ d s, Realizes job.run d s fun _ _ _ => False)
    (hn : ∀ d s code s', ¬Emits job d s code s') : Realized job :=
  fun d s => h d s |>.congr fun _ c s' => ⟨False.elim, hn d s c s'⟩

theorem assignment {target value : Node} {rest : List Node} (ht : token.text = "=")
    (hv : ∀ r, Realized (.node value .any (.register r))) :
    Realized (.node ⟨.infixOperator, token, target :: value :: rest⟩ demand dst) := by
  intro d s
  show Realizes (within _ (if token.text = "=" then _ else _)) d s _
  rw [if_pos ht]
  refine Realizes.within (realizes_assignmentTarget target |>.bind fun r s' => hv r d s')
    |>.congr fun _ c s' => ⟨?_, ?_⟩
  · rintro ⟨slot, _, _, code, ⟨symbols, hs, rfl, rfl⟩, he, rfl⟩
    exact .assignment ht hs he
  · intro h
    cases h with
    | assignment _ hs he => exact ⟨_, _, _, _, ⟨_, hs, rfl, rfl⟩, he, rfl⟩
    | binary ho => exact absurd ht (Operator.ne_assign ho)

theorem binary {lhs rhs : Node} {rest : List Node} {op : Operator}
    (ho : Operator.ofSymbol? token.text = some op)
    (hl : ∀ r, Realized (.node lhs .any (.register r))) (hr : Realized (.node rhs .any dst)) :
    Realized (.node ⟨.infixOperator, token, lhs :: rhs :: rest⟩ demand dst) := by
  intro d s
  show Realizes (within _ (if token.text = "=" then _ else _)) d s _
  rw [if_neg (Operator.ne_assign ho)]
  simp only [ho]
  refine Realizes.within (Realizes.withTemp <|
    (hl _ _ _).seq fun _ => (hr _ _).seq fun _ => Realizes.emit _)
    |>.congr fun _ c s' => ⟨?_, ?_⟩
  · rintro ⟨_, _, _, h₁, ⟨_, _, _, h₂, ⟨rfl, rfl⟩, rfl⟩, rfl⟩
    rw [← List.append_assoc]
    exact .binary ho h₁ h₂
  · intro h
    cases h with
    | assignment he => exact absurd he (Operator.ne_assign ho)
    | binary ho' h₁ h₂ =>
      cases ho.symm.trans ho'
      exact ⟨_, _, _, h₁, ⟨_, _, _, h₂, ⟨rfl, rfl⟩, rfl⟩, by simp⟩

theorem call {target : Node} {token' : Token} {arguments rest : List Node}
    (ht : target.kind = .identifier) (ha : ∀ t, Realized (.arguments arguments t)) :
    Realized <|
      .node ⟨.call, token, target :: ⟨.expressionList, token', arguments⟩ :: rest⟩ demand dst := by
  intro d s
  show Realizes (if target.kind = .identifier then Lower.call _ _ _ _ else _) d s _
  rw [if_pos ht]
  by_cases hp : target.text = printName
  case pos =>
    simp only [Lower.call, hp, if_true]
    refine Realizes.within
      (Realizes.withTemp (ha _ _ _) |>.seq fun _ => realizes_printArguments _ _)
      |>.congr fun _ c s' => ⟨?_, ?_⟩
    · rintro ⟨_, _, _, h, ⟨rfl, rfl⟩, rfl⟩
      exact .print ht hp h
    · intro h
      cases h with
      | print _ _ h   => exact ⟨_, _, _, h, ⟨rfl, rfl⟩, rfl⟩
      | call _ hn     => contradiction
  case neg =>
    simp only [Lower.call, hp, if_false]
    refine Realizes.within (Realizes.withTemp (ha _ _ _) |>.seq fun _ => realizes_callVariable _ _)
      |>.congr fun _ c s' => ⟨?_, ?_⟩
    · rintro ⟨_, _, _, h, ⟨rfl, rfl⟩, rfl⟩
      exact .call ht hp h
    · intro h
      cases h with
      | print _ hp'  => contradiction
      | call _ _ h   => exact ⟨_, _, _, h, ⟨rfl, rfl⟩, rfl⟩

theorem definition {params body : Node} {rest : List Node} (hk : params.kind = .identifierList)
    (hb : Realized (.node body .any .discard)) :
    Realized (.node ⟨.functionDefinition, token, params :: body :: rest⟩ demand dst) := by
  intro d s
  show Realizes (if params.kind = .identifierList then Lower.definition _ _ _ else _) d s _
  rw [if_pos hk]
  refine Realizes.inDefinition (Realizes.within <| realizes_popParameters _ |>.seq fun _ => hb _ _)
    |>.emitThen _ |>.congr fun _ c s' => ⟨?_, ?_⟩
  · rintro ⟨_, ⟨_, ⟨_, _, _, ⟨hp, rfl, rfl⟩, h, rfl⟩, rfl⟩, rfl⟩
    exact .definition hk hp h
  · intro h
    cases h with
    | definition _ hp h => exact ⟨_, ⟨_, ⟨_, _, _, ⟨hp, rfl, rfl⟩, h, rfl⟩, rfl⟩, rfl⟩

theorem block (h : Realized (.all children .discard)) :
    Realized (.node ⟨.block, token, children⟩ .any dst) := by
  intro d s
  refine Realizes.inBlock (h _ _) |>.congr fun _ c s' => ⟨?_, ?_⟩
  · rintro ⟨_, h, rfl⟩
    exact .block h
  · rintro ⟨⟩
    exact ⟨_, ‹_›, rfl⟩

theorem returns (h : ∀ r, Realized (.all children (.register r))) :
    Realized (.node ⟨.returnStatement, token, children⟩ .any dst) := by
  intro d s
  refine Realizes.within (Realizes.withTemp (h _ _ _ |>.emitAfter _) |>.emitAfter _)
    |>.congr fun _ c s' => ⟨?_, ?_⟩
  · rintro ⟨_, ⟨_, h, rfl⟩, rfl⟩
    rw [List.append_assoc]
    exact .returns h
  · rintro ⟨⟩
    exact ⟨_, ⟨_, ‹_›, rfl⟩, by simp⟩

variable {condition body : Node} {rest : List Node}

theorem ifThen (ht : token.text = "if") (hc : ∀ r, Realized (.node condition .value (.register r)))
    (hb : Realized (.node body .any .discard)) :
    Realized (.node ⟨.branch, token, condition :: body :: rest⟩ .any dst) := by
  intro d s
  simp only [run, lower, statement, ht]
  have h := fun s' => hb (d + 1) s' |>.emitAfter (.label s.label) |>.emitThen
      (.jumpIf s.label (.temp d))
    |>.emitThen (.negate (.temp d))
  refine Realizes.within (Realizes.withTemp <| Realizes.freshLabelThen <| (hc _ _ _).seq h)
    |>.congr fun _ c s' => ⟨?_, ?_⟩
  · rintro ⟨_, _, _, h₁, ⟨_, ⟨_, ⟨_, h₂, rfl⟩, rfl⟩, rfl⟩, rfl⟩
    simpa using Emits.ifThen ht h₁ h₂
  · intro h
    cases h with
    | ifThen _ h₁ h₂ => exact ⟨_, _, _, h₁, ⟨_, ⟨_, ⟨_, h₂, rfl⟩, rfl⟩, rfl⟩, by simp⟩
    | whileDo ht'    => simp [ht] at ht'

theorem whileDo (ht : token.text = "while")
    (hc : ∀ r, Realized (.node condition .value (.register r)))
    (hb : Realized (.node body .any .discard)) :
    Realized (.node ⟨.branch, token, condition :: body :: rest⟩ .any dst) := by
  intro d s
  simp only [run, lower, statement, ht]
  have hj := fun s' => Realizes.emit (d := d + 1) (s := s') (.label s.label)
    |>.emitThen (.jump s.issue.label)
  have h := fun s' => hb (d + 1) s' |>.seq hj |>.emitThen (.jumpIf s.label (.temp d))
    |>.emitThen (.negate (.temp d))
  refine Realizes.within (Realizes.withTemp <| Realizes.freshLabelThen <| Realizes.freshLabelThen <|
    (hc _ _ _).seq h |>.emitThen _) |>.congr fun _ c s' => ⟨?_, ?_⟩
  · rintro ⟨_, ⟨_, _, _, h₁, ⟨_, ⟨_, ⟨_, _, _, h₂, ⟨_, ⟨rfl, rfl⟩, rfl⟩, rfl⟩, rfl⟩, rfl⟩, rfl⟩,
      rfl⟩
    simpa using Emits.whileDo ht h₁ h₂
  · intro h
    cases h with
    | ifThen ht'      => simp [ht] at ht'
    | whileDo _ h₁ h₂ =>
      exact ⟨_, ⟨_, _, _, h₁, ⟨_, ⟨_, ⟨_, _, _, h₂, ⟨_, ⟨rfl, rfl⟩, rfl⟩, rfl⟩, rfl⟩, rfl⟩,
        rfl⟩, by simp⟩

theorem nil : Realized (.all [] dst) := by
  intro d s
  refine Realizes.pure () |>.congr fun _ c s' => ⟨?_, ?_⟩
  · rintro ⟨-, rfl, rfl⟩
    exact .nil
  · rintro ⟨⟩
    exact ⟨rfl, rfl, rfl⟩

theorem cons {n : Node} {ns : List Node} (hn : Realized (.node n .any dst))
    (hs : Realized (.all ns dst)) :
    Realized (.all (n :: ns) dst) := by
  intro d s
  refine (hn _ _).seq (fun _ => hs _ _) |>.congr fun _ c s' => ⟨?_, ?_⟩
  · rintro ⟨_, _, _, h₁, h₂, rfl⟩
    exact .cons h₁ h₂
  · rintro ⟨⟩
    exact ⟨_, _, _, ‹_›, ‹_›, rfl⟩

theorem noArgument : Realized (.arguments [] t) := by
  intro d s
  refine Realizes.pure () |>.congr fun _ c s' => ⟨?_, ?_⟩
  · rintro ⟨-, rfl, rfl⟩
    exact .noArgument
  · rintro ⟨⟩
    exact ⟨rfl, rfl, rfl⟩

theorem argument {n : Node} {ns : List Node} (hs : Realized (.arguments ns t))
    (hn : Realized (.node n .value (.register t))) : Realized (.arguments (n :: ns) t) := by
  intro d s
  refine (hs _ _).seq (fun _ => (hn _ _).emitAfter _) |>.congr fun _ c s' => ⟨?_, ?_⟩
  · rintro ⟨_, _, _, h₁, ⟨_, h₂, rfl⟩, rfl⟩
    rw [← List.append_assoc]
    exact .argument h₁ h₂
  · rintro ⟨⟩
    exact ⟨_, _, _, ‹_›, ⟨_, ‹_›, rfl⟩, by simp⟩

end Job.Realized

open Job (Realized)

-- Statements have no value.
theorem realized_statement_value {kind : Node.Kind} {token : Token} {children : List Node}
    {dst : Destination} (hk : kind = .block ∨ kind = .returnStatement ∨ kind = .branch) :
    Realized (.node ⟨kind, token, children⟩ .value dst) := by
  apply Realized.rejected
  · intro d s
    rcases hk with rfl | rfl | rfl <;> unfold Job.run lower <;> exact Realizes.reject
  · intro d s code s' h
    cases h <;> simp at hk

theorem realized_infix {token : Token} {children : List Node} {demand : Demand} {dst : Destination}
    (hc : ∀ c ∈ children, ∀ dst, Realized (.node c .any dst)) :
    Realized (.node ⟨.infixOperator, token, children⟩ demand dst) := by
  match children with
  | [] =>
    apply Realized.rejected
    · intro d s
      show Realizes (within _ (if token.text = "=" then _ else _)) d s _
      split <;> exact Realizes.within Realizes.reject
    · rintro d s code s' ⟨⟩
  | [target] =>
    apply Realized.rejected
    · intro d s
      show Realizes (within _ (if token.text = "=" then _ else _)) d s _
      split
      · refine Realizes.within
          (realizes_assignmentTarget target |>.bind fun _ _ => Realizes.reject) |>.congr ?_
        simp
      · exact Realizes.within Realizes.reject
    · rintro d s code s' ⟨⟩
  | lhs :: rhs :: rest =>
    have hl := hc lhs (by simp)
    have hr := hc rhs (by simp)
    by_cases ht : token.text = "="
    case pos => exact .assignment ht fun r => hr _
    case neg =>
      cases ho : Operator.ofSymbol? token.text with
      | some op => exact .binary ho (fun r => hl _) (hr dst)
      | none =>
        apply Realized.rejected
        · intro d s
          show Realizes (within _ (if token.text = "=" then _ else _)) d s _
          rw [if_neg ht]
          simp only [ho]
          exact Realizes.within Realizes.reject
        · intro d s code s' h
          cases h <;> simp_all

theorem realized_call {token : Token} {children : List Node} {demand : Demand} {dst : Destination}
    (hc : ∀ c ∈ children, ∀ t, Realized (.arguments c.children t)) :
    Realized (.node ⟨.call, token, children⟩ demand dst) := by
  match children with
  | [] =>
    apply Realized.rejected
    · exact fun _ _ => Realizes.reject
    · rintro d s code s' ⟨⟩
  | [target] =>
    apply Realized.rejected
    · intro d s
      show Realizes (if target.kind = .identifier then _ else _) d s _
      split <;> exact Realizes.reject
    · rintro d s code s' ⟨⟩
  | target :: ⟨kind, token', arguments⟩ :: rest =>
    by_cases hk : target.kind = .identifier ∧ kind = .expressionList
    case pos =>
      obtain ⟨ht, rfl⟩ := hk
      exact .call ht <| hc ⟨.expressionList, token', arguments⟩ (by simp)
    case neg =>
      apply Realized.rejected
      · intro d s
        show Realizes (if target.kind = .identifier then if kind = .expressionList then _ else _
          else _) d s _
        split
        · rw [if_neg (by tauto)]
          exact Realizes.reject
        · exact Realizes.reject
      · intro d s code s' h
        cases h <;> simp_all

theorem realized_definition {token : Token} {children : List Node} {demand : Demand}
    {dst : Destination} (hc : ∀ c ∈ children, Realized (.node c .any .discard)) :
    Realized (.node ⟨.functionDefinition, token, children⟩ demand dst) := by
  match children with
  | [] =>
    apply Realized.rejected
    · exact fun _ _ => Realizes.reject
    · rintro d s code s' ⟨⟩
  | [params] =>
    apply Realized.rejected
    · intro d s
      show Realizes (if params.kind = .identifierList then _ else _) d s _
      split <;> exact Realizes.reject
    · rintro d s code s' ⟨⟩
  | params :: body :: rest =>
    by_cases hk : params.kind = .identifierList
    case pos => exact .definition hk <| hc body (by simp)
    case neg =>
      apply Realized.rejected
      · intro d s
        show Realizes (if params.kind = .identifierList then _ else _) d s _
        rw [if_neg hk]
        exact Realizes.reject
      · intro d s code s' h
        cases h with
        | definition hk' => exact hk hk'

theorem realized_branch {token : Token} {children : List Node} {dst : Destination}
    (hc : ∀ c ∈ children, ∀ demand dst, Realized (.node c demand dst)) :
    Realized (.node ⟨.branch, token, children⟩ .any dst) := by
  match children with
  | [] | [_] =>
    apply Realized.rejected
    · exact fun _ _ => Realizes.reject
    · rintro d s code s' ⟨⟩
  | condition :: body :: rest =>
    have h₁ := fun r => hc condition (by simp) .value (.register r)
    have h₂ := hc body (by simp) .any .discard
    by_cases hi : token.text = "if"
    case pos => exact .ifThen hi h₁ h₂
    case neg =>
      by_cases hw : token.text = "while"
      case pos => exact .whileDo hw h₁ h₂
      case neg =>
        apply Realized.rejected
        · intro d s
          simp only [Job.run, lower, statement]
          exact Realizes.reject
        · intro d s code s' h
          cases h <;> contradiction

theorem realized_unhandled {kind : Node.Kind} {token : Token} {children : List Node}
    {demand : Demand} {dst : Destination}
    (hk : kind = .identifierList ∨ kind = .expressionList ∨ kind = .letBinding) :
    Realized (.node ⟨kind, token, children⟩ demand dst) := by
  apply Realized.rejected
  · intro d s
    rcases hk with rfl | rfl | rfl <;> exact Realizes.reject
  · intro d s code s' h
    cases h <;> simp at hk

theorem realized_all {ns : List Node} {dst : Destination}
    (hn : ∀ n ∈ ns, Realized (.node n .any dst)) :
    Realized (.all ns dst) := by
  induction ns
  case nil          => exact .nil
  case cons n ns hi => exact .cons (hn n (by simp)) <| hi fun m hm => hn m (by simp [hm])

theorem realized_arguments {ns : List Node} {t : Register}
    (hn : ∀ n ∈ ns, Realized (.node n .value (.register t))) : Realized (.arguments ns t) := by
  induction ns
  case nil          => exact .noArgument
  case cons n ns hi => exact .argument (hi fun m hm => hn m (by simp [hm])) <| hn n (by simp)

-- Calls reach past their children to the arguments, hence the second half.
theorem realized_node (n : Node) :
    (∀ demand dst, Realized (.node n demand dst)) ∧ ∀ t, Realized (.arguments n.children t) := by
  induction n using Node.induction
  case h kind token children hc =>
    refine ⟨fun demand dst => ?_, fun t => realized_arguments fun n hn => (hc n hn).left _ _⟩
    cases kind
    case numericLiteral     => exact .literal
    case identifier         => exact .identifier
    case functionReference  => exact .reference
    case infixOperator      => exact realized_infix fun c h => (hc c h).left .any
    case call               => exact realized_call fun c h => (hc c h).right
    case functionDefinition => exact realized_definition fun c h => (hc c h).left _ _
    case block =>
      cases demand
      case any   => exact .block <| realized_all fun c h => (hc c h).left _ _
      case value => exact realized_statement_value (by simp)
    case returnStatement =>
      cases demand
      case any   => exact .returns fun r => realized_all fun c h => (hc c h).left _ _
      case value => exact realized_statement_value (by simp)
    case branch =>
      cases demand
      case any   => exact realized_branch fun c h => (hc c h).left
      case value => exact realized_statement_value (by simp)
    all_goals exact realized_unhandled (by simp)

-- Lowering a node from a generator that holds the temporaries below `d` succeeds exactly as the
-- rules say.
theorem lower_realizes (n : Node) (demand : Demand) (dst : Destination) (d : Nat) (s : Stage) :
    Realizes (lower n demand dst) d s fun _ code s' => Emits (.node n demand dst) d s code s' :=
  (realized_node n).left demand dst d s

theorem emits_all_append {ns₁ ns₂ : List Node} {dst : Destination} {d : Nat} {s s' : Stage}
    {code : List Instruction} :
    Emits (.all (ns₁ ++ ns₂) dst) d s code s' ↔ ∃ code₁ s₁ code₂,
      Emits (.all ns₁ dst) d s code₁ s₁ ∧ Emits (.all ns₂ dst) d s₁ code₂ s' ∧
      code = code₁ ++ code₂ := by
  induction ns₁ generalizing s code
  case nil =>
    refine ⟨fun h => ⟨[], s, code, .nil, h, rfl⟩, ?_⟩
    rintro ⟨_, _, _, ⟨⟩, h, rfl⟩
    exact h
  case cons n ns hi =>
    constructor
    · rintro ⟨⟩
      case cons h₁ h =>
        obtain ⟨_, _, _, h₂, h₃, rfl⟩ := hi.mp h
        exact ⟨_, _, _, .cons h₁ h₂, h₃, by simp⟩
    · rintro ⟨_, _, _, h, h₃, rfl⟩
      cases h
      case cons h₁ h₂ =>
        rw [List.append_assoc]
        exact .cons h₁ (hi.mpr ⟨_, _, _, h₂, h₃, rfl⟩)

theorem emits_all_middle {ns₁ ns₂ : List Node} {n : Node} {dst : Destination} {d : Nat}
    {s s' : Stage} {code : List Instruction} :
    Emits (.all (ns₁ ++ n :: ns₂) dst) d s code s' ↔ ∃ code₁ s₁ code₂ s₂ code₃,
      Emits (.all ns₁ dst) d s code₁ s₁ ∧ Emits (.node n .any dst) d s₁ code₂ s₂ ∧
      Emits (.all ns₂ dst) d s₂ code₃ s' ∧ code = code₁ ++ code₂ ++ code₃ := by
  rw [emits_all_append]
  constructor
  · rintro ⟨code₁, s₁, _, h₁, h, rfl⟩
    cases h
    case cons h₂ h₃ => exact ⟨_, _, _, _, _, h₁, h₂, h₃, by simp⟩
  · rintro ⟨code₁, s₁, code₂, s₂, code₃, h₁, h₂, h₃, rfl⟩
    exact ⟨_, _, _, h₁, .cons h₂ h₃, by simp⟩

end Lower
end LineCode

import LineCode.Proofs.Structure

namespace LineCode

theorem toString_inj {m n : Nat} (h : toString m = toString n) : m = n := by
  have hd : Nat.toDigits 10 m = Nat.toDigits 10 n := by
    simpa using congrArg String.toList h
  have hv := congrArg (Nat.ofDigitChars 10 · 0) hd
  simpa using hv

namespace Label

theorem numbered_inj {m n : Nat} (h : numbered m = numbered n) : m = n := by
  have hn : "L" ++ toString m = "L" ++ toString n := congrArg name h
  exact toString_inj <| (String.append_right_inj "L").mp hn

theorem function_inj {m n : Nat} (h : function (toString m) = function (toString n)) : m = n := by
  have hn : "fn" ++ toString m = "fn" ++ toString n := congrArg name h
  exact toString_inj <| (String.append_right_inj "fn").mp hn

theorem numbered_ne_function (n : Nat) (ref : String) : numbered n ≠ function ref := by
  intro h
  have hn : "L" ++ toString n = "fn" ++ ref := congrArg name h
  have hc := congrArg (·.toList.head?) hn
  simp at hc

end Label

namespace Lower

mutual

-- The destinations of the function definitions in a node, in the order in which they are lowered,
-- and the symbols afterwards.
def destinations : Node → Destination → Nat → Symbols → List Register × Symbols
  | ⟨.identifier, token, _⟩ => fun _ _ s => ([], (s.resolve token.text).snd)
  | ⟨.infixOperator, token, children⟩ => fun dst d s =>
    match children with
    | lhs :: rhs :: _ =>
      if token.text = "=" then
        match assigned? lhs s with
        | some (slot, s) => destinations rhs (.register slot) d s
        | none           => ([], s)
      else
        let (rs₁, s) := destinations lhs (.register (.temp d)) (d + 1) s
        let (rs₂, s) := destinations rhs dst (d + 1) s
        (rs₁ ++ rs₂, s)
    | _ => ([], s)
  | ⟨.call, _, children⟩ => fun _ d s =>
    match children with
    | target :: ⟨_, _, arguments⟩ :: _ =>
      let (rs, s) := argumentDestinations arguments (.temp d) (d + 1) s
      (rs, if target.text = printName then s else (s.resolve target.text).snd)
    | _ => ([], s)
  | ⟨.functionDefinition, _, children⟩ => fun dst d s =>
    match children with
    | params :: body :: _ =>
      let (rs, s) := destinations body .discard d
        (parameterSymbols params.children (s.enter dst.target.name))
      (dst.target :: rs, s.leave)
    | _ => ([], s)
  | ⟨.block, _, statements⟩ => fun _ d s =>
    let (rs, s) := allDestinations statements .discard d s.openBlock
    (rs, s.closeBlock)
  | ⟨.returnStatement, _, values⟩ =>
    fun _ d s => allDestinations values (.register (.temp d)) (d + 1) s
  | ⟨.branch, _, children⟩ => fun _ d s =>
    match children with
    | condition :: body :: _ =>
      let (rs₁, s) := destinations condition (.register (.temp d)) (d + 1) s
      let (rs₂, s) := destinations body .discard (d + 1) s
      (rs₁ ++ rs₂, s)
    | _ => ([], s)
  | _ => fun _ _ s => ([], s)

def allDestinations : List Node → Destination → Nat → Symbols → List Register × Symbols
  | []      => fun _ _ s => ([], s)
  | n :: ns => fun dst d s =>
    let (rs₁, s) := destinations n dst d s
    let (rs₂, s) := allDestinations ns dst d s
    (rs₁ ++ rs₂, s)

def argumentDestinations : List Node → Register → Nat → Symbols → List Register × Symbols
  | []      => fun _ _ s => ([], s)
  | n :: ns => fun t d s =>
    let (rs₁, s) := argumentDestinations ns t d s
    let (rs₂, s) := destinations n (.register t) d s
    (rs₁ ++ rs₂, s)

end

def Job.destinations : Job → Nat → Symbols → List Register × Symbols
  | node n _ dst   => Lower.destinations n dst
  | all ns dst     => allDestinations ns dst
  | arguments ns t => argumentDestinations ns t

-- The labels issued from one number up to another.
def issuedLabels (l l' : Nat) : List Label := (List.range' l (l' - l)).map .numbered

theorem issuedLabels_append {l₁ l₂ l₃ : Nat} (h₁ : l₁ ≤ l₂) (h₂ : l₂ ≤ l₃) :
    issuedLabels l₁ l₂ ++ issuedLabels l₂ l₃ = issuedLabels l₁ l₃ := by
  have hn : l₂ - l₁ + (l₃ - l₂) = l₃ - l₁ := by omega
  rw [issuedLabels, issuedLabels, issuedLabels, ← List.map_append, ← hn, ← List.range'_append_1]
  congr
  omega

theorem issuedLabels_succ {l l' : Nat} (h : l + 1 ≤ l') :
    issuedLabels l l' = .numbered l :: issuedLabels (l + 1) l' := by
  have hn : l' - l = (l' - (l + 1)) + 1 := by omega
  rw [issuedLabels, hn, List.range'_succ]
  rfl

@[simp]
theorem issuedLabels_self (l : Nat) : issuedLabels l l = [] := by
  simp [issuedLabels]

theorem mem_issuedLabels {l l' : Nat} {t : Label} :
    t ∈ issuedLabels l l' ↔ ∃ i, l ≤ i ∧ i < l' ∧ .numbered i = t := by
  simp only [issuedLabels, List.mem_map, List.mem_range'_1, and_assoc]
  refine exists_congr fun i => and_congr_right fun hi => and_congr_left fun _ => ?_
  omega

theorem issuedLabels_mono {l l₁ l₂ l' : Nat} (h₁ : l ≤ l₁) (h₂ : l₂ ≤ l') {t : Label}
    (h : t ∈ issuedLabels l₁ l₂) : t ∈ issuedLabels l l' := by
  have ⟨i, hi₁, hi₂, hi⟩ := mem_issuedLabels.mp h
  exact mem_issuedLabels.mpr ⟨i, Nat.le_trans h₁ hi₁, Nat.lt_of_lt_of_le hi₂ h₂, hi⟩

def definedLabels (code : List Instruction) : List Label := code.filterMap Instruction.definedLabel?

def jumpTargets (code : List Instruction) : List Label := code.filterMap Instruction.jumpTarget?

@[simp]
theorem definedLabels_append (code₁ code₂ : List Instruction) :
    definedLabels (code₁ ++ code₂) = definedLabels code₁ ++ definedLabels code₂ :=
  List.filterMap_append

@[simp]
theorem jumpTargets_append (code₁ code₂ : List Instruction) :
    jumpTargets (code₁ ++ code₂) = jumpTargets code₁ ++ jumpTargets code₂ :=
  List.filterMap_append

@[simp]
theorem definedLabels_nil : definedLabels [] = [] :=
  rfl

@[simp]
theorem jumpTargets_nil : jumpTargets [] = [] :=
  rfl

theorem definedLabels_cons (i : Instruction) (code : List Instruction) :
    definedLabels (i :: code) = i.definedLabel?.toList ++ definedLabels code := by
  cases hi : i.definedLabel? <;> simp [definedLabels, hi]

theorem jumpTargets_cons (i : Instruction) (code : List Instruction) :
    jumpTargets (i :: code) = i.jumpTarget?.toList ++ jumpTargets code := by
  cases hi : i.jumpTarget? <;> simp [jumpTargets, hi]

-- Between two label numbers the code defines the labels issued, each once, and those of the
-- destinations. It jumps to labels issued only.
structure Accounts (l : Nat) (code : List Instruction) (rs : List Register) (l' : Nat) : Prop where
  le    : l ≤ l'
  perm  : (definedLabels code).Perm <| issuedLabels l l' ++ rs.map fun r => ⟨r.name⟩
  jumps : ∀ t ∈ jumpTargets code, t ∈ issuedLabels l l'

namespace Accounts

variable {l l₁ l₂ l' : Nat} {code code₁ code₂ : List Instruction} {rs rs₁ rs₂ : List Register}

theorem silent (h : ∀ i ∈ code, i.definedLabel? = none ∧ i.jumpTarget? = none) :
    Accounts l code [] l where
  le    := Nat.le_refl l
  perm  := by
    have hd : definedLabels code = [] := List.filterMap_eq_nil_iff.mpr fun i hi => (h i hi).left
    simp [hd]
  jumps := by
    have ht : jumpTargets code = [] := List.filterMap_eq_nil_iff.mpr fun i hi => (h i hi).right
    simp [ht]

theorem append (h₁ : Accounts l code₁ rs₁ l₁) (h₂ : Accounts l₁ code₂ rs₂ l₂) :
    Accounts l (code₁ ++ code₂) (rs₁ ++ rs₂) l₂ where
  le    := Nat.le_trans h₁.le h₂.le
  perm  := by
    rw [definedLabels_append, ← issuedLabels_append h₁.le h₂.le]
    refine (h₁.perm.append h₂.perm).trans <| List.perm_iff_count.mpr fun t => ?_
    simp only [List.count_append, List.map_append]
    omega
  jumps := by
    intro t ht
    rw [jumpTargets_append, List.mem_append] at ht
    cases ht
    case inl ht => exact issuedLabels_mono (Nat.le_refl _) h₂.le <| h₁.jumps t ht
    case inr ht => exact issuedLabels_mono h₁.le (Nat.le_refl _) <| h₂.jumps t ht

theorem append_silent (h : Accounts l code₁ rs l')
    (hs : ∀ i ∈ code₂, i.definedLabel? = none ∧ i.jumpTarget? = none) :
    Accounts l (code₁ ++ code₂) rs l' := by
  simpa using h.append (silent hs)

theorem definition (r : Register) (h : Accounts l code rs l') :
    Accounts l (.label ⟨r.name⟩ :: code) (r :: rs) l' where
  le    := h.le
  perm  := (h.perm.cons _).trans List.perm_middle.symm
  jumps := h.jumps

-- A branch takes its labels before its parts do, and defines the first of them behind all parts.
theorem issued (h : Accounts (l + 1) code rs l')
    (hd : (definedLabels code₁).Perm (.numbered l :: definedLabels code))
    (ht : ∀ t ∈ jumpTargets code₁, t = .numbered l ∨ t ∈ jumpTargets code) :
    Accounts l code₁ rs l' where
  le    := Nat.le_of_succ_le h.le
  perm  := by
    rw [issuedLabels_succ h.le]
    exact hd.trans <| h.perm.cons _
  jumps := by
    intro t hm
    rw [issuedLabels_succ h.le, List.mem_cons]
    exact (ht t hm).imp_right (h.jumps t)

theorem ifThen (r : Register) (h₁ : Accounts (l + 1) code₁ rs₁ l₁) (h₂ : Accounts l₁ code₂ rs₂ l₂) :
    Accounts l (code₁ ++ [.negate r, .jumpIf (.numbered l) r] ++ code₂ ++ [.label (.numbered l)])
      (rs₁ ++ rs₂) l₂ := by
  refine h₁.append h₂ |>.issued ?_ fun t ht => ?_
  · have hd : definedLabels (code₁ ++ [.negate r, .jumpIf (.numbered l) r] ++ code₂ ++
      [.label (.numbered l)])
        = definedLabels (code₁ ++ code₂) ++ [.numbered l] := by
      simp [definedLabels_cons, Instruction.definedLabel?, Instruction.negate]
    exact hd ▸ List.perm_append_singleton ..
  · simp [jumpTargets_cons, Instruction.jumpTarget?, Instruction.negate] at ht ⊢
    tauto

theorem whileDo (r : Register) (h₁ : Accounts (l + 1 + 1) code₁ rs₁ l₁)
    (h₂ : Accounts l₁ code₂ rs₂ l₂) :
    Accounts l (.label (.numbered (l + 1)) :: code₁ ++
      [.negate r, .jumpIf (.numbered l) r] ++ code₂ ++
      [.jump (.numbered (l + 1)), .label (.numbered l)]) (rs₁ ++ rs₂) l₂ := by
  have h : Accounts (l + 1)
      (.label (.numbered (l + 1)) :: (code₁ ++ code₂) ++ [.jump (.numbered (l + 1))])
      (rs₁ ++ rs₂) l₂ := by
    refine h₁.append h₂ |>.issued ?_ fun t ht => ?_
    · simp [definedLabels_cons, Instruction.definedLabel?]
    · simp [jumpTargets_cons, Instruction.jumpTarget?] at ht ⊢
      tauto
  refine h.issued ?_ fun t ht => ?_
  · have hd : definedLabels
        (.label (.numbered (l + 1)) :: code₁ ++ [.negate r, .jumpIf (.numbered l) r] ++ code₂ ++
          [.jump (.numbered (l + 1)), .label (.numbered l)])
        = definedLabels (.label (.numbered (l + 1)) :: (code₁ ++ code₂) ++
          [.jump (.numbered (l + 1))]) ++
          [.numbered l] := by
      simp [definedLabels_cons, Instruction.definedLabel?, Instruction.negate]
    exact hd ▸ List.perm_append_singleton ..
  · simp [jumpTargets_cons, Instruction.jumpTarget?, Instruction.negate] at ht ⊢
    tauto

end Accounts

theorem Emits.accounts {job : Job} {d : Nat} {s s' : Stage} {code : List Instruction}
    (h : Emits job d s code s') :
    ∃ rs, job.destinations d s.symbols = (rs, s'.symbols) ∧
      Accounts s.issued code rs s'.issued := by
  induction h
  case literalDiscarded | literal | reference | nil | noArgument | identifier =>
    exact ⟨[], rfl, .silent (by simp [Instruction.definedLabel?, Instruction.jumpTarget?])⟩
  case assignment ht ha _ hi =>
    obtain ⟨rs, hd, h⟩ := hi
    refine ⟨rs, ?_, h⟩
    simp_all [Job.destinations, destinations, Stage.withSymbols]
  case binary ho _ _ h₁ h₂ =>
    obtain ⟨rs₁, hd₁, h₁⟩ := h₁
    obtain ⟨rs₂, hd₂, h₂⟩ := h₂
    refine ⟨rs₁ ++ rs₂, ?_, h₁.append h₂ |>.append_silent ?_⟩
    · simp_all [Job.destinations, destinations, Operator.ne_assign ho]
    · simp [Instruction.definedLabel?, Instruction.jumpTarget?]
  case print ht hp _ hi =>
    obtain ⟨rs, hd, h⟩ := hi
    refine ⟨rs, ?_, h.append_silent fun i hi => ?_⟩
    · simp_all [Job.destinations, destinations]
    · rcases mem_printCode hi with rfl | rfl | rfl | rfl <;> exact ⟨rfl, rfl⟩
  case call ht hp _ hi =>
    obtain ⟨rs, hd, h⟩ := hi
    refine ⟨rs, ?_, h.append_silent ?_⟩
    · simp_all [Job.destinations, destinations, Stage.withSymbols]
    · simp [Instruction.definedLabel?, Instruction.jumpTarget?]
  case definition dst _ _ _ _ hk hp _ hi =>
    obtain ⟨rs, hd, h⟩ := hi
    refine ⟨dst.target :: rs, ?_, Accounts.silent ?_ |>.append h |>.definition _⟩
    · simp_all [Job.destinations, destinations, Stage.withSymbols]
    · simp [Instruction.definedLabel?, Instruction.jumpTarget?]
  case block hi =>
    obtain ⟨rs, hd, h⟩ := hi
    refine ⟨rs, ?_, h⟩
    simp_all [Job.destinations, destinations, Stage.withSymbols]
  case returns hi =>
    obtain ⟨rs, hd, h⟩ := hi
    refine ⟨rs, ?_, h.append_silent ?_⟩
    · simp_all [Job.destinations, destinations]
    · simp [Instruction.definedLabel?, Instruction.jumpTarget?]
  case ifThen d _ _ _ _ _ ht _ _ h₁ h₂ =>
    obtain ⟨rs₁, hd₁, h₁⟩ := h₁
    obtain ⟨rs₂, hd₂, h₂⟩ := h₂
    refine ⟨rs₁ ++ rs₂, ?_, h₁.ifThen (.temp d) h₂⟩
    simp_all [Job.destinations, destinations, Stage.issue]
  case whileDo d s _ _ _ _ ht _ _ h₁ h₂ =>
    obtain ⟨rs₁, hd₁, h₁⟩ := h₁
    obtain ⟨rs₂, hd₂, h₂⟩ := h₂
    refine ⟨rs₁ ++ rs₂, ?_, h₁.whileDo (.temp d) h₂⟩
    simp_all [Job.destinations, destinations, Stage.issue]
  case cons h₁ h₂ =>
    obtain ⟨rs₁, hd₁, h₁⟩ := h₁
    obtain ⟨rs₂, hd₂, h₂⟩ := h₂
    refine ⟨rs₁ ++ rs₂, ?_, h₁.append h₂⟩
    simp_all [Job.destinations, allDestinations]
  case argument h₁ h₂ =>
    obtain ⟨rs₁, hd₁, h₁⟩ := h₁
    obtain ⟨rs₂, hd₂, h₂⟩ := h₂
    refine ⟨rs₁ ++ rs₂, ?_, h₁.append h₂ |>.append_silent ?_⟩
    · simp_all [Job.destinations, argumentDestinations]
    · simp [Instruction.definedLabel?, Instruction.jumpTarget?]

-- The destinations of the definitions within a top-level definition: all of them but its own.
def nested (naming : Naming) (name : String) (node : Node) : List Register :=
  (destinations node (.register (.named name)) 0 { naming }).fst.tail

variable {naming : Naming} {name : String} {node : Node} {l l' : Nat} {code : List Instruction}

theorem Defines.accounts (h : Defines naming name node l code l') :
    ∃ tail, code = .label ⟨name⟩ :: tail ∧ Accounts l tail (nested naming name node) l' := by
  obtain ⟨token, params, body, rest, tail, symbols, rfl, -, -, he, rfl⟩ := h.inv
  have ⟨rs, hd, ha⟩ := he.accounts
  have hn : nested naming name ⟨.functionDefinition, token, params :: body :: rest⟩ = rs :=
    congrArg Prod.fst hd
  rw [hn]
  refine ⟨_, rfl, Accounts.silent ?_ |>.append ha⟩
  simp [Instruction.definedLabel?, Instruction.jumpTarget?]

-- The label of a function is that of its destination.
theorem Routines.accounts {index : Nat} {fs : List Node} {rs : List Routine}
    (h : Routines naming index l fs rs l') :
    Accounts l (rs.flatMap (·.code ++ [.separator])) ((fs.zipIdx index).flatMap fun (f, i) =>
      .named (Label.function (toString i)).name ::
        nested naming (Label.function (toString i)).name f) l' := by
  induction h
  case nil => exact .silent (by simp)
  case cons hd _ hi =>
    obtain ⟨tail, rfl, ha⟩ := hd.accounts
    rw [List.flatMap_cons, List.zipIdx_cons, List.flatMap_cons]
    refine ha.definition (.named _) |>.append_silent ?_ |>.append hi
    simp [Instruction.definedLabel?, Instruction.jumpTarget?]

theorem Links.accounts {functions : List Node} {entry : Node} {p : Program} {n : Nat}
    (h : Links naming functions entry p n) :
    Accounts 0 p.instructions
      (nested naming Program.entryLabel.name entry ++ functions.zipIdx.flatMap fun (f, i) =>
        .named (Label.function (toString i)).name ::
          nested naming (Label.function (toString i)).name f) n := by
  obtain ⟨code, l, rs, hd, hr, rfl⟩ := h
  obtain ⟨tail, rfl, ha⟩ := hd.accounts
  have hb : Accounts 0 [.blank] [] 0 :=
    .silent (by simp [Instruction.definedLabel?, Instruction.jumpTarget?])
  refine hb.append ha |>.append_silent ?_ |>.append hr.accounts
  simp [Instruction.definedLabel?, Instruction.jumpTarget?]

theorem neutral_zero : Neutral (fun _ => 0) fun _ => True where
  label _    := rfl
  jump _     := rfl
  jumpIf _ _ := rfl
  negate _   := rfl
  node _ _   := by simp [total]

theorem Defines.closed (h : Defines naming name node l code l') :
    ∃ tail, code = .label ⟨name⟩ :: tail ∧ ∀ i, i.jumpTarget? = none →
      Closed (fun _ => 0) [] (i :: tail) [] := by
  obtain ⟨token, params, body, rest, tail, symbols, -, -, -, he, rfl⟩ := h.inv
  have hc := he.closed neutral_zero (Node.Every.of_forall (fun _ => trivial) body)
  refine ⟨_, rfl, fun i hi => .cons (.single hi) <| .append (.of_forall ?_) hc.embed⟩
  simp [Instruction.jumpTarget?]

theorem Routines.closed {index : Nat} {fs : List Node} {rs : List Routine}
    (h : Routines naming index l fs rs l') :
    ∀ r ∈ rs, Closed (fun _ => 0) [] r.code [] := by
  induction h
  case nil => simp
  case cons hd _ hi =>
    obtain ⟨tail, rfl, hc⟩ := hd.closed
    simpa using ⟨hc _ rfl, hi⟩

end Lower

-- The code of the entry and that of each function.
def Program.sections (p : Program) : List (List Instruction) := p.entry :: p.routines.map (·.code)

namespace Lower

theorem Links.closed {functions : List Node} {entry : Node} {p : Program} {n : Nat}
    (h : Links naming functions entry p n) :
    ∀ code ∈ p.sections, Closed (fun _ => 0) [] code [] := by
  obtain ⟨code, l, rs, hd, hr, rfl⟩ := h
  obtain ⟨tail, rfl, hc⟩ := hd.closed
  have he : Closed (fun _ => 0) []
      (Program.blankEntry (.label ⟨Program.entryLabel.name⟩ :: tail)) [] :=
    hc .blank rfl
  simpa [Program.sections, Program.link] using ⟨he, hr.closed⟩

theorem allDestinations_eq_nil {ns : List Node}
    (h : ∀ n ∈ ns, ∀ dst d s, (destinations n dst d s).fst = []) (dst : Destination) (d : Nat)
    (s : Symbols) : (allDestinations ns dst d s).fst = [] := by
  induction ns generalizing s
  case nil => rfl
  case cons n ns hi =>
    have ⟨hn, hns⟩ := List.forall_mem_cons.mp h
    simp [allDestinations, hn, hi hns]

theorem argumentDestinations_eq_nil {ns : List Node}
    (h : ∀ n ∈ ns, ∀ dst d s, (destinations n dst d s).fst = []) (t : Register) (d : Nat)
    (s : Symbols) : (argumentDestinations ns t d s).fst = [] := by
  induction ns generalizing s
  case nil => rfl
  case cons n ns hi =>
    have ⟨hn, hns⟩ := List.forall_mem_cons.mp h
    simp [argumentDestinations, hn, hi hns]

-- Without definitions there are no destinations. Calls reach past their children to the arguments.
theorem destinations_eq_nil {n : Node} (h : n.Every (·.kind ≠ .functionDefinition)) :
    (∀ dst d s, (destinations n dst d s).fst = []) ∧
      ∀ t d s, (argumentDestinations n.children t d s).fst = [] := by
  induction n using Node.induction
  case h kind token children hi =>
    have hc := fun c hc => (hi c hc (h.child hc)).left
    have ha := fun c hc => (hi c hc (h.child hc)).right
    refine ⟨fun dst d s => ?_, argumentDestinations_eq_nil hc⟩
    cases kind
    case functionDefinition => exact absurd rfl h.self
    case block              => exact allDestinations_eq_nil hc ..
    case returnStatement    => exact allDestinations_eq_nil hc ..
    case infixOperator      =>
      match children with
      | [] | [_] => rfl
      | lhs :: rhs :: rest =>
        have hl := hc lhs (by simp)
        have hr := hc rhs (by simp)
        simp only [destinations]
        split
        · split <;> simp [hr]
        · simp [hl, hr]
    case call =>
      match children with
      | [] | [_] => rfl
      | target :: ⟨kind, token', arguments⟩ :: rest =>
        exact ha ⟨kind, token', arguments⟩ (by simp) ..
    case branch =>
      match children with
      | [] | [_] => rfl
      | condition :: body :: rest =>
        simp [destinations, hc condition (by simp), hc body (by simp)]
    all_goals rfl

-- The labels of all definitions within the entry and the functions.
def nestedLabels (naming : Naming) (functions : List Node) (entry : Node) : List Label :=
  (nested naming Program.entryLabel.name entry ++ functions.zipIdx.flatMap fun (f, i) =>
    nested naming (Label.function (toString i)).name f).map fun r => ⟨r.name⟩

def functionLabels (k : Nat) : List Label := (List.range k).map fun i => .function (toString i)

theorem nested_eq_nil (h : ∀ c ∈ node.children, c.Every (·.kind ≠ .functionDefinition)) :
    nested naming name node = [] := by
  by_cases hk : node.kind = .functionDefinition
  case neg =>
    rw [nested, (destinations_eq_nil (.intro hk h)).left]
    rfl
  case pos =>
    obtain ⟨kind, token, children⟩ := node
    subst hk
    match children with
    | [] | [_]               => rfl
    | params :: body :: rest => exact (destinations_eq_nil (h body (by simp))).left ..

theorem nestedLabels_eq_nil {functions : List Node} {entry : Node}
    (he : ∀ c ∈ entry.children, c.Every (·.kind ≠ .functionDefinition))
    (hf : ∀ f ∈ functions, ∀ c ∈ f.children, c.Every (·.kind ≠ .functionDefinition)) :
    nestedLabels naming functions entry = [] := by
  have hn :
      (functions.zipIdx.flatMap fun (f, i) => nested naming (Label.function (toString i)).name f)
      = [] :=
    List.flatMap_eq_nil_iff.mpr fun (f, i) hm => nested_eq_nil <|
      hf f (List.fst_mem_of_mem_zipIdx hm)
  rw [nestedLabels, nested_eq_nil he, hn]
  rfl

theorem functionLabels_length (functions : List Node) :
    functionLabels functions.length = functions.zipIdx.map fun (_, i) =>
      .function (toString i) := by
  have hr : List.range functions.length = functions.zipIdx.map Prod.snd := by
    rw [List.zipIdx_map_snd, List.range_eq_range']
  rw [functionLabels, hr, List.map_map]
  rfl

theorem Links.labels_perm {functions : List Node} {entry : Node} {p : Program} {n : Nat}
    (h : Links naming functions entry p n) :
    p.labels.Perm <| issuedLabels 0 n ++ functionLabels functions.length ++
      nestedLabels naming functions entry := by
  -- The destinations of the functions come one by one, each before those of the definitions in it.
  have hm := List.map_append_flatMap_perm functions.zipIdx
    (fun (_, i) => Register.named (Label.function (toString i)).name)
    (fun (f, i) => nested naming (Label.function (toString i)).name f)
    |>.map fun r => Label.mk r.name
  refine h.accounts.perm.trans ?_
  rw [List.append_assoc]
  refine .append_left _ ?_
  rw [functionLabels_length, nestedLabels, List.map_append, List.map_append]
  refine (hm.symm.append_left _).trans ?_
  rw [List.map_append, List.map_map, ← List.append_assoc, ← List.append_assoc]
  exact List.perm_append_comm.append_right _

theorem nodup_issuedLabels (l l' : Nat) : (issuedLabels l l').Nodup :=
  List.Nodup.map (fun _ _ => Label.numbered_inj) List.nodup_range'

theorem nodup_functionLabels (k : Nat) : (functionLabels k).Nodup :=
  List.Nodup.map (fun _ _ => Label.function_inj) List.nodup_range

theorem issuedLabels_zero (n : Nat) : issuedLabels 0 n = (List.range n).map .numbered := by
  rw [issuedLabels, Nat.sub_zero, List.range_eq_range']

theorem not_mem_functionLabels {l l' k : Nat} {t : Label} (h : t ∈ issuedLabels l l') :
    t ∉ functionLabels k := by
  have ⟨i, _, _, hi⟩ := mem_issuedLabels.mp h
  simp [functionLabels, ← hi, Ne.symm (Label.numbered_ne_function _ _)]

theorem nodup_labels_iff {n k : Nat} {ls : List Label} :
    (issuedLabels 0 n ++ functionLabels k ++ ls).Nodup ↔
      ls.Nodup ∧ ∀ t ∈ ls, t ∉ issuedLabels 0 n ∧ t ∉ functionLabels k := by
  have hd : (issuedLabels 0 n ++ functionLabels k).Nodup :=
    List.nodup_append'.mpr ⟨nodup_issuedLabels 0 n, nodup_functionLabels k,
      fun _ => not_mem_functionLabels⟩
  rw [List.nodup_append', and_iff_right hd, List.disjoint_comm]
  simp [List.Disjoint]

end Lower

theorem compile_labels {naming : Naming} {functions : List Node} {entry : Node} {p : Program}
    (h : compile naming functions entry = .ok p) :
    ∃ g, Lower.program functions entry (.new naming) = .ok p g ∧
      let issued := (List.range g.labels.issued).map Label.numbered
      let named  := (List.range functions.length).map fun i => Label.function (toString i)
      let nested := Lower.nestedLabels naming functions entry
      p.labels.Perm (issued ++ named ++ nested) ∧
      (∀ t ∈ p.jumpTargets, t ∈ issued) ∧
      (¬p.labels.Nodup ↔ ¬nested.Nodup ∨ ∃ t ∈ nested, t ∈ issued ∨ t ∈ named) ∧
      (nested = [] →
        p.labels.Nodup ∧ (∀ t ∈ p.jumpTargets, p.labels.count t = 1) ∧
        ∀ code ∈ p.sections,
          (∀ (k : Nat) t, code[k]? = some (.jump t) →
            ∃ j : Nat, j < k ∧ code[j]? = some (.label t)) ∧
          ∀ (k : Nat) t r, code[k]? = some (.jumpIf t r) →
            ∃ j : Nat, k < j ∧ code[j]? = some (.label t)) := by
  have ⟨g, hg⟩ := compile_eq_ok_iff.mp h
  have hl := Lower.program_sound hg
  have hp := hl.labels_perm
  have hj := hl.accounts.jumps
  have hn : p.labels.Nodup ↔ _ := hp.nodup_iff.trans Lower.nodup_labels_iff
  rw [Lower.issuedLabels_zero, Lower.functionLabels] at hp hn
  rw [Lower.issuedLabels_zero] at hj
  refine ⟨g, hg, hp, hj, ?_, fun he => ?_⟩
  · rw [hn, not_and_or]
    simp only [not_forall, exists_prop, not_and_or, not_not]
  · have hd : p.labels.Nodup := hn.mpr (by simp [he])
    refine ⟨hd, fun t ht => ?_, fun code hc => ⟨fun k t hk => ?_, fun k t r hk => ?_⟩⟩
    · have hm : t ∈ p.labels := hp.mem_iff.mpr (by simp [hj t ht])
      exact List.count_eq_one_of_mem hd hm
    · have ⟨j, hj, _, hb, _⟩ := (hl.closed code hc).lands k _ t hk rfl
      exact ⟨j, hb rfl, hj⟩
    · have ⟨j, hj, _, _, hf⟩ := (hl.closed code hc).lands k _ t hk rfl
      exact ⟨j, hf nofun, hj⟩

-- A loop with a conditional return in it, before a function with a loop of its own.
theorem compile_labels_loops :
    let loop  := Node.whileDo (.ident "n") (.block [.ifThen (.ident "m") (.returns [.ident "n"])])
    let entry := Node.function [] (.block [.assign (.letIdent "n") (.number "3"), loop])
    ∃ p, compile .scoped [.function ["n", "m"] loop] entry = .ok p ∧ p.labels.Nodup ∧
      ∀ t ∈ p.jumpTargets, p.labels.count t = 1 := by
  intro loop entry
  have hc : (compile .scoped [.function ["n", "m"] loop] entry).isOk = true := by decide +kernel
  cases h : compile .scoped [.function ["n", "m"] loop] entry
  case error => simp [h, Except.isOk, Except.toBool] at hc
  case ok p =>
    have ⟨g, _, _, _, _, hn⟩ := compile_labels h
    have ⟨hd, ht, _⟩ := hn (by decide +kernel)
    exact ⟨p, rfl, hd, ht⟩

end LineCode

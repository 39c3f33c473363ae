import LineCode.Proofs.Sparing

namespace LineCode

open Lower

-- A temporary occurs in the code.
def Uses (code : List Instruction) (i : Nat) : Prop := ∃ ins ∈ code, Register.temp i ∈ ins.registers

section

variable {code code₁ code₂ : List Instruction} {ins : Instruction} {d i n : Nat}

@[simp]
theorem uses_nil : ¬Uses [] i := by
  simp [Uses]

@[simp]
theorem uses_cons : Uses (ins :: code) i ↔ .temp i ∈ ins.registers ∨ Uses code i := by
  simp [Uses]

@[simp]
theorem uses_append : Uses (code₁ ++ code₂) i ↔ Uses code₁ i ∨ Uses code₂ i := by
  simp [Uses, or_and_right, exists_or]

theorem uses_append_left (h : ¬Uses code₂ i) : Uses (code₁ ++ code₂) i ↔ Uses code₁ i := by
  rw [uses_append, or_iff_left h]

theorem Register.Named.temp_ne {r : Register} (h : r.Named) (i : Nat) : Register.temp i ≠ r := by
  obtain ⟨x, rfl⟩ := h
  exact Register.noConfusion

theorem not_uses_pops {rs : List Register} (h : ∀ r ∈ rs, r.Named) : ¬Uses (rs.map .pop) i := by
  rintro ⟨ins, hm, hi⟩
  obtain ⟨r, hr, rfl⟩ := List.mem_map.mp hm
  exact (h r hr).temp_ne i (List.mem_singleton.mp hi)

theorem Uses.printCode {count : Nat} {dst : Register} (h : Uses (printCode (.temp d) count dst) i)
    (hd : .temp i ≠ dst) :
    i = d := by
  obtain ⟨ins, hm, hi⟩ := h
  rcases mem_printCode hm with rfl | rfl | rfl | rfl <;> simpa [hd] using hi

theorem not_uses_test (l : Label) (hi : d < i) :
    ¬Uses [.negate (.temp d), .jumpIf l (.temp d)] i := by
  simpa [Instruction.negate] using Nat.ne_of_gt hi

-- Parts that come one after the other take the same temporaries.
theorem uses_parts {m : Nat} (h₁ : Uses code₁ i ↔ i < d + m) (h₂ : Uses code₂ i ↔ i < d + n) :
    Uses (code₁ ++ code₂) i ↔ i < d + max m n := by
  rw [uses_append, h₁, h₂]
  omega

-- A construct that holds the next temporary while it deals with its parts.
theorem uses_held (hd : Uses code d) (h : ∀ i, d + 1 ≤ i → (Uses code i ↔ i < d + 1 + n)) :
    ∀ i, d ≤ i → (Uses code i ↔ i < d + (1 + n)) := by
  intro i hi
  rcases Nat.eq_or_lt_of_le hi with rfl | hi
  · simp only [hd, true_iff]
    omega
  · rw [h i hi, Nat.add_assoc]

end

namespace Symbols.Named

variable {s : Symbols}

theorem parameters (h : s.Named) (ps : List Node) :
    (∀ r ∈ parameterSlots ps s, r.Named) ∧ (parameterSymbols ps s).Named :=
  parameters_over (U := fun _ => True) (fun _ ident hs _ => hs.declareParameter ident)
    (fun _ _ => trivial) h

theorem assigned (h : s.Named) {target : Node} {slot : Register} {symbols : Symbols}
    (ha : assigned? target s = some (slot, symbols)) : slot.Named ∧ symbols.Named := by
  unfold assigned? at ha
  split at ha
  case h_1 =>
    have hr := h.resolve target.text
    rwa [Option.some.inj ha] at hr
  case h_2 =>
    obtain ⟨name, -, hn⟩ := Option.map_eq_some_iff.mp ha
    have hr := h.declare name.text
    rwa [hn] at hr
  case h_3 => contradiction

end Symbols.Named

namespace Lower

def Job.need : Job → Nat
  | node n _ _     => n.need
  | all ns _       => Node.needAll ns
  | arguments ns _ => Node.needAll ns

-- With the temporaries below some index in use, the code takes as many further ones as the job
-- needs.
theorem Emits.uses {job : Job} {d : Nat} {s s' : Stage} {code : List Instruction}
    (h : Emits job d s code s') (hs : s.symbols.Named) (ht : ∀ i, job.target = .temp i → i < d) :
    s'.symbols.Named ∧ ∀ i, d ≤ i → (Uses code i ↔ i < d + job.need) := by
  have hlent {d i : Nat} (h : Register.temp d = .temp i) : i < d + 1 := by
    cases h
    exact Nat.lt_succ_self d
  have hsink {d i : Nat} (h : Register.sink = .temp i) : i < d := by
    cases h
  have hheld {r : Register} {d i : Nat} (ht : ∀ i, r = .temp i → i < d) (hi : d ≤ i) :
      Register.temp i ≠ r := by
    rintro rfl
    exact Nat.not_lt.mpr hi (ht i rfl)
  -- The target is below the temporaries that are counted, so that only what is borrowed on the way
  -- matters.
  induction h
  case literalDiscarded | nil | noArgument =>
    exact ⟨hs, fun i hi => iff_of_false uses_nil (Nat.not_lt.mpr hi)⟩
  case literal r d s | reference dst d s =>
    refine ⟨hs, fun i hi => iff_of_false ?_ (Nat.not_lt.mpr hi)⟩
    simpa using hheld ht hi
  case identifier token _ _ dst d s =>
    obtain ⟨hr, hs⟩ := hs.resolve token.text
    refine ⟨hs, fun i hi => iff_of_false ?_ (Nat.not_lt.mpr hi)⟩
    simpa using ⟨hr.temp_ne i, hheld ht hi⟩
  case assignment he ha _ hi =>
    obtain ⟨hr, hs⟩ := hs.assigned ha
    have hv := hi hs fun i h => absurd h.symm (hr.temp_ne i)
    simpa only [Job.need, Node.need, if_pos he] using hv
  case binary dst op d s code₁ s₁ code₂ s₂ ho _ _ h₁ h₂ =>
    obtain ⟨hs₁, h₁⟩ := h₁ hs fun i => hlent
    obtain ⟨hs₂, h₂⟩ := h₂ hs₁ fun i h => Nat.lt_succ_of_lt (ht i h)
    simp only [Job.need, Node.need, if_neg (Operator.ne_assign ho)]
    refine ⟨hs₂, uses_held (by simp) fun i hi => ?_⟩
    have hb : ¬Uses [.binary op (.temp d) dst.target dst.target] i := by
      simpa using ⟨Nat.ne_of_gt hi, hheld ht (Nat.le_of_lt hi)⟩
    exact (uses_append_left hb).trans (uses_parts (h₁ i hi) (h₂ i hi))
  case print dst d s code s' _ _ _ hi =>
    obtain ⟨hs', h⟩ := hi hs fun i => hlent
    refine ⟨hs', uses_held (by simp [Lower.printCode]) fun i hi => ?_⟩
    exact (uses_append_left fun hu =>
      Nat.ne_of_gt hi (hu.printCode (hheld ht (Nat.le_of_lt hi)))).trans (h i hi)
  case call target _ _ _ _ dst d s code s' _ _ _ hi =>
    obtain ⟨hs', h⟩ := hi hs fun i => hlent
    obtain ⟨hr, hs'⟩ := hs'.resolve target.text
    refine ⟨hs', uses_held (by simp) fun i hi => ?_⟩
    refine (uses_append_left ?_).trans (h i hi)
    simpa using ⟨hr.temp_ne i, Nat.ne_of_gt hi, hheld ht (Nat.le_of_lt hi)⟩
  case definition params _ _ _ dst d s code s' _ _ _ hi =>
    obtain ⟨hr, hs⟩ := (hs.enter dst.target.name).parameters params.children
    obtain ⟨hs', h⟩ := hi hs fun i => hsink
    refine ⟨hs'.leave, fun i hi => ?_⟩
    rw [List.cons_append, uses_cons, uses_append, or_iff_right (not_uses_pops hr),
      or_iff_right (by simp)]
    exact h i hi
  case block hi =>
    obtain ⟨hs', h⟩ := hi hs.openBlock fun i => hsink
    exact ⟨hs'.closeBlock, h⟩
  case returns d s code s' _ hi =>
    obtain ⟨hs', h⟩ := hi hs fun i => hlent
    refine ⟨hs', uses_held (by simp) fun i hi => ?_⟩
    refine (uses_append_left ?_).trans (h i hi)
    simpa using Nat.ne_of_gt hi
  case ifThen d s code₁ s₁ code₂ s₂ _ _ _ h₁ h₂ =>
    obtain ⟨hs₁, h₁⟩ := h₁ hs fun i => hlent
    obtain ⟨hs₂, h₂⟩ := h₂ hs₁ fun i => hsink
    refine ⟨hs₂, uses_held (by simp [Instruction.negate]) fun i hi => ?_⟩
    have hc := (uses_append_left (not_uses_test s.label hi)).trans (h₁ i hi)
    exact (uses_append_left (by simp)).trans (uses_parts hc (h₂ i hi))
  case whileDo d s code₁ s₁ code₂ s₂ _ _ _ h₁ h₂ =>
    obtain ⟨hs₁, h₁⟩ := h₁ hs fun i => hlent
    obtain ⟨hs₂, h₂⟩ := h₂ hs₁ fun i => hsink
    refine ⟨hs₂, uses_held (by simp [Instruction.negate]) fun i hi => ?_⟩
    have hl : Uses (.label s.issue.label :: code₁) i ↔
        Uses code₁ i := uses_cons.trans (or_iff_right (by simp))
    have hc := (uses_append_left (not_uses_test s.label hi)).trans (hl.trans (h₁ i hi))
    exact (uses_append_left (by simp)).trans (uses_parts hc (h₂ i hi))
  case cons h₁ h₂ =>
    obtain ⟨hs₁, h₁⟩ := h₁ hs ht
    obtain ⟨hs₂, h₂⟩ := h₂ hs₁ ht
    exact ⟨hs₂, fun i hi => uses_parts (h₁ i hi) (h₂ i hi)⟩
  case argument t d s code₁ s₁ code₂ s₂ _ _ h₁ h₂ =>
    obtain ⟨hs₁, h₁⟩ := h₁ hs ht
    obtain ⟨hs₂, h₂⟩ := h₂ hs₁ ht
    refine ⟨hs₂, fun i hi => ?_⟩
    refine (uses_append_left (by simpa using hheld ht hi)).trans ?_
    rw [uses_parts (h₁ i hi) (h₂ i hi), max_comm]
    rfl

section

variable {naming : Naming} {functions : List Node} {entry : Node} {g g' : Generator} {p : Program}

-- What a definition adds to the pool of a generator that holds nothing.
theorem generate_counts {name : String} {node : Node} {code : List Instruction} (hg : g.Orderly)
    (ho : g.pool.outstanding = 0) (h : generate name node g = .ok code g') :
    g'.Orderly ∧ g'.pool.outstanding = 0 ∧ g'.pool.capacity = max g.pool.capacity node.need ∧
      g'.pool.peak = max g.pool.peak node.need := by
  obtain ⟨hk, g₁, hl, -⟩ := generate_eq_ok h
  have hs := (spends_node node).left _ _ g () g₁ hg hl
  have hc := hs.capacity
  have hm := hs.peak
  rw [ho, Nat.zero_add] at hc hm
  rw [generate_apply hk, hl] at h
  cases h
  exact ⟨hs.orderly.congr rfl rfl, (hs.outstanding hg).trans ho, hc, hm⟩

theorem routines_counts {index : Nat} {rs : List Routine} (hg : g.Orderly)
    (ho : g.pool.outstanding = 0) (h : routines index functions g = .ok rs g') :
    g'.pool.capacity = max g.pool.capacity (Node.needAll functions) ∧
      g'.pool.peak = max g.pool.peak (Node.needAll functions) := by
  induction functions generalizing index g rs
  case nil =>
    cases h
    simp [Node.needAll]
  case cons f fs hi =>
    obtain ⟨code, g₁, hf, h⟩ := bind_eq_ok h
    obtain ⟨rs', g₂, hr, h⟩ := bind_eq_ok h
    cases h
    obtain ⟨hg₁, ho₁, hc₁, hm₁⟩ := generate_counts hg ho hf
    obtain ⟨hc, hm⟩ := hi hg₁ ho₁ hr
    rw [hc, hm, hc₁, hm₁, Node.needAll, max_assoc, max_assoc]
    exact ⟨rfl, rfl⟩

theorem program_counts (h : program functions entry (.new naming) = .ok p g) :
    g.pool.capacity = Node.needAll (entry :: functions) ∧
      g.pool.peak = Node.needAll (entry :: functions) := by
  obtain ⟨code, g₁, rs, hf, hr, -⟩ := program_eq_ok h
  obtain ⟨hg₁, ho₁, hc₁, hm₁⟩ :=
    generate_counts (.of_settled Generator.Reachable.new.settled) rfl hf
  obtain ⟨hc, hm⟩ := routines_counts hg₁ ho₁ hr
  rw [hc, hm, hc₁, hm₁, Node.needAll]
  simp [Generator.new]

end

-- How many temporaries an action holds while another one that it has begun goes on.
def Call.holds : Call → Call → Nat
  | .operation .., _                                      => 1
  | .conditional .., _                                    => 1
  | .loop .., _                                           => 1
  | .job (.node ⟨.returnStatement, _, _⟩ _ _), _          => 1
  | .job (.node ⟨.call, _, _⟩ _ _), .job (.arguments _ _) => 1
  | _, _                                                  => 0

-- The action borrows a temporary itself.
def Call.Borrows : Call → Prop
  | .operation .. | .conditional .. | .loop .. | .printing .. | .calling .. => True
  | .job (.node n _ _) => n.kind = .call ∨ n.kind = .returnStatement
  | _ => False

-- An action that lowers a node is one level below the one that has begun it.
def Call.level : Call → Nat
  | .job (.node _ _ _) => 1
  | _                  => 0

-- An action is under way within another one, so many nodes deep and with so many temporaries held
-- by the actions around it.
inductive Within (a : Call × Generator) : (depth held : Nat) → Call × Generator → Prop
  | self : Within a 0 0 a
  | part {depth held b c} :
    Within a depth held b → Starts b c → Within a (depth + c.fst.level) (held + b.fst.holds c.fst) c

-- The pools in the course of an action: when one of its parts begins, has borrowed a temporary, and
-- is done.
inductive Moment (a : Call × Generator) : (depth held : Nat) → Pool → Prop
  | begun {depth held b} : Within a depth held b → Moment a depth held b.snd.pool
  | lent {depth held b} : Within a depth held b → b.fst.Borrows →
    Moment a depth (held + 1) b.snd.pool.borrow.snd
  | done {depth held b g} : Within a depth held b → b.fst.run b.snd = .ok () g →
    Moment a depth held g.pool

-- How far an action may exceed what is held around it.
def Call.slack : Call → Nat
  | .operation .. | .conditional .. | .loop .. | .printing .. | .calling .. => 1
  | .job (.node n _ _) => if n.kind = .functionDefinition then 0 else 1
  | _ => 0

section

variable {a b : Call × Generator} {d depth held : Nat}

theorem Starts.stacked_holds (h : Starts a b) (hp : a.snd.pool.Stacked d) :
    b.snd.pool.Stacked (d + a.fst.holds b.fst) := by
  have hl := hp.borrow.right
  have hn {n demand dst} {g g' : Generator} (hg : g.pool.Stacked (d + 1))
      (h : lower n demand dst g = .ok () g') :
      g'.pool.Stacked (d + 1) := (restores_job (.node n demand dst)).stacked hg h
  have ha {ns} {g g' : Generator} (hg : g.pool.Stacked d)
      (h : withTemp (pushArguments ns) g = .ok () g') :
      g'.pool.Stacked d := (Restores.withTemp fun t => restores_job (.arguments ns t)).stacked hg h
  cases h
  case value h    => exact (restores_assignmentTarget _).stacked hp h
  case body h     => exact (restores_popParameters _).stacked (by exact hp) h
  case rest h     => exact (restores_job (.node ..)).stacked hp h
  case argument h => exact (restores_job (.arguments ..)).stacked hp h
  case right h    => exact hn (by exact hl) h
  case printing h | calling h => exact ha (by exact hp) h
  case ifBody h | whileBody h =>
    have hg := hn (by exact hl) h
    exact hg
  case left | arguments | values | ifCondition | whileCondition => exact hl
  all_goals exact hp

theorem Starts.slack_le (h : Starts a b) :
    a.fst.holds b.fst + b.fst.slack ≤ a.fst.slack + b.fst.level := by
  have hn (n : Node) : (if n.kind = .functionDefinition then 0 else 1) ≤ 1 := by split <;> simp
  cases h
  case left | right | ifCondition | ifBody | whileCondition | whileBody =>
    exact Nat.add_le_add_left (hn _) 1
  all_goals simp [Call.holds, Call.slack, Call.level, hn]

theorem Call.Borrows.le_slack {call : Call} (h : call.Borrows) : 1 ≤ call.slack := by
  cases call
  case job j =>
    cases j
    case node n _ _      => rcases h with h | h <;> simp [slack, h]
    case all | arguments => exact h.elim
  case assignment => exact h.elim
  all_goals exact Nat.le_refl 1

theorem Within.counts (h : Within a depth held b) (ha : a.snd.pool.Stacked 0)
    (hs : a.fst.slack = 0) :
    b.snd.pool.Stacked held ∧ held + b.fst.slack ≤ depth := by
  induction h
  case self => exact ⟨ha, by omega⟩
  case part h hi =>
    obtain ⟨hp, hd⟩ := hi
    have hle := h.slack_le
    exact ⟨h.stacked_holds hp, by omega⟩

theorem Moment.stacked {pool : Pool} (h : Moment a depth held pool) (ha : a.snd.pool.Stacked 0)
    (hs : a.fst.slack = 0) :
    pool.Stacked held ∧ held ≤ depth := by
  cases h
  case begun b h =>
    obtain ⟨hp, hd⟩ := h.counts ha hs
    exact ⟨hp, by omega⟩
  case lent held b h hl =>
    obtain ⟨hp, hd⟩ := h.counts ha hs
    have hle := hl.le_slack
    exact ⟨hp.borrow.right, by omega⟩
  case done b g hr h =>
    obtain ⟨hp, hd⟩ := h.counts ha hs
    exact ⟨(restores_run b.fst).stacked hp hr, by omega⟩

end

-- A definition takes exactly the temporaries that it needs, which are those from the first one on.
-- At any moment those are in use that the constructs around hold, and they are no more than the
-- nodes around. A program takes as many as the definition that needs most.
theorem lower_occupies (naming : Naming) :
    (∀ {name : String} {node : Node} {code : List Instruction} {g : Generator},
      generate name node (.new naming) = .ok code g →
      g.pool.peak = node.need ∧ g.pool.capacity = node.need ∧
      (∀ i, (∃ ins ∈ code, .temp i ∈ ins.registers) ↔ i < node.need) ∧
      ∀ {depth held : Nat} {pool : Pool},
        Moment (.job (.node node .value (.register (.named name))), .new naming) depth held pool →
        (∀ i, pool.Borrowed i ↔ i < held) ∧ held ≤ depth) ∧
    ∀ {functions : List Node} {entry : Node} {p : Program}, compile naming functions entry = .ok p →
      ∃ g, program functions entry (.new naming) = .ok p g ∧
        g.pool.capacity = Node.needAll (entry :: functions) ∧
        g.pool.peak = Node.needAll (entry :: functions) := by
  have hn : (Generator.new naming).Orderly := .of_settled Generator.Reachable.new.settled
  constructor
  · intro name node code g h
    obtain ⟨-, -, hc, hm⟩ := generate_counts hn rfl h
    obtain ⟨hk, g', hl, rfl⟩ := generate_eq_ok h
    obtain ⟨pool, code, s', -, rfl, he⟩ :=
      (Job.realized (.node node .value (.register (.named name))) 0
        (Generator.new naming).stage).sound rfl
        Pool.stacked_new hl
    obtain ⟨-, hu⟩ := he.uses hn.symbols (by rintro i ⟨⟩)
    refine ⟨hm.trans (Nat.zero_max _), hc.trans (Nat.zero_max _), fun i => ?_, fun hm => ?_⟩
    · have hi := hu i (Nat.zero_le i)
      rw [Nat.zero_add] at hi
      have hc : ((Generator.new naming).after pool code s').code.toList = code := by
        simp [Generator.after, Generator.new]
      rw [hc]
      exact hi
    · obtain ⟨hp, hd⟩ := hm.stacked Pool.stacked_new (by simp [Call.slack, hk])
      exact ⟨fun i => hp.borrowed_iff, hd⟩
  · intro functions entry p h
    obtain ⟨g, hg⟩ := compile_eq_ok_iff.mp h
    exact ⟨g, hg, program_counts hg⟩

-- An argument is added up while the call, the return and the branch around it hold a temporary
-- each.
theorem lower_occupies_argument :
    let sum   := Node.infixOp "+" (.ident "x") (.number "1")
    let node  := Node.function ["x"] (.block [.ifThen (.ident "x") (.returns [.call "f" [sum]])])
    let start := (Call.job (.node node .value (.register (.named "main"))), Generator.new .scoped)
    (∃ code g, generate "main" node (.new .scoped) = .ok code g ∧ g.pool.peak = 4 ∧
      g.pool.capacity = 4 ∧
      ∀ i, (∃ ins ∈ code, .temp i ∈ ins.registers) ↔ i < 4) ∧
    (∃ pool, Moment start 5 4 pool ∧ ∀ i, pool.Borrowed i ↔ i < 4) ∧
    ∃ p g, compile .verbatim [node] (.function [] sum) = .ok p ∧
      program [node] (.function [] sum) (.new .verbatim) = .ok p g ∧ g.pool.capacity = 4 ∧
      g.pool.peak = 4 := by
  intro sum node start
  have hg : ∃ code g, generate "main" node (.new .scoped) = .ok code g :=
    generate_of_final? rfl (by decide +kernel)
  obtain ⟨code, g, hg⟩ := hg
  obtain ⟨hp, hc, hu, hm⟩ := (lower_occupies .scoped).left hg
  refine ⟨⟨code, g, hg, hp, hc, hu⟩, ?_, ?_⟩
  · have hw : ∃ b, Within start 5 3 b ∧ b.fst.Borrows :=
      ⟨_, .part
        (.part
          (.part
            (.part
              (.part (.part (.part (.part (.part (.part .self (.body rfl rfl)) .statements) .first)
        (.conditional rfl)) (.ifBody rfl)) .values) .first) (.arguments rfl)) (.argument rfl))
          (.operation (by decide)),
        trivial⟩
    obtain ⟨b, hw, hl⟩ := hw
    exact ⟨_, .lent hw hl, (hm (.lent hw hl)).left⟩
  · have hs : (compile .verbatim [node] (.function [] sum)).toOption.isSome := by decide +kernel
    obtain ⟨p, hs⟩ := Option.isSome_iff_exists.mp hs
    have hc := eq_ok_of_toOption hs
    obtain ⟨g, hg, hcap, hpeak⟩ := (lower_occupies .verbatim).right hc
    exact ⟨p, g, hc, hg, hcap, hpeak⟩

end Lower
end LineCode

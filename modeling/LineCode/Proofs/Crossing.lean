import LineCode.Proofs.Execution
import LineCode.Proofs.Occurrences
import LineCode.Proofs.Safety

namespace LineCode

open Lower Machine

namespace Machine

-- Calls and returns.
def Op.Transfers : Op → Prop
  | .callValue _ | .ret => True
  | _                   => False

-- The register that a call goes by.
def Op.callee? : Op → Option String
  | .callValue callee => some callee
  | _                 => none

namespace Image

-- Where control goes from a line, and what becomes of the pending calls.
inductive Flow (img : Image) (s s' : State) : Op → Prop
  | next {op} : ¬op.Transfers → op ≠ .halt → s'.pc = s.pc + 1 → s'.calls = s.calls →
    Flow img s s' op
  | jump {op name} :
    ¬op.Transfers → (op = .jump name ∨ ∃ r, op = .jumpIf name r) → img.line? name = some s'.pc →
    s'.calls = s.calls → Flow img s s' op
  | call {callee} :
    s'.pc = address (s.read callee) → s'.calls = (s.pc + 1) :: s.calls →
      Flow img s s' (.callValue callee)
  | ret : s.calls = s'.pc :: s'.calls → Flow img s s' .ret

variable {img : Image} {op : Op} {s s' t : State}

theorem target_bind_eq_ok {name : String} {f : Nat → Except RunError Progress} {r : Progress}
    (h : (img.target name >>= f) = .ok r) :
    ∃ line, img.line? name = some line ∧ f line = .ok r := by
  unfold target at h
  cases hl : img.line? name <;> rw [hl] at h
  case none      => cases h
  case some line => exact ⟨line, rfl, h⟩

-- What a line can do: the run goes on, or it ends at an END or at a return without a call.
theorem step_cases {progress : Progress} (h : img.step s op = .ok progress) :
    (∃ s', progress = .running s' ∧ Flow img s s' op) ∨
      ∃ s', progress = .halted s' ∧ (op = .halt ∨ op = .ret ∧ s.calls = []) := by
  cases op <;> simp only [step, exec] at h
  case nop | label | load | move | binary | not | push | pop | out =>
    repeat' split at h
    all_goals cases h
    all_goals exact .inl ⟨_, rfl, .next id (by simp) rfl rfl⟩
  case loadAddress =>
    obtain ⟨line, -, h⟩ := target_bind_eq_ok h
    cases h
    exact .inl ⟨_, rfl, .next id (by simp) rfl rfl⟩
  case jump =>
    obtain ⟨line, hl, h⟩ := target_bind_eq_ok h
    cases h
    exact .inl ⟨_, rfl, .jump id (.inl rfl) hl rfl⟩
  case jumpIf =>
    split at h
    case isTrue =>
      cases h
      exact .inl ⟨_, rfl, .next id (by simp) rfl rfl⟩
    case isFalse =>
      obtain ⟨line, hl, h⟩ := target_bind_eq_ok h
      cases h
      exact .inl ⟨_, rfl, .jump id (.inr ⟨_, rfl⟩) hl rfl⟩
  case callValue =>
    cases h
    exact .inl ⟨_, rfl, .call rfl rfl⟩
  case ret =>
    split at h
    all_goals cases h
    case h_1 hc => exact .inr ⟨_, rfl, .inr ⟨rfl, hc⟩⟩
    case h_2 hc => exact .inl ⟨_, rfl, .ret hc⟩
  case halt =>
    cases h
    exact .inr ⟨_, rfl, .inl rfl⟩

theorem flow_of_step (h : img.step s op = .ok (.running s')) : Flow img s s' op := by
  rcases step_cases h with ⟨_, ⟨⟩, hf⟩ | ⟨_, ⟨⟩, -⟩
  exact hf

-- A call is pending until control has come back to the line behind it.
theorem pending_or_back {back : Nat} {calls : List Nat} {n : Nat} (h : img.Steps n s t)
    (hs : back :: calls <:+ s.calls) :
    (∃ k v, k ≤ n ∧ img.Steps k s v ∧ v.pc = back ∧ v.calls = calls) ∨
      back :: calls <:+ t.calls := by
  induction h
  case refl => exact .inr hs
  case step n op s s₁ t ho hp _ hi =>
    have hi (hs : back :: calls <:+ s₁.calls) :
        (∃ k v, k ≤ n + 1 ∧ img.Steps k s v ∧ v.pc = back ∧ v.calls = calls) ∨
          back :: calls <:+ t.calls := by
      refine (hi hs).imp_left ?_
      rintro ⟨k, v, hk, h, hv⟩
      exact ⟨k + 1, v, Nat.succ_le_succ hk, .step ho hp h, hv⟩
    rcases flow_of_step hp with ⟨-, -, -, hc⟩ | ⟨-, -, -, hc⟩ | ⟨-, hc⟩ | hc
    · exact hi (hc ▸ hs)
    · exact hi (hc ▸ hs)
    · exact hi (hc ▸ hs.trans (List.suffix_cons _ _))
    · rw [hc, List.suffix_cons_iff] at hs
      rcases hs with hs | hs
      · cases hs
        exact .inl ⟨1, s₁, Nat.succ_le_succ (Nat.zero_le n), .single ho hp, rfl, rfl⟩
      · exact hi hs

-- The run ends here, and not with an error.
def Stops (img : Image) (s : State) : Prop :=
  ∀ op, img.ops[s.pc]? = some op → ∃ s', img.step s op = .ok (.halted s')

-- Code whose jumps stay in it, on the lines from the given one on.
structure Encloses (img : Image) (line : Nat) (code : List Instruction) : Prop where
  has    : img.Has line code
  closed : Closed (fun _ => 0) [] code []

-- Short of calls and returns, control does not leave such code but at its end.
theorem Encloses.flow {line : Nat} {code : List Instruction} (h : img.Encloses line code)
    (hl : line ≤ s.pc) (hlt : s.pc < line + code.length) (ho : img.ops[s.pc]? = some op)
    (hf : Flow img s s' op) :
    op.Transfers ∨ line ≤ s'.pc ∧ s'.pc ≤ line + code.length ∧ s'.calls = s.calls := by
  obtain ⟨k, hk⟩ := Nat.exists_eq_add_of_le hl
  obtain ⟨i, hi⟩ : ∃ i, code[k]? = some i := ⟨_, List.getElem?_eq_getElem (by omega)⟩
  have hop : op = i.op := by
    have ho' := (h.has k i hi).left
    rw [← hk, ho] at ho'
    exact Option.some.inj ho'
  rcases hf with ⟨-, -, hp, hc⟩ | ⟨-, hj, hn, hc⟩ | - | -
  · exact .inr ⟨by omega, by omega, hc⟩
  · obtain ⟨l, hjl, hl⟩ : ∃ l, i.jumpTarget? = some l ∧ img.line? l.name = some s'.pc := by
      rw [hop] at hj
      cases i <;> simp [Instruction.op] at hj
      case jump l     => exact ⟨l, rfl, hj ▸ hn⟩
      case jumpIf l r => exact ⟨l, rfl, hj ▸ hn⟩
    obtain ⟨j, hcode, -⟩ := h.closed.lands k i l hi hjl
    have hline := (h.has j _ hcode).right l rfl
    have hjlt := (List.getElem?_eq_some_iff.mp hcode).fst
    have hp : s'.pc = line + j := Option.some.inj (hl.symm.trans hline)
    exact .inr ⟨by omega, by omega, hc⟩
  · exact .inl trivial
  · exact .inl trivial

end Image
end Machine

namespace Program

variable {p : Program} {name name' : String} {k : Nat}

-- A line belongs to a definition, which includes the line that ends its code.
def Belongs (p : Program) (name : String) (k : Nat) : Prop :=
  ∃ line code, p.Section name line code ∧ line ≤ k ∧ k ≤ line + code.length

theorem start_succ {i : Nat} {r : Routine} (h : p.routines[i]? = some r) :
    p.start (i + 1) = p.start i + r.code.length + 1 := by
  simp only [start, offset, List.take_add_one, h]
  simp
  omega

theorem start_mono {i j : Nat} (h : i ≤ j) : p.start i ≤ p.start j := by
  obtain ⟨n, rfl⟩ := Nat.exists_eq_add_of_le h
  simp only [start, offset, List.take_add, List.map_append, List.sum_append]
  omega

theorem lt_start_of_lt {i j : Nat} {r : Routine} (h : p.routines[i]? = some r) (hij : i < j) :
    p.start i + r.code.length < p.start j := by
  have hs := start_succ h
  have hm : p.start (i + 1) ≤ p.start j := start_mono hij
  omega

theorem entry_lt_start (p : Program) (i : Nat) : 0 + p.entry.length < p.start i := by
  rw [start]
  omega

-- A line belongs to one definition at most.
theorem Belongs.unique (h : p.Belongs name k) (h' : p.Belongs name' k) : name = name' := by
  obtain ⟨line, code, hs, hl, hu⟩ := h
  obtain ⟨line', code', hs', hl', hu'⟩ := h'
  cases hs <;> cases hs'
  case entry.entry => rfl
  case entry.routine i _ _ =>
    have := p.entry_lt_start i
    omega
  case routine.entry i _ _ =>
    have := p.entry_lt_start i
    omega
  case routine.routine i r hr j r' hr' =>
    rcases Nat.lt_trichotomy i j with hij | rfl | hij
    · have := lt_start_of_lt hr hij
      omega
    · rfl
    · have := lt_start_of_lt hr' hij
      omega

-- If the next line is a call, it is the call of a function.
def Aims (p : Program) (img : Image) (s : State) : Prop :=
  ∀ callee ∈ img.ops[s.pc]?.bind Op.callee?, ∃ i < p.routines.length,
    address (s.read callee) = p.start i

instance {img : Image} {s : State} : Decidable (p.Aims img s) :=
  inferInstanceAs (Decidable (∀ callee ∈ img.ops[s.pc]?.bind Op.callee?,
    ∃ i < p.routines.length, address (s.read callee) = p.start i))

theorem Aims.target {img : Image} {s : State} {callee : String} (h : p.Aims img s)
    (ho : img.ops[s.pc]? = some (.callValue callee)) :
    ∃ i < p.routines.length, address (s.read callee) = p.start i :=
  h callee (by simp [ho, Op.callee?])

-- One line is executed by which control passes from a definition to another one.
structure Crosses (p : Program) (img : Image) (name name' : String) (op : Op) (s s' : State) :
    Prop where
  fetch   : img.ops[s.pc]? = some op
  step    : img.step s op = .ok (.running s')
  leaves  : p.Belongs name s.pc
  reaches : p.Belongs name' s'.pc
  other   : name ≠ name'

end Program

namespace Lower

variable {naming : Naming} {functions : List Node} {entry : Node} {p : Program} {n line : Nat}
  {name : String} {code : List Instruction} {img : Image} {s : State}

theorem Links.encloses (h : Links naming functions entry p n) (hh : img.Holds p.instructions)
    (hs : p.Section name line code) : img.Encloses line code := by
  have hc : code ∈ p.sections := by
    cases hs
    case entry      => exact List.mem_cons_self
    case routine hr => exact List.mem_cons_of_mem _ (List.mem_map_of_mem (List.mem_of_getElem? hr))
  obtain ⟨pre, last, post, hi, rfl, -, -⟩ := hs.split
  rw [hi] at hh
  exact ⟨.of_holds hh, h.closed code hc⟩

theorem op_behind (hh : img.Holds p.instructions) (hs : p.Section name line code) :
    ∃ last : Instruction, img.ops[line + code.length]? = some last.op ∧
      (name = Program.entryLabel.name → last = .halt) ∧
      (name ≠ Program.entryLabel.name → last = .separator) := by
  obtain ⟨pre, last, post, hi, rfl, hm, hf⟩ := hs.split
  exact ⟨last, hh.getElem? (by simp [hi]), hm, hf⟩

theorem op_behind_entry (hh : img.Holds p.instructions) :
    img.ops[0 + p.entry.length]? = some .halt := by
  obtain ⟨last, hl, hm, -⟩ := op_behind hh .entry
  rwa [hm rfl] at hl

theorem op_behind_routine {i : Nat} {r : Routine} (hh : img.Holds p.instructions)
    (hr : p.routines[i]? = some r) :
    img.ops[p.start i + r.code.length]? = some .nop := by
  obtain ⟨last, hl, -, hm⟩ := op_behind hh (.routine hr)
  rwa [hm fun he => Program.function_ne_entryLabel _ (Label.ext he)] at hl

-- Control falls out of a definition just behind a function that is not the last one.
theorem Links.falls_iff (h : Links naming functions entry p n) (hh : img.Holds p.instructions) :
    (∃ name' op s', p.Crosses img name name' op s s' ∧ ¬op.Transfers) ↔
      ∃ i, i + 1 < functions.length ∧ name = (Label.function (toString i)).name ∧
        s.pc + 1 = p.start (i + 1) := by
  constructor
  · rintro ⟨name', op, s', hc, ht⟩
    obtain ⟨line, code, hs, hl, hu⟩ := hc.leaves
    have hf := Image.flow_of_step hc.step
    rcases Nat.lt_or_eq_of_le hu with hlt | heq
    · rcases (h.encloses hh hs).flow hl hlt hc.fetch hf with htr | ⟨hl', hu', -⟩
      · contradiction
      · exact absurd (Program.Belongs.unique ⟨line, code, hs, hl', hu'⟩ hc.reaches) hc.other
    · have ho := heq ▸ hc.fetch
      cases hs
      case entry =>
        rw [op_behind_entry hh] at ho
        cases ho
        cases hc.step
      case routine i r hr =>
        rw [op_behind_routine hh hr] at ho
        cases ho
        have hp : s'.pc = s.pc + 1 := by
          cases hc.step
          rfl
        have hnext := Program.start_succ hr
        refine ⟨i, ?_, rfl, by omega⟩
        -- Behind the last function there is no definition to get into.
        obtain ⟨line', code', hs', hl', hu'⟩ := hc.reaches
        rw [← h.length_routines]
        cases hs'
        case entry =>
          have := p.entry_lt_start (i + 1)
          omega
        case routine j r' hr' =>
          have hj := (List.getElem?_eq_some_iff.mp hr').fst
          rcases Nat.lt_or_ge i j with hij | hij
          · omega
          · have := Program.lt_start_of_lt (j := i + 1) hr' (by omega)
            omega
  · rintro ⟨i, hi, rfl, hp⟩
    rw [← h.length_routines] at hi
    have hr := List.getElem?_eq_getElem (Nat.lt_of_succ_lt hi)
    have hr' := List.getElem?_eq_getElem hi
    have hs := Program.start_succ hr
    have hpc : s.pc = p.start i + p.routines[i].code.length := by omega
    refine ⟨(Label.function (toString (i + 1))).name, .nop,
      { s with pc := s.pc + 1, steps := s.steps + 1 },
      ⟨hpc ▸ op_behind_routine hh hr, rfl, ?_, ?_, ?_⟩, id⟩
    · exact ⟨_, _, .routine hr, by omega, by omega⟩
    · exact ⟨_, _, .routine hr', Nat.le_of_eq hp.symm,
        Nat.le_trans (Nat.le_of_eq hp) (Nat.le_add_right _ _)⟩
    · intro he
      have := Label.function_inj (Label.ext he)
      omega

end Lower

-- A statement that is not left but by a return.
inductive Node.Returns : Node → Prop
  | returns {token values} : Returns ⟨.returnStatement, token, values⟩
  | block {token statements n} : n ∈ statements → Returns n → Returns ⟨.block, token, statements⟩

namespace Lower

variable {naming : Naming} {functions : List Node} {entry node : Node} {p : Program}
  {n l l' line : Nat} {name : String} {code : List Instruction} {img : Image} {s s' : State}

-- Code up to a return that is always reached, if control stays in the code.
def Returning (code : List Instruction) : Prop :=
  ∃ pre post, code = pre ++ .ret :: post ∧ Closed (fun _ => 0) [] pre []

theorem Returning.after {code₁ : List Instruction} (h₁ : Closed (fun _ => 0) [] code₁ [])
    (h : Returning code) (code₂ : List Instruction) : Returning (code₁ ++ code ++ code₂) := by
  obtain ⟨pre, post, rfl, hc⟩ := h
  exact ⟨code₁ ++ pre, post ++ code₂, by simp, h₁.embed.append hc.embed⟩

theorem Emits.closed_zero {job : Job} {d : Nat} {s s' : Stage} (h : Emits job d s code s') :
    Closed (fun _ => 0) [] code [] := by
  refine h.closed neutral_zero ?_
  cases job
  case node n _ _     => exact .of_forall (fun _ => trivial) n
  case all ns _       => exact fun n _ => .of_forall (fun _ => trivial) n
  case arguments ns _ => exact fun n _ => .of_forall (fun _ => trivial) n

theorem Emits.returning {node : Node} {demand : Demand} {dst : Destination} {d : Nat} {s s' : Stage}
    (hn : node.Returns) (h : Emits (.node node demand dst) d s code s') : Returning code := by
  induction hn generalizing demand dst d s s' code
  case returns =>
    cases h
    case returns values hv =>
      exact ⟨values ++ [.push (.temp d)], [], by simp, hv.closed_zero.embed.append (.single rfl)⟩
  case block hm _ hi =>
    obtain ⟨ns₁, ns₂, rfl⟩ := List.append_of_mem hm
    cases h
    case block h =>
      obtain ⟨code₁, _, code₂, _, code₃, h₁, h₂, -, rfl⟩ := emits_all_middle.mp h
      exact .after h₁.closed_zero (hi h₂) code₃

theorem Emits.halt_not_mem {job : Job} {d : Nat} {s s' : Stage} (h : Emits job d s code s') :
    .halt ∉ code := by
  induction h
  all_goals simp_all [printCode, Instruction.negate]

-- Only behind the entry does the machine stop.
theorem Links.op_ne_halt {i : Instruction} (h : Links naming functions entry p n)
    (hs : p.Section name line code) (hi : i ∈ code) : i.op ≠ .halt := by
  intro ho
  obtain rfl : i = .halt := by cases i <;> simp [Instruction.op] at ho ⊢
  obtain ⟨_, first, tail, _, _, -, rfl, hf, hd⟩ := h.section hs
  obtain ⟨_, _, _, _, body, _, -, -, -, he, hc⟩ := hd.inv
  cases hc
  have := he.halt_not_mem
  rcases hf with rfl | rfl <;> simp_all

-- If all functions have a return that is always reached, their code has one.
theorem Links.returning (h : Links naming functions entry p n)
    (hf : ∀ f ∈ functions, ∀ body ∈ f.children[1]?, body.Returns) :
    ∀ r ∈ p.routines, Returning r.code := by
  intro r hr
  obtain ⟨i, hi⟩ := List.getElem?_of_mem hr
  obtain ⟨_, _, _, _, hrs, rfl⟩ := h
  obtain ⟨f, _, _, hm, hd⟩ := hrs.getElem? hi
  obtain ⟨_, _, body, _, tail, _, rfl, -, -, he, hc⟩ := hd.inv
  have hb : Returning tail := he.returning (hf _ (List.mem_of_getElem? hm) body rfl)
  rw [hc, ← List.append_nil tail, ← List.append_assoc]
  exact .after (.of_forall (by simp [Instruction.jumpTarget?])) hb []

end Lower

namespace Program

-- A line of a function at which its return is still to come.
def Active (p : Program) (k : Nat) : Prop :=
  ∃ i r pre post, p.routines[i]? = some r ∧ r.code = pre ++ .ret :: post ∧
    Closed (fun _ => 0) [] pre [] ∧
    p.start i ≤ k ∧ k ≤ p.start i + pre.length

-- Control is in the entry if no call is pending and in a function otherwise, and so it was before
-- each of them.
inductive Pending (p : Program) : Nat → List Nat → Prop
  | entry {k} : k ≤ 0 + p.entry.length → Pending p k []
  | call {k back calls} : p.Active k → Pending p back calls → Pending p k (back :: calls)

end Program

namespace Lower

section

variable {naming : Naming} {functions : List Node} {entry : Node} {p : Program} {n : Nat}
  {img : Image} {op : Op} {s s' : State} (h : Links naming functions entry p n)
  (hh : img.Holds p.instructions)

include h hh

theorem Links.pending_step (hr : ∀ r ∈ p.routines, Returning r.code) (hp : p.Pending s.pc s.calls)
    (ho : img.ops[s.pc]? = some op) (hs : img.step s op = .ok (.running s')) (ha : p.Aims img s) :
    p.Pending s'.pc s'.calls := by
  have hf := Image.flow_of_step hs
  have hback (hb : s.calls = s'.pc :: s'.calls) : p.Pending s'.pc s'.calls := by
    rw [hb] at hp
    cases hp
    case call hp => exact hp
  have hcall (hn : p.Pending (s.pc + 1) s.calls) (ht : op.Transfers) :
      p.Pending s'.pc s'.calls := by
    rcases hf with ⟨hn, -⟩ | ⟨hn, -⟩ | ⟨hp, hcs⟩ | hb
    · contradiction
    · contradiction
    · obtain ⟨i, hi, ha⟩ := ha.target ho
      obtain ⟨pre, post, hcode, hclosed⟩ := hr _ (List.getElem_mem hi)
      rw [hp, hcs, ha]
      exact .call
        ⟨i, _, pre, post, List.getElem?_eq_getElem hi, hcode, hclosed, by omega, by omega⟩ hn
    · exact hback hb
  rcases hcs : s.calls with _ | ⟨back, calls⟩ <;> rw [hcs] at hp hcall
  · have hle : s.pc ≤ 0 + p.entry.length := by
      cases hp
      case entry hle => exact hle
    rcases Nat.lt_or_eq_of_le hle with hlt | heq
    · rcases (h.encloses hh .entry).flow (Nat.zero_le _) hlt ho hf with ht | ⟨-, hu, hcs'⟩
      · exact hcall (.entry hlt) ht
      · rw [hcs', hcs]
        exact .entry hu
    · rw [heq, op_behind_entry hh] at ho
      cases ho
      cases hs
  · cases hp
    case call ha hp =>
    obtain ⟨i, r, pre, post, hi, hcode, hclosed, hl, hu⟩ := ha
    have hhas := (h.encloses hh (.routine hi)).has
    rw [hcode] at hhas
    rcases Nat.lt_or_eq_of_le hu with hlt | heq
    · rcases Image.Encloses.flow ⟨hhas.left, hclosed⟩ hl hlt ho hf with ht | ⟨hl', hu', hcs'⟩
      · exact hcall (.call ⟨i, r, pre, post, hi, hcode, hclosed, by omega, hlt⟩ hp) ht
      · rw [hcs', hcs]
        exact .call ⟨i, r, pre, post, hi, hcode, hclosed, hl', hu'⟩ hp
    · rw [heq, hhas.right.op] at ho
      cases ho
      rcases hf with ⟨hn, -⟩ | ⟨hn, -⟩ | - | hb
      · exact absurd trivial hn
      · exact absurd trivial hn
      · exact hback hb

theorem Links.pending_steps {t : State} {m : Nat} (hr : ∀ r ∈ p.routines, Returning r.code)
    (hp : p.Pending s.pc s.calls) (hst : img.Steps m s t)
    (ha : ∀ k u, img.Steps k s u → p.Aims img u) :
    p.Pending t.pc t.calls := by
  induction hst
  case refl => exact hp
  case step ho hs _ hi =>
    exact hi (h.pending_step hh hr hp ho hs (ha 0 _ .refl)) fun k u hu =>
      ha (k + 1) u (.step ho hs hu)

omit hh in
-- No function has been left at its end.
theorem Links.not_behind {i : Nat} (hp : p.Pending s.pc s.calls) (hi : i + 1 < functions.length) :
    s.pc + 1 ≠ p.start (i + 1) := by
  rw [← h.length_routines] at hi
  have hr := List.getElem?_eq_getElem (Nat.lt_of_succ_lt hi)
  have hs := Program.start_succ hr
  intro he
  have hb : p.Belongs (Label.function (toString i)).name s.pc :=
    ⟨_, _, .routine hr, by omega, by omega⟩
  generalize s.calls = calls at hp
  rcases hp with hu | ⟨⟨j, r, pre, post, hj, hcode, -, hl, hu⟩, -⟩
  · have := p.entry_lt_start i
    omega
  · have hlen : r.code.length = pre.length + (post.length + 1) := by simp [hcode]
    have hb' : p.Belongs (Label.function (toString j)).name s.pc :=
      ⟨_, _, .routine hj, hl, by omega⟩
    obtain rfl := Label.function_inj (Label.ext (hb.unique hb'))
    obtain rfl := Option.some.inj (hj.symm.trans hr)
    omega

theorem Links.not_stops (hp : p.Pending s.pc s.calls) (hc : s.calls ≠ []) : ¬img.Stops s := by
  intro he
  generalize hcs : s.calls = calls at hp hc
  rcases hp with - | ⟨⟨i, r, pre, post, hi, hcode, -, hl, hu⟩, -⟩
  · exact hc rfl
  · obtain ⟨k, hk⟩ := Nat.exists_eq_add_of_le hl
    have hlt : k < r.code.length := by
      simp only [hcode, List.length_append, List.length_cons]
      omega
    have ho := ((h.encloses hh (.routine hi)).has k _ (List.getElem?_eq_getElem hlt)).left
    rw [← hk] at ho
    obtain ⟨s', hs⟩ := he _ ho
    rcases Image.step_cases hs with ⟨_, ⟨⟩, -⟩ | ⟨_, -, hop | ⟨-, hs⟩⟩
    · exact h.op_ne_halt (.routine hi) (List.getElem_mem hlt) hop
    · exact hc (hcs.symm.trans hs)

end

end Lower

-- From here control passes to another definition by a call or a return only, and a call is handed
-- back before the run ends.
structure Program.Disciplined (p : Program) (img : Image) (s : State) : Prop where
  crosses {name name' op s'} : p.Crosses img name name' op s s' → op.Transfers
  back {callee s₁ n t} : img.ops[s.pc]? = some (.callValue callee) →
    img.step s (.callValue callee) = .ok (.running s₁) → img.Steps n s₁ t →
    (∃ k v, k ≤ n ∧ img.Steps k s₁ v ∧ v.pc = s.pc + 1 ∧ v.calls = s.calls) ∨
      ((s.pc + 1) :: s.calls <:+ t.calls ∧ ¬img.Stops t)

-- Short of calls and returns, control passes between definitions in one way: it falls from the end
-- of a function into the next one. It does not if all functions have a return that is always
-- reached, and nothing else is called.
theorem compile_crosses {naming : Naming} {functions : List Node} {entry : Node} {p : Program}
    {img : Image} (h : compile naming functions entry = .ok p)
    (hr : ∀ f ∈ entry :: functions, ∀ c ∈ f.children, c.Every Node.Readable)
    (hl : Image.load p.text = .ok img) :
    (∀ name s, (∃ name' op s', p.Crosses img name name' op s s' ∧ ¬op.Transfers) ↔
      ∃ i, i + 1 < functions.length ∧ name = (Label.function (toString i)).name ∧
        s.pc + 1 = p.start (i + 1)) ∧
    ((∀ f ∈ functions, ∀ body ∈ f.children[1]?, body.Returns) →
      (∀ n s, img.Steps n {} s → p.Aims img s) →
      ∀ n s, img.Steps n {} s → p.Disciplined img s) := by
  obtain ⟨g, hg⟩ := compile_eq_ok_iff.mp h
  have hlinks := program_sound hg
  obtain ⟨_, hl', hh⟩ := hlinks.load_readable hr
  obtain rfl := Except.ok.inj (hl'.symm.trans hl)
  refine ⟨fun name s => hlinks.falls_iff hh, fun hret haims n s hs => ?_⟩
  have hpending {m t} (ht : Image.Steps _ m {} t) : p.Pending t.pc t.calls :=
    hlinks.pending_steps hh (hlinks.returning hret) (.entry (Nat.zero_le _)) ht haims
  refine ⟨fun {name name' op s'} hc => ?_, fun {callee s₁ m t} ho hs₁ ht => ?_⟩
  · by_contra hn
    obtain ⟨i, hi, -, hp⟩ := (hlinks.falls_iff hh).mp ⟨name', op, s', hc, hn⟩
    exact hlinks.not_behind (hpending hs) hi hp
  · have hcs : (s.pc + 1) :: s.calls <:+ s₁.calls := by
      cases hs₁
      exact List.suffix_refl _
    refine (Image.pending_or_back ht hcs).imp_right fun hsuf => ⟨hsuf, ?_⟩
    refine hlinks.not_stops hh (hpending (hs.trans (.step ho hs₁ ht))) ?_
    rintro hnil
    simp [hnil] at hsuf

-- A function calls another one, which has two returns.
theorem compile_crosses_nested :
    let n     := Node.ident "n"
    let next  := Node.function ["n"]
      (.block [.ifThen (.infixOp ">" n (.number "0")) (.returns [n]), .returns [n]])
    let first := Node.function ["n"]
      (.block [.assign (.ident "g") (.functionRef 1), .returns [.call "g" [n]]])
    let entry := Node.function []
      (.block [.assign (.ident "f") (.functionRef 0), .call "f" [.number "3"]])
    ∃ p img, compile .verbatim [first, next] entry = .ok p ∧ Image.load p.text = .ok img ∧
      ∀ n s, img.Steps n {} s → p.Disciplined img s := by
  intro n next first entry
  have hr : ∀ f ∈ [entry, first, next], ∀ c ∈ f.children, c.Every Node.Readable := by decide +kernel
  have hrun : ∃ p ∈ (compile .verbatim [first, next] entry).toOption,
      (Image.ofCode p.instructions).after? 28 {} = none ∧
      ∀ k < 28, ∀ s ∈ (Image.ofCode p.instructions).after? k {},
        p.Aims (.ofCode p.instructions) s := by
    decide +kernel
  obtain ⟨p, hp, hb, ha⟩ := hrun
  have hc := eq_ok_of_toOption hp
  obtain ⟨g, hg⟩ := compile_eq_ok_iff.mp hc
  have hl := ((program_sound hg).load_ofCode hr).left
  have hbodies : ∀ f ∈ [first, next], ∀ body ∈ f.children[1]?, body.Returns := by
    intro f hf body hm
    rcases List.mem_pair.mp hf with rfl | rfl <;> cases hm
    · exact .block (List.mem_cons_of_mem _ List.mem_cons_self) .returns
    · exact .block (List.mem_cons_of_mem _ List.mem_cons_self) .returns
  exact ⟨p, _, hc, hl,
    (compile_crosses hc hr hl).right hbodies fun n s hs => Image.forall_steps hb ha hs⟩

-- A function without a return is called, and what is printed is printed by the next one.
theorem falls_into_next :
    let first := Node.function [] (.block [.assign (.ident "x") (.number "1")])
    let next  := Node.function [] (.block [.call "print" [.number "7"], .returns [.number "2"]])
    let entry := Node.function [] (.block [.assign (.ident "f") (.functionRef 0), .call "f" []])
    ∃ p img n s, compile .verbatim [first, next] entry = .ok p ∧ Image.load p.text = .ok img ∧
      img.Steps n {} s ∧
      (∃ name op s', p.Crosses img "fn0" name op s s' ∧ ¬op.Transfers) ∧
      img.run.map (·.output) = .ok #[7] := by
  intro first next entry
  have hr : ∀ f ∈ [entry, first, next], ∀ c ∈ f.children, c.Every Node.Readable := by decide +kernel
  have hrun : ∃ p ∈ (compile .verbatim [first, next] entry).toOption,
      (∃ s ∈ (Image.ofCode p.instructions).after? 5 {}, s.pc + 1 = p.start 1) ∧
      (Image.ofCode p.instructions).run.map (·.output) = .ok #[7] := by
    decide +kernel
  obtain ⟨p, hp, ⟨s, hs, hpc⟩, hout⟩ := hrun
  have hc := eq_ok_of_toOption hp
  obtain ⟨g, hg⟩ := compile_eq_ok_iff.mp hc
  obtain ⟨hl, hh⟩ := (program_sound hg).load_ofCode hr
  exact ⟨p, _, 5, s, hc, hl, Image.steps_iff.mpr hs,
    ((program_sound hg).falls_iff hh).mpr ⟨0, by decide, rfl, hpc⟩, hout⟩

end LineCode

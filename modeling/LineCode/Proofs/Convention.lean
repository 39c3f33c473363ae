import LineCode.Proofs.Aliasing
import LineCode.Proofs.Isolation
import LineCode.Proofs.Occurrences

namespace LineCode

open Lower Machine Source

namespace Symbols

variable {s : Symbols} {f : Frame} {x y name : String}

theorem Single.resolve_under (h : s.Single (Frame.Owned name)) (x : String) :
    (s.resolve x).fst.Under name := by
  refine (h.inFrame fun f hf => ?_).left
  split
  case h_1 hl => exact ⟨hf.binds.lookup hl, hf⟩
  case h_2    => exact ⟨hf.nextSlot _, hf.bindOuter _⟩

-- The registers that an identifier may be given.
def Slot (s : Symbols) (x : String) (r : Register) : Prop :=
  match s.naming, s.frames with
  | .scoped, f :: _ => ∃ n, r = f.slot x n
  | _, _            => r = .named x

theorem Slot.inj {r : Register} {r' : Register} (h : s.Slot x r) (h' : s.Slot y r')
    (hx : '.' ∉ x.toList) (hy : '.' ∉ y.toList) (hr : r.name = r'.name) : x = y := by
  obtain ⟨naming, frames⟩ := s
  match naming, frames with
  | .verbatim, _ | .scoped, [] =>
    obtain rfl : r = .named x := h
    obtain rfl : r' = .named y := h'
    exact hr
  | .scoped, f :: frames =>
    obtain ⟨m, rfl⟩ := h
    obtain ⟨n, rfl⟩ := h'
    have hs : f.slot x m = f.slot y n := by
      cases m <;> cases n <;> exact congrArg Register.named hr
    exact (Frame.slot_inj hx hy hs).left

theorem declareParameter_slot (s : Symbols) (x : String) : s.Slot x (s.declareParameter x).fst := by
  obtain ⟨naming, frames⟩ := s
  match naming, frames with
  | .verbatim, _ | .scoped, [] => rfl
  | .scoped, f :: frames       => exact ⟨_, rfl⟩

theorem declareParameter_slots (s : Symbols) (x : String) :
    (s.declareParameter x).snd.Slot = s.Slot := by
  obtain ⟨naming, frames⟩ := s
  match naming, frames with
  | .verbatim, _ | .scoped, [] => rfl
  | .scoped, f :: frames =>
    have hf : (f.bindOuter x).slot = f.slot := Frame.slot_congr rfl
    funext y r
    simp only [Slot, declareParameter, inFrame, hf]

-- No block is open.
def Flat (s : Symbols) : Prop := ∀ f ∈ s.frames.head?, f.blocks = []

theorem Flat.enter (s : Symbols) (name : String) : (s.enter name).Flat := by
  rintro f ⟨⟩
  rfl

theorem Flat.declareParameter (h : s.Flat) (x : String) : (s.declareParameter x).snd.Flat := by
  obtain ⟨naming, frames⟩ := s
  match naming, frames with
  | .verbatim, _ | .scoped, [] => exact h
  | .scoped, f :: frames =>
    intro f' hf
    cases hf
    exact h f rfl

-- A parameter is known by the slot that was made for it last.
theorem resolve_declareParameter_self (h : s.Flat) (x : String) :
    ((s.declareParameter x).snd.resolve x).fst = (s.declareParameter x).fst := by
  obtain ⟨naming, frames⟩ := s
  match naming, frames with
  | .verbatim, _ | .scoped, [] => rfl
  | .scoped, f :: frames =>
    have hb : f.blocks.findSome? (·.lookup x) = none := by simp [h f rfl]
    simp only [resolve, Symbols.declareParameter, inFrame, Frame.lookup?_bindOuter_self hb]

theorem resolve_declareParameter_of_ne (h : x ≠ y) :
    ((s.declareParameter y).snd.resolve x).fst = (s.resolve x).fst := by
  obtain ⟨naming, frames⟩ := s
  match naming, frames with
  | .verbatim, _ | .scoped, [] => rfl
  | .scoped, f :: frames =>
    simp only [resolve, declareParameter, inFrame, Frame.lookup?_bindOuter_of_ne h]
    cases f.lookup? x
    case some => rfl
    case none => exact Frame.nextSlot_bindOuter h

end Symbols

namespace Lower

section

variable {ps : List Node} {s : Symbols}

theorem length_parameterSlots (ps : List Node) (s : Symbols) :
    (parameterSlots ps s).length = ps.length := by
  induction ps generalizing s
  case nil          => rfl
  case cons p ps hi => exact congrArg (· + 1) (hi _)

theorem parameterSlots_slot {i : Nat} {p : Node} {r : Register} (hp : ps[i]? = some p)
    (hr : (parameterSlots ps s)[i]? = some r) : s.Slot p.text r := by
  induction ps generalizing i s
  case nil => contradiction
  case cons q ps hi =>
    cases i
    case zero =>
      obtain rfl := Option.some.inj hp
      obtain rfl := Option.some.inj hr
      exact s.declareParameter_slot q.text
    case succ i => exact s.declareParameter_slots q.text ▸ hi hp hr

theorem resolve_parameterSymbols_of_ne {x : String} (h : ∀ p ∈ ps, p.text ≠ x) :
    ((parameterSymbols ps s).resolve x).fst = (s.resolve x).fst := by
  induction ps generalizing s
  case nil => rfl
  case cons p ps hi =>
    rw [List.forall_mem_cons] at h
    rw [parameterSymbols, hi h.right, Symbols.resolve_declareParameter_of_ne h.left.symm]

-- The body of a definition knows a parameter by its slot, unless a later one has the same name.
theorem resolve_parameterSymbols {i : Nat} {p : Node} (hs : s.Flat) (hp : ps[i]? = some p)
    (hl : ∀ j q, i < j → ps[j]? = some q → q.text ≠ p.text) :
    (parameterSlots ps s)[i]? = some ((parameterSymbols ps s).resolve p.text).fst := by
  induction ps generalizing i s
  case nil => contradiction
  case cons p' ps hi =>
    cases i
    case zero =>
      obtain rfl := Option.some.inj hp
      have hne : ∀ q ∈ ps, q.text ≠ p'.text := by
        intro q hq
        obtain ⟨j, hj⟩ := List.getElem?_of_mem hq
        exact hl (j + 1) q (Nat.succ_pos j) hj
      rw [parameterSymbols, resolve_parameterSymbols_of_ne hne,
        Symbols.resolve_declareParameter_self hs]
      rfl
    case succ i =>
      exact hi (hs.declareParameter p'.text) hp fun j q hj hq =>
        hl (j + 1) q (Nat.succ_lt_succ hj) hq

end

-- What symbols keep in either naming, as long as there is no definition in a definition.
section

theorem Vocabulary.forget {I : Symbols → Prop} {U B : String → Prop} {P : Register → Prop}
    {L : Label → Prop} {W : String → Prop} (v : Vocabulary I U B P L W) :
    Vocabulary I U B (fun _ => True) (fun _ => True) fun _ => True where
  resolve hs hu := ⟨trivial, (v.resolve hs hu).right⟩
  declare hs hb := ⟨trivial, (v.declare hs hb).right⟩
  openBlock     := v.openBlock
  closeBlock    := v.closeBlock
  temp _        := trivial
  sink          := trivial
  numbered _    := trivial
  zero          := trivial

theorem verbatim_vocabulary :
    Vocabulary (·.naming = .verbatim) (fun _ => True) (fun _ => True) (fun _ => True)
    (fun _ => True) fun _ => True where
  resolve hs _  := ⟨trivial, (Symbols.inFrame_naming ..).trans hs⟩
  declare hs _  := ⟨trivial, (Symbols.inFrame_naming ..).trans hs⟩
  openBlock hs  := (Symbols.Keeps.modifyFrame ..).naming.trans hs
  closeBlock hs := (Symbols.Keeps.modifyFrame ..).naming.trans hs
  temp _        := trivial
  sink          := trivial
  numbered _    := trivial
  zero          := trivial

variable {naming : Naming} {functions : List Node} {entry n : Node} {p : Program} {g g₀ : Generator}
  {line : Nat} {demand : Demand} {dst : Destination} {P : Node → Prop}

theorem Occurs.every (hp : program functions entry (.new naming) = .ok p g)
    (hn : n.kind ≠ .functionDefinition) (hc : ∀ f ∈ entry :: functions, ∀ c ∈ f.children, c.Every P)
    (h : Occurs naming functions entry p (.job (.node n demand dst)) g₀ line) : n.Every P := by
  obtain ⟨name, token, params, body, rest, g₁, hl, -, -, hs⟩ := h.body hp hn
  exact every_of_starts hs (hc _ hl.mem body (by simp))

-- Where a variable is used, its register cannot be mistaken for a temporary.
theorem Occurs.apart (hp : program functions entry (.new naming) = .ok p g)
    (hn : n.kind ≠ .functionDefinition)
    (hc : ∀ f ∈ entry :: functions, ∀ c ∈ f.children, c.Every (·.kind ≠ .functionDefinition))
    (h : Occurs naming functions entry p (.job (.node n demand dst)) g₀ line) {x : String}
    (hx : '.' ∉ x.toList) :
    (g₀.symbols.resolve x).fst.Apart := by
  obtain ⟨name, token, params, body, rest, g₁, hl, hp₁, hs₁, hs⟩ := h.body hp hn
  have hb : body.Every (·.kind ≠ .functionDefinition) := hc _ hl.mem body (by simp)
  cases naming
  case verbatim =>
    have hv : g₁.symbols.naming = .verbatim := hs₁ ▸ (parameterSymbols_keeps ..).naming
    have hv : g₀.symbols.naming = .verbatim := invariant_of_starts verbatim_vocabulary hs hp₁ hb hv
    rw [Symbols.resolve_verbatim hv]
    exact fun j => (Register.temp_name_ne hx j).symm
  have ho : g₁.symbols.Single (Frame.Owned name) := by
    rw [hs₁]
    refine (parameters_over (U := fun _ => True) (P := (·.Under name)) (fun s ident hs _ => ?_)
      (fun _ _ => trivial)
      (.enter (.empty name))).right
    exact hs.inFrame fun f hf => ⟨hf.nextSlot _, hf.bindOuter _⟩
  have ho := invariant_of_starts (local_vocabulary name).forget hs hp₁ hb ho
  exact (ho.resolve_under x).apart hl.ne_empty

end

end Lower

-- Registers have been given values, the first one first, and no others have changed but for spare
-- ones.
structure Receives (slots : List Register) (vs : List Int) (spare : String → Prop) (s s' : State) :
    Prop where
  last {i : Nat} {r : Register} {v : Int} : slots[i]? = some r → vs[i]? = some v →
    (∀ j q, i < j → slots[j]? = some q → q.name ≠ r.name) → s'.read r.name = v
  kept {x} : (∀ r ∈ slots, r.name ≠ x) → ¬spare x → s'.read x = s.read x

namespace Machine.Image

variable {img : Image} {s : State} {slots : List Register} {vs stack : List Int}

theorem steps_pops (hl : vs.length = slots.length) (hh : img.Has s.pc (slots.map .pop))
    (hs : s.stack = vs ++ stack) :
    ∃ s', img.Steps slots.length s s' ∧ s'.pc = s.pc + slots.length ∧ s'.stack = stack ∧
      s'.calls = s.calls ∧
      s'.output = s.output ∧ Receives slots vs (fun _ => False) s s' := by
  induction slots generalizing s vs
  case nil =>
    obtain rfl := List.eq_nil_of_length_eq_zero hl
    exact ⟨s, .refl, rfl, hs, rfl, rfl, by simp, fun _ _ => rfl⟩
  case cons r slots hi =>
    cases vs
    case nil => contradiction
    case cons v vs =>
      let s₁ := ({ s with stack := vs ++ stack }.write r.name v).tick
      have h₁ : img.Steps 1 s s₁ := .pop hh hs
      obtain ⟨s', h, hp, hst, hc, ho, hr⟩ := hi (s := s₁) (Nat.succ.inj hl) hh.tail rfl
      refine ⟨s', ?_, ?_, hst, hc, ho, ⟨?_, ?_⟩⟩
      · rw [List.length_cons, Nat.add_comm]
        exact h₁.trans h
      · have hp₁ : s₁.pc = s.pc + 1 := rfl
        rw [hp, hp₁, List.length_cons]
        omega
      · intro i q w hq hw hl
        cases i
        case zero =>
          obtain rfl := Option.some.inj hq
          obtain rfl := Option.some.inj hw
          -- The first value stays, because nothing else goes to its register.
          have hne : ∀ q ∈ slots, q.name ≠ r.name := by
            intro q hm
            obtain ⟨j, hj⟩ := List.getElem?_of_mem hm
            exact hl (j + 1) q (Nat.succ_pos j) hj
          exact (hr.kept hne id).trans (State.read_write_self ..)
        case succ i => exact hr.last hq hw fun j q hj hq => hl (j + 1) q (Nat.succ_lt_succ hj) hq
      · intro x hx _
        rw [List.forall_mem_cons] at hx
        exact (hr.kept hx.right id).trans (State.read_write_of_ne hx.left.symm ..)

-- A function takes its arguments off the stack.
theorem steps_begin (hb : img.ops[s.pc]? = some .label) (hh : img.Has (s.pc + 1) (slots.map .pop))
    (hl : vs.length = slots.length) (hs : s.stack = vs ++ stack) :
    ∃ s', img.Steps (1 + slots.length) s s' ∧ s'.pc = s.pc + 1 + slots.length ∧ s'.stack = stack ∧
      s'.calls = s.calls ∧ s'.output = s.output ∧ Receives slots vs (fun _ => False) s s' := by
  have h₁ : img.Steps 1 s s.tick := .single hb rfl
  obtain ⟨s', h₂, hp, hst, hc, ho, hr⟩ := steps_pops (s := s.tick) hl hh hs
  exact ⟨s', h₁.trans h₂, hp, hst, hc, ho, hr.last, hr.kept⟩

theorem steps_enter {callee : String} {line : Nat} (hc : img.ops[s.pc]? = some (.callValue callee))
    (ha : address (s.read callee) = line) (hb : img.ops[line]? = some .label)
    (hh : img.Has (line + 1) (slots.map .pop)) (hl : vs.length = slots.length)
    (hs : s.stack = vs ++ stack) :
    ∃ s', img.Steps (1 + (1 + slots.length)) s s' ∧ s'.pc = line + 1 + slots.length ∧
      s'.stack = stack ∧
      s'.calls = (s.pc + 1) :: s.calls ∧ s'.output = s.output ∧
      Receives slots vs (fun _ => False) s s' := by
  subst ha
  let s₁ : State :=
    { s with pc := address (s.read callee), calls := (s.pc + 1) :: s.calls, steps := s.steps + 1 }
  have h₁ : img.Steps 1 s s₁ := .callValue hc
  obtain ⟨s', h₂, hp, hst, hcs, ho, hr⟩ := steps_begin (s := s₁) hb hh hl hs
  exact ⟨s', h₁.trans h₂, hp, hst, hcs, ho, hr.last, hr.kept⟩

-- The value that a function has left is fetched.
theorem steps_fetch {t r : Register} {v : Int} (hh : img.Has s.pc [.pop t, .move t r])
    (hs : s.stack = v :: stack) :
    ∃ s', img.Steps 2 s s' ∧ s'.pc = s.pc + 2 ∧ s'.stack = stack ∧ s'.calls = s.calls ∧
      s'.output = s.output ∧
      s'.read r.name = v ∧ ∀ x, x ≠ r.name → x ≠ t.name → s'.read x = s.read x := by
  let s₁ := ({ s with stack }.write t.name v).tick
  let s₂ := (s₁.write r.name (s₁.read t.name)).tick
  have h₁ : img.Steps 1 s s₁ := .pop hh hs
  have h₂ : img.Steps 1 s₁ s₂ := .move hh.tail
  refine ⟨s₂, h₁.trans h₂, rfl, rfl, rfl, rfl, ?_, fun x hx ht => ?_⟩
  · rw [State.tick_read, State.read_write_self, State.tick_read, State.read_write_self]
  · exact (State.read_write_of_ne hx ..).trans (State.read_write_of_ne ht ..)

end Machine.Image

namespace Lower

variable {used : Nat → Prop} {ρ : String → Register}

theorem Appends.code {f : Lower Unit} {P : List Instruction → Prop} {g : Generator} {pool : Pool}
    {code : List Instruction} {s : Stage} (h : Appends used ρ f P) (hg : Ready used ρ g)
    (hf : f g = .ok () (g.after pool code s)) : P code := by
  obtain ⟨_, code', hf', -, hc, hp⟩ := h g hg
  rw [hf] at hf'
  cases hf'
  obtain rfl : code = code' := by simpa [Generator.after] using congrArg Array.toList hc
  exact hp

theorem Appends.callVariable (callee : String) (dst : Register) :
    Appends used ρ (callVariable callee dst) fun code =>
      ∃ j, ¬used j ∧ code = [.callValue (ρ callee), .pop (.temp j), .move (.temp j) dst] := by
  refine resolveThen <| (emit _).seq (withTemp fun j _ => (emit _).seq (emit _)) |>.imp ?_
  rintro _ ⟨_, _, rfl, ⟨j, hj, _, _, rfl, rfl, rfl⟩, rfl⟩
  exact ⟨j, hj, rfl⟩

-- The code of a call whose arguments call nothing.
theorem appends_call {token token' : Token} {target : Node} {ns rest : List Node}
    (hk : target.kind = .identifier) (ht : target.text ≠ printName)
    (hn : ∀ n ∈ ns, Arithmetic (fun x => (ρ x).Apart) n) (demand : Demand) (dst : Destination) :
    Appends used ρ
      (lower ⟨.call, token, target :: ⟨.expressionList, token', ns⟩ :: rest⟩ demand dst) fun code =>
      ∃ i j code', ¬used i ∧ ¬used j ∧ InTurn (Using used i) ρ ns (.temp i) code' ∧
        code = code' ++ [.callValue (ρ target.text), .pop (.temp j),
          .move (.temp j) dst.target] := by
  show Appends used ρ (if target.kind = .identifier then Lower.call _ _ _ _ else _) _
  rw [if_pos hk]
  simp only [Lower.call, ht, if_false]
  have hj (j) : ¬Spare (Using used j) (Register.temp j).name := not_spare_temp (.inr rfl)
  have hn (j) := appends_pushArguments hn fun n hm => appends_lower (hn n hm) .value (hj j)
  refine Appends.within <| (Appends.withTemp fun j _ => hn j).seq (.callVariable _ _) |>.imp ?_
  rintro _ ⟨code', _, ⟨i, hi, h⟩, ⟨j, hj, rfl⟩, rfl⟩
  exact ⟨i, j, code', hi, hj, h, rfl⟩

-- Where the code of a function is, and how it starts.
theorem Links.function_code {naming : Naming} {functions : List Node} {entry params body : Node}
    {p : Program} {n k : Nat} {token : Token} {rest : List Node}
    (h : Links naming functions entry p n)
    (hk : functions[k]? = some ⟨.functionDefinition, token, params :: body :: rest⟩) :
    ∃ tail pre post, p.instructions = pre ++ (.label (.function (toString k)) ::
      (parameterSlots params.children
        (Symbols.enter { naming } (Label.function (toString k)).name)).map .pop ++ tail) ++
        post ∧ pre.length = p.start k ∧ ∀ p ∈ params.children, p.kind = .identifier := by
  have hlt : k < p.routines.length := h.length_routines ▸ (List.getElem?_eq_some_iff.mp hk).fst
  obtain ⟨code, l, rs, hd, hr, rfl⟩ := h
  obtain ⟨r, hrs⟩ : ∃ r, rs[k]? = some r := ⟨_, List.getElem?_eq_getElem hlt⟩
  obtain ⟨f, l₁, l₂, hf, hdf⟩ := hr.getElem? hrs
  rw [Nat.zero_add] at hdf
  obtain rfl := Option.some.inj (hk.symm.trans hf)
  obtain ⟨_, _, _, _, tail, _, hn, -, hps, -, hc⟩ := hdf.inv
  cases hn
  have hs : (Program.link code rs).Section _ _ r.code := .routine hrs
  obtain ⟨pre, last, post, hi, hp, -, -⟩ := hs.split
  rw [hc] at hi
  exact ⟨tail, pre, last :: post, hi, hp, hps⟩

end Lower

namespace Source

section

variable {X : String → Prop} {e : Node} {ns : List Node} {m m' : Memory} {v : Int} {vs : List Int}

theorem Arithmetic.imp {Y : String → Prop} (h : Arithmetic X e) (hi : ∀ x, X x → Y x) :
    Arithmetic Y e := by
  induction h
  case literal hl          => exact .literal hl
  case identifier hx       => exact .identifier (hi _ hx)
  case binary ho _ _ hl hr => exact .binary ho hl hr
  case print hk ht _ hn    => exact .print hk ht hn

theorem Arithmetic.memory_eq (h : Arithmetic X e) (hc : e.Every (·.kind ≠ .call))
    (he : expression closed e m = .ok (v, m')) : m' = m := by
  induction h generalizing m m' v
  case literal hl =>
    simp only [expression, hl, pure, StateT.pure, Except.pure, Except.ok.injEq, Prod.mk.injEq] at he
    exact he.right.symm
  case identifier =>
    cases he
    rfl
  case binary ho _ _ hl hr =>
    obtain ⟨a, m₁, b, h₁, h₂, -⟩ := binary_eq_ok ho he
    rw [hr (hc.child (by simp)) h₂, hl (hc.child (by simp)) h₁]
  case print => exact absurd rfl hc.self

-- Expressions that print nothing may be evaluated in any order.
theorem arguments_eq_ok (hn : ∀ n ∈ ns, Arithmetic X n ∧ n.Every (·.kind ≠ .call))
    (h : List.Forall₂ (fun e v => (expression closed e m).toOption.map (·.fst) = some v) ns vs) :
    arguments closed ns m = .ok (vs, m) := by
  induction h
  case nil => rfl
  case cons n v ns vs hv _ hi =>
    rw [List.forall_mem_cons] at hn
    rcases he : expression closed n m with _ | ⟨v', m'⟩ <;> rw [he] at hv <;> cases hv
    obtain rfl := hn.left.left.memory_eq hn.left.right he
    rw [arguments_cons]
    show (arguments closed ns m' >>= fun am => _) = _
    rw [hi hn.right]
    show (expression closed n m' >>= fun am => _) = _
    rw [he]
    rfl

end

end Source

-- The body of a function is about to be executed, with these values for its parameters.
structure Entered (ps : List Node) (symbols : Symbols) (line : Nat) (vs stack : List Int)
    (calls : List Nat) (spare : String → Prop) (s s' : State) : Prop where
  pc        : s'.pc = line + 1 + ps.length
  stack     : s'.stack = stack
  calls     : s'.calls = calls
  output    : s'.output = s.output
  receives  : Receives (parameterSlots ps symbols) vs spare s s'
  parameter {i : Nat} {q : Node} {v : Int} : ps[i]? = some q → vs[i]? = some v →
    (∀ j p, i < j → ps[j]? = some p → p.text ≠ q.text) →
    s'.read ((parameterSymbols ps symbols).resolve q.text).fst.name = v

theorem Receives.value {slots : List Register} {vs : List Int} {spare : String → Prop}
    {s s' : State} {i : Nat} {r : Register} {v : Int} (h : Receives slots vs spare s s')
    (hd : slots.Pairwise (·.name ≠ ·.name)) (hr : slots[i]? = some r) (hv : vs[i]? = some v) :
    s'.read r.name = v := by
  refine h.last hr hv fun j q hj hq he => ?_
  obtain ⟨hi, rfl⟩ := List.getElem?_eq_some_iff.mp hr
  obtain ⟨hj', rfl⟩ := List.getElem?_eq_some_iff.mp hq
  exact List.pairwise_iff_getElem.mp hd i j hi hj' hj he.symm

-- The value of an argument is found where the body looks for its parameter, unless a later
-- parameter has the same name.
theorem Receives.parameter {ps : List Node} {symbols : Symbols} {vs : List Int}
    {spare : String → Prop} {s s' : State} {i : Nat} {q : Node} {v : Int}
    (h : Receives (parameterSlots ps symbols) vs spare s s') (hf : symbols.Flat)
    (hn : ∀ p ∈ ps, '.' ∉ p.text.toList) (hq : ps[i]? = some q) (hv : vs[i]? = some v)
    (hl : ∀ j p, i < j → ps[j]? = some p → p.text ≠ q.text) :
    s'.read ((parameterSymbols ps symbols).resolve q.text).fst.name = v := by
  have hs := resolve_parameterSymbols hf hq hl
  refine h.last hs hv fun j r hj hr he => ?_
  have hlt : j < ps.length :=
    length_parameterSlots ps symbols ▸ (List.getElem?_eq_some_iff.mp hr).fst
  have hp : ps[j]? = some ps[j] := List.getElem?_eq_getElem hlt
  refine hl j ps[j] hj hp ?_
  exact (parameterSlots_slot hp hr).inj (parameterSlots_slot hq hs) (hn _ (List.mem_of_getElem? hp))
    (hn _ (List.mem_of_getElem? hq)) he

namespace Lower

section

variable {img : Image} {used : Nat → Prop} {ρ : String → Register} {s : State} {stack vs : List Int}
  {i : Nat}

-- From the arguments of a call to the body of the function.
theorem runs_into {ns : List Node} {callee : String} {args tail : List Instruction} {l : Label}
    {slots : List Register} {m : Memory} {line : Nat}
    (hargs : InTurn (Using used i) ρ ns (.temp i) args) (hi : ¬used i) (hc : (ρ callee).Apart)
    (hh : img.Has s.pc (args ++ .callValue (ρ callee) :: tail))
    (he : arguments closed ns ⟨fun x => s.read (ρ x).name, s.output⟩ = .ok (vs, m))
    (hb : img.Has line (.label l :: slots.map .pop)) (ha : address (s.read (ρ callee).name) = line)
    (hl : slots.length = ns.length) :
    ∃ n s', img.Steps n s s' ∧ s'.pc = line + 1 + slots.length ∧ s'.stack = s.stack ∧
      s'.calls = (s.pc + args.length + 1) :: s.calls ∧ s'.output = m.output ∧
      Receives slots vs (Spare used) s s' := by
  obtain ⟨s₁, hs, hout, hst, hlen⟩ := hargs hh.left ⟨fun _ _ => rfl, rfl⟩ he
  have hkept {x} (hx : ¬Spare used x) : s₁.read x = s.read x :=
    hs.kept x (fun he => hx ⟨i, hi, he⟩) fun h => hx h.of_using
  have hop : img.ops[s₁.pc]? = some (.callValue (ρ callee).name) := (hh.right.of_eq hs.pc.symm).op
  obtain ⟨s', h, hp, hst', hcalls, hout', hr⟩ :=
    Image.steps_enter hop ((congrArg address (hkept hc.not_spare)).trans ha) hb.op hb.tail
      (hlen.trans hl.symm) hst
  refine ⟨_, s', hs.steps.trans h, hp, hst', ?_, hout'.trans hout, hr.last, fun hx hsp => ?_⟩
  · rw [hcalls, hs.pc, hs.calls]
  · exact (hr.kept hx id).trans (hkept hsp)

-- From the return of a function to the end of the call.
theorem runs_back {r : Register} {back : Nat} {calls : List Nat} {v : Int} (hi : ¬used i)
    (hh : img.Has back [.pop (.temp i), .move (.temp i) r]) (hr : img.ops[s.pc]? = some .ret)
    (hc : s.calls = back :: calls) (hs : s.stack = v :: stack) :
    ∃ s', img.Steps 3 s s' ∧ s'.pc = back + 2 ∧ s'.stack = stack ∧ s'.calls = calls ∧
      s'.output = s.output ∧
      s'.read r.name = v ∧ ∀ x, x ≠ r.name → ¬Spare used x → s'.read x = s.read x := by
  let s₁ : State := { s with pc := back, calls, steps := s.steps + 1 }
  have h₁ : img.Steps 1 s s₁ := .ret hr hc
  obtain ⟨s', h, hp, hst, hcalls, hout, hv, hk⟩ := Image.steps_fetch (s := s₁) hh hs
  exact ⟨s', h₁.trans h, hp, hst, hcalls, hout, hv,
    fun x hx hsp => hk x hx fun he => hsp ⟨i, hi, he⟩⟩

end

-- A call from anywhere in a program comes to the code behind the parameters of the function, each
-- of which has its argument. A return with one more value on the stack takes the value to where the
-- call should leave it.
theorem compile_call {naming : Naming} {functions : List Node} {entry target params body : Node}
    {p : Program} {img : Image} {token token' token'' : Token} {ns rest rest' : List Node}
    {demand : Demand} {dst : Destination} {g : Generator} {line k : Nat}
    (hc : compile naming functions entry = .ok p)
    (hf : ∀ f ∈ entry :: functions, ∀ c ∈ f.children, c.Every Fit)
    (hload : Image.load p.text = .ok img)
    (ho : Occurs naming functions entry p
      (.job (.node ⟨.call, token, target :: ⟨.expressionList, token', ns⟩ :: rest⟩ demand dst)) g
        line) (ht : target.kind = .identifier) (hu : target.text ≠ printName)
    (hn : ∀ n ∈ ns, Arithmetic Name n ∧ n.Every (·.kind ≠ .call))
    (hk : functions[k]? = some ⟨.functionDefinition, token'', params :: body :: rest'⟩)
    (hl : params.children.length = ns.length) :
    let label := Label.function (toString k)
    let scope := Symbols.enter { naming } label.name
    let ρ     := fun x => (g.symbols.resolve x).fst
    ∃ g' back, lower ⟨.call, token, target :: ⟨.expressionList, token', ns⟩ :: rest⟩ demand dst g
      = .ok () g' ∧
      back + 2 = line + (g'.code.size - g.code.size) ∧
      img.Has (p.start k) (.label label :: (parameterSlots params.children scope).map .pop) ∧
      ∀ s vs, s.pc = line →
        List.Forall₂
          (fun e v => (expression closed e ⟨fun x => s.read (ρ x).name, s.output⟩).toOption.map
            (·.fst) = some v)
          ns vs →
        img.line? label.name = some (address (s.read (ρ target.text).name)) →
        (∃ n s', img.Steps n s s' ∧
          Entered params.children scope (p.start k) vs s.stack (back :: s.calls)
          (Spare g.pool.Borrowed) s s') ∧
        ∀ u v, img.ops[u.pc]? = some .ret → u.calls = back :: s.calls → u.stack = v :: s.stack →
          ∃ u', img.Steps 3 u u' ∧ u'.pc = back + 2 ∧ u'.stack = s.stack ∧ u'.calls = s.calls ∧
            u'.output = u.output ∧
            u'.read dst.target.name = v ∧
            ∀ x, x ≠ dst.target.name → ¬Spare g.pool.Borrowed x → u'.read x = u.read x := by
  intro label scope ρ
  obtain ⟨g₁, hp⟩ := compile_eq_ok_iff.mp hc
  have hlinks := program_sound hp
  obtain ⟨_, hload', hh⟩ := hlinks.load_readable fun f hm c hc => (hf f hm c hc).imp fun _ =>
    Fit.readable
  obtain rfl := Except.ok.inj (hload'.symm.trans hload)
  have hcall : Node.Kind.call ≠ .functionDefinition := by decide
  have hapart (x) (hx : Name x) : (ρ x).Apart :=
    ho.apart hp hcall (fun f hm c hc => (hf f hm c hc).imp fun _ h => h.noDefinition) hx.noDot
  have htarget : Name target.text := (ho.every hp hcall hf).first.self.name ht
  -- The code of the call.
  obtain ⟨d, pool, code, st, pre, post, hd, hlow, -, hinst, rfl⟩ := ho.emits hp hcall
  have hready : Ready g.pool.Borrowed ρ g := ⟨hd.sound, fun _ => .rfl, fun _ => rfl⟩
  obtain ⟨i, j, args, hi, hj, hargs, rfl⟩ :=
    (appends_call ht hu (fun n hm => (hn n hm).left.imp hapart) demand dst).code hready hlow
  rw [hinst] at hh
  have hcode := Image.Has.of_holds hh
  rw [← hinst] at hh
  -- The code of the function.
  obtain ⟨tail, pre', post', hinst', hpre', hps⟩ := hlinks.function_code hk
  rw [hinst'] at hh
  have hfun :
      Image.Has _ (p.start k) (.label label :: (parameterSlots params.children scope).map .pop) :=
    (Image.Has.of_holds hh).left.of_eq hpre'
  have hslots := (length_parameterSlots params.children scope).trans hl
  have hdot : ∀ q ∈ params.children, '.' ∉ q.text.toList := by
    intro q hq
    have hfit := hf _ (List.mem_cons_of_mem _ (List.mem_of_getElem? hk)) params (by simp)
    exact ((hfit.child hq).self.name (hps q hq)).noDot
  refine ⟨_, pre.length + args.length + 1, hlow, ?_, hfun,
    fun s vs hpc hvs ha => ⟨?_, fun u v hr hc hs => ?_⟩⟩
  · simp [Generator.after]
    omega
  · have ha := Option.some.inj (ha.symm.trans hfun.line?)
    obtain ⟨n, s', h, hpc', hst, hcalls, hout, hrec⟩ :=
      runs_into hargs hi (hapart _ htarget) (hcode.of_eq hpc.symm)
      (arguments_eq_ok hn hvs) hfun ha hslots
    rw [length_parameterSlots] at hpc'
    exact ⟨n, s', h, hpc', hst, hpc ▸ hcalls, hout, hrec, hrec.parameter (.enter _ _) hdot⟩
  · exact runs_back hj hcode.right.tail hr hc hs

-- A left operand waits in a temporary, and two parameters have the same name.
theorem compile_call_repeated :
    let x         := Node.ident "x"
    let y         := Node.ident "y"
    let ns        := [x, .infixOp "*" y (.number "2"), .infixOp "-" x y]
    let functions := [Node.function ["a", "b", "a"] (.returns [.ident "a"])]
    let entry     := Node.function []
      (.block [.assign (.ident "r") (.infixOp "+" x (.call "f" ns))])
    let s : State :=
      { pc := 2, registers := ⟨[("main.x", 5), ("main.y", 7), ("main.f", 18), (".t0", 5)]⟩,
        stack := [9] }
    ∃ p img, compile .scoped functions entry = .ok p ∧ Image.load p.text = .ok img ∧
      (∃ n s', img.Steps n s s' ∧ s'.pc = 22 ∧ s'.stack = [9] ∧ s'.calls = [13] ∧
        s'.read "fn0.a" = 5 ∧
        s'.read "fn0.b" = 14 ∧ s'.read "fn0.a.1" = -2 ∧ s'.read "main.x" = 5 ∧ s'.read ".t0" = 5) ∧
      ∀ u v, img.ops[u.pc]? = some .ret → u.calls = [13] → u.stack = [v, 9] →
        ∃ u', img.Steps 3 u u' ∧ u'.pc = 15 ∧ u'.stack = [9] ∧ u'.read "main.r" = v := by
  intro x y ns functions entry s
  have hf : ∀ f ∈ entry :: functions, ∀ c ∈ f.children, c.Every Fit := by decide +kernel
  have hs : (compile .scoped functions entry).toOption.map (·.start 0) = some 18 := by
    decide +kernel
  obtain ⟨p, hc, hs⟩ := Option.map_eq_some_iff.mp hs
  have hc := eq_ok_of_toOption hc
  obtain ⟨g, dst, ho, hd⟩ :
      ∃ g dst, Occurs .scoped functions entry p (.job (.node (.call "f" ns) .any dst)) g 2 ∧
      dst.target.name = "main.r" ∧ g.pool.Borrowed 0 ∧
      (∀ g' ∈ final? (lower (.call "f" ns) .any dst) g, g'.code.size - g.code.size = 13) ∧
      address (s.read (g.symbols.resolve "f").fst.name) = 18 ∧
      List.Forall₂ (fun e v => (expression closed e
        ⟨fun x => s.read (g.symbols.resolve x).fst.name, s.output⟩).toOption.map (·.fst) = some v)
          ns [5, 14, -2] := by
    exact ⟨_, _, ⟨_, _, _, _, .entry, .head (.body rfl rfl) <| .head .statements <| .head .first <|
      .head (.assignment rfl) <| .head (.value rfl) <| .head (.operation (by decide)) <|
      .head (.right rfl rfl) .refl,
      by decide +kernel⟩, by decide +kernel⟩
  obtain ⟨hdst, hb, hsize, ha, hvs⟩ := hd
  have hid (x) (hx : Name x) : Arithmetic Name (.ident x) := .identifier hx
  have hx := hid "x" (by decide)
  have hy := hid "y" (by decide)
  have hn : ∀ n ∈ ns, Arithmetic Name n ∧ n.Every (·.kind ≠ .call) := by
    have ha : ∀ n ∈ ns, Arithmetic Name n := by
      simpa [ns] using ⟨hx, .binary rfl hy (.literal (v := 2) (by decide)), .binary rfl hx hy⟩
    exact fun n hm => ⟨ha n hm, (by decide +kernel : ∀ n ∈ ns, n.Every (·.kind ≠ .call)) n hm⟩
  obtain ⟨_, hp⟩ := compile_eq_ok_iff.mp hc
  obtain ⟨img, hload, -⟩ := (program_sound hp).load_readable fun f hm c hc =>
    (hf f hm c hc).imp fun _ => Fit.readable
  obtain ⟨g', back, hlow, hback, hfun, h⟩ :=
    compile_call (k := 0) hc hf hload ho rfl (by decide) hn rfl rfl
  have hsize := hsize g' (final?_eq_some hlow)
  obtain rfl : back = 13 := by omega
  obtain ⟨⟨n, s', hsteps, hpc, hst, hcalls, -, hrec, -⟩, hret⟩ :=
    h s _ rfl hvs (hfun.line?.trans (congrArg some (hs.trans ha.symm)))
  have hslots : parameterSlots [.ident "a", .ident "b", .ident "a"]
      (Symbols.enter ⟨.scoped, []⟩ "fn0")
      = [.named "fn0.a", .named "fn0.b", .named "fn0.a.1"] := by decide +kernel
  change Receives (parameterSlots [.ident "a", .ident "b", .ident "a"]
    (Symbols.enter ⟨.scoped, []⟩ "fn0")) _ _ _ _ at hrec
  rw [hslots] at hrec
  refine ⟨p, img, hc, hload, ⟨n, s', hsteps, hpc.trans (by rw [hs]; rfl), hst, hcalls, ?_⟩,
    fun u v hr hcs hu => ?_⟩
  · have hval {i : Nat} {r v} := @Receives.value _ _ _ _ _ i r v hrec (by decide)
    refine ⟨hval (i := 0) rfl rfl, hval (i := 1) rfl rfl, hval (i := 2) rfl rfl,
      hrec.kept (by decide) ?_,
      hrec.kept (by decide) (not_spare_temp hb)⟩
    exact (Register.Under.apart ⟨"x", rfl⟩ (by decide : "main" ≠ "")).not_spare
      (r := .named "main.x")
  · obtain ⟨u', hsu, hpu, hstu, -, -, hru, -⟩ := hret u v hr hcs hu
    exact ⟨u', hsu, hpu, hstu, hdst ▸ hru⟩

end Lower
end LineCode

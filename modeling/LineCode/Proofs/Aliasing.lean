import LineCode.Proofs.Balance
import LineCode.Proofs.Slots
import LineCode.Proofs.Expressions

namespace LineCode

open Lower Machine Source

namespace Frame

variable {f : Frame} {x y : String}

-- A variable that is made in the scope of the definition hides no other one, and is found there.
theorem lookup?_bindOuter_of_ne (h : x ≠ y) : (f.bindOuter y).lookup? x = f.lookup? x := by
  simp [lookup?, bindOuter, List.findSome?_append, List.lookup_cons, beq_eq_false_iff_ne.mpr h]

theorem lookup?_bindOuter_self (h : f.blocks.findSome? (·.lookup x) = none) :
    (f.bindOuter x).lookup? x = some (f.nextSlot x) := by
  simp [lookup?, bindOuter, List.findSome?_append, h]

theorem nextSlot_bindOuter (h : x ≠ y) : (f.bindOuter y).nextSlot x = f.nextSlot x := by
  simp only [nextSlot, bindOuter, List.count_cons_of_ne h.symm]
  cases f.slots.count x <;> rfl

end Frame

-- A variable that is looked up keeps its register, whatever else is looked up.
theorem Symbols.resolve_resolve (s : Symbols) (x y : String) :
    ((s.resolve y).snd.resolve x).fst = (s.resolve x).fst := by
  obtain ⟨naming, frames⟩ := s
  match naming, frames with
  | .verbatim, _ | .scoped, [] => rfl
  | .scoped, f :: frames =>
    simp only [resolve, inFrame]
    cases hy : f.lookup? y
    case some => rfl
    case none =>
      by_cases hx : x = y
      case pos =>
        subst hx
        have hb : f.blocks.findSome? (·.lookup x) = none := by
          rw [Frame.lookup?, List.findSome?_append, Option.or_eq_none_iff] at hy
          exact hy.left
        simp only [Frame.lookup?_bindOuter_self hb, hy]
      case neg =>
        simp only [Frame.lookup?_bindOuter_of_ne hx]
        cases f.lookup? x
        case some => rfl
        case none => exact Frame.nextSlot_bindOuter hx

-- The register cannot be mistaken for a temporary.
def Register.Apart (r : Register) : Prop := ∀ j, r.name ≠ (temp j).name

theorem Register.Under.apart {r : Register} {name : String} (h : r.Under name) (hn : name ≠ "") :
    r.Apart := by
  obtain ⟨rest, rfl⟩ := h
  intro j hj
  have hl : name.toList ++ '.' :: rest.toList = '.' :: 't' :: (toString j).toList := by
    simpa [Register.name] using congrArg String.toList hj
  cases hc : name.toList
  case nil => exact hn (String.toList_eq_nil_iff.mp hc)
  case cons c cs =>
    rw [hc, List.cons_append, List.cons.injEq] at hl
    have hd : '.' ∈ 't' :: (toString j).toList := hl.right ▸ (by simp)
    rw [List.mem_cons] at hd
    exact hd.elim (by decide) (noDot_toString j)

-- The names of the temporaries that are not in use.
def Spare (used : Nat → Prop) (x : String) : Prop := ∃ j, ¬used j ∧ x = (Register.temp j).name

section

variable {used : Nat → Prop} {j : Nat} {r : Register}

theorem Register.Apart.not_spare (h : r.Apart) : ¬Spare used r.name := by
  rintro ⟨j, -, hj⟩
  exact h j hj

theorem not_spare_temp (h : used j) : ¬Spare used (Register.temp j).name := by
  rintro ⟨i, hi, he⟩
  exact hi (Register.temp_name_inj he ▸ h)

-- The temporaries that are in use once another one has been borrowed.
def Using (used : Nat → Prop) (j : Nat) : Nat → Prop := fun i => used i ∨ i = j

theorem Spare.of_using {x : String} (h : Spare (Using used j) x) : Spare used x := by
  obtain ⟨i, hi, hx⟩ := h
  exact ⟨i, fun hu => hi (.inl hu), hx⟩

end

namespace Machine.Image

-- The machine executes a number of lines one after the other. At most one register and temporaries
-- that are not in use have changed, beside the stack and the output.
structure Straight (img : Image) (used : Nat → Prop) (r : Register) (n : Nat) (s s' : State) :
    Prop where
  steps    : img.Steps n s s'
  pc       : s'.pc = s.pc + n
  calls    : s'.calls = s.calls
  jumps    : s'.jumps = s.jumps
  branches : s'.branchesTaken = s.branchesTaken
  kept     : ∀ x, x ≠ r.name → ¬Spare used x → s'.read x = s.read x

namespace Straight

variable {img : Image} {used : Nat → Prop} {r r' : Register} {m n j : Nat} {s s₁ s₂ s' : State}

theorem refl (s : State) : img.Straight used r 0 s s :=
  ⟨.refl, rfl, rfl, rfl, rfl, fun _ _ _ => rfl⟩

theorem trans (h₁ : img.Straight used r m s s₁) (h₂ : img.Straight used r n s₁ s₂) :
    img.Straight used r (m + n) s s₂ where
  steps        := h₁.steps.trans h₂.steps
  pc           := by rw [h₂.pc, h₁.pc, Nat.add_assoc]
  calls        := h₂.calls.trans h₁.calls
  jumps        := h₂.jumps.trans h₁.jumps
  branches     := h₂.branches.trans h₁.branches
  kept x hx hs := (h₂.kept x hx hs).trans (h₁.kept x hx hs)

theorem write {v : Int} (h : img.Steps 1 s (s.write r.name v).tick) :
    img.Straight used r 1 s (s.write r.name v).tick :=
  ⟨h, rfl, rfl, rfl, rfl, fun _ hx _ => State.read_write_of_ne hx s v⟩

-- A temporary that is given back counts as not in use.
theorem using_left (h : img.Straight (Using used j) r n s s') : img.Straight used r n s s' :=
  { h with kept := fun x hx hs => h.kept x hx fun hu => hs hu.of_using }

theorem using_right (h : img.Straight (Using used j) (.temp j) n s s') (hj : ¬used j) :
    img.Straight used r n s s' :=
  { h with kept := fun x _ hs => h.kept x (fun hx => hs ⟨j, hj, hx⟩) fun hu => hs hu.of_using }

end Straight

theorem has_of_unlabelled {code : List Instruction} (h : ∀ i ∈ code, i.definedLabel? = none) :
    Image.Has { ops := (code.map Instruction.op).toArray } 0 code := by
  intro j i hj
  refine ⟨by simp [hj], ?_⟩
  rintro l rfl
  exact absurd (h _ (List.mem_of_getElem? hj)) (by simp [Instruction.definedLabel?])

end Machine.Image

namespace Source

-- The machine holds the variables in the registers that they are given.
structure Reflects (ρ : String → Register) (m : Memory) (s : State) : Prop where
  vars   : ∀ x, (ρ x).Apart → s.read (ρ x).name = m.vars x
  output : s.output = m.output

-- The expressions that call no functions, over identifiers with the given property.
inductive Arithmetic (X : String → Prop) : Node → Prop
  | literal {token children v} :
    literal? token.text.toList = some v → Arithmetic X ⟨.numericLiteral, token, children⟩
  | identifier {token children} : X token.text → Arithmetic X ⟨.identifier, token, children⟩
  | binary {token op lhs rhs rest} :
    Operator.ofSymbol? token.text = some op → Arithmetic X lhs → Arithmetic X rhs →
    Arithmetic X ⟨.infixOperator, token, lhs :: rhs :: rest⟩
  | print {token target token' ns rest} :
    target.kind = .identifier → target.text = printName → (∀ n ∈ ns, Arithmetic X n) →
    Arithmetic X ⟨.call, token, target :: ⟨.expressionList, token', ns⟩ :: rest⟩

section

variable {X : String → Prop} {n lhs rhs target : Node} {ns rest : List Node} {token token' : Token}
  {op : Operator} {m m' : Memory} {v : Int} {vs : List Int}

theorem arguments_vars_eq
    (hn : ∀ n ∈ ns, ∀ {m m' v}, expression closed n m = .ok (v, m') → m'.vars = m.vars)
    (h : arguments closed ns m = .ok (vs, m')) : m'.vars = m.vars := by
  induction ns generalizing m' vs
  case nil =>
    cases h
    rfl
  case cons n ns hi =>
    rw [List.forall_mem_cons] at hn
    obtain ⟨vs', m₁, v, h₁, h₂, -⟩ := arguments_cons_eq_ok h
    exact (hn.left h₂).trans (hi hn.right h₁)

-- Nothing is assigned.
theorem Arithmetic.vars_eq (hn : Arithmetic X n) (h : expression closed n m = .ok (v, m')) :
    m'.vars = m.vars := by
  induction hn generalizing m v m'
  case literal hl =>
    simp only [expression, hl, pure, StateT.pure, Except.pure, Except.ok.injEq, Prod.mk.injEq] at h
    rw [h.right]
  case identifier =>
    cases h
    rfl
  case binary ho _ _ hl hr =>
    obtain ⟨a, m₁, b, h₁, h₂, -⟩ := binary_eq_ok ho h
    exact (hr h₂).trans (hl h₁)
  case print ht _ hi =>
    obtain ⟨vs, m₁, h₁, -, rfl⟩ := print_eq_ok ht h
    have hv : m₁.vars = m.vars := arguments_vars_eq (fun n hn _ _ _ h => hi n hn h) h₁
    exact hv

end

-- The code computes a node into a register.
def InPlace (used : Nat → Prop) (ρ : String → Register) (n : Node) (r : Register)
    (code : List Instruction) : Prop :=
  ∀ {img : Image} {s : State} {m m' : Memory} {v : Int}, img.Has s.pc code → Reflects ρ m s →
    expression closed n m = .ok (v, m') →
    ∃ s', img.Straight used r code.length s s' ∧ s'.read r.name = v ∧ s'.output = m'.output ∧
      s'.stack = s.stack

-- The code pushes arguments, with the help of a register. The first one ends up on top.
def InTurn (used : Nat → Prop) (ρ : String → Register) (ns : List Node) (t : Register)
    (code : List Instruction) : Prop :=
  ∀ {img : Image} {s : State} {m m' : Memory} {vs : List Int}, img.Has s.pc code → Reflects ρ m s →
    arguments closed ns m = .ok (vs, m') →
    ∃ s', img.Straight used t code.length s s' ∧ s'.output = m'.output ∧ s'.stack = vs ++ s.stack ∧
      vs.length = ns.length

section

variable {used : Nat → Prop} {ρ : String → Register} {X : String → Prop} {n lhs rhs target : Node}
  {ns children rest : List Node} {token token' : Token} {r : Register} {j : Nat}
  {code code₁ code₂ : List Instruction}

-- Variables are still there after a temporary has been written.
theorem Reflects.straight {img : Image} {s s' : State} {m m' : Memory} {k : Nat}
    (h : Reflects ρ m s) (hs : img.Straight used (.temp j) k s s') (ho : s'.output = m'.output)
    (hv : m'.vars = m.vars) :
    Reflects ρ m' s' where
  vars x hx := by rw [hs.kept _ (hx j) hx.not_spare, h.vars x hx, hv]
  output    := ho

theorem inPlace_literal {v : Int} (hl : literal? token.text.toList = some v) :
    InPlace used ρ ⟨.numericLiteral, token, children⟩ r [.load token.text r] := by
  intro img s m m' w hh hm he
  simp only [expression, hl, pure, StateT.pure, Except.pure, Except.ok.injEq, Prod.mk.injEq] at he
  obtain ⟨rfl, rfl⟩ := he
  exact ⟨_, .write (.load hh hl), State.read_write_self .., hm.output, rfl⟩

theorem inPlace_identifier (hx : (ρ token.text).Apart) :
    InPlace used ρ ⟨.identifier, token, children⟩ r [.move (ρ token.text) r] := by
  intro img s m m' v hh hm he
  cases he
  refine ⟨_, .write (.move hh), ?_, hm.output, rfl⟩
  rw [State.tick_read, State.read_write_self, hm.vars _ hx]

-- The left operand waits in a temporary that is not in use. So the right one may be computed where
-- the result goes, even if the left one was read from there.
theorem inPlace_binary {op : Operator} (ho : Operator.ofSymbol? token.text = some op)
    (hl : Arithmetic X lhs) (hj : ¬used j) (hr : ¬Spare used r.name)
    (h₁ : InPlace (Using used j) ρ lhs (.temp j) code₁)
    (h₂ : InPlace (Using used j) ρ rhs r code₂) :
    InPlace used ρ ⟨.infixOperator, token, lhs :: rhs :: rest⟩ r
      (code₁ ++ code₂ ++ [.binary op (.temp j) r r]) := by
  intro img s m m' v hh hm he
  obtain ⟨a, m₁, b, he₁, he₂, hv⟩ := binary_eq_ok ho he
  obtain ⟨s₁, hs₁, ha, ho₁, hst₁⟩ := h₁ hh.left.left hm he₁
  have hh₂ : img.Has s₁.pc code₂ := hs₁.pc ▸ hh.left.right
  obtain ⟨s₂, hs₂, hb, ho₂, hst₂⟩ := h₂ hh₂ (hm.straight hs₁ ho₁ (hl.vars_eq he₁)) he₂
  have hs : img.Straight used r (code₁ ++ code₂).length s s₂ := by
    rw [List.length_append]
    exact (hs₁.using_right hj).trans hs₂.using_left
  have hh₃ : img.Has s₂.pc [.binary op (.temp j) r r] := hs.pc ▸ hh.right
  have hw : s₂.read (Register.temp j).name = a := by
    rw [hs₂.kept _ (fun h => hr ⟨j, hj, h.symm⟩) (not_spare_temp (.inr rfl)), ha]
  rw [← hw, ← hb] at hv
  refine ⟨(s₂.write r.name v).tick, ?_, State.read_write_self .., ho₂, hst₂.trans hst₁⟩
  rw [List.length_append]
  exact hs.trans (.write (.binary hh₃ hv))

theorem inTurn_nil : InTurn used ρ [] r [] := by
  intro img s m m' vs hh hm he
  cases he
  exact ⟨s, .refl s, hm.output, rfl, rfl⟩

theorem inTurn_cons (hns : ∀ n ∈ ns, Arithmetic X n) (h₁ : InTurn used ρ ns (.temp j) code₁)
    (h₂ : InPlace used ρ n (.temp j) code₂) :
    InTurn used ρ (n :: ns) (.temp j) (code₁ ++ (code₂ ++ [.push (.temp j)])) := by
  intro img s m m' vs hh hm he
  obtain ⟨vs', m₁, v, he₁, he₂, rfl⟩ := arguments_cons_eq_ok he
  obtain ⟨s₁, hs₁, ho₁, hst₁, hl⟩ := h₁ hh.left hm he₁
  have hh₂ : img.Has s₁.pc (code₂ ++ [.push (.temp j)]) := hs₁.pc ▸ hh.right
  have hv₁ : m₁.vars = m.vars := arguments_vars_eq (fun n hn _ _ _ h => (hns n hn).vars_eq h) he₁
  obtain ⟨s₂, hs₂, hv, ho₂, hst₂⟩ := h₂ hh₂.left (hm.straight hs₁ ho₁ hv₁) he₂
  have hh₃ : img.Has s₂.pc [.push (.temp j)] := hs₂.pc ▸ hh₂.right
  let s₃ := { s₂ with stack := s₂.read (Register.temp j).name :: s₂.stack }.tick
  have hs₃ : img.Straight used (.temp j) 1 s₂ s₃ :=
    ⟨.push hh₃, rfl, rfl, rfl, rfl, fun _ _ _ => rfl⟩
  refine ⟨s₃, ?_, ho₂, ?_, congrArg (· + 1) hl⟩
  · rw [List.length_append, List.length_append]
    exact hs₁.trans (hs₂.trans hs₃)
  · rw [State.tick_stack, hv, hst₂, hst₁, List.cons_append]

-- The arguments are taken from the stack again, and the result is zero.
theorem inPlace_print {i : Nat} (ht : target.text = printName) (hi : ¬used i) (hj : ¬used j)
    (h : InTurn (Using used i) ρ ns (.temp i) code) :
    InPlace used ρ ⟨.call, token, target :: ⟨.expressionList, token', ns⟩ :: rest⟩ r
      (code ++ printCode (.temp j) ns.length r) := by
  intro img s m m' v hh hm he
  obtain ⟨vs, m₁, he₁, rfl, rfl⟩ := print_eq_ok ht he
  obtain ⟨s₁, hs₁, ho₁, hst₁, hl⟩ := h hh.left hm he₁
  have hh₁ : img.Has s₁.pc (printCode (.temp j) ns.length r) := hs₁.pc ▸ hh.right
  obtain ⟨s₂, hn₂, hp₂, hst₂, hc₂, ho₂, hj₂, hb₂, hr₂⟩ := steps_print hl hh₁.left hst₁
  have hs₂ : img.Straight used r (2 * ns.length) s₁ s₂ :=
    ⟨hn₂, hp₂, hc₂, hj₂, hb₂, fun x _ hs => hr₂ x fun hx => hs ⟨j, hj, hx⟩⟩
  have hlen : (List.replicate ns.length [Instruction.pop (.temp j), .out (.temp j)]).flatten.length
      = 2 * ns.length := by
    simp [Nat.mul_comm]
  have hh₂ : img.Has s₂.pc [.load "0" (.temp j), .move (.temp j) r] := by
    rw [hp₂, ← hlen]
    exact hh₁.right
  let s₃ := (s₂.write (Register.temp j).name 0).tick
  have hs₃ : img.Straight (Using used j) (.temp j) 1 s₂ s₃ := .write (.load hh₂ (by decide))
  let s₄ := (s₃.write r.name (s₃.read (Register.temp j).name)).tick
  have hs₄ : img.Straight used r 1 s₃ s₄ := .write (.move hh₂.tail)
  refine ⟨s₄, ?_, ?_, ?_, hst₂⟩
  · rw [List.length_append, length_printCode]
    exact (hs₁.using_right hi).trans (hs₂.trans ((hs₃.using_right hj).trans hs₄))
  · rw [State.tick_read, State.read_write_self, State.tick_read, State.read_write_self]
  · exact ho₂.trans (congrArg (vs.foldl Array.push) ho₁)

end

end Source

namespace Lower

-- The generator has the given temporaries in use, and knows variables by the given registers.
structure Ready (used : Nat → Prop) (ρ : String → Register) (g : Generator) : Prop where
  sound    : g.pool.Sound
  borrowed : ∀ i, g.pool.Borrowed i ↔ used i
  resolve  : ∀ x, (g.symbols.resolve x).fst = ρ x

-- An action succeeds on every such generator, and leaves one behind. The code that it emits has a
-- property.
def Appends (used : Nat → Prop) (ρ : String → Register) (f : Lower Unit)
    (P : List Instruction → Prop) : Prop :=
  ∀ g, Ready used ρ g → ∃ g' code, f g = .ok () g' ∧ Ready used ρ g' ∧
    g'.code = g.code ++ code.toArray ∧ P code

namespace Appends

variable {used : Nat → Prop} {ρ : String → Register} {f k : Lower Unit}
  {P Q : List Instruction → Prop}

theorem imp (hf : Appends used ρ f P) (h : ∀ code, P code → Q code) : Appends used ρ f Q := by
  intro g hg
  obtain ⟨g', code, hr, hg', hc, hp⟩ := hf g hg
  exact ⟨g', code, hr, hg', hc, h code hp⟩

theorem pure : Appends used ρ (Pure.pure ()) (· = []) :=
  fun g hg => ⟨g, [], rfl, hg, by simp, rfl⟩

theorem emit (i : Instruction) : Appends used ρ (emit i) (· = [i]) :=
  fun g hg => ⟨_, [i], rfl, ⟨hg.sound, hg.borrowed, hg.resolve⟩, by simp, rfl⟩

theorem seq (hf : Appends used ρ f P) (hk : Appends used ρ k Q) :
    Appends used ρ (f >>= fun _ => k) fun code => ∃ code₁ code₂, P code₁ ∧ Q code₂ ∧
      code = code₁ ++ code₂ := by
  intro g hg
  obtain ⟨g₁, code₁, hr₁, hg₁, hc₁, hp⟩ := hf g hg
  obtain ⟨g₂, code₂, hr₂, hg₂, hc₂, hq⟩ := hk g₁ hg₁
  refine ⟨g₂, code₁ ++ code₂, ?_, hg₂, ?_, code₁, code₂, hp, hq, rfl⟩
  · rw [bind_apply, hr₁]
    exact hr₂
  · simp [hc₂, hc₁]

theorem within {construct : String} (hf : Appends used ρ f P) :
    Appends used ρ (within construct f) P := by
  intro g hg
  obtain ⟨g', code, hr, hg', hc, hp⟩ :=
    hf { g with trail := construct :: g.trail } ⟨hg.sound, hg.borrowed, hg.resolve⟩
  refine ⟨{ g' with trail := g'.trail.tail }, code, ?_,
    ⟨hg'.sound, hg'.borrowed, hg'.resolve⟩, hc, hp⟩
  rw [within_apply, hr]

-- The pool lends a temporary that is not in use, and takes it back.
theorem withTemp {f : Register → Lower Unit} {P : Nat → List Instruction → Prop}
    (hf : ∀ j, ¬used j → Appends (Using used j) ρ (f (.temp j)) (P j)) :
    Appends used ρ (withTemp f) fun code => ∃ j, ¬used j ∧ P j code := by
  intro g hg
  obtain ⟨j, ht, hj, hs, hb⟩ := hg.sound.borrow
  rw [hg.borrowed] at hj
  have hg₁ : Ready (Using used j) ρ { g with pool := g.pool.borrow.snd } :=
    ⟨hs, fun i => (hb i).trans (or_congr_left (hg.borrowed i)), hg.resolve⟩
  obtain ⟨g', code, hr, hg', hc, hp⟩ := hf j hj _ hg₁
  obtain ⟨q, hq, hs', hb'⟩ := hg'.sound.release ((hg'.borrowed j).mpr (.inr rfl))
  refine ⟨{ g' with pool := q }, code, by simp only [withTemp_apply, ht, hr, hq],
    ⟨hs', fun i => ?_, hg'.resolve⟩, hc, j,
    hj, hp⟩
  rw [hb', hg'.borrowed]
  refine ⟨fun h => h.left.resolve_right h.right, fun h => ⟨.inl h, ?_⟩⟩
  rintro rfl
  exact hj h

theorem resolveThen {ident : String} {k : Register → Lower Unit}
    (hk : Appends used ρ (k (ρ ident)) P) :
    Appends used ρ (resolve ident >>= k) P := by
  intro g hg
  have hg₁ : Ready used ρ { g with symbols := (g.symbols.resolve ident).snd } :=
    ⟨hg.sound, hg.borrowed, fun x => (g.symbols.resolve_resolve x ident).trans (hg.resolve x)⟩
  obtain ⟨g', code, hr, hg', hc, hp⟩ := hk _ hg₁
  refine ⟨g', code, ?_, hg', hc, hp⟩
  rw [bind_apply, resolve, lookup_apply]
  simp only [hg.resolve]
  exact hr

theorem outputPopped (t : Register) (n : Nat) :
    Appends used ρ (outputPopped t n) (· = (List.replicate n [.pop t, .out t]).flatten) := by
  induction n
  case zero => exact pure
  case succ n hi =>
    refine (emit _).seq ((emit _).seq hi) |>.imp ?_
    rintro _ ⟨_, _, rfl, ⟨_, _, rfl, rfl, rfl⟩, rfl⟩
    rfl

theorem printArguments (n : Nat) (dst : Register) :
    Appends used ρ (printArguments n dst) fun code => ∃ j, ¬used j ∧
      code = printCode (.temp j) n dst := by
  refine withTemp fun j _ => (outputPopped _ n).seq ((emit _).seq (emit _)) |>.imp ?_
  rintro _ ⟨_, _, rfl, ⟨_, _, rfl, rfl, rfl⟩, rfl⟩
  rfl

end Appends

section

variable {used : Nat → Prop} {ρ : String → Register} {X : String → Prop} {n : Node} {ns : List Node}
  {r : Register}

theorem appends_pushArguments {j : Nat} (ha : ∀ n ∈ ns, Arithmetic X n)
    (hn : ∀ n ∈ ns, Appends used ρ (lower n .value (.register (.temp j)))
      (InPlace used ρ n (.temp j))) :
    Appends used ρ (pushArguments ns (.temp j)) (InTurn used ρ ns (.temp j)) := by
  induction ns
  case nil =>
    refine Appends.pure.imp ?_
    rintro _ rfl
    exact inTurn_nil
  case cons n ns hi =>
    rw [List.forall_mem_cons] at ha hn
    refine (hi ha.right hn.right).seq (hn.left.seq (.emit _)) |>.imp ?_
    rintro _ ⟨code₁, _, h₁, ⟨code₂, _, h₂, rfl, rfl⟩, rfl⟩
    exact inTurn_cons ha.right h₁ h₂

-- Lowering succeeds on expressions, and the code computes them.
theorem appends_lower (h : Arithmetic (fun x => (ρ x).Apart) n) (demand : Demand)
    (hr : ¬Spare used r.name) :
    Appends used ρ (lower n demand (.register r)) (InPlace used ρ n r) := by
  induction h generalizing used r demand
  case literal hl =>
    refine (Appends.emit _).imp ?_
    rintro _ rfl
    exact inPlace_literal hl
  case identifier hx =>
    refine Appends.resolveThen (.emit _) |>.imp ?_
    rintro _ rfl
    exact inPlace_identifier hx
  case binary op lhs rhs rest ho hl _ hil hir =>
    show Appends used ρ (Lower.within _ (if _ = "=" then _ else _)) _
    rw [if_neg (Operator.ne_assign ho)]
    simp only [ho]
    have hj (j) : ¬Spare (Using used j) (Register.temp j).name := not_spare_temp (.inr rfl)
    refine Appends.within <| Appends.withTemp (fun j _ => (hil .any (hj j)).seq <|
      (hir .any fun hs => hr hs.of_using).seq (.emit _)) |>.imp ?_
    rintro _ ⟨j, hj, code₁, _, h₁, ⟨code₂, _, h₂, rfl, rfl⟩, rfl⟩
    rw [← List.append_assoc]
    exact inPlace_binary ho hl hj hr h₁ h₂
  case print target _ ns _ hk ht ha hi =>
    show Appends used ρ (if target.kind = .identifier then Lower.call _ _ _ _ else _) _
    rw [if_pos hk]
    simp only [Lower.call, ht, if_true]
    have hj (j) : ¬Spare (Using used j) (Register.temp j).name := not_spare_temp (.inr rfl)
    have hn (j) := appends_pushArguments ha fun n hn => hi n hn .value (hj j)
    refine Appends.within <| (Appends.withTemp fun j _ => hn j).seq (.printArguments _ _) |>.imp ?_
    rintro _ ⟨_, _, ⟨i, hi, h⟩, ⟨j, hj, rfl⟩, rfl⟩
    exact inPlace_print ht hi hj h

end

-- Whatever temporaries are in use, an expression without calls of functions is lowered into one of
-- them or into a named register, which the expression may read. Its code does what the expression
-- says, and spares all else that is in use.
theorem lower_in_place {g : Generator} {n : Node} {r : Register} (hp : g.pool.Reachable)
    (hn : Arithmetic (fun x => (g.symbols.resolve x).fst.Apart) n)
    (hr : (∃ i, g.pool.Borrowed i ∧ r = .temp i) ∨ ∃ x, r = .named x ∧ r.Apart) (demand : Demand) :
    ∃ g' code, lower n demand (.register r) g = .ok () g' ∧ g'.code = g.code ++ code.toArray ∧
      ∀ img s v m, Image.Has img s.pc code →
        expression closed n ⟨fun x => s.read (g.symbols.resolve x).fst.name, s.output⟩
        = .ok (v, m) →
        ∃ s', img.Steps code.length s s' ∧ s'.pc = s.pc + code.length ∧ s'.read r.name = v ∧
          s'.output = m.output ∧
          s'.stack = s.stack ∧ s'.calls = s.calls ∧ s'.jumps = s.jumps ∧
          s'.branchesTaken = s.branchesTaken ∧
          (∀ x, (Register.named x).Apart → x ≠ r.name → s'.read x = s.read x) ∧
          ∀ i, g.pool.Borrowed i → r ≠ .temp i →
            s'.read (Register.temp i).name = s.read (Register.temp i).name := by
  let ρ := fun x => (g.symbols.resolve x).fst
  have hspare : ¬Spare g.pool.Borrowed r.name := by
    rcases hr with ⟨i, hi, rfl⟩ | ⟨x, rfl, hx⟩
    · exact not_spare_temp hi
    · exact hx.not_spare
  have hg : Ready g.pool.Borrowed ρ g := ⟨hp.sound, fun _ => .rfl, fun _ => rfl⟩
  obtain ⟨g', code, hl, -, hc, h⟩ := appends_lower hn demand hspare g hg
  refine ⟨g', code, hl, hc, fun img s v m hh he => ?_⟩
  obtain ⟨s', hs, hv, ho, hst⟩ := h hh ⟨fun _ _ => rfl, rfl⟩ he
  refine ⟨s', hs.steps, hs.pc, hv, ho, hst, hs.calls, hs.jumps, hs.branches, fun x hx hxr => ?_,
    fun i hi hir => ?_⟩
  · exact hs.kept x hxr hx.not_spare
  · refine hs.kept _ (fun he => ?_) (not_spare_temp hi)
    rcases hr with ⟨j, -, rfl⟩ | ⟨x, rfl, hx⟩
    · exact hir (congrArg _ (Register.temp_name_inj he).symm)
    · exact hx i he.symm

-- The result goes where two operands are read from. Of the temporaries, the first one and the third
-- one are in use.
theorem lower_in_place_aliased :
    let x := Node.ident "x"
    let y := Node.ident "y"
    let n := Node.infixOp "-" x (.infixOp "*" y (.infixOp "+" x (.call "print" [y, x])))
    let g : Generator := { pool := ⟨3, [1], 3⟩, symbols := ⟨.scoped, [{ name := "f" }]⟩ }
    let s : State :=
      { registers := ⟨[("f.x", 5), ("f.y", 7), (".t0", 11), (".t2", 13)]⟩, stack := [9] }
    ∃ g' code img, lower n .any (.register (.named "f.x")) g = .ok () g' ∧ g'.code = code.toArray ∧
      Image.Has img 0 code ∧ ∃ s', img.Steps code.length s s' ∧ s'.read "f.x" = -30 ∧
      s'.output = #[7, 5] ∧
        s'.stack = [9] ∧ s'.jumps = 0 ∧ s'.read "f.y" = 7 ∧ s'.read ".t0" = 11 ∧
        s'.read ".t2" = 13 := by
  intro x y n g s
  have hp : g.pool.Reachable :=
    @Pool.Reachable.release _ _ (.temp 1) (.borrow (.borrow (.borrow .new))) rfl
  have hx (w) : (g.symbols.resolve w).fst.Apart :=
    Register.Under.apart ⟨w, rfl⟩ (by decide : "f" ≠ "")
  have hid (w) : Arithmetic (fun w => (g.symbols.resolve w).fst.Apart) (.ident w) :=
    .identifier (hx w)
  have hn : Arithmetic (fun w => (g.symbols.resolve w).fst.Apart) n :=
    .binary rfl (hid _)
      (.binary rfl (hid _) (.binary rfl (hid _) (.print rfl rfl (by simpa using ⟨hid _, hid _⟩))))
  have hr : (Register.named "f.x").Apart := hx "x"
  obtain ⟨g', code, hl, hc, h⟩ := lower_in_place hp hn (.inr ⟨"f.x", rfl, hr⟩) .any
  have hu : ∀ g' ∈ final? (lower n .any (.register (.named "f.x"))) g, ∀ i ∈ g'.code.toList,
      i.definedLabel? = none := by
    decide +kernel
  have hu := hu g' (final?_eq_some hl)
  have hc : g'.code = code.toArray := by simpa [g] using hc
  have hh : Image.Has { ops := (code.map Instruction.op).toArray } s.pc code := by
    refine Image.has_of_unlabelled ?_
    rwa [hc, List.toList_toArray] at hu
  obtain ⟨s', hs, -, hv, ho, hst, -, hj, -, hk, ht⟩ := h _ s _ _ hh rfl
  refine ⟨g', code, _, hl, hc, hh, s', hs, hv, ho, hst, hj, hk _ (hx "y") (by decide), ?_, ?_⟩
  · exact ht 0 (by decide) (by simp)
  · exact ht 2 (by decide) (by simp)

end Lower

end LineCode

import LineCode.Proofs.Balance
import LineCode.Proofs.Vocabulary

namespace LineCode

def Register.Named (r : Register) : Prop := ∃ x, r = .named x

-- The symbols stand for named registers only.
def Symbols.Named (s : Symbols) : Prop := ∀ f ∈ s.frames, f.Binds fun _ => Register.Named

namespace Symbols.Named

variable {s : Symbols}

theorem nextSlot (f : Frame) (ident : String) : (f.nextSlot ident).Named := by
  unfold Frame.nextSlot
  cases f.slots.count ident
  all_goals exact ⟨_, rfl⟩

theorem declare (h : s.Named) (ident : String) :
    (s.declare ident).fst.Named ∧ (s.declare ident).snd.Named :=
  inFrame_forall h ⟨_, rfl⟩ fun f hf => ⟨nextSlot f ident, hf.bindInner (nextSlot f ident)⟩

theorem declareParameter (h : s.Named) (ident : String) :
    (s.declareParameter ident).fst.Named ∧ (s.declareParameter ident).snd.Named :=
  inFrame_forall h ⟨_, rfl⟩ fun f hf => ⟨nextSlot f ident, hf.bindOuter (nextSlot f ident)⟩

theorem resolve (h : s.Named) (ident : String) :
    (s.resolve ident).fst.Named ∧ (s.resolve ident).snd.Named := by
  refine inFrame_forall h ⟨_, rfl⟩ fun f hf => ?_
  split
  case h_1 hl => exact ⟨hf.lookup hl, hf⟩
  case h_2    => exact ⟨nextSlot f ident, hf.bindOuter (nextSlot f ident)⟩

theorem openBlock (h : s.Named) : s.openBlock.Named :=
  modifyFrame_forall h fun _ hf => hf.openBlock

theorem closeBlock (h : s.Named) : s.closeBlock.Named :=
  modifyFrame_forall h fun _ hf => hf.closeBlock

theorem enter (h : s.Named) (name : String) : (s.enter name).Named :=
  List.forall_mem_cons.mpr ⟨.empty name, h⟩

theorem leave (h : s.Named) : s.leave.Named :=
  fun f hf => h f (List.mem_of_mem_tail hf)

end Symbols.Named

namespace Node

mutual

-- The number of temporaries that it takes to lower a node.
def need : Node → Nat
  | ⟨.infixOperator, token, lhs :: rhs :: _⟩ =>
    if token.text = "=" then rhs.need else 1 + max lhs.need rhs.need
  | ⟨.returnStatement, _, values⟩            => 1 + needAll values
  | ⟨.branch, _, condition :: body :: _⟩     => 1 + max condition.need body.need
  | ⟨.call, _, _ :: ⟨_, _, arguments⟩ :: _⟩  => 1 + needAll arguments
  | ⟨.block, _, statements⟩                  => needAll statements
  | ⟨.functionDefinition, _, _ :: body :: _⟩ => body.need
  | _                                        => 0

-- The most that any one of several nodes needs.
def needAll : List Node → Nat
  | []      => 0
  | n :: ns => max n.need (needAll ns)

end

end Node

-- The pool and the symbols are as a generator leaves them.
structure Generator.Orderly (g : Generator) : Prop where
  pool    : g.pool.Sound
  peak    : g.pool.outstanding ≤ g.pool.peak
  symbols : g.symbols.Named

theorem Generator.Orderly.lending {g : Generator} (h : g.Orderly) : g.lending.Orderly where
  pool    := by
    obtain ⟨j, -, -, hs, -⟩ := h.pool.borrow
    exact hs
  peak    := g.pool.borrow_peak ▸ Nat.le_max_right ..
  symbols := h.symbols

-- From one generator to the other, the most temporaries in use at once were `n` more than there are
-- now, and no register has been written that was in use and is not among those given.
structure Generator.Spent (n : Nat) (dsts : List Register) (g g' : Generator) : Prop where
  orderly  : g'.Orderly
  borrowed : ∀ i, g'.pool.Borrowed i ↔ g.pool.Borrowed i
  capacity : g'.pool.capacity = max g.pool.capacity (g.pool.outstanding + n)
  peak     : g'.pool.peak = max g.pool.peak (g.pool.outstanding + n)
  code     : ∃ code : List Instruction, g'.code = g.code ++ code.toArray ∧
    ∀ i ∈ code, ∀ r ∈ i.written?, r ∈ dsts ∨ r.Named ∨ ∃ j, r = .temp j ∧ ¬g.pool.Borrowed j

namespace Generator.Spent

variable {m n : Nat} {dsts : List Register} {g g₁ g₂ : Generator}

theorem outstanding (h : g.Spent n dsts g₁) (hg : g.Orderly) :
    g₁.pool.outstanding = g.pool.outstanding :=
  hg.pool.outstanding_congr h.orderly.pool h.borrowed

theorem of_code (code : List Instruction) (h : g₁.Orderly) (hp : g₁.pool = g.pool)
    (hc : g₁.code = g.code ++ code.toArray)
    (hw : ∀ i ∈ code, ∀ r ∈ i.written?, r ∈ dsts ∨ r.Named) :
    g.Spent 0 dsts g₁ where
  orderly  := h
  borrowed := by simp [hp]
  capacity := by rw [hp, Nat.add_zero, max_eq_left g.pool.outstanding_le]
  peak     := by rw [hp, Nat.add_zero, max_eq_left (hp ▸ h.peak)]
  code     := ⟨code, hc, fun i hi r hr => (hw i hi r hr).imp_right .inl⟩

theorem trans (hg : g.Orderly) (h₁ : g.Spent m dsts g₁) (h₂ : g₁.Spent n dsts g₂) :
    g.Spent (max m n) dsts g₂ where
  orderly    := h₂.orderly
  borrowed i := (h₂.borrowed i).trans (h₁.borrowed i)
  capacity   := by
    rw [h₂.capacity, h₁.outstanding hg, h₁.capacity]
    omega
  peak       := by
    rw [h₂.peak, h₁.outstanding hg, h₁.peak]
    omega
  code       := by
    obtain ⟨code₁, hc₁, hw₁⟩ := h₁.code
    obtain ⟨code₂, hc₂, hw₂⟩ := h₂.code
    refine ⟨code₁ ++ code₂, by simp [hc₂, hc₁], List.forall_mem_append.mpr ⟨hw₁, ?_⟩⟩
    simpa only [h₁.borrowed] using hw₂

theorem mono {dsts' : List Register} (h : g.Spent n dsts g₁) (hd : dsts ⊆ dsts') :
    g.Spent n dsts' g₁ := by
  obtain ⟨code, hc, hw⟩ := h.code
  exact { h with code := ⟨code, hc, fun i hi r hr => (hw i hi r hr).imp_left fun hm => hd hm⟩ }

theorem cast (h : g.Spent m dsts g₁) (hn : m = n) : g.Spent n dsts g₁ :=
  hn ▸ h

end Generator.Spent

namespace Lower

variable {α β : Type}

theorem withTemp_eq_ok {f : Register → Lower α} {g g' : Generator} {a : α}
    (h : withTemp f g = .ok a g') :
    ∃ g₁ pool, f g.pool.borrow.fst g.lending = .ok a g₁ ∧
      g₁.pool.release g.pool.borrow.fst = .ok pool ∧
      g' = { g₁ with pool } := by
  rw [withTemp_apply] at h
  split at h
  case h_1 g₁ hf =>
    split at h
    case h_1 pool hr =>
      cases h
      exact ⟨g₁, pool, hf, hr, rfl⟩
    case h_2 => contradiction
  case h_2 => split at h <;> contradiction

-- An action looks up a register of the symbols.
def Finds (x : Lower Register) : Prop :=
  ∀ g r g', g.Orderly → x g = .ok r g' → r.Named ∧ g.Spent 0 [] g'

namespace Finds

theorem lookup {f : Symbols → Register × Symbols}
    (hf : ∀ s, s.Named → (f s).fst.Named ∧ (f s).snd.Named) :
    Finds (lookup f) := by
  intro g r g' hg h
  obtain ⟨hr, hs⟩ := hf g.symbols hg.symbols
  cases h
  exact ⟨hr, .of_code [] ⟨hg.pool, hg.peak, hs⟩ rfl (by simp) (by simp)⟩

theorem reject (span : Span) (cause : Cause) : Finds (reject span cause) := by
  intro g r g' _ h
  cases h

theorem resolve (ident : String) : Finds (resolve ident) :=
  lookup fun _ hs => hs.resolve ident

theorem assignmentTarget (target : Node) : Finds (assignmentTarget target) := by
  unfold Lower.assignmentTarget
  split
  case h_1 => exact resolve _
  case h_2 =>
    split
    case h_1 => exact reject _ _
    case h_2 => exact lookup fun _ hs => hs.declare _
  case h_3 => exact reject _ _

end Finds

-- An action that succeeds uses so many temporaries, and only writes to registers that are given or
-- not in use.
def Spends (n : Nat) (dsts : List Register) (x : Lower α) : Prop :=
  ∀ g a g', g.Orderly → x g = .ok a g' → g.Spent n dsts g'

namespace Spends

variable {m n : Nat} {dsts : List Register} {x : Lower α}

theorem pure (a : α) : Spends 0 dsts (Pure.pure a) := by
  intro g _ g' hg h
  cases h
  exact .of_code [] hg rfl (by simp) (by simp)

theorem bind {f : α → Lower β} (hx : Spends m dsts x) (hf : ∀ a, Spends n dsts (f a)) :
    Spends (max m n) dsts (x >>= f) := by
  intro g b g' hg h
  obtain ⟨a, g₁, h₁, h₂⟩ := bind_eq_ok h
  have hs := hx g a g₁ hg h₁
  exact hs.trans hg (hf a g₁ b g' hs.orderly h₂)

theorem cast (hx : Spends m dsts x) (h : m = n) : Spends n dsts x :=
  h ▸ hx

theorem mono {dsts' : List Register} (hx : Spends n dsts x) (hd : dsts ⊆ dsts') :
    Spends n dsts' x :=
  fun g a g' hg h => (hx g a g' hg h).mono hd

-- Named registers may be written anyway.
theorem of_named {r : Register} (hx : Spends n [r] x) (hr : r.Named) : Spends n dsts x := by
  intro g a g' hg h
  have hs := hx g a g' hg h
  obtain ⟨code, hc, hw⟩ := hs.code
  refine { hs with code := ⟨code, hc, fun i hi s hs => ?_⟩ }
  rcases hw i hi s hs with hm | hm
  · exact .inr (.inl (List.mem_singleton.mp hm ▸ hr))
  · exact .inr hm

theorem seq {f k : Lower Unit} (hf : Spends m dsts f) (hk : Spends n dsts k) :
    Spends (max m n) dsts (f >>= fun _ => k) :=
  hf.bind fun _ => hk

theorem emit {i : Instruction} (hi : ∀ r ∈ i.written?, r ∈ dsts ∨ r.Named) :
    Spends 0 dsts (emit i) := by
  intro g _ g' hg h
  cases h
  exact .of_code [i] ⟨hg.pool, hg.peak, hg.symbols⟩ rfl (by simp) (by simpa using hi)

theorem freshLabelThen {k : Label → Lower α} (hk : ∀ l, Spends n dsts (k l)) :
    Spends n dsts (freshLabel >>= k) := by
  intro g a g' hg h
  rw [bind_apply, freshLabel_apply] at h
  have hs := hk _ g.issuing a g' ⟨hg.pool, hg.peak, hg.symbols⟩ h
  exact { hs with }

theorem reject (span : Span) (cause : Cause) : Spends n dsts (reject span cause : Lower α) := by
  intro g a g' _ h
  cases h

-- The register that is found is a named one.
theorem findThen {x : Lower Register} {k : Register → Lower α} (hx : Finds x)
    (hk : ∀ y, Spends n dsts (k (.named y))) :
    Spends n dsts (x >>= k) := by
  intro g a g' hg h
  obtain ⟨r, g₁, h₁, h₂⟩ := bind_eq_ok h
  obtain ⟨⟨y, rfl⟩, hs⟩ := hx g r g₁ hg h₁
  exact ((hs.mono (List.nil_subset dsts)).trans hg (hk y g₁ a g' hs.orderly h₂)).cast
    (Nat.zero_max n)

-- What is done to the generator before an action and after it concerns neither the pool nor the
-- code.
theorem bracket {x' : Lower α} (before after : Generator → Generator) (hx : Spends n dsts x)
    (hb : ∀ g, (before g).pool = g.pool ∧ (before g).code = g.code ∧
      (g.symbols.Named → (before g).symbols.Named))
    (ha : ∀ g, (after g).pool = g.pool ∧ (after g).code = g.code ∧
      (g.symbols.Named → (after g).symbols.Named))
    (hx' : ∀ g : Generator, x' g =
      match x (before g) with
      | .ok a g    => .ok a (after g)
      | .error e g => .error e (after g)) : Spends n dsts x' := by
  intro g a g' hg h
  rw [hx'] at h
  split at h
  case h_2 => contradiction
  case h_1 g₁ h₁ =>
    cases h
    obtain ⟨hpb, hcb, hsb⟩ := hb g
    obtain ⟨hpa, hca, hsa⟩ := ha g₁
    have hs := hx _ _ g₁ ⟨by rw [hpb]; exact hg.pool, by rw [hpb]; exact hg.peak, hsb hg.symbols⟩ h₁
    have ho := hs.orderly
    refine ⟨⟨by rw [hpa]; exact ho.pool, by rw [hpa]; exact ho.peak, hsa ho.symbols⟩, ?_,
      ?_, ?_, ?_⟩
    · rw [hpa, ← hpb]
      exact hs.borrowed
    · rw [hpa, ← hpb]
      exact hs.capacity
    · rw [hpa, ← hpb]
      exact hs.peak
    · rw [hca, ← hcb, ← hpb]
      exact hs.code

theorem within (construct : String) (hx : Spends n dsts x) : Spends n dsts (within construct x) :=
  hx.bracket (·.inside construct) (fun g => { g with trail := g.trail.tail })
    (fun _ => ⟨rfl, rfl, id⟩)
    (fun _ => ⟨rfl, rfl, id⟩) (within_apply construct x)

theorem inBlock (hx : Spends n dsts x) : Spends n dsts (inBlock x) :=
  hx.bracket (fun g => { g with symbols := g.symbols.openBlock })
    (fun g => { g with symbols := g.symbols.closeBlock })
    (fun _ => ⟨rfl, rfl, fun h => h.openBlock⟩) (fun _ => ⟨rfl, rfl, fun h => h.closeBlock⟩)
      (inBlock_apply x)

theorem inDefinition (name : String) (hx : Spends n dsts x) : Spends n dsts (inDefinition name x) :=
  hx.bracket (fun g => { g with symbols := g.symbols.enter name })
    (fun g => { g with symbols := g.symbols.leave })
    (fun _ => ⟨rfl, rfl, fun h => h.enter name⟩) (fun _ => ⟨rfl, rfl, fun h => h.leave⟩)
      (inDefinition_apply name x)

-- The temporary that is lent is not in use before, and may be written while it is.
theorem withTemp {f : Register → Lower α} (hf : ∀ j, Spends n (.temp j :: dsts) (f (.temp j))) :
    Spends (1 + n) dsts (withTemp f) := by
  intro g a g' hg h
  obtain ⟨g₁, pool, h₁, hr, rfl⟩ := withTemp_eq_ok h
  obtain ⟨j, hj, hn, -, hb⟩ := hg.pool.borrow
  obtain ⟨ho, hc⟩ := hg.pool.borrow_counts
  rw [hj] at h₁ hr
  have hs₁ := hf j g.lending a g₁ hg.lending h₁
  have hj₁ : g₁.pool.Borrowed j := (hs₁.borrowed j).mpr ((hb j).mpr (.inr rfl))
  obtain ⟨q, hq, hsq, hbq⟩ := hs₁.orderly.pool.release hj₁
  obtain rfl : q = pool := Except.ok.inj (hq.symm.trans hr)
  obtain ⟨hcq, hkq⟩ := Pool.release_keeps hq
  have hbg (i) : q.Borrowed i ↔ g.pool.Borrowed i := by
    rw [hbq, hs₁.borrowed, show g.lending.pool = g.pool.borrow.snd from rfl, hb]
    refine ⟨fun h => h.left.resolve_right h.right, fun h => ⟨.inl h, ?_⟩⟩
    rintro rfl
    exact hn h
  have hk₁ := hs₁.peak
  have hc₁ := hs₁.capacity
  simp only [Generator.lending, ho, hc, g.pool.borrow_peak] at hk₁ hc₁
  have hk : q.peak = max g.pool.peak (g.pool.outstanding + (1 + n)) := by omega
  refine ⟨⟨hsq, ?_, hs₁.orderly.symbols⟩, hbg, by simp only; omega, hk, ?_⟩
  · rw [hg.pool.outstanding_congr hsq hbg, hk]
    omega
  · obtain ⟨code, hcode, hw⟩ := hs₁.code
    refine ⟨code, hcode, fun i hi r hr => ?_⟩
    rcases hw i hi r hr with hm | hm | ⟨k, rfl, hk⟩
    · rcases List.mem_cons.mp hm with rfl | hm
      · exact .inr (.inr ⟨j, rfl, hn⟩)
      · exact .inl hm
    · exact .inr (.inl hm)
    · exact .inr (.inr ⟨k, rfl, fun h => hk ((hb k).mpr (.inl h))⟩)

end Spends

-- The constructs, given what their parts spend.
section

open Instruction (written?)

variable {m n : Nat} {dst : Register} {dsts : List Register}

theorem spends_literal (text : String) (dst : Destination) :
    Spends 0 [dst.target] (literal text dst) := by
  cases dst
  case discard  => exact .pure ()
  case register => exact .emit (by simp [written?])

theorem spends_identifier (name : String) (dst : Register) : Spends 0 [dst] (identifier name dst) :=
  .findThen (.resolve _) fun _ => .emit (by simp [written?])

theorem spends_functionReference (ref : String) (dst : Register) :
    Spends 0 [dst] (functionReference ref dst) :=
  .emit (by simp [written?])

theorem spends_binary {op : Operator} {lhs : Register → Lower Unit} {rhs : Lower Unit}
    (hl : ∀ j, Spends m [.temp j] (lhs (.temp j))) (hr : Spends n [dst] rhs) :
    Spends (1 + max m n) [dst] (binary op lhs rhs dst) := by
  have hb (j) : Spends (max m (max n 0)) [.temp j, dst]
      (do lhs (.temp j); rhs; emit (.binary op (.temp j) dst dst)) :=
    ((hl j).mono (by simp)).seq <| (hr.mono (by simp)).seq <| .emit (by simp [written?])
  exact .withTemp fun j => (hb j).cast (by omega)

theorem spends_returnLast {values : Register → Lower Unit}
    (hv : ∀ j, Spends n [.temp j] (values (.temp j))) :
    Spends (1 + n) dsts (returnLast values) := by
  have ht : Spends (1 + max n 0) dsts (withTemp fun t => values t >>= fun _ => emit (.push t)) :=
    .withTemp fun j => ((hv j).mono (by simp)).seq <| .emit (by simp [written?])
  exact (ht.seq (.emit (by simp [written?]))).cast (by omega)

theorem spends_ifThen {condition : Register → Lower Unit} {body : Lower Unit}
    (hc : ∀ j, Spends m [.temp j] (condition (.temp j))) (hb : ∀ dsts, Spends n dsts body) :
    Spends (1 + max m n) dsts (ifThen condition body) := by
  refine .withTemp fun j => .freshLabelThen fun done => ?_
  have hj : Spends 0 (.temp j :: dsts) (emit (.negate (.temp j))) :=
    .emit (by simp [written?, Instruction.negate])
  refine Spends.cast (((hc j).mono (by simp)).seq <| hj.seq <| .seq (.emit ?_) <| (hb _).seq <|
    .emit ?_) (by omega)
  all_goals simp [written?]

theorem spends_whileDo {condition : Register → Lower Unit} {body : Lower Unit}
    (hc : ∀ j, Spends m [.temp j] (condition (.temp j))) (hb : ∀ dsts, Spends n dsts body) :
    Spends (1 + max m n) dsts (whileDo condition body) := by
  refine .withTemp fun j => .freshLabelThen fun done => .freshLabelThen fun start => ?_
  have hj : Spends 0 (.temp j :: dsts) (emit (.negate (.temp j))) :=
    .emit (by simp [written?, Instruction.negate])
  refine Spends.cast (.seq (.emit ?_) <| ((hc j).mono (by simp)).seq <| hj.seq <| .seq (.emit ?_) <|
    (hb _).seq <|
    .seq (.emit ?_) <| .emit ?_) (by omega)
  all_goals simp [written?]

theorem spends_outputPopped (t : Register) (n : Nat) : Spends 0 [t] (outputPopped t n) := by
  induction n
  case zero      => exact .pure ()
  case succ n hi => exact .seq (.emit (by simp [written?])) <| .seq (.emit (by simp [written?])) hi

theorem spends_printArguments (count : Nat) (dst : Register) :
    Spends 1 [dst] (printArguments count dst) :=
  .withTemp (n := 0) fun j => ((spends_outputPopped (.temp j) count).mono (by simp)).seq <|
    .seq (.emit (by simp [written?])) <| .emit (by simp [written?])

theorem spends_callVariable (callee : String) (dst : Register) :
    Spends 1 [dst] (callVariable callee dst) :=
  .findThen (.resolve _) fun _ => .seq (.emit (by simp [written?])) <| .withTemp (n := 0) fun _ =>
    .seq (.emit (by simp [written?])) <| .emit (by simp [written?])

-- The temporary for the arguments has been given back when the one for the result is lent.
theorem spends_call {callee : String} {arguments : Register → Lower Unit} {count : Nat}
    (ha : ∀ j, Spends n [.temp j] (arguments (.temp j))) :
    Spends (1 + n) [dst] (call callee arguments count dst) := by
  have ht : Spends (1 + n) [dst] (withTemp arguments) := .withTemp fun j => (ha j).mono (by simp)
  refine .within _ <| (ht.bind (n := 1) fun _ => ?_).cast (by omega)
  split
  case isTrue  => exact spends_printArguments count dst
  case isFalse => exact spends_callVariable callee dst

theorem spends_popParameters (dsts : List Register) (ps : List Node) :
    Spends 0 dsts (popParameters ps) := by
  induction ps
  case nil => exact .pure ()
  case cons p ps hi =>
    simp only [popParameters]
    split
    case isTrue  =>
      refine .findThen (.lookup fun _ hs => hs.declareParameter p.text) fun x => .seq (.emit ?_) hi
      simp [written?, Register.Named]
    case isFalse => exact Spends.seq (m := 0) (.reject _ _) hi

theorem spends_definition {name : String} {params : List Node} {body : Lower Unit}
    (hb : Spends n dsts body) :
    Spends n dsts (definition name params body) :=
  Spends.cast (.seq (.emit (by simp [written?])) <| .inDefinition name <| .within name <|
    (spends_popParameters _ params).seq hb) (by omega)

theorem spends_statement {demand : Demand} {token : Token} {x : Lower Unit} (hx : Spends n dsts x) :
    Spends n dsts (statement demand token x) := by
  cases demand
  case any   => exact hx
  case value => exact .reject _ _

end

-- A node of any shape spends what it needs.
section

open Node (needAll)

variable {token : Token} {children : List Node}

theorem spends_lowerAll {ns : List Node}
    (hn : ∀ n ∈ ns, ∀ demand dst, Spends n.need [dst.target] (lower n demand dst))
    (dst : Destination) : Spends (needAll ns) [dst.target] (lowerAll ns dst) := by
  induction ns
  case nil          => exact .pure ()
  case cons n ns hi => exact .seq (hn n (by simp) _ _) <| hi fun m hm => hn m (by simp [hm])

theorem spends_pushArguments {ns : List Node}
    (hn : ∀ n ∈ ns, ∀ demand dst, Spends n.need [dst.target] (lower n demand dst)) (t : Register) :
    Spends (needAll ns) [t] (pushArguments ns t) := by
  induction ns
  case nil          => exact .pure ()
  case cons n ns hi =>
    refine Spends.cast (.seq (hi fun m hm => hn m (by simp [hm])) <|
      .seq (hn n (by simp) .value (.register t)) <|
      .emit (by simp [Instruction.written?])) ?_
    simp only [needAll]
    omega

theorem spends_discarded {n : Node}
    (hn : ∀ demand dst, Spends n.need [dst.target] (lower n demand dst)) (dsts : List Register) :
    Spends n.need dsts (lower n .any .discard) :=
  (hn .any .discard).of_named ⟨_, rfl⟩

theorem spends_infix
    (hc : ∀ n ∈ children, ∀ demand dst, Spends n.need [dst.target] (lower n demand dst))
    (demand : Demand) (dst : Destination) :
    Spends (Node.need ⟨.infixOperator, token, children⟩) [dst.target]
      (lower ⟨.infixOperator, token, children⟩ demand dst) := by
  match children with
  | [] =>
    show Spends _ _ (within _ (if token.text = "=" then _ else _))
    split <;> exact .within _ (.reject _ _)
  | [target] =>
    show Spends _ _ (within _ (if token.text = "=" then _ else _))
    split
    · exact .within _ <| .findThen (.assignmentTarget target) fun _ => .reject _ _
    · exact .within _ (.reject _ _)
  | lhs :: rhs :: rest =>
    show Spends _ _ (within _ (if token.text = "=" then _ else _))
    rw [Node.need]
    split
    · exact .within _ <| .findThen (.assignmentTarget lhs) fun x =>
        (hc rhs (by simp) _ _).of_named ⟨x, rfl⟩
    · cases Operator.ofSymbol? token.text
      case none    => exact .within _ (.reject _ _)
      case some op =>
        exact .within _ <| spends_binary (fun _ => hc lhs (by simp) _ _) (hc rhs (by simp) _ _)

theorem spends_callNode
    (ha : ∀ c ∈ children, ∀ t, Spends (needAll c.children) [t] (pushArguments c.children t))
    (demand : Demand) (dst : Destination) :
    Spends (Node.need ⟨.call, token, children⟩) [dst.target]
      (lower ⟨.call, token, children⟩ demand dst) := by
  match children with
  | []       => exact .reject _ _
  | [target] =>
    show Spends _ _ (if target.kind = .identifier then _ else _)
    split <;> exact .reject _ _
  | target :: ⟨kind, token', arguments⟩ :: rest =>
    show Spends _ _ (if target.kind = .identifier then if kind = .expressionList then _
      else _ else _)
    split
    case isFalse => exact .reject _ _
    case isTrue  =>
      split
      case isFalse => exact .reject _ _
      case isTrue  =>
        rw [Node.need]
        exact spends_call fun j => ha ⟨kind, token', arguments⟩ (by simp) (.temp j)

theorem spends_definitionNode
    (hc : ∀ n ∈ children, ∀ demand dst, Spends n.need [dst.target] (lower n demand dst))
    (demand : Demand) (dst : Destination) :
    Spends (Node.need ⟨.functionDefinition, token, children⟩) [dst.target]
      (lower ⟨.functionDefinition, token, children⟩ demand dst) := by
  match children with
  | []       => exact .reject _ _
  | [params] =>
    show Spends _ _ (if params.kind = .identifierList then _ else _)
    split <;> exact .reject _ _
  | params :: body :: rest =>
    show Spends _ _ (if params.kind = .identifierList then _ else _)
    split
    case isFalse => exact .reject _ _
    case isTrue  =>
      rw [Node.need]
      exact spends_definition (spends_discarded (hc body (by simp)) _)

theorem spends_branch
    (hc : ∀ n ∈ children, ∀ demand dst, Spends n.need [dst.target] (lower n demand dst))
    (demand : Demand) (dst : Destination) :
    Spends (Node.need ⟨.branch, token, children⟩) [dst.target]
      (lower ⟨.branch, token, children⟩ demand dst) := by
  match children with
  | [] | [_] => exact spends_statement (.reject _ _)
  | condition :: body :: rest =>
    have h₁ := fun j => hc condition (by simp) .value (.register (.temp j))
    have h₂ := spends_discarded (hc body (by simp))
    rw [Node.need]
    simp only [lower]
    apply spends_statement
    split
    case h_1 => exact .within _ (spends_ifThen h₁ h₂)
    case h_2 => exact .within _ (spends_whileDo h₁ h₂)
    case h_3 => exact .reject _ _

theorem spends_node (n : Node) :
    (∀ demand dst, Spends n.need [dst.target] (lower n demand dst)) ∧
      ∀ t, Spends (needAll n.children) [t] (pushArguments n.children t) := by
  induction n using Node.induction
  case h kind token children hc =>
    have hl := fun c h => (hc c h).left
    refine ⟨fun demand dst => ?_, spends_pushArguments hl⟩
    cases kind
    case numericLiteral     => exact spends_literal token.text dst
    case identifier         => exact spends_identifier token.text dst.target
    case functionReference  => exact spends_functionReference token.text dst.target
    case infixOperator      => exact spends_infix hl demand dst
    case call               => exact spends_callNode (fun c h => (hc c h).right) demand dst
    case functionDefinition => exact spends_definitionNode hl demand dst
    case block =>
      exact spends_statement (.inBlock ((spends_lowerAll hl .discard).of_named ⟨_, rfl⟩))
    case returnStatement =>
      exact spends_statement (.within _ (spends_returnLast fun _ => spends_lowerAll hl _))
    case branch             => exact spends_branch hl demand dst
    all_goals exact .reject _ _

end

end Lower

end LineCode

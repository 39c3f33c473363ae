import LineCode.Proofs.Layout
import LineCode.Proofs.Loading
import LineCode.Proofs.Structure

namespace LineCode

-- Each register that the frame binds is related to its identifier.
def Frame.Binds (Q : String → Register → Prop) (f : Frame) : Prop :=
  ∀ scope ∈ f.outer :: f.blocks, ∀ b ∈ scope, Q b.fst b.snd

namespace Frame.Binds

variable {Q : String → Register → Prop} {f : Frame} {ident : String}

theorem empty (name : String) : Binds Q { name } := by
  simp [Binds]

theorem lookup {r : Register} (h : f.Binds Q) (hl : f.lookup? ident = some r) : Q ident r := by
  obtain ⟨scope, hs, hr⟩ := List.exists_of_findSome?_eq_some hl
  obtain ⟨pre, post, rfl, _⟩ := List.lookup_eq_some_iff.mp hr
  exact h (pre ++ (ident, r) :: post) (by simp at hs ⊢; tauto) (ident, r) (by simp)

theorem bindOuter (h : f.Binds Q) (hs : Q ident (f.nextSlot ident)) :
    (f.bindOuter ident).Binds Q := by
  simp only [Binds, Frame.bindOuter, List.forall_mem_cons] at h ⊢
  exact ⟨⟨hs, h.left⟩, h.right⟩

theorem bindInner (h : f.Binds Q) (hs : Q ident (f.nextSlot ident)) :
    (f.bindInner ident).Binds Q := by
  unfold Frame.bindInner
  split
  case h_1 => exact h.bindOuter hs
  case h_2 hf =>
    simp only [Binds, hf, List.forall_mem_cons] at h ⊢
    exact ⟨h.left, ⟨hs, h.right.left⟩, h.right.right⟩

theorem openBlock (h : f.Binds Q) : f.openBlock.Binds Q := by
  simpa [Binds, Frame.openBlock] using h

theorem closeBlock (h : f.Binds Q) : f.closeBlock.Binds Q := by
  intro scope hs
  refine h scope ?_
  simp only [Frame.closeBlock, List.mem_cons] at hs ⊢
  exact hs.imp_right List.mem_of_mem_tail

end Frame.Binds

namespace Symbols

variable {K : Frame → Prop} {s : Symbols}

-- A property of all frames, and one of the registers that they give out.
theorem inFrame_forall {P : Register → Prop} {ident : String} {f : Frame → Register × Frame}
    (h : ∀ f ∈ s.frames, K f) (hi : P (.named ident))
    (hf : ∀ frame, K frame → P (f frame).fst ∧ K (f frame).snd) :
    P (s.inFrame ident f).fst ∧ ∀ frame ∈ (s.inFrame ident f).snd.frames, K frame := by
  unfold inFrame
  split
  case h_1 frame frames _ hs =>
    rw [hs, List.forall_mem_cons] at h
    obtain ⟨hr, hk⟩ := hf frame h.left
    exact ⟨hr, List.forall_mem_cons.mpr ⟨hk, h.right⟩⟩
  case h_2 => exact ⟨hi, h⟩

theorem modifyFrame_forall {m : Frame → Frame} (h : ∀ f ∈ s.frames, K f) (hm : ∀ f, K f → K (m f)) :
    ∀ f ∈ (s.modifyFrame m).frames, K f := by
  unfold modifyFrame
  split
  case h_1 => exact h
  case h_2 frame frames hs =>
    rw [hs, List.forall_mem_cons] at h
    exact List.forall_mem_cons.mpr ⟨hm frame h.left, h.right⟩

end Symbols

namespace Node

-- The children of a node, but for the callee of a call of `print`, which is not a variable.
def parts (n : Node) : List Node :=
  match n.kind, n.children with
  | .call, target :: rest =>
    if target.kind = .identifier ∧ target.text = Lower.printName then rest else target :: rest
  | _, children => children

theorem parts_subset (n : Node) : n.parts ⊆ n.children := by
  unfold parts
  split
  case h_1 hc =>
    rw [hc]
    split <;> simp
  case h_2 => exact List.Subset.refl _

theorem parts_eq {n : Node} (h : n.kind ≠ .call) : n.parts = n.children := by
  unfold parts
  split <;> simp_all

-- A property of all nodes of a tree, but for the callees of calls of `print`.
inductive EveryPart (P : Node → Prop) : Node → Prop
  | intro {n : Node} : P n → (∀ c ∈ n.parts, c.EveryPart P) → n.EveryPart P

namespace EveryPart

variable {P Q : Node → Prop} {n : Node} {token : Token}

theorem self (h : n.EveryPart P) : P n := by
  cases h
  assumption

theorem part {c : Node} (h : n.EveryPart P) (hc : c ∈ n.parts) : c.EveryPart P := by
  cases h
  case intro h => exact h c hc

theorem imp (h : n.EveryPart P) (hi : ∀ n, P n → Q n) : n.EveryPart Q := by
  induction h
  case intro hn _ hc => exact .intro (hi _ hn) hc

theorem and (hp : n.EveryPart P) (hq : n.EveryPart Q) : n.EveryPart fun m => P m ∧ Q m := by
  induction hp
  case intro hn _ hc => exact .intro ⟨hn, hq.self⟩ fun c h => hc c h (hq.part h)

theorem child {c : Node} (h : n.EveryPart P) (hk : n.kind ≠ .call) (hc : c ∈ n.children) :
    c.EveryPart P :=
  h.part (parts_eq hk ▸ hc)

theorem arguments {target list : Node} {rest : List Node}
    (h : EveryPart P ⟨.call, token, target :: list :: rest⟩) :
    list.EveryPart P := by
  refine h.part ?_
  simp only [parts]
  split <;> simp

theorem callee {target : Node} {rest : List Node} (h : EveryPart P ⟨.call, token, target :: rest⟩)
    (ht : target.text ≠ Lower.printName) : target.EveryPart P :=
  h.part (by simp [parts, ht])

end EveryPart

theorem Every.everyPart {P : Node → Prop} {n : Node} (h : n.Every P) : n.EveryPart P := by
  induction h
  case intro hn _ hc => exact .intro hn fun c h => hc c (parts_subset _ h)

-- A node whose names, literals and references have certain properties.
structure Names (U B : String → Prop) (L : Label → Prop) (W : String → Prop) (n : Node) : Prop where
  name      : n.kind = .identifier → U n.text
  binding   : n.kind = .letBinding → ∀ c ∈ n.children.head?, B c.text
  literal   : n.kind = .numericLiteral → W n.text
  reference : n.kind = .functionReference → L (.function n.text)

instance {U B : String → Prop} {L : Label → Prop} {W : String → Prop} [DecidablePred U]
    [DecidablePred B] [DecidablePred L] [DecidablePred W] : DecidablePred (Names U B L W) :=
  fun n =>
  decidable_of_iff
    ((n.kind = .identifier → U n.text) ∧ (n.kind = .letBinding → ∀ c ∈ n.children.head?, B c.text) ∧
      (n.kind = .numericLiteral → W n.text) ∧ (n.kind = .functionReference → L (.function n.text)))
    ⟨fun ⟨h₁, h₂, h₃, h₄⟩ => ⟨h₁, h₂, h₃, h₄⟩, fun ⟨h₁, h₂, h₃, h₄⟩ => ⟨h₁, h₂, h₃, h₄⟩⟩

-- There is no definition in the node either.
structure Over (U B : String → Prop) (L : Label → Prop) (W : String → Prop) (n : Node) : Prop
    extends Names U B L W n where
  noDefinition : n.kind ≠ .functionDefinition

instance {U B : String → Prop} {L : Label → Prop} {W : String → Prop} [DecidablePred U]
    [DecidablePred B] [DecidablePred L] [DecidablePred W] : DecidablePred (Over U B L W) := fun n =>
  decidable_of_iff (n.Names U B L W ∧ n.kind ≠ .functionDefinition)
    ⟨fun ⟨hn, hd⟩ => ⟨hn, hd⟩, fun h => ⟨h.toNames, h.noDefinition⟩⟩

theorem over_true {n : Node} (h : n.kind ≠ .functionDefinition) :
    n.Over (fun _ => True) (fun _ => True) (fun _ => True) (fun _ => True) :=
  ⟨⟨fun _ => trivial, fun _ _ _ => trivial, fun _ => trivial, fun _ => trivial⟩, h⟩

end Node

theorem Instruction.over_iff {P : Register → Prop} {L : Label → Prop} {W : String → Prop}
    {i : Instruction} :
    i.Over P L W ↔ (∀ r ∈ i.registers, P r) ∧ (∀ l ∈ i.label?, L l) ∧ ∀ w ∈ i.literal?, W w :=
  ⟨fun ⟨h₁, h₂, h₃⟩ => ⟨h₁, h₂, h₃⟩, fun ⟨h₁, h₂, h₃⟩ => ⟨h₁, h₂, h₃⟩⟩

namespace Lower

-- Symbols with the invariant `I` only name registers that have the property `P`, as long as the
-- names used have the property `U` and the names bound have the property `B`. What lowering adds of
-- its own accord has the properties, too.
structure Vocabulary (I : Symbols → Prop) (U B : String → Prop) (P : Register → Prop)
    (L : Label → Prop) (W : String → Prop) : Prop where
  resolve {s : Symbols} {ident : String} : I s → U ident → P (s.resolve ident).fst ∧
    I (s.resolve ident).snd
  declare {s : Symbols} {ident : String} : I s → B ident → P (s.declare ident).fst ∧
    I (s.declare ident).snd
  openBlock {s : Symbols} : I s → I s.openBlock
  closeBlock {s : Symbols} : I s → I s.closeBlock
  temp (d : Nat) : P (.temp d)
  sink : P .sink
  numbered (n : Nat) : L (.numbered n)
  zero : W "0"

-- What it takes for this to hold of definitions in definitions as well.
structure Nesting (I : Symbols → Prop) (U : String → Prop) (P : Register → Prop)
    (L : Label → Prop) : Prop where
  label {r : Register} : P r → L ⟨r.name⟩
  enter {s : Symbols} {r : Register} : I s → P r → I (s.enter r.name)
  parameter {s : Symbols} {ident : String} :
    I s → U ident → P (s.declareParameter ident).fst ∧ I (s.declareParameter ident).snd
  leave {s : Symbols} : I s → I s.leave

def Job.EveryPart (P : Node → Prop) : Job → Prop
  | node n _ _     => n.EveryPart P
  | all ns _       => ∀ n ∈ ns, n.EveryPart P
  | arguments ns _ => ∀ n ∈ ns, n.EveryPart P

theorem Job.EveryPart.imp {P Q : Node → Prop} {job : Job} (h : job.EveryPart P)
    (hi : ∀ n, P n → Q n) :
    job.EveryPart Q := by
  cases job
  case node n _ _               => exact Node.EveryPart.imp h hi
  case all ns _ | arguments ns _ => exact fun n hn => (h n hn).imp hi

@[simp]
def Job.target : Job → Register
  | node _ _ dst  => dst.target
  | all _ dst     => dst.target
  | arguments _ t => t

variable {I : Symbols → Prop} {U B : String → Prop} {P : Register → Prop} {L : Label → Prop}
  {W : String → Prop}

theorem parameters_over {ps : List Node} {s : Symbols}
    (hd : ∀ s ident, I s → U ident → P (s.declareParameter ident).fst ∧
      I (s.declareParameter ident).snd) (hp : ∀ p ∈ ps, U p.text) (hs : I s) :
    (∀ r ∈ parameterSlots ps s, P r) ∧ I (parameterSymbols ps s) := by
  induction ps generalizing s
  case nil => exact ⟨by simp [parameterSlots], hs⟩
  case cons p ps hi =>
    obtain ⟨hp, hps⟩ := List.forall_mem_cons.mp hp
    obtain ⟨hr, hs⟩ := hd s p.text hs hp
    obtain ⟨hrs, hs⟩ := hi hps hs
    exact ⟨List.forall_mem_cons.mpr ⟨hr, hrs⟩, hs⟩

theorem Vocabulary.assigned (v : Vocabulary I U B P L W) {target : Node}
    {symbols symbols' : Symbols} {slot : Register}
    (h : assigned? target symbols = some (slot, symbols')) (ht : target.Names U B L W)
    (hs : I symbols) :
    P slot ∧ I symbols' := by
  unfold assigned? at h
  split at h
  case h_1 hk =>
    have hr := v.resolve hs (ht.name hk)
    rwa [Option.some.inj h] at hr
  case h_2 hk =>
    obtain ⟨name, hn, h⟩ := Option.map_eq_some_iff.mp h
    have hr := v.declare hs (ht.binding hk name hn)
    rwa [h] at hr
  case h_3 => contradiction

theorem Emits.names (v : Vocabulary I U B P L W) {job : Job} {d : Nat} {s s' : Stage}
    {code : List Instruction} (h : Emits job d s code s')
    (hp : job.EveryPart fun n => n.Names U B L W ∧ (n.kind = .functionDefinition → Nesting I U P L))
    (hd : P job.target) (hs : I s.symbols) : (∀ i ∈ code, i.Over P L W) ∧ I s'.symbols := by
  have ht := v.temp
  have hl := v.numbered
  induction h
  case literalDiscarded | nil | noArgument => exact ⟨by simp, hs⟩
  case literal =>
    have hw := (Node.EveryPart.self hp).left.literal rfl
    exact ⟨by simpa [Instruction.over_iff] using ⟨hd, hw⟩, hs⟩
  case identifier =>
    obtain ⟨hr, hs⟩ := v.resolve hs <| (Node.EveryPart.self hp).left.name rfl
    exact ⟨by simpa [Instruction.over_iff] using ⟨hr, hd⟩, hs⟩
  case reference =>
    have hf := (Node.EveryPart.self hp).left.reference rfl
    exact ⟨by simpa [Instruction.over_iff] using ⟨hd, hf⟩, hs⟩
  case assignment ha _ hi =>
    have hc := fun c => Node.EveryPart.child (c := c) hp (by simp)
    obtain ⟨hr, hs⟩ := v.assigned ha (hc _ (by simp)).self.left hs
    exact hi (hc _ (by simp)) hr hs
  case binary h₁ h₂ =>
    have hc := fun c => Node.EveryPart.child (c := c) hp (by simp)
    obtain ⟨h₁, hs⟩ := h₁ (hc _ (by simp)) (ht _) hs
    obtain ⟨h₂, hs⟩ := h₂ (hc _ (by simp)) hd hs
    refine ⟨List.forall_mem_append.mpr ⟨List.forall_mem_append.mpr ⟨h₁, h₂⟩, ?_⟩, hs⟩
    simpa [Instruction.over_iff, ht] using hd
  case print hi =>
    have ha := Node.EveryPart.arguments hp
    obtain ⟨h, hs⟩ := hi (fun n hn => ha.child (by simp) hn) (ht _) hs
    refine ⟨List.forall_mem_append.mpr ⟨h, fun i hi => ?_⟩, hs⟩
    rcases mem_printCode hi with rfl | rfl | rfl | rfl <;> simp [Instruction.over_iff, ht, v.zero]
    exact hd
  case call hk hn _ hi =>
    have ha := Node.EveryPart.arguments hp
    obtain ⟨h, hs⟩ := hi (fun n hn => ha.child (by simp) hn) (ht _) hs
    obtain ⟨hr, hs⟩ := v.resolve hs <| (Node.EveryPart.callee hp hn).self.left.name hk
    refine ⟨List.forall_mem_append.mpr ⟨h, ?_⟩, hs⟩
    simpa [Instruction.over_iff, ht] using ⟨hr, hd⟩
  case definition hl hk _ hi =>
    have hn := (Node.EveryPart.self hp).right rfl
    have hc := fun c => Node.EveryPart.child (c := c) hp (by simp)
    have hu := fun p hm =>
      ((hc _ List.mem_cons_self).child (by simp [hl]) hm).self.left.name (hk p hm)
    obtain ⟨hps, hs⟩ := parameters_over (fun _ _ => hn.parameter) hu (hn.enter hs hd)
    obtain ⟨hb, hs⟩ := hi (hc _ (by simp)) v.sink hs
    refine ⟨List.forall_mem_cons.mpr ⟨?_, List.forall_mem_append.mpr ⟨?_, hb⟩⟩, hn.leave hs⟩
    · simpa [Instruction.over_iff] using hn.label hd
    · simpa [Instruction.over_iff] using hps
  case block hi =>
    obtain ⟨h, hs⟩ := hi (fun n hn => Node.EveryPart.child hp (by simp) hn) v.sink (v.openBlock hs)
    exact ⟨h, v.closeBlock hs⟩
  case returns hi =>
    obtain ⟨h, hs⟩ := hi (fun n hn => Node.EveryPart.child hp (by simp) hn) (ht _) hs
    refine ⟨List.forall_mem_append.mpr ⟨h, ?_⟩, hs⟩
    simp [Instruction.over_iff, ht]
  case ifThen d s _ _ _ _ _ _ _ h₁ h₂ =>
    have hc := fun c => Node.EveryPart.child (c := c) hp (by simp)
    obtain ⟨h₁, hs⟩ := h₁ (hc _ (by simp)) (ht _) hs
    obtain ⟨h₂, hs⟩ := h₂ (hc _ (by simp)) v.sink hs
    have hn : (Instruction.negate (.temp d)).Over P L W := by
      simp [Instruction.over_iff, Instruction.negate, ht]
    have hj : (Instruction.jumpIf s.label (.temp d)).Over P L W := by
      simp [Instruction.over_iff, Stage.label, ht, hl]
    have hm : (Instruction.label s.label).Over P L W := by
      simp [Instruction.over_iff, Stage.label, hl]
    refine ⟨?_, hs⟩
    simp only [List.forall_mem_append, List.forall_mem_cons]
    exact ⟨⟨⟨h₁, hn, hj, by simp⟩, h₂⟩, hm, by simp⟩
  case whileDo d s _ _ _ _ _ _ _ h₁ h₂ =>
    have hc := fun c => Node.EveryPart.child (c := c) hp (by simp)
    obtain ⟨h₁, hs⟩ := h₁ (hc _ (by simp)) (ht _) hs
    obtain ⟨h₂, hs⟩ := h₂ (hc _ (by simp)) v.sink hs
    have hn : (Instruction.negate (.temp d)).Over P L W := by
      simp [Instruction.over_iff, Instruction.negate, ht]
    have hf : (Instruction.jumpIf s.label (.temp d)).Over P L W := by
      simp [Instruction.over_iff, Stage.label, ht, hl]
    have hb : (Instruction.jump s.issue.label).Over P L W := by
      simp [Instruction.over_iff, Stage.label, hl]
    have hm (s : Stage) : (Instruction.label s.label).Over P L W := by
      simp [Instruction.over_iff, Stage.label, hl]
    refine ⟨?_, hs⟩
    simp only [List.forall_mem_append, List.forall_mem_cons]
    exact ⟨⟨⟨⟨hm _, h₁⟩, hn, hf, by simp⟩, h₂⟩, hb, hm _, by simp⟩
  case cons h₁ h₂ =>
    obtain ⟨h₁, hs⟩ := h₁ (hp _ (by simp)) hd hs
    obtain ⟨h₂, hs⟩ := h₂ (fun n hn => hp n (by simp [hn])) hd hs
    exact ⟨List.forall_mem_append.mpr ⟨h₁, h₂⟩, hs⟩
  case argument h₁ h₂ =>
    obtain ⟨h₁, hs⟩ := h₁ (fun n hn => hp n (by simp [hn])) hd hs
    obtain ⟨h₂, hs⟩ := h₂ (hp _ (by simp)) hd hs
    refine ⟨List.forall_mem_append.mpr ⟨List.forall_mem_append.mpr ⟨h₁, h₂⟩, ?_⟩, hs⟩
    simpa [Instruction.over_iff] using hd

theorem Emits.over (v : Vocabulary I U B P L W) {job : Job} {d : Nat} {s s' : Stage}
    {code : List Instruction} (h : Emits job d s code s') (hp : job.EveryPart (Node.Over U B L W))
    (hd : P job.target) (hs : I s.symbols) :
    (∀ i ∈ code, i.Over P L W) ∧ I s'.symbols :=
  h.names v (hp.imp fun _ hn => ⟨hn.toNames, fun hk => absurd hk hn.noDefinition⟩) hd hs

-- The code of a definition behind its label, if its parameters are in order.
theorem Defines.names (v : Vocabulary I U B P L W) {naming : Naming} {name : String} {node : Node}
    {l l' : Nat} {tail : List Instruction}
    (h : Defines naming name node l (.label ⟨name⟩ :: tail) l')
    (hc : ∀ c ∈ node.children,
      c.EveryPart fun n => n.Names U B L W ∧ (n.kind = .functionDefinition → Nesting I U P L))
    (hp : ∀ params ∈ node.children.head?, (∀ p ∈ params.children, U p.text) →
      (∀ r ∈ parameterSlots params.children (Symbols.enter { naming } name), P r) ∧
        I (parameterSymbols params.children (Symbols.enter { naming } name))) :
    ∀ i ∈ tail, i.Over P L W := by
  obtain ⟨token, params, body, rest, code, symbols, rfl, hl, hk, he, ht⟩ := h.inv
  have hps := fun p hp => (hc params (by simp)).child (c := p) (by simp [hl]) hp
  obtain ⟨hr, hi⟩ := hp params rfl fun p hp => (hps p hp).self.left.name (hk p hp)
  obtain ⟨hb, _⟩ := he.names v (hc body (by simp)) v.sink hi
  obtain rfl : tail = _ ++ code := (List.cons.inj ht).right
  simp only [List.forall_mem_append, List.forall_mem_map]
  exact ⟨by simpa [Instruction.over_iff] using hr, hb⟩

theorem Defines.over (v : Vocabulary I U B P L W) {naming : Naming} {name : String} {node : Node}
    {l l' : Nat} {tail : List Instruction}
    (h : Defines naming name node l (.label ⟨name⟩ :: tail) l')
    (hc : ∀ c ∈ node.children, c.EveryPart (Node.Over U B L W))
    (hp : ∀ params ∈ node.children.head?, (∀ p ∈ params.children, U p.text) →
      (∀ r ∈ parameterSlots params.children (Symbols.enter { naming } name), P r) ∧
        I (parameterSymbols params.children (Symbols.enter { naming } name))) :
    ∀ i ∈ tail, i.Over P L W :=
  h.names v (fun c hm => (hc c hm).imp fun _ hn =>
    ⟨hn.toNames, fun hk => absurd hk hn.noDefinition⟩) hp

end Lower
end LineCode

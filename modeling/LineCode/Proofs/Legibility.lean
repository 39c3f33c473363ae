import LineCode.Proofs.Labels
import LineCode.Proofs.Vocabulary

namespace LineCode

open Text

theorem isBlank_of_isDigit {c : Char} (h : c.isDigit) : isBlank c = false := by
  have ⟨h₁, h₂⟩ : 48 ≤ c.toNat ∧ c.toNat ≤ 57 := by
    simpa [Char.isDigit, UInt32.le_iff_toNat_le] using h
  simp [isBlank]
  omega

theorem isDigit_of_mem_toString {n : Nat} {c : Char} (h : c ∈ (toString n).toList) : c.isDigit := by
  rw [Nat.toString_eq_ofList_toDigits, String.toList_ofList] at h
  exact Nat.isDigit_of_mem_toDigits (by decide) (by decide) h

theorem solid_toString (n : Nat) : Solid (toString n).toList :=
  fun _ hc => isBlank_of_isDigit <| isDigit_of_mem_toString hc

theorem Register.temp_legible (d : Nat) : (temp d).Legible := by
  have hn : (temp d).name.toList = ['.', 't'] ++ (toString d).toList := by
    simp [name]
  rw [Legible, hn]
  exact Solid.append_iff.mpr ⟨by decide, solid_toString d⟩

theorem Register.sink_legible : sink.Legible := by
  decide

-- A word in front of a number.
theorem Label.legible_of_append {l : Label} {word : String} {n : Nat}
    (hl : l.name = word ++ toString n) (hs : Solid word.toList) (hn : word.toList ≠ [])
    (hm : word.toList.head? ≠ some '&') : l.Legible where
  solid := by
    rw [hl, String.toList_append]
    exact Solid.append_iff.mpr ⟨hs, solid_toString n⟩
  noMark := by
    rw [hl, String.toList_append, List.head?_append_of_ne_nil _ hn]
    exact hm
  noColon := by
    have hd : (toString n).toList ≠ [] := by
      simp [Nat.toDigits_ne_nil]
    rw [hl, String.toList_append, List.getLast?_append_of_ne_nil _ hd]
    intro hc
    have := isDigit_of_mem_toString (List.mem_of_getLast? hc)
    contradiction

theorem Label.numbered_legible (n : Nat) : (numbered n).Legible :=
  legible_of_append (n := n) rfl (by decide) (by decide) (by decide)

theorem Label.function_legible (n : Nat) : (function (toString n)).Legible :=
  legible_of_append (n := n) rfl (by decide) (by decide) (by decide)

theorem Labelled.legible {functions : List Node} {entry node : Node} {name : String}
    (h : Labelled functions entry name node) : Label.Legible ⟨name⟩ := by
  cases h
  case entry    => exact ⟨by decide, by decide, by decide⟩
  case function => exact Label.function_legible _

-- The names and literals of a node can be read off the text of the code, and there is no definition
-- in it. References are to one of the first `k` functions.
structure Node.Legible (k : Nat) (n : Node) : Prop where
  noDefinition : n.kind ≠ .functionDefinition
  name         : n.kind = .identifier → Solid n.text.toList
  binding      : n.kind = .letBinding → ∀ c ∈ n.children.head?, Solid c.text.toList
  literal      : n.kind = .numericLiteral → Instruction.LegibleLiteral n.text
  reference    : n.kind = .functionReference → ∃ i, i < k ∧ n.text = toString i

instance {k : Nat} : DecidablePred (Node.Legible k) := fun n =>
  decidable_of_iff
    (n.kind ≠ .functionDefinition ∧ (n.kind = .identifier → Solid n.text.toList) ∧
      (n.kind = .letBinding → ∀ c ∈ n.children.head?, Solid c.text.toList) ∧
      (n.kind = .numericLiteral → Instruction.LegibleLiteral n.text) ∧
      (n.kind = .functionReference → ∃ i, i < k ∧ n.text = toString i))
    ⟨fun ⟨h₁, h₂, h₃, h₄, h₅⟩ => ⟨h₁, h₂, h₃, h₄, h₅⟩,
      fun ⟨h₁, h₂, h₃, h₄, h₅⟩ => ⟨h₁, h₂, h₃, h₄, h₅⟩⟩

-- Less than that will do for reading alone: references need not be to functions that exist.
def Node.Readable : Node → Prop :=
  Over (Solid ·.toList) (Solid ·.toList) (Solid ·.name.toList) Instruction.LegibleLiteral

instance : DecidablePred Node.Readable := fun n =>
  inferInstanceAs (Decidable
    (n.Over (Solid ·.toList) (Solid ·.toList) (Solid ·.name.toList) Instruction.LegibleLiteral))

theorem Node.Legible.readable {k : Nat} {n : Node} (h : n.Legible k) : n.Readable where
  noDefinition := h.noDefinition
  name         := h.name
  binding      := h.binding
  literal      := h.literal
  reference hk := by
    obtain ⟨i, _, hi⟩ := h.reference hk
    exact hi ▸ (Label.function_legible i).solid

structure Frame.Legible (f : Frame) : Prop where
  name  : Solid f.name.toList
  bound : ∀ scope ∈ f.outer :: f.blocks, ∀ b ∈ scope, b.snd.Legible

namespace Frame.Legible

variable {f : Frame} {ident : String}

theorem nextSlot (h : f.Legible) (hi : Solid ident.toList) : (f.nextSlot ident).Legible := by
  have hd : Solid ".".toList := by decide
  unfold Frame.nextSlot
  cases f.slots.count ident
  all_goals simp only [Frame.slot, Register.Legible, Register.name, String.toList_append,
    Solid.append_iff]
  case zero => exact ⟨⟨h.name, hd⟩, hi⟩
  case succ => exact ⟨⟨⟨⟨h.name, hd⟩, hi⟩, hd⟩, solid_toString _⟩

theorem bindOuter (h : f.Legible) (hi : Solid ident.toList) : (f.bindOuter ident).Legible where
  name  := h.name
  bound := Frame.Binds.bindOuter (Q := fun _ => Register.Legible) h.bound (h.nextSlot hi)

theorem bindInner (h : f.Legible) (hi : Solid ident.toList) : (f.bindInner ident).Legible where
  name  := by
    unfold Frame.bindInner
    split <;> exact h.name
  bound := Frame.Binds.bindInner (Q := fun _ => Register.Legible) h.bound (h.nextSlot hi)

end Frame.Legible

def Symbols.Legible (s : Symbols) : Prop := ∀ f ∈ s.frames, f.Legible

namespace Symbols.Legible

variable {s : Symbols} {ident : String}

theorem declare (h : s.Legible) (hi : Solid ident.toList) :
    (s.declare ident).fst.Legible ∧ (s.declare ident).snd.Legible :=
  inFrame_forall h hi fun _ hf => ⟨hf.nextSlot hi, hf.bindInner hi⟩

theorem declareParameter (h : s.Legible) (hi : Solid ident.toList) :
    (s.declareParameter ident).fst.Legible ∧ (s.declareParameter ident).snd.Legible :=
  inFrame_forall h hi fun _ hf => ⟨hf.nextSlot hi, hf.bindOuter hi⟩

theorem resolve (h : s.Legible) (hi : Solid ident.toList) :
    (s.resolve ident).fst.Legible ∧ (s.resolve ident).snd.Legible := by
  refine inFrame_forall h hi fun frame hf => ?_
  split
  case h_1 hl => exact ⟨Frame.Binds.lookup (Q := fun _ => Register.Legible) hf.bound hl, hf⟩
  case h_2    => exact ⟨hf.nextSlot hi, hf.bindOuter hi⟩

theorem openBlock (h : s.Legible) : s.openBlock.Legible :=
  modifyFrame_forall h fun _ hf =>
    ⟨hf.name, Frame.Binds.openBlock (Q := fun _ => Register.Legible) hf.bound⟩

theorem closeBlock (h : s.Legible) : s.closeBlock.Legible :=
  modifyFrame_forall h fun _ hf =>
    ⟨hf.name, Frame.Binds.closeBlock (Q := fun _ => Register.Legible) hf.bound⟩

theorem enter {name : String} (h : s.Legible) (hn : Solid name.toList) : (s.enter name).Legible :=
  List.forall_mem_cons.mpr ⟨⟨hn, by simp⟩, h⟩

end Symbols.Legible

namespace Lower

-- Names without blanks lead to legible registers, whatever labels and literals are like.
theorem legible_vocabulary {L : Label → Prop} {W : String → Prop} (hl : ∀ n, L (.numbered n))
    (hw : W "0") :
    Vocabulary Symbols.Legible (Solid ·.toList) (Solid ·.toList) Register.Legible L W where
  resolve    := Symbols.Legible.resolve
  declare    := Symbols.Legible.declare
  openBlock  := Symbols.Legible.openBlock
  closeBlock := Symbols.Legible.closeBlock
  temp       := Register.temp_legible
  sink       := Register.sink_legible
  numbered   := hl
  zero       := hw

theorem legible_nesting {L : Label → Prop} (hl : ∀ r, Register.Legible r → L ⟨r.name⟩) :
    Nesting Symbols.Legible (Solid ·.toList) Register.Legible L where
  label       := hl _
  enter hs hr := hs.enter hr
  parameter   := Symbols.Legible.declareParameter
  leave hs    := fun f hf => hs f (List.mem_of_mem_tail hf)

variable {naming : Naming} {functions : List Node} {entry : Node} {p : Program} {n k : Nat}

-- A program whose names have no blanks in them.
theorem Links.over_names {L : Label → Prop} {W : String → Prop}
    (h : Links naming functions entry p n) (hl : ∀ n, L (.numbered n))
    (hd : ∀ name node, Labelled functions entry name node → L ⟨name⟩) (hw : W "0")
    (hc : ∀ f ∈ entry :: functions, ∀ c ∈ f.children, c.EveryPart fun n =>
      n.Names (Solid ·.toList) (Solid ·.toList) L W ∧
        (n.kind = .functionDefinition →
          Nesting Symbols.Legible (Solid ·.toList) Register.Legible L)) :
    ∀ i ∈ p.instructions, i.Over Register.Legible L W := by
  refine Program.forall_instructions (by simp [Instruction.over_iff])
    (by simp [Instruction.over_iff]) fun hs => ?_
  obtain ⟨node, first, tail, l₁, l₂, hn, rfl, hf, hdef⟩ := h.section hs
  have hs : Symbols.Legible { naming } := by simp [Symbols.Legible]
  have ht := hdef.names (legible_vocabulary hl hw) (hc node hn.mem) fun _ _ hp =>
    parameters_over (fun _ _ h hi => h.declareParameter hi) hp (hs.enter hn.legible.solid)
  refine List.forall_mem_cons.mpr ⟨?_, ht⟩
  rcases hf with rfl | rfl
  · simp [Instruction.over_iff]
  · simpa [Instruction.over_iff] using hd _ node hn

theorem Links.over_legible {L : Label → Prop} {W : String → Prop}
    (h : Links naming functions entry p n) (hl : ∀ n, L (.numbered n))
    (hd : ∀ name node, Labelled functions entry name node → L ⟨name⟩) (hw : W "0")
    (hc : ∀ f ∈ entry :: functions, ∀ c ∈ f.children,
      c.EveryPart (Node.Over (Solid ·.toList) (Solid ·.toList) L W)) :
    ∀ i ∈ p.instructions, i.Over Register.Legible L W :=
  h.over_names hl hd hw fun f hm c hm' =>
    (hc f hm c hm').imp fun _ hn => ⟨hn.toNames, fun hk => absurd hk hn.noDefinition⟩

-- The instructions of any program whose names have no blanks in them and whose literals can be
-- read.
theorem Links.readable (h : Links naming functions entry p n)
    (hc : ∀ f ∈ entry :: functions, ∀ c ∈ f.children,
      c.Every (Node.Names (Solid ·.toList) (Solid ·.toList) (Solid ·.name.toList)
        Instruction.LegibleLiteral)) :
    ∀ i ∈ p.instructions, i.Readable :=
  h.over_names (fun i => (Label.numbered_legible i).solid) (fun _ _ hn => hn.legible.solid)
    ⟨by decide, by decide, by decide⟩ fun f hm c hm' =>
    (hc f hm c hm').everyPart.imp fun _ hn => ⟨hn, fun _ => legible_nesting fun _ hr => hr⟩

theorem Links.label_mem (h : Links naming functions entry p n) {i : Nat}
    (hi : i < functions.length) :
    .label (.function (toString i)) ∈ p.instructions := by
  have hf : .function (toString i) ∈ functionLabels functions.length :=
    List.mem_map.mpr ⟨i, by simpa using hi, rfl⟩
  exact Machine.Image.mem_filterMap_definedLabel?.mp <| h.labels_perm.mem_iff.mpr <|
    List.mem_append_left _ <| List.mem_append_right _ hf

-- The labels of a program without definitions in definitions.
theorem Links.label_legible (h : Links naming functions entry p n)
    (hn : nestedLabels naming functions entry = []) {l : Label} (hm : .label l ∈ p.instructions) :
    l.Legible := by
  have hl := h.labels_perm.mem_iff.mp <| Machine.Image.mem_filterMap_definedLabel?.mpr hm
  rw [hn, List.append_nil, List.mem_append] at hl
  rcases hl with hl | hl
  · obtain ⟨i, _, _, rfl⟩ := mem_issuedLabels.mp hl
    exact Label.numbered_legible i
  · obtain ⟨i, _, rfl⟩ := List.mem_map.mp hl
    exact Label.function_legible i

theorem Links.nodup_labels (h : Links naming functions entry p n)
    (hn : nestedLabels naming functions entry = []) :
    p.labels.Nodup :=
  h.labels_perm.nodup_iff.mpr <| nodup_labels_iff.mpr (by simp [hn])

-- A program without definitions in definitions whose names have no blanks in them: all that it
-- takes to read it, but for the literals.
theorem Links.over_solid {W : String → Prop} (h : Links naming functions entry p n) (hw : W "0")
    (hc : ∀ f ∈ entry :: functions, ∀ c ∈ f.children,
      c.Every (Node.Over (Solid ·.toList) (Solid ·.toList) (Solid ·.name.toList) W)) :
    (∀ i ∈ p.instructions, i.Over Register.Legible (Solid ·.name.toList) W) ∧
      (∀ l, .label l ∈ p.instructions → l.Legible) ∧ p.labels.Nodup := by
  have hd := fun f hm c hc' => (hc f hm c hc').imp fun _ h => h.noDefinition
  have hl : nestedLabels naming functions entry = [] :=
    nestedLabels_eq_nil (hd entry List.mem_cons_self) fun f hm =>
      hd f (List.mem_cons_of_mem entry hm)
  refine ⟨?_, fun _ => h.label_legible hl, h.nodup_labels hl⟩
  exact h.over_legible (fun i => (Label.numbered_legible i).solid)
    (fun _ _ hn => hn.legible.solid) hw
    fun f hm c hm' => (hc f hm c hm').everyPart

-- A program with readable names and literals is read back as it is.
theorem Links.load_readable (h : Links naming functions entry p n)
    (hc : ∀ f ∈ entry :: functions, ∀ c ∈ f.children, c.Every Node.Readable) :
    ∃ img, Machine.Image.load p.text = .ok img ∧ img.Holds p.instructions := by
  obtain ⟨hi, hl, hn⟩ :=
    h.over_solid (W := Instruction.LegibleLiteral) ⟨by decide, by decide, by decide⟩ hc
  exact Machine.Image.load_readable hi hl hn

theorem Links.load_ofCode (h : Links naming functions entry p n)
    (hc : ∀ f ∈ entry :: functions, ∀ c ∈ f.children, c.Every Node.Readable) :
    Machine.Image.load p.text = .ok (.ofCode p.instructions) ∧
      (Machine.Image.ofCode p.instructions).Holds p.instructions := by
  obtain ⟨hi, hl, -⟩ :=
    h.over_solid (W := Instruction.LegibleLiteral) ⟨by decide, by decide, by decide⟩ hc
  obtain ⟨img, hload, hh⟩ := h.load_readable hc
  obtain rfl := Machine.Image.load_eq_ofCode hi hl hload
  exact ⟨hload, hh⟩

-- Definitions in definitions have labels that may be anything.
theorem Links.load_labels (h : Links naming functions entry p n)
    (hc : ∀ f ∈ entry :: functions, ∀ c ∈ f.children,
      c.Every (Node.Names (Solid ·.toList) (Solid ·.toList) (Solid ·.name.toList)
        Instruction.LegibleLiteral)) (hl : ∀ l ∈ p.labels, l.Legible) (hn : p.labels.Nodup) :
    Machine.Image.load p.text = .ok (.ofCode p.instructions) := by
  have hi := h.readable hc
  have hl : ∀ l, .label l ∈ p.instructions → l.Legible := fun l hm =>
    hl l (Machine.Image.mem_filterMap_definedLabel?.mpr hm)
  obtain ⟨img, hload, -⟩ := Machine.Image.load_readable hi hl hn
  obtain rfl := Machine.Image.load_eq_ofCode hi hl hload
  exact hload

theorem Links.load (h : Links naming functions entry p n)
    (he : ∀ c ∈ entry.children, c.Every (Node.Legible k))
    (hf : ∀ f ∈ functions, ∀ c ∈ f.children, c.Every (Node.Legible k)) :
    ∃ img, Machine.Image.load p.text = .ok img ∧ img.Holds p.instructions :=
  h.load_readable fun f hm c hc =>
    (List.forall_mem_cons.mpr ⟨he, hf⟩ f hm c hc).imp fun _ => Node.Legible.readable

end Lower

end LineCode

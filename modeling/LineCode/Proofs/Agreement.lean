import LineCode.Proofs.Erasure
import LineCode.Proofs.Renaming

namespace LineCode

open Text

namespace Node

mutual

-- The identifiers in a tree, but for the callees of calls of `print`.
def names : Node → List String
  | ⟨.identifier, token, children⟩ => token.text :: namesOf children
  | ⟨.call, _, target :: rest⟩     =>
    (if target.kind = .identifier ∧ target.text = Lower.printName then [] else target.names) ++
    namesOf rest
  | ⟨_, _, children⟩               => namesOf children

def namesOf : List Node → List String
  | []      => []
  | n :: ns => n.names ++ namesOf ns

end

theorem mem_namesOf {ns : List Node} {x : String} : x ∈ namesOf ns ↔ ∃ n ∈ ns, x ∈ n.names := by
  induction ns
  case nil          => simp [namesOf]
  case cons n ns hi => simp [namesOf, hi]

theorem mem_names {n : Node} {x : String} :
    x ∈ n.names ↔ (n.kind = .identifier ∧ n.text = x) ∨ ∃ c ∈ n.parts, x ∈ c.names := by
  obtain ⟨kind, token, children⟩ := n
  by_cases hk : kind = .call
  case neg =>
    rw [parts_eq hk, ← mem_namesOf]
    cases kind
    case call       => contradiction
    case identifier => simp [names, text, eq_comm]
    all_goals simp [names]
  case pos =>
    subst hk
    cases children
    case nil => simp [names, namesOf, parts]
    case cons target rest =>
      rw [names, List.mem_append, mem_namesOf]
      simp only [parts]
      split <;> simp

theorem everyPart_names {n : Node} {l : List String} (h : n.names ⊆ l) :
    n.EveryPart fun m => m.kind = .identifier → m.text ∈ l := by
  induction n using Node.induction
  case h kind token children hi =>
    refine .intro (fun hk => h (mem_names.mpr (.inl ⟨hk, rfl⟩))) fun c hc => ?_
    exact hi c (parts_subset _ hc) fun x hx => h (mem_names.mpr (.inr ⟨c, hc, hx⟩))

theorem EveryPart.of_mem_names {P : Node → Prop} {n : Node} {x : String} (h : n.EveryPart P)
    (hx : x ∈ n.names) :
    ∃ m, P m ∧ m.kind = .identifier ∧ m.text = x := by
  induction h
  case intro hn _ hc =>
    rcases mem_names.mp hx with hk | ⟨c, h, hx⟩
    · exact ⟨_, hn, hk⟩
    · exact hc c h hx

-- The identifiers that a definition uses.
def mentioned (f : Node) : List String := f.children.flatMap names

end Node

-- What the register of a variable is called without scopes and with them. The sink and the
-- temporaries go by one name.
inductive ScopedName (functions : List Node) (entry : Node) : String → String → Prop
  | shared {x} : x = "NONE" ∨ (∃ d, x = (Register.temp d).name) → ScopedName functions entry x x
  | own {name node x y} : Labelled functions entry name node → x ∈ node.mentioned →
    y = name ++ "." ++ x →
    ScopedName functions entry x y

namespace Frame

-- The frame of a definition without `let`: each identifier is bound once, in the scope of the whole
-- definition.
def plain (name : String) (idents : List String) (n : Nat) : Frame where
  name   := name
  outer  := idents.map fun x => (x, .named (name ++ "." ++ x))
  blocks := List.replicate n []
  slots  := idents

variable {name x : String} {idents : List String} {n : Nat}

theorem lookup?_plain :
    (plain name idents n).lookup? x = if x ∈ idents then some (.named (name ++ "." ++ x))
      else none := by
  have hb : (plain name idents n).lookup? x = (plain name idents n).outer.lookup x := by
    simp [lookup?, plain, List.findSome?_append, List.findSome?_replicate]
  rw [hb, plain]
  clear hb
  induction idents
  case nil => rfl
  case cons ident idents hi =>
    by_cases h : x = ident
    case pos => simp [h]
    case neg => simpa [List.lookup_cons, h, beq_false_of_ne h] using hi

theorem nextSlot_plain (h : x ∉ idents) :
    (plain name idents n).nextSlot x = .named (name ++ "." ++ x) := by
  rw [nextSlot, plain, List.count_eq_zero_of_not_mem h]
  rfl

theorem bindOuter_plain (h : x ∉ idents) :
    (plain name idents n).bindOuter x = plain name (x :: idents) n := by
  rw [bindOuter, nextSlot_plain h]
  rfl

def Plain (name : String) (f : Frame) : Prop := ∃ idents n, f = plain name idents n

theorem Plain.openBlock {f : Frame} (h : f.Plain name) : f.openBlock.Plain name := by
  obtain ⟨idents, n, rfl⟩ := h
  exact ⟨idents, n + 1, rfl⟩

theorem Plain.closeBlock {f : Frame} (h : f.Plain name) : f.closeBlock.Plain name := by
  obtain ⟨idents, n, rfl⟩ := h
  exact ⟨idents, n - 1, by simp [Frame.closeBlock, plain]⟩

end Frame

namespace Symbols

variable {s : Symbols} {name : String}

theorem resolve_plain (h : s.Single (Frame.Plain name)) (x : String) :
    (s.resolve x).fst = .named (name ++ "." ++ x) ∧
      (s.resolve x).snd.Single (Frame.Plain name) := by
  refine h.inFrame (P := (· = .named (name ++ "." ++ x))) fun f hf => ?_
  obtain ⟨idents, n, rfl⟩ := hf
  by_cases hx : x ∈ idents
  case pos =>
    rw [Frame.lookup?_plain, if_pos hx]
    exact ⟨rfl, idents, n, rfl⟩
  case neg =>
    rw [Frame.lookup?_plain, if_neg hx]
    exact ⟨Frame.nextSlot_plain hx, x :: idents, n, Frame.bindOuter_plain hx⟩

-- Parameters with names of their own.
theorem parameters_plain {ps : List Node} {idents : List String} (hn : (ps.map Node.text).Nodup)
    (hi : ∀ p ∈ ps, p.text ∉ idents) :
    (∀ r ∈ Lower.parameterSlots ps ⟨.scoped, [.plain name idents 0]⟩, ∃ p ∈ ps,
      r = .named (name ++ "." ++ p.text)) ∧
      (Lower.parameterSymbols ps ⟨.scoped, [.plain name idents 0]⟩).Single (Frame.Plain name) := by
  induction ps generalizing idents
  case nil => exact ⟨by simp [Lower.parameterSlots], rfl, _, rfl, idents, 0, rfl⟩
  case cons p ps hps =>
    rw [List.map_cons, List.nodup_cons] at hn
    obtain ⟨hp, hi⟩ := List.forall_mem_cons.mp hi
    have hd : declareParameter ⟨.scoped, [.plain name idents 0]⟩ p.text =
        (.named (name ++ "." ++ p.text), ⟨.scoped, [.plain name (p.text :: idents) 0]⟩) := by
      simp only [declareParameter, inFrame, Frame.nextSlot_plain hp, Frame.bindOuter_plain hp]
    have hne (q : Node) (hq : q ∈ ps) : q.text ∉ p.text :: idents :=
      List.not_mem_cons_of_ne_of_not_mem (fun he => hn.left (he ▸ List.mem_map_of_mem hq)) (hi q hq)
    obtain ⟨hr, hs⟩ := hps hn.right hne
    simp only [Lower.parameterSlots, Lower.parameterSymbols, hd]
    refine ⟨List.forall_mem_cons.mpr ⟨⟨p, by simp, rfl⟩, fun r h => ?_⟩, hs⟩
    obtain ⟨q, hq, rfl⟩ := hr r h
    exact ⟨q, by simp [hq], rfl⟩

end Symbols

-- A node without `let` and definition in it, whose identifiers are names of their own and whose
-- words can be read.
structure Node.Plain (n : Node) : Prop where
  noDefinition : n.kind ≠ .functionDefinition
  noLet        : n.kind ≠ .letBinding
  name         : n.kind = .identifier → Solid n.text.toList ∧ '.' ∉ n.text.toList ∧ n.text ≠ "NONE"
  literal      : n.kind = .numericLiteral → Word n.text.toList
  reference    : n.kind = .functionReference → Word n.text.toList

namespace Node.Plain

instance : DecidablePred Plain := fun n =>
  decidable_of_iff
    (n.kind ≠ .functionDefinition ∧ n.kind ≠ .letBinding ∧
      (n.kind = .identifier → Solid n.text.toList ∧ '.' ∉ n.text.toList ∧ n.text ≠ "NONE") ∧
      (n.kind = .numericLiteral → Word n.text.toList) ∧
        (n.kind = .functionReference → Word n.text.toList))
    ⟨fun ⟨h₁, h₂, h₃, h₄, h₅⟩ => ⟨h₁, h₂, h₃, h₄, h₅⟩,
      fun ⟨h₁, h₂, h₃, h₄, h₅⟩ => ⟨h₁, h₂, h₃, h₄, h₅⟩⟩

variable {n : Node}

theorem dotless (h : n.Plain) : n.Dotless where
  noDefinition := h.noDefinition
  name hk      := (h.name hk).right.left
  binding hk   := absurd hk h.noLet
  literal _    := trivial
  reference _  := trivial

theorem over_solid (h : n.Plain) :
    n.Over (Solid ·.toList) (Solid ·.toList) (Solid ·.name.toList) (Word ·.toList) where
  noDefinition := h.noDefinition
  name hk      := (h.name hk).left
  binding hk   := absurd hk h.noLet
  literal      := h.literal
  reference hk := by
    rw [Label.function, String.toList_append]
    exact Solid.append_iff.mpr ⟨by decide, (h.reference hk).left⟩

end Node.Plain

section

variable {functions : List Node} {entry : Node}

-- Each identifier belongs to one definition.
theorem Labelled.unique (hd : ((entry :: functions).map Node.mentioned).Pairwise List.Disjoint)
    {name name' x : String} {node node' : Node} (h : Labelled functions entry name node)
    (h' : Labelled functions entry name' node') (hx : x ∈ node.mentioned)
    (hx' : x ∈ node'.mentioned) : name = name' := by
  rw [List.map_cons, List.pairwise_cons, List.forall_mem_map, List.pairwise_map] at hd
  obtain ⟨he, hf⟩ := hd
  cases h <;> cases h'
  case entry.entry      => rfl
  case entry.function h => exact (he _ (List.mem_of_getElem? h) hx hx').elim
  case function.entry h => exact (he _ (List.mem_of_getElem? h) hx' hx).elim
  case function.function i hi j hj =>
    obtain ⟨hil, rfl⟩ := List.getElem?_eq_some_iff.mp hi
    obtain ⟨hjl, rfl⟩ := List.getElem?_eq_some_iff.mp hj
    rw [List.pairwise_iff_getElem] at hf
    rcases Nat.lt_trichotomy i j with hl | rfl | hl
    · exact (hf i j hil hjl hl hx hx').elim
    · rfl
    · exact (hf j i hjl hil hl hx' hx).elim

theorem Labelled.scopedName {name node x} (h : Labelled functions entry name node)
    (hx : x ∈ node.mentioned) (hd : '.' ∉ x.toList) :
    ScopedName functions entry (Register.named (name ++ "." ++ x)).erase.name
      (Register.named (name ++ "." ++ x)).name := by
  have he : (Register.named (name ++ "." ++ x)).erase = .named x :=
    Frame.erase_slot (f := { name }) h.noDot hd 0
  rw [he]
  exact .own h hx rfl

theorem Labelled.shared_ne {name node x} (h : Labelled functions entry name node)
    (hx : x = "NONE" ∨ ∃ d, x = (Register.temp d).name) (rest : String) :
    x ≠ name ++ "." ++ rest := by
  rcases hx with rfl | ⟨d, rfl⟩
  · exact Register.sink_name_ne name rest
  · exact Register.temp_name_ne_append h.noDot h.ne_empty d

theorem ScopedName.biUnique (hd : ((entry :: functions).map Node.mentioned).Pairwise List.Disjoint)
    (hn : ∀ f ∈ entry :: functions, ∀ x ∈ f.mentioned, '.' ∉ x.toList ∧ x ≠ "NONE") :
    Relator.BiUnique (ScopedName functions entry) := by
  have hs {name node x} (h : Labelled functions entry name node) (hx : x ∈ node.mentioned) :
      ¬(x = "NONE" ∨ ∃ d, x = (Register.temp d).name) := by
    obtain ⟨hdot, hne⟩ := hn node h.mem x hx
    rintro (rfl | ⟨d, rfl⟩)
    · exact hne rfl
    · simp [Register.name] at hdot
  refine ⟨fun a b c ha hb => ?_, fun a b c hb hc => ?_⟩
  · cases ha <;> cases hb
    case shared.shared                 => rfl
    case shared.own ha _ _ hl _ he     => exact absurd he (hl.shared_ne ha _)
    case own.shared hl _ hb he         => exact absurd he (hl.shared_ne hb _)
    case own.own hl _ he _ _ hl' _ he' =>
      exact (eq_of_append_dot hl.noDot hl'.noDot (he.symm.trans he')).right
  · cases hb <;> cases hc
    case shared.shared                    => rfl
    case shared.own ha _ _ hl hx _        => exact absurd ha (hs hl hx)
    case own.shared hl hx _ ha            => exact absurd ha (hs hl hx)
    case own.own hl hx he _ _ hl' hx' he' => rw [he, he', hl.unique hd hl' hx hx']

end

namespace Lower

variable {functions : List Node} {entry : Node} {name : String} {node : Node}

-- The registers of a definition without `let`.
theorem plain_vocabulary (h : Labelled functions entry name node) :
    Vocabulary (Symbols.Single (Frame.Plain name)) (fun x => x ∈ node.mentioned ∧ '.' ∉ x.toList)
      (fun _ => False)
      (fun r => ScopedName functions entry r.erase.name r.name) (fun _ => True)
        (fun _ => True) where
  resolve {s x} hs hx := by
    obtain ⟨hr, hs⟩ := Symbols.resolve_plain hs x
    rw [hr]
    exact ⟨h.scopedName hx.left hx.right, hs⟩
  declare _ hx  := hx.elim
  openBlock hs  := hs.modifyFrame fun _ => Frame.Plain.openBlock
  closeBlock hs := hs.modifyFrame fun _ => Frame.Plain.closeBlock
  temp d        := .shared (.inr ⟨d, rfl⟩)
  sink          := by
    rw [Register.erase_sink]
    exact .shared (.inl rfl)
  numbered _    := trivial
  zero          := trivial

theorem Links.scopedName {q : Program} {n : Nat} (h : Links .scoped functions entry q n)
    (hc : ∀ f ∈ entry :: functions, ∀ c ∈ f.children, c.Every Node.Plain)
    (hp : ∀ f ∈ entry :: functions, ∀ params ∈ f.children.head?,
      (params.children.map Node.text).Nodup) :
    ∀ i ∈ q.instructions, ∀ r ∈ i.registers, ScopedName functions entry r.erase.name r.name := by
  refine Program.forall_instructions (by simp) (by simp) fun {name _ _} hs => ?_
  obtain ⟨node, first, tail, l₁, l₂, hl, rfl, hf, hd⟩ := h.section hs
  have hn : ∀ c ∈ node.children,
    c.EveryPart (Node.Over (fun x => x ∈ node.mentioned ∧ '.' ∉ x.toList) (fun _ => False)
      (fun _ => True) (fun _ => True)) := by
    intro c hm
    have hx : c.names ⊆ node.mentioned := fun x hx => List.mem_flatMap.mpr ⟨c, hm, hx⟩
    refine ((hc node hl.mem c hm).everyPart.and (Node.everyPart_names hx)).imp fun m hm => ?_
    exact ⟨⟨fun hk => ⟨hm.right hk, (hm.left.name hk).right.left⟩,
      fun hk => absurd hk hm.left.noLet,
      fun _ => trivial, fun _ => trivial⟩, hm.left.noDefinition⟩
  have ht := hd.over (plain_vocabulary hl) hn fun params hm hu => by
    obtain ⟨hr, hs⟩ :=
      @Symbols.parameters_plain name params.children [] (hp node hl.mem params hm) (by simp)
    refine ⟨fun r h => ?_, hs⟩
    obtain ⟨p, hp, rfl⟩ := hr r h
    exact hl.scopedName (hu p hp).left (hu p hp).right
  refine List.forall_mem_cons.mpr ⟨?_, fun i hi => (ht i hi).registers⟩
  rcases hf with rfl | rfl <;> simp

theorem Links.load_plain {naming : Naming} {p : Program} {n : Nat}
    (h : Links naming functions entry p n)
    (hc : ∀ f ∈ entry :: functions, ∀ c ∈ f.children, c.Every Node.Plain) :
    ∃ img, Machine.Image.load p.text = .ok img ∧ img.Holds (p.instructions.map .asRead) := by
  obtain ⟨hi, hl, hn⟩ := h.over_solid (W := (Word ·.toList)) (by decide) fun f hf c hm =>
    (hc f hf c hm).imp fun _ => Node.Plain.over_solid
  exact Machine.Image.load_asRead hi hl hn

end Lower

theorem Program.instructions_erase (p : Program) :
    p.erase.instructions = p.instructions.map .erase := by
  have hh : Instruction.erase .halt = .halt := rfl
  have hs : Instruction.erase .separator = .separator := rfl
  simp [instructions, erase, List.map_flatMap, List.flatMap_map, hh, hs]

theorem Instruction.renamed_erase {N : String → String → Prop} {i : Instruction}
    (h : ∀ r ∈ i.registers, N r.erase.name r.name) : i.erase.Renamed N i := by
  cases i <;> constructor <;> simp_all

-- A program whose definitions have nothing in common behaves the same with scopes and without,
-- whether it ends or not.
theorem compile_namings_agree {naming : Naming} {functions : List Node} {entry : Node}
    {p₀ : Program} (h : compile naming functions entry = .ok p₀)
    (hc : ∀ f ∈ entry :: functions, ∀ c ∈ f.children, c.Every Node.Plain)
    (hp : ∀ f ∈ entry :: functions, ∀ params ∈ f.children.head?,
      (params.children.map Node.text).Nodup)
    (hd : ((entry :: functions).map Node.mentioned).Pairwise List.Disjoint) :
    Relator.BiUnique (ScopedName functions entry) ∧
    ∃ p q, compile .verbatim functions entry = .ok p ∧ compile .scoped functions entry = .ok q ∧
      Coincide Eq (Machine.State.Renamed (ScopedName functions entry)) (Machine.runText p.text)
        (Machine.runText q.text) := by
  have hN : Relator.BiUnique (ScopedName functions entry) :=
    ScopedName.biUnique hd fun f hf x hx => by
    obtain ⟨c, hm, hx⟩ := List.mem_flatMap.mp hx
    obtain ⟨m, hm, hk, rfl⟩ := (hc f hf c hm).everyPart.of_mem_names hx
    exact (hm.name hk).right
  refine ⟨hN, ?_⟩
  have he := Lower.compile_erases fun f hf c hm =>
    ((hc f hf c hm).imp fun _ => Node.Plain.dotless).everyPart
  generalize hq : compile .scoped functions entry = x,
    hv : compile .verbatim functions entry = y at he
  cases he
  case error => cases naming <;> simp_all
  case ok q p hpq =>
    subst hpq
    obtain ⟨_, hg⟩ := compile_eq_ok_iff.mp hq
    obtain ⟨_, hg'⟩ := compile_eq_ok_iff.mp hv
    have hl := Lower.program_sound hg
    have hl' := Lower.program_sound hg'
    refine ⟨q.erase, q, rfl, rfl,
      Machine.runText_renamed hN ?_ (hl'.load_plain hc) (hl.load_plain hc)⟩
    rw [q.instructions_erase, List.map_map, List.forall₂_map_left_iff, List.forall₂_map_right_iff,
      List.forall₂_same]
    exact fun i hi => (Instruction.renamed_erase (hl.scopedName hc hp i hi)).asRead

-- One definition calls the other, whose address comes in the guise of a literal.
theorem compile_namings_agree_call :
    let callee := Node.function ["n", "m"] (.returns [.infixOp "/" (.ident "n") (.ident "m")])
    let entry  := Node.function [] (.block [.assign (.ident "f") (.number "&fn0"),
      .call "print" [.call "f" [.number "6", .number "2"]]])
    ∃ p q, compile .verbatim [callee] entry = .ok p ∧ compile .scoped [callee] entry = .ok q ∧
      Coincide Eq (Machine.State.Renamed (ScopedName [callee] entry)) (Machine.runText p.text)
        (Machine.runText q.text) := by
  intro callee entry
  have hc : (compile .scoped [callee] entry).isOk = true := by decide +kernel
  have hm : [entry, callee].map Node.mentioned = [["f", "f"], ["n", "m", "n", "m"]] := by decide
  cases h : compile .scoped [callee] entry
  case error => simp [h, Except.isOk, Except.toBool] at hc
  case ok p =>
    obtain ⟨_, hr⟩ := compile_namings_agree h (by decide) (by decide) (by simp [hm])
    rwa [h] at hr

end LineCode

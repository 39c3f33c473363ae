import LineCode.Compile
import LineCode.Proofs.Emission

namespace LineCode

-- At most the innermost frame has changed.
structure Symbols.Keeps (s s' : Symbols) : Prop where
  naming : s'.naming = s.naming
  depth  : s'.frames.length = s.frames.length
  outer  : s'.frames.tail = s.frames.tail

namespace Symbols.Keeps

variable {s s₁ s₂ s₃ : Symbols}

theorem refl (s : Symbols) : s.Keeps s :=
  ⟨rfl, rfl, rfl⟩

theorem trans (h₁ : s₁.Keeps s₂) (h₂ : s₂.Keeps s₃) : s₁.Keeps s₃ where
  naming := h₂.naming.trans h₁.naming
  depth  := h₂.depth.trans h₁.depth
  outer  := h₂.outer.trans h₁.outer

theorem inFrame (s : Symbols) (ident : String) (f : Frame → Register × Frame) :
    s.Keeps (s.inFrame ident f).snd := by
  unfold Symbols.inFrame
  split
  case h_1 hf => constructor <;> simp [hf]
  case h_2    => exact refl s

theorem modifyFrame (s : Symbols) (f : Frame → Frame) : s.Keeps (s.modifyFrame f) := by
  unfold Symbols.modifyFrame
  split
  case h_1    => exact refl s
  case h_2 hf => constructor <;> simp [hf]

theorem leave_eq {name : String} (h : (s.enter name).Keeps s₁) : s₁.leave = s := by
  ext1
  · exact h.naming
  · exact h.outer

-- Outside of all definitions there is no frame to change.
theorem eq_of_frames_nil (h : s.Keeps s₁) (hf : s.frames = []) : s₁ = s := by
  ext1
  · exact h.naming
  · have hd := h.depth
    rw [hf, List.length_nil, List.length_eq_zero_iff] at hd
    rw [hd, hf]

end Symbols.Keeps

namespace Lower

theorem parameterSymbols_keeps (ps : List Node) (symbols : Symbols) :
    symbols.Keeps (parameterSymbols ps symbols) := by
  induction ps generalizing symbols
  case nil          => exact .refl symbols
  case cons p ps hi => exact .trans (.inFrame ..) (hi _)

theorem assigned?_keeps {target : Node} {symbols symbols' : Symbols} {slot : Register}
    (h : assigned? target symbols = some (slot, symbols')) : symbols.Keeps symbols' := by
  unfold assigned? at h
  split at h
  case h_1 =>
    have hs : (symbols.resolve target.text).snd = symbols' := congrArg Prod.snd (Option.some.inj h)
    exact hs ▸ .inFrame ..
  case h_2 =>
    have ⟨name, _, h⟩ := Option.map_eq_some_iff.mp h
    have hs : (symbols.declare name.text).snd = symbols' := congrArg Prod.snd h
    exact hs ▸ .inFrame ..
  case h_3 => contradiction

theorem Emits.keeps {job : Job} {d : Nat} {s s' : Stage} {code : List Instruction}
    (h : Emits job d s code s') : s.symbols.Keeps s'.symbols := by
  induction h
  case identifier           => exact .inFrame ..
  case assignment ht _ hi   => exact assigned?_keeps ht |>.trans hi
  case binary hl hr         => exact hl.trans hr
  case call hi              => exact hi.trans <| .inFrame ..
  case definition hi        => exact (parameterSymbols_keeps ..).trans hi |>.leave_eq ▸ .refl _
  case block hi =>
    exact Symbols.Keeps.modifyFrame .. |>.trans hi |>.trans <| .modifyFrame ..
  case print hi             => exact hi
  case returns hi           => exact hi
  case ifThen h₁ h₂         => exact h₁.trans h₂
  case whileDo h₁ h₂        => exact h₁.trans h₂
  case cons h₁ h₂           => exact h₁.trans h₂
  case argument h₁ h₂       => exact h₁.trans h₂
  all_goals exact .refl _

-- A top-level definition starts and ends outside of all frames.
structure Defines (naming : Naming) (name : String) (node : Node) (l : Nat)
    (code : List Instruction) (l' : Nat) : Prop where
  kind  : node.kind = .functionDefinition
  emits : Emits (.node node .value (.register (.named name))) 0 ⟨l, { naming }⟩ code
    ⟨l', { naming }⟩

theorem Emits.definition_inv {token : Token} {children : List Node} {demand : Demand}
    {dst : Destination} {d : Nat} {s s' : Stage} {code : List Instruction}
    (h : Emits (.node ⟨.functionDefinition, token, children⟩ demand dst) d s code s') :
    ∃ params body rest tail s₁, children = params :: body :: rest ∧ params.kind = .identifierList ∧
      (∀ p ∈ params.children, p.kind = .identifier) ∧
      Emits (.node body .any .discard) d
        (s.withSymbols (parameterSymbols params.children (s.symbols.enter dst.target.name)))
        tail s₁ ∧
      code = .label ⟨dst.target.name⟩ ::
        (parameterSlots params.children (s.symbols.enter dst.target.name)).map .pop ++ tail ∧
      s' = s₁.withSymbols s₁.symbols.leave := by
  cases h
  case definition hk hp h => exact ⟨_, _, _, _, _, rfl, hk, hp, h, rfl, rfl⟩

-- The parts of a top-level definition: its label, its parameters, and its body.
theorem Defines.inv {naming : Naming} {name : String} {node : Node} {l l' : Nat}
    {code : List Instruction} (h : Defines naming name node l code l') :
    ∃ token params body rest tail symbols,
      node = ⟨.functionDefinition, token, params :: body :: rest⟩ ∧ params.kind = .identifierList ∧
      (∀ p ∈ params.children, p.kind = .identifier) ∧
      Emits (.node body .any .discard) 0
        ⟨l, parameterSymbols params.children (Symbols.enter { naming } name)⟩ tail ⟨l', symbols⟩ ∧
      code = .label ⟨name⟩ :: (parameterSlots params.children (Symbols.enter { naming } name)).map
        .pop ++ tail := by
  obtain ⟨kind, token, children⟩ := node
  obtain rfl : kind = .functionDefinition := h.kind
  have ⟨params, body, rest, tail, s₁, hc, hk, hp, he, ht, hs⟩ := h.emits.definition_inv
  have hl : s₁.issued = l' := (congrArg Stage.issued hs).symm
  exact ⟨token, params, body, rest, tail, s₁.symbols, by rw [hc], hk, hp, hl ▸ he, ht⟩

-- The generator between two top-level definitions.
structure Idle (g : Generator) (naming : Naming) (l : Nat) : Prop where
  pool  : g.pool.Stacked 0
  stage : g.stage = ⟨l, { naming }⟩
  code  : g.code = #[]

theorem idle_new (naming : Naming) : Idle (.new naming) naming 0 where
  pool  := Pool.stacked_new
  stage := rfl
  code  := rfl

variable {g g' : Generator} {naming : Naming} {l l' : Nat} {name : String} {node : Node}
  {code : List Instruction}

theorem bind_eq_ok {α β : Type} {x : Lower α} {f : α → Lower β} {b : β}
    (h : (x >>= f) g = .ok b g') :
    ∃ a g₁, x g = .ok a g₁ ∧ f a g₁ = .ok b g' := by
  rw [bind_apply] at h
  split at h
  case h_1 a g₁ hx => exact ⟨a, g₁, hx, h⟩
  case h_2         => contradiction

theorem generate_apply (hk : node.kind = .functionDefinition) (g : Generator) :
    generate name node g =
      match lower node .value (.register (.named name)) g with
      | .ok _ g    => .ok g.code.toList { g with code := #[] }
      | .error e g => .error e { g with code := #[] } := by
  unfold generate
  rw [if_pos hk, bind_apply, tryFinally_modify_apply, bind_apply]
  cases lower node .value (.register (.named name)) g <;> rfl

-- The generator that an action leaves behind, if it succeeds.
def final? (f : Lower Unit) (g : Generator) : Option Generator :=
  match f g with
  | .ok _ g'   => some g'
  | .error _ _ => none

theorem final?_eq_some {f : Lower Unit} (h : f g = .ok () g') : final? f g = some g' := by
  rw [final?, h]

theorem exists_of_final? {f : Lower Unit} (h : (final? f g).isSome) : ∃ g', f g = .ok () g' := by
  unfold final? at h
  cases hf : f g
  case ok g'   => exact ⟨g', rfl⟩
  case error _ => simp [hf] at h

theorem generate_of_final? (hk : node.kind = .functionDefinition)
    (h : (final? (lower node .value (.register (.named name))) g).isSome) :
    ∃ code g', generate name node g = .ok code g' := by
  obtain ⟨g', h⟩ := exists_of_final? h
  exact ⟨_, _, by rw [generate_apply hk, h]⟩

theorem generate_sound (hg : Idle g naming l) (h : generate name node g = .ok code g') :
    ∃ l', Defines naming name node l code l' ∧ Idle g' naming l' := by
  by_cases hk : node.kind = .functionDefinition
  case neg => simp [generate, hk, unhandled, reject] at h
  case pos =>
    rw [generate_apply hk] at h
    split at h
    case h_2 => contradiction
    case h_1 hl =>
      have ⟨pool, code', s, hp, hg', he⟩ := lower_realizes .. |>.sound hg.stage hg.pool hl
      subst hg'
      injection h with hc hg'
      have hs : s = ⟨s.issued, { naming }⟩ := by
        ext1
        · rfl
        · exact he.keeps.eq_of_frames_nil rfl
      have hc : code' = code := by simpa [Generator.after, hg.code] using hc
      subst hg' hc
      rw [hs] at he
      exact ⟨s.issued, ⟨hk, he⟩, hp, hs, rfl⟩

theorem generate_complete (hg : Idle g naming l) (h : Defines naming name node l code l') :
    ∃ g', generate name node g = .ok code g' ∧ Idle g' naming l' := by
  have ⟨pool, hp, hl⟩ := lower_realizes .. |>.complete (a := ()) hg.stage hg.pool h.emits
  rw [generate_apply h.kind, hl]
  refine ⟨{ g.after pool code ⟨l', { naming }⟩ with code := #[] }, ?_, hp, rfl, rfl⟩
  simp [Generator.after, hg.code]

-- Functions are lowered one after the other, each with the labels that those before it left.
inductive Routines (naming : Naming) : Nat → Nat → List Node → List Routine → Nat → Prop
  | nil {index l} : Routines naming index l [] [] l
  | cons {index l f fs code l₁ rs l'} :
    Defines naming (Label.function (toString index)).name f l code l₁ →
    Routines naming (index + 1) l₁ fs rs l' →
    Routines naming index l (f :: fs) ({ index, label := .function (toString index), code } :: rs)
      l'

theorem routines_sound {index : Nat} {fs : List Node} {rs : List Routine} (hg : Idle g naming l)
    (h : routines index fs g = .ok rs g') :
    ∃ l', Routines naming index l fs rs l' ∧ Idle g' naming l' := by
  induction fs generalizing index l g rs
  case nil =>
    injection h with hr hg'
    exact ⟨l, hr ▸ .nil, hg' ▸ hg⟩
  case cons f fs hi =>
    have ⟨code, g₁, hf, h⟩ := bind_eq_ok h
    have ⟨rs', g₂, hr, h⟩ := bind_eq_ok h
    obtain ⟨rfl, rfl⟩ : _ = rs ∧ g₂ = g' := by injection h with hr hg; exact ⟨hr, hg⟩
    have ⟨l₁, hd, hg₁⟩ := generate_sound hg hf
    have ⟨l', hr', hg₂⟩ := hi hg₁ hr
    exact ⟨l', .cons hd hr', hg₂⟩

theorem routines_complete {index : Nat} {fs : List Node} {rs : List Routine} (hg : Idle g naming l)
    (h : Routines naming index l fs rs l') :
    ∃ g', routines index fs g = .ok rs g' ∧ Idle g' naming l' := by
  induction h generalizing g
  case nil => exact ⟨g, rfl, hg⟩
  case cons hd _ hi =>
    have ⟨g₁, h₁, hg₁⟩ := generate_complete hg hd
    have ⟨g₂, h₂, hg₂⟩ := hi hg₁
    refine ⟨g₂, ?_, hg₂⟩
    simp only [routines, bind_apply, h₁, h₂]
    rfl

-- A whole program: the entry, then the functions.
def Links (naming : Naming) (functions : List Node) (entry : Node) (p : Program) (n : Nat) : Prop :=
  ∃ code l rs, Defines naming Program.entryLabel.name entry 0 code l ∧
    Routines naming 0 l functions rs n ∧ p = .link code rs

theorem program_sound {functions : List Node} {entry : Node} {p : Program}
    (h : program functions entry (.new naming) = .ok p g') :
    Links naming functions entry p g'.labels.issued := by
  have ⟨code, g₁, hf, h⟩ := bind_eq_ok h
  have ⟨rs, g₂, hr, h⟩ := bind_eq_ok h
  obtain ⟨rfl, rfl⟩ : _ = p ∧ g₂ = g' := by injection h with hp hg; exact ⟨hp, hg⟩
  have ⟨l₁, hd, hg₁⟩ := generate_sound (idle_new naming) hf
  have ⟨l', hr', hg₂⟩ := routines_sound hg₁ hr
  have hl : g₂.labels.issued = l' := congrArg Stage.issued hg₂.stage
  exact ⟨code, l₁, rs, hd, hl ▸ hr', rfl⟩

theorem program_complete {functions : List Node} {entry : Node} {p : Program} {n : Nat}
    (h : Links naming functions entry p n) :
    ∃ g', program functions entry (.new naming) = .ok p g' ∧ g'.labels.issued = n := by
  obtain ⟨code, l, rs, hd, hr, rfl⟩ := h
  have ⟨g₁, h₁, hg₁⟩ := generate_complete (idle_new naming) hd
  have ⟨g₂, h₂, hg₂⟩ := routines_complete hg₁ hr
  refine ⟨g₂, ?_, congrArg Stage.issued hg₂.stage⟩
  simp only [program, bind_apply, h₁, h₂]
  rfl

end Lower

theorem eq_ok_of_toOption {ε α : Type} {x : Except ε α} {a : α} (h : x.toOption = some a) :
    x = .ok a := by
  cases x
  case error => contradiction
  case ok    => exact congrArg _ (Option.some.inj h)

theorem compile_eq_ok_iff {naming : Naming} {functions : List Node} {entry : Node} {p : Program} :
    compile naming functions entry = .ok p ↔
      ∃ g, Lower.program functions entry (.new naming) = .ok p g := by
  unfold compile
  split
  case h_1 q g h => simp [h]
  case h_2 e g h => simp [h]

end LineCode

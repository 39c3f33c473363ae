import LineCode.Proofs.Legibility
import LineCode.Proofs.Execution
import LineCode.Proofs.Occurrences

namespace LineCode

open Machine Lower

theorem Machine.Image.Has.of_getElem? {img : Image} {code : List Instruction} {i : Instruction}
    {k : Nat} (h : img.Holds code) (hk : code[k]? = some i) : img.Has k [i] := by
  intro j i' hj
  obtain ⟨rfl, rfl⟩ : j = 0 ∧ i' = i := by simpa [List.getElem?_singleton, eq_comm] using hj
  exact ⟨h.getElem? hk, fun l hl => (h.line?_iff l k).mpr (hl ▸ hk)⟩

namespace Lower

variable {naming : Naming} {functions : List Node} {entry : Node} {p : Program} {n i : Nat}

-- The label of the entry gives way to an empty line.
theorem Links.entry_eq (h : Links naming functions entry p n) :
    ∃ tail, p.entry = .blank :: tail := by
  obtain ⟨code, l, rs, hd, -, rfl⟩ := h
  obtain ⟨tail, rfl⟩ := hd.first
  exact ⟨tail, rfl⟩

theorem Routines.numbered {index l l' : Nat} {rs : List Routine} {r : Routine}
    (h : Routines naming index l functions rs l') (hr : rs[i]? = some r) :
    r.index = index + i ∧ r.label = .function (toString (index + i)) := by
  induction h generalizing i
  case nil => simp at hr
  case cons hi =>
    cases i
    case zero =>
      obtain rfl := Option.some.inj hr
      exact ⟨rfl, rfl⟩
    case succ i =>
      rw [← Nat.succ_add_eq_add_succ]
      exact hi hr

-- A function is found under its number, and its code starts with its label.
theorem Links.routine (h : Links naming functions entry p n) (hi : i < functions.length) :
    ∃ r tail, p.routine? i = some r ∧ r.index = i ∧ r.label = .function (toString i) ∧
      r.code = .label r.label :: tail := by
  have hlt : i < p.routines.length := h.length_routines ▸ hi
  obtain ⟨code, l, rs, -, hr, rfl⟩ := h
  obtain ⟨r, hrs⟩ : ∃ r, rs[i]? = some r := ⟨_, List.getElem?_eq_getElem hlt⟩
  obtain ⟨hn, hl⟩ := hr.numbered hrs
  obtain ⟨f, l₁, l₂, -, hd⟩ := hr.getElem? hrs
  obtain ⟨tail, ht⟩ := hd.first
  rw [Nat.zero_add] at hn hl ht
  exact ⟨r, tail, hrs, hn, hl, hl ▸ ht⟩

-- The code of a reference, wherever it occurs.
theorem Occurs.reference {m : Node} {demand : Demand} {dst : Destination} {g g' : Generator}
    {k : Nat} (h : Occurs naming functions entry p (.job (.node m demand dst)) g k)
    (hp : program functions entry (.new naming) = .ok p g') (hm : m.kind = .functionReference) :
    p.instructions[k]? = some (.loadAddress (.function m.text) dst.target) := by
  obtain ⟨d, pool, code, s', pre, post, -, -, he, hi, rfl⟩ := h.emits hp (by simp [hm])
  obtain ⟨kind, token, children⟩ := m
  obtain rfl : kind = .functionReference := hm
  cases he
  simp [hi, Node.text]

-- References lead to the functions that they are to. Every instruction is a line of the text, and
-- the lines of the labels follow from the lengths of the code before them.
theorem compile_addresses (h : compile naming functions entry = .ok p)
    (hc : ∀ f ∈ entry :: functions, ∀ c ∈ f.children, c.Every Node.Readable) :
    Text.lines p.text.toList = p.instructions.map (·.line.toList) ∧
    (∃ tail, p.entry = .blank :: tail) ∧ p.entry <+: p.instructions ∧
    p.routines.length = functions.length ∧
    ∃ img, Image.load p.text = .ok img ∧ ∀ i < functions.length, ∃ r line,
      line = p.entry.length + 2 + ((p.routines.take i).map (·.code.length + 1)).sum ∧
      p.routine? i = some r ∧ r.index = i ∧ r.label = ⟨"fn" ++ toString i⟩ ∧
      r.code.head? = some (.label r.label) ∧
      r.code <+: p.instructions.drop line ∧ img.line? ("fn" ++ toString i) = some line ∧
      (∀ {m : Node} {demand : Demand} {dst : Destination} {g : Generator} {k : Nat},
        Occurs naming functions entry p (.job (.node m demand dst)) g k →
        m.kind = .functionReference →
        m.text = toString i → p.instructions[k]? = some (.loadAddress r.label dst.target)) ∧
      ∀ {k : Nat} {dst : Register} {s : State},
        p.instructions[k]? = some (.loadAddress r.label dst) → s.pc = k →
        ∃ s', img.Steps 1 s s' ∧ s'.pc = k + 1 ∧ s'.read dst.name = line := by
  obtain ⟨g, hp⟩ := compile_eq_ok_iff.mp h
  have hl := program_sound hp
  obtain ⟨hr, -, -⟩ :=
    hl.over_solid (W := Instruction.LegibleLiteral) ⟨by decide, by decide, by decide⟩ hc
  obtain ⟨img, hload, hh⟩ := hl.load_readable hc
  refine ⟨lines_render hr, hl.entry_eq, ?_, hl.length_routines, img, hload, fun i hi => ?_⟩
  · rw [Program.instructions, List.append_assoc]
    exact List.prefix_append ..
  · obtain ⟨r, tail, hri, hn, hlab, hcode⟩ := hl.routine hi
    have hs : p.Section _ (p.start i) r.code := .routine hri
    obtain ⟨pre, last, post, hinst, hpre, -, -⟩ := hs.split
    have hline : img.line? r.label.name = some (p.start i) := by
      rw [hinst, hcode] at hh
      exact hpre ▸ (Image.Has.of_holds hh).line?
    refine ⟨r, p.start i, rfl, hri, hn, hlab, by rw [hcode]; rfl, ?_, ?_, fun ho hk ht => ?_,
      fun {k dst s} hk hs => ?_⟩
    · rw [hinst, ← hpre, List.append_assoc, List.drop_left]
      exact List.prefix_append ..
    · rw [hlab] at hline
      exact hline
    · rw [hlab, ← ht]
      exact ho.reference hp hk
    · subst hs
      exact ⟨_, .loadAddress (.of_getElem? hh hk) hline, rfl, State.read_write_self ..⟩

-- A reference that is the right operand of an operation, to the second of two functions.
theorem compile_addresses_operand :
    let functions := [Node.function [] (.returns [.number "5"]),
      .function ["x"] (.returns [.ident "x"])]
    let sum       := Node.infixOp "+" (.ident "n") (.functionRef 1)
    let entry     := Node.function []
      (.block [.assign (.ident "f") sum, .call "print" [.functionRef 0]])
    ∃ p img, compile .scoped functions entry = .ok p ∧ Image.load p.text = .ok img ∧
      (Text.lines p.text.toList).length = p.instructions.length ∧
      p.instructions.head? = some .blank ∧
      img.line? "fn0" = some 12 ∧ img.line? "fn1" = some 17 ∧
      p.instructions[2]? = some (.loadAddress ⟨"fn1"⟩ (.named "main.f")) ∧
      ∀ s : State, s.pc = 2 → ∃ s', img.Steps 1 s s' ∧ s'.pc = 3 ∧ s'.read "main.f" = 17 := by
  intro functions sum entry
  have hs : (compile .scoped functions entry).toOption.map (fun p => (p.start 0, p.start 1))
      = some (12, 17) := by
    decide +kernel
  obtain ⟨p, hp, hs⟩ := Option.map_eq_some_iff.mp hs
  obtain ⟨hs₀, hs₁⟩ := Prod.mk.inj hs
  have hp := eq_ok_of_toOption hp
  obtain ⟨g, ho⟩ : ∃ g, Occurs .scoped functions entry p
      (.job (.node (.functionRef 1) .any (.register (.named "main.f")))) g 2 :=
    ⟨_, _, _, _, _, .entry, .head (.body rfl rfl) <| .head .statements <| .head .first <|
      .head (.assignment rfl) <|
      .head (.value rfl) <| .head (.operation (by decide)) <|
        .head (.right rfl rfl) .refl, by decide +kernel⟩
  obtain ⟨hlines, ⟨tail, ht⟩, he, -, img, hload, hi⟩ := compile_addresses hp (by decide +kernel)
  obtain ⟨r₀, _, rfl, -, -, -, -, -, hl₀, -, -⟩ := hi 0 (by decide)
  obtain ⟨r₁, _, rfl, -, -, hn, -, -, hl₁, hr, hx⟩ := hi 1 (by decide)
  have hk := hr ho rfl rfl
  refine ⟨p, img, hp, hload, by rw [hlines, List.length_map], ?_, hl₀.trans (congrArg some hs₀),
    hl₁.trans (congrArg some hs₁), ?_, fun s hpc => ?_⟩
  · obtain ⟨post, he⟩ := he
    rw [← he, ht]
    rfl
  · rw [hk, hn]
    rfl
  · obtain ⟨s', hsteps, hpc', hv⟩ := hx hk hpc
    exact ⟨s', hsteps, hpc', hv.trans (congrArg Nat.cast hs₁)⟩

end Lower
end LineCode

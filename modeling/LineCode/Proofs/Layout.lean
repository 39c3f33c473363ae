import LineCode.Proofs.Labels

namespace LineCode

namespace Program

-- The number of lines in front of a function, counted from the first function on.
def offset (rs : List Routine) (i : Nat) : Nat := ((rs.take i).map (·.code.length + 1)).sum

-- The line on which the code of a function starts.
def start (p : Program) (i : Nat) : Nat := p.entry.length + 2 + offset p.routines i

-- The code of the definition with the given label, and the line on which it starts.
inductive Section (p : Program) : (name : String) → (line : Nat) → (code : List Instruction) → Prop
  | entry : p.Section entryLabel.name 0 p.entry
  | routine {i : Nat} {r : Routine} :
    p.routines[i]? = some r → p.Section (Label.function (toString i)).name (p.start i) r.code

theorem function_ne_entryLabel (ref : String) : Label.function ref ≠ entryLabel := by
  intro h
  have hc := congrArg (·.name.toList.head?) h
  simp [Label.function, entryLabel] at hc

-- A label is the label of one definition.
theorem Section.unique {p : Program} {name : String} {line line' : Nat}
    {code code' : List Instruction} (h : p.Section name line code)
    (h' : p.Section name line' code') : line = line' ∧ code = code' := by
  generalize hn : name = name' at h'
  cases h <;> cases h'
  case entry.entry => exact ⟨rfl, rfl⟩
  case entry.routine => exact absurd (Label.ext hn.symm) (function_ne_entryLabel _)
  case routine.entry => exact absurd (Label.ext hn) (function_ne_entryLabel _)
  case routine.routine hi _ _ hi' =>
    obtain rfl := Label.function_inj (Label.ext hn)
    obtain rfl := Option.some.inj (hi.symm.trans hi')
    exact ⟨rfl, rfl⟩

theorem offset_cons_succ (r : Routine) (rs : List Routine) (i : Nat) :
    offset (r :: rs) (i + 1) = r.code.length + 1 + offset rs i := by
  simp [offset]

-- Each line of the functions belongs to the code of one of them, or separates two.
theorem getElem?_routines {rs : List Routine} {k : Nat} {j : Instruction}
    (h : (rs.flatMap (·.code ++ [.separator]))[k]? = some j) :
    j = .separator ∨ ∃ (i m : Nat) (r : Routine), rs[i]? = some r ∧ k = offset rs i + m ∧
      r.code[m]? = some j := by
  induction rs generalizing k
  case nil => simp at h
  case cons r rs hi =>
    rw [List.flatMap_cons, List.append_assoc, List.getElem?_append] at h
    split at h
    case isTrue hk => exact .inr ⟨0, k, r, rfl, by simp [offset], h⟩
    case isFalse hk =>
      rw [List.singleton_append, List.getElem?_cons] at h
      split at h
      case isTrue => exact .inl (Option.some.inj h).symm
      case isFalse hz =>
        refine (hi h).imp_right ?_
        rintro ⟨i, m, r', hr, hm, hj⟩
        refine ⟨i + 1, m, r', hr, ?_, hj⟩
        rw [offset_cons_succ]
        omega

-- Each line of a program belongs to the code of a definition, ends the entry, or separates two
-- definitions.
theorem getElem?_instructions {p : Program} {k : Nat} {j : Instruction}
    (h : p.instructions[k]? = some j) :
    j = .halt ∨ j = .separator ∨
      ∃ (name : String) (line m : Nat) (code : List Instruction),
        p.Section name line code ∧ k = line + m ∧ code[m]? = some j := by
  rw [instructions, List.append_assoc, List.getElem?_append] at h
  split at h
  case isTrue hk => exact .inr <| .inr ⟨_, _, k, _, .entry, by simp, h⟩
  case isFalse hk =>
    match hn : k - p.entry.length with
    | 0 =>
      rw [hn] at h
      exact .inl (Option.some.inj h).symm
    | 1 =>
      rw [hn] at h
      exact .inr <| .inl (Option.some.inj h).symm
    | n + 2 =>
      rw [hn] at h
      refine .inr <| (getElem?_routines h).imp_right ?_
      rintro ⟨i, m, r, hr, hm, hj⟩
      refine ⟨_, _, m, _, .routine hr, ?_, hj⟩
      rw [start]
      omega

theorem forall_instructions {p : Program} {Q : Instruction → Prop} (hh : Q .halt)
    (hs : Q .separator) (hq : ∀ {name line code}, p.Section name line code → ∀ i ∈ code, Q i) :
    ∀ i ∈ p.instructions, Q i := by
  intro i hi
  obtain ⟨k, hk⟩ := List.getElem?_of_mem hi
  rcases getElem?_instructions hk with rfl | rfl | ⟨name, line, m, code, hc, rfl, hm⟩
  · exact hh
  · exact hs
  · exact hq hc i (List.mem_of_getElem? hm)

end Program

-- The definitions of a program, with the labels under which they are lowered.
inductive Labelled (functions : List Node) (entry : Node) : String → Node → Prop
  | entry : Labelled functions entry Program.entryLabel.name entry
  | function {i : Nat} {f : Node} :
    functions[i]? = some f → Labelled functions entry (Label.function (toString i)).name f

theorem Labelled.mem {functions : List Node} {entry : Node} {name : String} {node : Node}
    (h : Labelled functions entry name node) : node ∈ entry :: functions := by
  cases h
  case entry      => exact List.mem_cons_self
  case function h => exact List.mem_cons_of_mem _ (List.mem_of_getElem? h)

namespace Lower

variable {naming : Naming} {functions : List Node} {entry : Node} {p : Program}

theorem Routines.getElem? {index l l' i : Nat} {rs : List Routine} {r : Routine}
    (h : Routines naming index l functions rs l') (hr : rs[i]? = some r) :
    ∃ f l₁ l₂, functions[i]? = some f ∧
      Defines naming (Label.function (toString (index + i))).name f l₁ r.code l₂ := by
  induction h generalizing i
  case nil => simp at hr
  case cons hd _ hi =>
    cases i
    case zero =>
      obtain rfl := Option.some.inj hr
      exact ⟨_, _, _, rfl, hd⟩
    case succ i =>
      obtain ⟨f, l₁, l₂, hf, hd⟩ := hi (by simpa using hr)
      exact ⟨f, l₁, l₂, hf, by rwa [Nat.add_right_comm] at hd⟩

-- The code of each definition starts with its label, which is blanked in the entry.
theorem Links.section {n line : Nat} {name : String} {code : List Instruction}
    (h : Links naming functions entry p n) (hs : p.Section name line code) :
    ∃ node first tail l₁ l₂, Labelled functions entry name node ∧ code = first :: tail ∧
      (first = .blank ∨ first = .label ⟨name⟩) ∧
      Defines naming name node l₁ (.label ⟨name⟩ :: tail) l₂ := by
  obtain ⟨code', l, rs, hd, hr, rfl⟩ := h
  cases hs
  case entry =>
    obtain ⟨_, params, _, _, tail, _, _, _, _, _, hc⟩ := hd.inv
    subst hc
    exact ⟨_, _, _, _, _, .entry, rfl, .inl rfl, hd⟩
  case routine i r hi =>
    obtain ⟨f, l₁, l₂, hf, hd⟩ := hr.getElem? hi
    rw [Nat.zero_add] at hd
    obtain ⟨_, params, _, _, tail, _, _, _, _, _, hc⟩ := hd.inv
    rw [hc] at hd ⊢
    exact ⟨_, _, _, _, _, .function hf, rfl, .inr rfl, hd⟩

end Lower
end LineCode

import LineCode.Proofs.Legibility

namespace LineCode

theorem noDot_toString (n : Nat) : '.' ∉ (toString n).toList :=
  fun h => absurd (isDigit_of_mem_toString h) (by decide)

-- What stands in front of the first dot.
theorem eq_of_append_dot {x x' y y' : String} (hx : '.' ∉ x.toList) (hx' : '.' ∉ x'.toList)
    (h : x ++ "." ++ y = x' ++ "." ++ y') : x = x' ∧ y = y' := by
  have hl : x.toList ++ '.' :: y.toList = x'.toList ++ '.' :: y'.toList := by
    simpa using congrArg String.toList h
  have ht {l t : List Char} (hl : '.' ∉ l) : (l ++ '.' :: t).takeWhile (· != '.') = l := by
    rw [List.takeWhile_append_of_pos fun c hc => by simpa using ne_of_mem_of_not_mem hc hl]
    simp
  have hf : x = x' := String.toList_inj.mp <| by
    simpa [ht hx, ht hx'] using congrArg (List.takeWhile (· != '.')) hl
  subst hf
  exact ⟨rfl, String.toList_inj.mp (List.cons.inj (List.append_cancel_left hl)).right⟩

theorem Label.function_noDot (i : Nat) : '.' ∉ (function (toString i)).name.toList := by
  rw [function, String.toList_append, List.mem_append, not_or]
  exact ⟨by decide, noDot_toString i⟩

theorem Labelled.noDot {functions : List Node} {entry node : Node} {name : String}
    (h : Labelled functions entry name node) : '.' ∉ name.toList := by
  cases h
  case entry        => decide
  case function i _ => exact Label.function_noDot i

theorem Labelled.ne_empty {functions : List Node} {entry node : Node} {name : String}
    (h : Labelled functions entry name node) : name ≠ "" := by
  cases h
  case entry    => decide
  case function => simp [Label.function, String.append_eq_empty_iff]

namespace Register

-- The register belongs to the definition with the given label.
def Under (name : String) (r : Register) : Prop := ∃ rest, r = .named (name ++ "." ++ rest)

theorem Under.unique {r : Register} {name name' : String} (h : r.Under name) (h' : r.Under name')
    (hn : '.' ∉ name.toList) (hn' : '.' ∉ name'.toList) : name = name' := by
  obtain ⟨rest, rfl⟩ := h
  obtain ⟨rest', h'⟩ := h'
  exact (eq_of_append_dot hn hn' (Register.named.inj h')).left

variable {name rest : String}

theorem sink_name_ne (name rest : String) : sink.name ≠ name ++ "." ++ rest := by
  intro h
  have hd : '.' ∈ sink.name.toList := by simp [h]
  contradiction

theorem temp_name_eq (d : Nat) : (temp d).name = "" ++ "." ++ ("t" ++ toString d) := by
  simp [Register.name, ← String.append_assoc]

theorem temp_name_ne_append (hd : '.' ∉ name.toList) (hn : name ≠ "") (d : Nat) :
    (temp d).name ≠ name ++ "." ++ rest :=
  fun h => hn (eq_of_append_dot (by simp) hd ((temp_name_eq d).symm.trans h)).left.symm

end Register

namespace Frame

-- The name of a slot behind the name of its frame, cut at the dots.
def slotFields (ident : String) : (n : Nat) → List (List Char)
  | 0     => [ident.toList]
  | n + 1 => [ident.toList, (toString (n + 1)).toList]

variable {f f' : Frame} {x y ident : String} {m n : Nat}

theorem bindInner_name (f : Frame) (ident : String) : (f.bindInner ident).name = f.name := by
  unfold bindInner
  split <;> rfl

theorem bindInner_slots (f : Frame) (ident : String) :
    (f.bindInner ident).slots = ident :: f.slots := by
  unfold bindInner
  split <;> rfl

theorem slotFields_noDot (h : '.' ∉ ident.toList) : ∀ l ∈ slotFields ident n, '.' ∉ l := by
  cases n
  case zero   => simpa [slotFields] using h
  case succ n => simpa [slotFields] using ⟨h, by simpa using noDot_toString (n + 1)⟩

theorem slotFields_ne_nil (ident : String) (n : Nat) : slotFields ident n ≠ [] := by
  cases n <;> simp [slotFields]

theorem slotFields_inj (h : slotFields x m = slotFields y n) : x = y ∧ m = n := by
  cases m <;> cases n <;> simp only [slotFields, List.cons.injEq, reduceCtorEq, and_false] at h
  case zero.zero => exact ⟨String.toList_inj.mp h.left, rfl⟩
  case succ.succ =>
    exact ⟨String.toList_inj.mp h.left, toString_inj <| String.toList_inj.mp h.right.left⟩

theorem toList_slot (f : Frame) (ident : String) (n : Nat) :
    (f.slot ident n).name.toList = ['.'].intercalate (f.name.toList :: slotFields ident n) := by
  cases n <;> simp [slot, slotFields, Register.name, List.intercalate]

theorem slot_under (f : Frame) (ident : String) (n : Nat) : (f.slot ident n).Under f.name := by
  cases n
  case zero   => exact ⟨ident, rfl⟩
  case succ n => exact ⟨ident ++ "." ++ toString (n + 1), by simp [slot, String.append_assoc]⟩

theorem slot_congr (h : f.name = f'.name) : f.slot = f'.slot := by
  funext ident n
  cases n <;> simp [slot, h]

-- The name of the frame may hold dots.
theorem slot_inj (hx : '.' ∉ x.toList) (hy : '.' ∉ y.toList) (h : f.slot x m = f.slot y n) :
    x = y ∧ m = n := by
  have hl := congrArg (·.name.toList) h
  simp only [toList_slot, List.intercalate_cons_of_ne_nil (slotFields_ne_nil _ _),
    List.append_assoc] at hl
  have hf := congrArg (List.splitOn '.') <| List.append_cancel_left <| List.append_cancel_left hl
  rw [List.splitOn_intercalate _ (slotFields_noDot hx) (slotFields_ne_nil _ _),
    List.splitOn_intercalate _ (slotFields_noDot hy) (slotFields_ne_nil _ _)] at hf
  exact slotFields_inj hf

end Frame

-- One definition is open, in a frame with the given property.
def Symbols.Single (K : Frame → Prop) (s : Symbols) : Prop :=
  s.naming = .scoped ∧ ∃ f, s.frames = [f] ∧ K f

namespace Symbols.Single

variable {K : Frame → Prop} {P : Register → Prop} {s : Symbols} {ident : String}

theorem enter {name : String} (h : K { name }) :
    (Symbols.enter { naming := .scoped } name).Single K :=
  ⟨rfl, _, rfl, h⟩

theorem inFrame {g : Frame → Register × Frame} (h : s.Single K)
    (hg : ∀ f, K f → P (g f).fst ∧ K (g f).snd) :
    P (s.inFrame ident g).fst ∧ (s.inFrame ident g).snd.Single K := by
  obtain ⟨hn, f, hf, hk⟩ := h
  simp only [Symbols.inFrame, hn, hf]
  exact ⟨(hg f hk).left, rfl, _, rfl, (hg f hk).right⟩

theorem modifyFrame {m : Frame → Frame} (h : s.Single K) (hm : ∀ f, K f → K (m f)) :
    (s.modifyFrame m).Single K := by
  obtain ⟨hn, f, hf, hk⟩ := h
  simp only [Symbols.modifyFrame, hf]
  exact ⟨hn, _, rfl, hm f hk⟩

end Symbols.Single
end LineCode

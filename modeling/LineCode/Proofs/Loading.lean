import LineCode.Instruction
import LineCode.Machine.Image
import Mathlib

namespace LineCode

namespace Text

theorem dropWhile_eq_self {p : Char → Bool} {cs : List Char}
    (h : ∀ c, cs.head? = some c → p c = false) :
    cs.dropWhile p = cs := by
  cases cs
  case nil       => rfl
  case cons c cs => simp [h c rfl]

namespace Solid

variable {cs ds : List Char}

theorem nil : Solid [] :=
  nofun

theorem append_iff : Solid (cs ++ ds) ↔ Solid cs ∧ Solid ds := by
  simp [Solid, or_imp, forall_and]

theorem cons_iff {c : Char} : Solid (c :: cs) ↔ isBlank c = false ∧ Solid cs := by
  simp [Solid]

theorem trim_eq (h : Solid cs) : trim cs = cs := by
  have hl : cs.dropWhile isBlank = cs :=
    dropWhile_eq_self fun c hc => h c (List.mem_of_head? hc)
  have hr : cs.reverse.dropWhile isBlank = cs.reverse :=
    dropWhile_eq_self fun c hc => h c (List.mem_reverse.mp <| List.mem_of_head? hc)
  rw [trim, hl, hr, List.reverse_reverse]

end Solid

-- What `words` can give back: a text without blanks that is not empty.
def Word (w : List Char) : Prop := Solid w ∧ w ≠ []

instance (w : List Char) : Decidable (Word w) :=
  inferInstanceAs (Decidable (_ ∧ _))

theorem words_intercalate {ws : List (List Char)} (h : ∀ w ∈ ws, Word w) :
    words ([' '].intercalate ws) = ws := by
  induction ws
  case nil => rfl
  case cons w ws hi =>
    have ⟨hw, hn⟩ := h w List.mem_cons_self
    have hs := fun v hv => h v (List.mem_cons_of_mem w hv)
    cases ws
    case nil => simpa using words_of_solid hw hn
    case cons v ws =>
      rw [List.intercalate_cons_cons, List.append_assoc, List.singleton_append,
        words_append_blank hw hn (by decide), hi hs]

theorem mem_intercalate {ws : List (List Char)} {c : Char} (h : c ∈ [' '].intercalate ws) :
    c = ' ' ∨ ∃ w ∈ ws, c ∈ w := by
  induction ws
  case nil => contradiction
  case cons w ws hi =>
    cases ws
    case nil => exact .inr ⟨w, List.mem_cons_self, by simpa using h⟩
    case cons v ws =>
      rw [List.intercalate_cons_cons] at h
      simp only [List.mem_append, List.mem_singleton] at h
      rcases h with (h | h) | h
      · exact .inr ⟨w, List.mem_cons_self, h⟩
      · exact .inl h
      · have h := hi h
        grind

end Text

open Text

namespace Register

-- The machine can read the name of the register off an operand.
def Legible (r : Register) : Prop := Solid r.name.toList

instance (r : Register) : Decidable r.Legible :=
  inferInstanceAs (Decidable (Solid _))

end Register

namespace Label

-- Label lines lose all marks at the start and all colons at the end, jump operands only one mark.
-- The two agree on names without either.
structure Legible (l : Label) : Prop where
  solid   : Solid l.name.toList
  noMark  : l.name.toList.head? ≠ some '&'
  noColon : l.name.toList.getLast? ≠ some ':'

instance : DecidablePred Legible := fun l =>
  decidable_of_iff (Solid l.name.toList ∧ l.name.toList.head? ≠ some '&' ∧
    l.name.toList.getLast? ≠ some ':')
    ⟨fun ⟨h₁, h₂, h₃⟩ => ⟨h₁, h₂, h₃⟩, fun ⟨h₁, h₂, h₃⟩ => ⟨h₁, h₂, h₃⟩⟩

end Label

namespace Instruction

@[simp]
def registers : Instruction → List Register
  | load _ dst           => [dst]
  | loadAddress _ dst    => [dst]
  | move src dst         => [src, dst]
  | binary _ lhs rhs dst => [lhs, rhs, dst]
  | not src dst          => [src, dst]
  | jumpIf _ condition   => [condition]
  | push src             => [src]
  | pop dst              => [dst]
  | callValue callee     => [callee]
  | out src              => [src]
  | _                    => []

-- The label that an instruction mentions, be it a definition, an address or a jump target.
@[simp]
def label? : Instruction → Option Label
  | label l         => some l
  | loadAddress l _ => some l
  | jump l          => some l
  | jumpIf l _      => some l
  | _               => none

@[simp]
def literal? : Instruction → Option String
  | load literal _ => some literal
  | _              => none

-- A literal is a word of its own, which is not mistaken for an address.
structure LegibleLiteral (literal : String) : Prop where
  nonempty : literal.toList ≠ []
  solid    : Solid literal.toList
  noMark   : literal.toList.head? ≠ some '&'

instance : DecidablePred LegibleLiteral := fun literal =>
  decidable_of_iff (literal.toList ≠ [] ∧ Solid literal.toList ∧ literal.toList.head? ≠ some '&')
    ⟨fun ⟨h₁, h₂, h₃⟩ => ⟨h₁, h₂, h₃⟩, fun ⟨h₁, h₂, h₃⟩ => ⟨h₁, h₂, h₃⟩⟩

structure Legible (i : Instruction) : Prop where
  registers : ∀ r ∈ i.registers, r.Legible
  label     : ∀ l ∈ i.label?, l.Legible
  literal   : ∀ w ∈ i.literal?, LegibleLiteral w

-- All that an instruction mentions has certain properties.
structure Over (P : Register → Prop) (L : Label → Prop) (W : String → Prop) (i : Instruction) :
    Prop where
  registers : ∀ r ∈ i.registers, P r
  label     : ∀ l ∈ i.label?, L l
  literal   : ∀ w ∈ i.literal?, W w

-- What it takes to read an instruction: the marks of a label matter only where the label is
-- defined.
def Readable (i : Instruction) : Prop :=
  i.Over Register.Legible (Solid ·.name.toList) LegibleLiteral

theorem Legible.readable {i : Instruction} (h : i.Legible) : i.Readable where
  registers  := h.registers
  label l hl := (h.label l hl).solid
  literal    := h.literal

-- The line that the machine is meant to read for an instruction.
def op : Instruction → Machine.Op
  | label _              => .label
  | blank                => .nop
  | load literal dst     => .load literal dst.name
  | loadAddress l dst    => .loadAddress l.name dst.name
  | move src dst         => .move src.name dst.name
  | binary o lhs rhs dst => .binary o.mnemonic lhs.name rhs.name dst.name
  | not src dst          => .not src.name dst.name
  | jump l               => .jump l.name
  | jumpIf l condition   => .jumpIf l.name condition.name
  | push src             => .push src.name
  | pop dst              => .pop dst.name
  | callValue callee     => .callValue callee.name
  | ret                  => .ret
  | out src              => .out src.name
  | halt                 => .halt
  | separator            => .nop

-- The words that a line consists of.
def words : Instruction → List String
  | label l              => [l.operand ++ ":"]
  | blank                => []
  | load literal dst     => ["LOAD", literal, dst.operand]
  | loadAddress l dst    => ["LOAD", l.operand, dst.operand]
  | move src dst         => ["MOVE", src.operand, dst.operand]
  | binary o lhs rhs dst => [o.mnemonic, lhs.operand, rhs.operand, dst.operand]
  | not src dst          => ["NOT", src.operand, dst.operand]
  | jump l               => ["JMP", l.operand]
  | jumpIf l condition   => ["JMPC", l.operand, condition.operand]
  | push src             => ["PUSH", src.operand]
  | pop dst              => ["POP", dst.operand]
  | callValue callee     => ["CALLV", callee.operand]
  | ret                  => ["RETURN"]
  | out src              => ["OUT", src.operand]
  | halt                 => ["END"]
  | separator            => ["##############"]

theorem line_eq_words (i : Instruction) : i.line = " ".intercalate i.words := by
  cases i <;> simp [line, words, ← String.toList_inj]

end Instruction

namespace Register

variable {r : Register}

theorem operand_toList (r : Register) : r.operand.toList = '%' :: r.name.toList := by
  simp [operand]

theorem Legible.operand (h : r.Legible) : Word r.operand.toList := by
  rw [operand_toList]
  exact ⟨Solid.cons_iff.mpr ⟨by decide, h⟩, List.cons_ne_nil _ _⟩

@[simp]
theorem register_operand (r : Register) : Machine.Op.register r.operand = .ok r.name := by
  simp [Machine.Op.register, Machine.Op.afterMark?, operand_toList]

end Register

namespace Label

variable {l : Label}

theorem operand_toList (l : Label) : l.operand.toList = '&' :: l.name.toList := by
  simp [operand]

theorem operand_word (h : Solid l.name.toList) : Word l.operand.toList := by
  rw [operand_toList]
  exact ⟨Solid.cons_iff.mpr ⟨by decide, h⟩, List.cons_ne_nil _ _⟩

@[simp]
theorem afterMark?_operand (l : Label) : Machine.Op.afterMark? '&' l.operand = some l.name := by
  simp [Machine.Op.afterMark?, operand_toList]

@[simp]
theorem address_operand (l : Label) : Machine.Op.address l.operand = .ok l.name := by
  simp [Machine.Op.address]

end Label

namespace Instruction

theorem LegibleLiteral.afterMark? {w : String} (h : LegibleLiteral w) :
    Machine.Op.afterMark? '&' w = none := by
  have hm := h.noMark
  unfold Machine.Op.afterMark?
  split
  case h_1     => rfl
  case h_2 c _ e => simp_all

variable {i : Instruction}

theorem Readable.words (h : i.Readable) : ∀ w ∈ i.words, Word w.toList := by
  have hr := fun r hr => (h.registers r hr).operand
  have hl := fun l hl => Label.operand_word (h.label l hl)
  have hw := fun w hw => And.intro (h.literal w hw).solid (h.literal w hw).nonempty
  cases i <;> simp only [Instruction.registers, label?, literal?, Option.mem_def, Option.some.injEq,
    forall_eq', List.forall_mem_cons] at hr hl hw
  case label l =>
    have hs := Solid.append_iff.mpr ⟨hl.left, show Solid ":".toList by decide⟩
    simpa [Instruction.words, Word] using hs
  case binary o lhs rhs dst =>
    have ho : Word o.mnemonic.toList := by cases o <;> decide
    simp [Instruction.words, ho, hr]
  case load literal dst => simpa [Instruction.words, hr] using ⟨by decide, hw⟩
  all_goals simp [Instruction.words, hr, hl]
  all_goals decide

theorem Readable.words_line (h : i.Readable) :
    Text.words i.line.toList = i.words.map String.toList := by
  rw [line_eq_words, String.toList_intercalate]
  exact words_intercalate <| by simpa using h.words

theorem Readable.not_blank_of_mem_line (h : i.Readable) {c : Char} (hc : c ∈ i.line.toList) :
    c = ' ' ∨ isBlank c = false := by
  rw [line_eq_words, String.toList_intercalate] at hc
  rcases mem_intercalate hc with hc | ⟨w, hw, hc⟩
  · exact .inl hc
  · have ⟨v, hv, e⟩ := List.mem_map.mp hw
    exact .inr ((h.words v hv).left c (e ▸ hc))

-- Reading a line gives back the instruction that was written to it.
theorem Readable.ofLine_line (h : i.Readable) : Machine.Op.ofLine i.line.toList = .ok i.op := by
  rw [Machine.Op.ofLine, h.words_line, String.ofList_toList, List.map_map]
  have hs : String.ofList ∘ String.toList = id := funext fun _ => String.ofList_toList
  rw [hs, List.map_id]
  cases i <;> simp only [Instruction.words, Machine.Op.ofWords, Register.register_operand,
    Label.address_operand, Label.afterMark?_operand, op, bind_pure_comp]
  case label l =>
    have hw : (l.operand ++ ":").toList = ('&' :: l.name.toList) ++ [':'] := by
      simp [Label.operand_toList]
    have hn : Machine.Op.isSeparator (l.operand ++ ":") = false := by
      simp [Machine.Op.isSeparator, hw]
    have hl : Machine.Op.isLabel (l.operand ++ ":") = true := by
      rw [Machine.Op.isLabel, hw, List.getLast?_concat]
      rfl
    simp [hn, hl]
  case load literal dst =>
    simp only [(h.literal literal rfl).afterMark?]
    rfl
  all_goals rfl

theorem labelName_line {l : Label} (h : l.Legible) :
    Machine.Image.labelName (label l).line.toList = l.name := by
  have hl : (label l).line.toList = '&' :: l.name.toList ++ [':'] := by
    simp [line, Label.operand]
  have hs : Solid (label l).line.toList := by
    rw [hl, Solid.append_iff, Solid.cons_iff]
    exact ⟨⟨by decide, h.solid⟩, by decide⟩
  have hm : (l.name.toList ++ [':']).dropWhile (· == '&') = l.name.toList ++ [':'] := by
    apply dropWhile_eq_self
    have := h.noMark
    cases hn : l.name.toList <;> simp_all
  have hc : l.name.toList.reverse.dropWhile (· == ':') = l.name.toList.reverse := by
    apply dropWhile_eq_self
    intro c hc
    rw [List.head?_reverse] at hc
    exact beq_false_of_ne fun e => h.noColon (e ▸ hc)
  rw [Machine.Image.labelName, hs.trim_eq, hl]
  simp [hm, hc]

end Instruction

open Instruction

theorem lines_render {code : List Instruction} (h : ∀ i ∈ code, i.Readable) :
    Text.lines (render code).toList = code.map (·.line.toList) := by
  induction code
  case nil => rfl
  case cons i code hi =>
    have hb := fun c hc => (h i List.mem_cons_self).not_blank_of_mem_line (c := c) hc
    have hn : '\n' ∉ i.line.toList := fun hc => absurd (hb _ hc) (by decide)
    have hr : i.line.toList.getLast? ≠ some '\r' := fun hc =>
      absurd (hb _ <| List.mem_of_getLast? hc) (by decide)
    have he : (render (i :: code)).toList = i.line.toList ++ '\n' :: (render code).toList := by
      simp [render]
    rw [he, lines_append_newline hn hr, hi fun j hj => h j (List.mem_cons_of_mem i hj)]
    rfl

namespace Machine.Image

-- The image of a piece of code: one line for each instruction, and the position of every label.
structure Holds (img : Image) (code : List Instruction) : Prop where
  ops_eq : img.ops = (code.map Instruction.op).toArray
  line?_iff (l : Label) (k : Nat) : img.line? l.name = some k ↔ code[k]? = some (.label l)

theorem holds_empty : Holds {} [] where
  ops_eq := rfl
  line?_iff _ _ := by simp [line?]

theorem getElem?_concat_iff {code : List Instruction} {i j : Instruction} {k : Nat} :
    (code ++ [i])[k]? = some j ↔ code[k]? = some j ∨ (k = code.length ∧ i = j) := by
  rw [List.getElem?_append]
  split
  case isTrue h  => simp [Nat.ne_of_lt h]
  case isFalse h =>
    have hn : code[k]? = none := List.getElem?_eq_none (Nat.le_of_not_lt h)
    have hk : k - code.length = 0 ↔ k = code.length := by omega
    simp [hn, List.getElem?_singleton, hk]

-- One more instruction. A label must be new to the image.
theorem Holds.addLine {img : Image} {code : List Instruction} {i : Instruction}
    (hh : img.Holds code) (hi : i.Readable) (hl : ∀ l, i = .label l → l.Legible)
    (hn : ∀ l, i = .label l → Instruction.label l ∉ code) :
    ∃ img', img.addLine i.line.toList = .ok img' ∧ img'.Holds (code ++ [i]) := by
  have hsize : img.ops.size = code.length := by simp [hh.ops_eq]
  by_cases hd : ∃ l, i = .label l
  case pos =>
    obtain ⟨l, rfl⟩ := hd
    have hf : img.line? l.name = none := by
      by_contra hc
      have ⟨k, hk⟩ := Option.ne_none_iff_exists'.mp hc
      exact hn l rfl <| List.mem_of_getElem? <| (hh.line?_iff l k).mp hk
    refine ⟨⟨img.ops.push .label, (l.name, img.ops.size) :: img.labels⟩, ?_, ?_, ?_⟩
    · rw [addLine_of_label hi.ofLine_line, labelName_line (hl l rfl), hf]
      rfl
    · simp [hh.ops_eq, op]
    · intro m k
      rw [getElem?_concat_iff, ← hh.line?_iff]
      by_cases hm : l = m
      case pos =>
        subst hm
        rw [hf]
        simpa [line?, hsize] using eq_comm
      case neg =>
        have hne : (m.name == l.name) = false := beq_false_of_ne fun h => hm (Label.ext h.symm)
        simp [line?, List.lookup_cons, hne, hm]
  case neg =>
    have ho : i.op ≠ .label := by cases i <;> simp_all [op]
    refine ⟨⟨img.ops.push i.op, img.labels⟩, ?_, ?_, ?_⟩
    · exact addLine_of_op hi.ofLine_line ho
    · simp [hh.ops_eq]
    · intro m k
      rw [getElem?_concat_iff, ← hh.line?_iff]
      have hm : i ≠ .label m := fun h => hd ⟨m, h⟩
      simp [line?, hm]

-- The labels of the instructions that define one.
theorem mem_filterMap_definedLabel? {code : List Instruction} {l : Label} :
    l ∈ code.filterMap definedLabel? ↔ Instruction.label l ∈ code := by
  simp only [List.mem_filterMap]
  constructor
  · rintro ⟨i, hi, h⟩
    cases i <;> simp_all [definedLabel?]
  · exact fun h => ⟨_, h, rfl⟩

theorem foldlM_addLine {img : Image} {code code' : List Instruction} (hh : img.Holds code)
    (hi : ∀ i ∈ code', i.Readable) (hl : ∀ l, .label l ∈ code' → l.Legible)
    (hn : ((code ++ code').filterMap definedLabel?).Nodup) :
    ∃ img', (code'.map (·.line.toList)).foldlM Image.addLine img = .ok img' ∧
      img'.Holds (code ++ code') := by
  induction code' generalizing img code
  case nil => exact ⟨img, rfl, by simpa using hh⟩
  case cons i code' hi' =>
    have hf : ∀ l, i = .label l → Instruction.label l ∉ code := by
      rintro l rfl hc
      rw [List.filterMap_append, List.nodup_append] at hn
      exact hn.right.right l (mem_filterMap_definedLabel?.mpr hc) l (by simp [definedLabel?]) rfl
    have ⟨img₁, h₁, hh₁⟩ := hh.addLine (hi i List.mem_cons_self) (fun l h => hl l (by simp [h])) hf
    have ⟨img₂, h₂, hh₂⟩ := hi' hh₁ (fun j hj => hi j (List.mem_cons_of_mem i hj))
      (fun l h => hl l (List.mem_cons_of_mem i h)) (by simpa using hn)
    refine ⟨img₂, ?_, by simpa using hh₂⟩
    simpa [h₁, bind, Except.bind] using h₂

-- Loading undoes rendering.
theorem load_readable {code : List Instruction} (hi : ∀ i ∈ code, i.Readable)
    (hl : ∀ l, .label l ∈ code → l.Legible) (hn : (code.filterMap definedLabel?).Nodup) :
    ∃ img, load (render code) = .ok img ∧ img.Holds code := by
  rw [load, lines_render hi]
  exact foldlM_addLine holds_empty hi hl hn

-- The image of some code, made without its text.
def add (img : Image) (i : Instruction) : Image where
  ops    := img.ops.push i.op
  labels :=
    match i with
    | .label l => (l.name, img.ops.size) :: img.labels
    | _        => img.labels

def ofCode (code : List Instruction) : Image := code.foldl add {}

theorem addLine_eq_ok {img img' : Image} {i : Instruction} (hi : i.Readable)
    (hl : ∀ l, i = .label l → l.Legible) (h : img.addLine i.line.toList = .ok img') :
    img' = img.add i := by
  by_cases hd : ∃ l, i = .label l
  case pos =>
    obtain ⟨l, rfl⟩ := hd
    rw [addLine_of_label hi.ofLine_line, labelName_line (hl l rfl)] at h
    split at h
    case isTrue  => contradiction
    case isFalse => exact (Except.ok.inj h).symm
  case neg =>
    have ho : i.op ≠ .label := by cases i <;> simp_all [op]
    have ha : img.add i = ⟨img.ops.push i.op, img.labels⟩ := by cases i <;> simp_all [add]
    rw [addLine_of_op hi.ofLine_line ho] at h
    rw [ha, ← Except.ok.inj h]

theorem foldlM_addLine_eq_ok {img img' : Image} {code : List Instruction}
    (hi : ∀ i ∈ code, i.Readable) (hl : ∀ l, .label l ∈ code → l.Legible)
    (h : (code.map (·.line.toList)).foldlM Image.addLine img = .ok img') :
    img' = code.foldl add img := by
  induction code generalizing img
  case nil =>
    cases h
    rfl
  case cons i code hc =>
    cases h₁ : img.addLine i.line.toList
    case error => simp [h₁, bind, Except.bind] at h
    case ok img₁ =>
      obtain rfl := addLine_eq_ok (hi i List.mem_cons_self) (fun l h => hl l (by simp [h])) h₁
      refine hc (fun j hj => hi j (List.mem_cons_of_mem i hj))
        (fun l h => hl l (List.mem_cons_of_mem i h)) ?_
      simpa [h₁, bind, Except.bind] using h

theorem load_eq_ofCode {img : Image} {code : List Instruction} (hi : ∀ i ∈ code, i.Readable)
    (hl : ∀ l, .label l ∈ code → l.Legible) (h : load (render code) = .ok img) :
    img = ofCode code := by
  rw [load, lines_render hi] at h
  exact foldlM_addLine_eq_ok hi hl h

-- What the lines are does not hang on the names of labels.
theorem addLine_ops {img img' : Image} {i : Instruction} (hi : i.Readable)
    (h : img.addLine i.line.toList = .ok img') :
    img'.ops = img.ops.push i.op := by
  by_cases ho : i.op = .label
  case neg =>
    rw [addLine_of_op hi.ofLine_line ho] at h
    rw [← Except.ok.inj h]
  case pos =>
    rw [addLine_of_label (ho ▸ hi.ofLine_line)] at h
    split at h
    case isTrue  => contradiction
    case isFalse => rw [← Except.ok.inj h, ho]

theorem foldlM_addLine_ops {img img' : Image} {code : List Instruction}
    (hi : ∀ i ∈ code, i.Readable)
    (h : (code.map (·.line.toList)).foldlM Image.addLine img = .ok img') :
    img'.ops = img.ops ++ (code.map Instruction.op).toArray := by
  induction code generalizing img
  case nil =>
    cases h
    simp
  case cons i code hc =>
    cases h₁ : img.addLine i.line.toList
    case error => simp [h₁, bind, Except.bind] at h
    case ok img₁ =>
      rw [hc (fun j hj => hi j (List.mem_cons_of_mem i hj))
        (by simpa [h₁, bind, Except.bind] using h),
        addLine_ops (hi i List.mem_cons_self) h₁]
      simp

theorem load_ops {img : Image} {code : List Instruction} (hi : ∀ i ∈ code, i.Readable)
    (h : load (render code) = .ok img) : img.ops = (code.map Instruction.op).toArray := by
  rw [load, lines_render hi] at h
  simpa using foldlM_addLine_ops hi h

theorem load_render {code : List Instruction} (hi : ∀ i ∈ code, i.Legible)
    (hn : (code.filterMap definedLabel?).Nodup) :
    ∃ img, load (render code) = .ok img ∧ img.Holds code :=
  load_readable (fun i h => (hi i h).readable) (fun l h => (hi _ h).label l rfl) hn

theorem Holds.getElem? {img : Image} {code : List Instruction} (hh : img.Holds code) {k : Nat}
    {i : Instruction} (hk : code[k]? = some i) : img.ops[k]? = some i.op := by
  simp [hh.ops_eq, hk]

end Machine.Image

namespace Instruction

-- A literal that starts with the mark of an address is read as one.
def asRead : Instruction → Instruction
  | load literal dst =>
    match Machine.Op.afterMark? '&' literal with
    | some name => loadAddress ⟨name⟩ dst
    | none      => load literal dst
  | i => i

theorem afterMark?_eq_some {mark : Char} {word name : String}
    (h : Machine.Op.afterMark? mark word = some name) :
    word.toList = mark :: name.toList := by
  unfold Machine.Op.afterMark? at h
  split at h
  case h_1 => contradiction
  case h_2 c cs hw =>
    split at h
    case isFalse => contradiction
    case isTrue hc => rw [hw, hc, ← Option.some.inj h, String.toList_ofList]

theorem afterMark?_eq_none {mark : Char} {word : String}
    (h : Machine.Op.afterMark? mark word = none) :
    word.toList.head? ≠ some mark := by
  unfold Machine.Op.afterMark? at h
  split at h
  case h_1 hw => simp [hw]
  case h_2 c cs hw =>
    split at h
    case isFalse hc => simpa [hw] using hc
    case isTrue => contradiction

theorem asRead_line (i : Instruction) : i.asRead.line = i.line := by
  cases i
  case load literal dst =>
    simp only [asRead]
    split
    case h_1 name h =>
      have hw : literal = "&" ++ name := String.toList_inj.mp (by simpa using afterMark?_eq_some h)
      rw [hw]
      rfl
    case h_2 => rfl
  all_goals rfl

theorem asRead_definedLabel? (i : Instruction) : i.asRead.definedLabel? = i.definedLabel? := by
  cases i
  case load literal dst => simp only [asRead]; split <;> rfl
  all_goals rfl

theorem asRead_readable {i : Instruction}
    (h : i.Over Register.Legible (Solid ·.name.toList) (Word ·.toList)) :
    i.asRead.Readable := by
  cases i
  case load literal dst =>
    obtain ⟨hs, hn⟩ := h.literal literal rfl
    simp only [asRead]
    split
    case h_1 name hm =>
      rw [afterMark?_eq_some hm] at hs
      exact ⟨h.registers, by simpa using (Solid.cons_iff.mp hs).right, by simp⟩
    case h_2 hm => exact ⟨h.registers, by simp, by simpa using ⟨hn, hs, afterMark?_eq_none hm⟩⟩
  all_goals exact ⟨h.registers, h.label, by simp [asRead]⟩

end Instruction

theorem render_asRead (code : List Instruction) : render (code.map .asRead) = render code := by
  induction code
  case nil            => rfl
  case cons i code hi => rw [List.map_cons, render, render, i.asRead_line, hi]

theorem Machine.Image.load_asRead {code : List Instruction}
    (hi : ∀ i ∈ code, i.Over Register.Legible (Solid ·.name.toList) (Word ·.toList))
    (hl : ∀ l, .label l ∈ code → l.Legible)
    (hn : (code.filterMap Instruction.definedLabel?).Nodup) :
    ∃ img, load (render code) = .ok img ∧ img.Holds (code.map .asRead) := by
  have hd : (code.map .asRead).filterMap Instruction.definedLabel?
      = code.filterMap Instruction.definedLabel? := by
    rw [List.filterMap_map]
    exact congrArg (code.filterMap ·) (funext Instruction.asRead_definedLabel?)
  rw [← render_asRead]
  refine load_readable (List.forall_mem_map.mpr fun i hm => Instruction.asRead_readable (hi i hm))
    (fun l hm => ?_) (hd ▸ hn)
  rw [← mem_filterMap_definedLabel?, hd, mem_filterMap_definedLabel?] at hm
  exact hl l hm

-- The loader gives back the whole of a legible piece of code whose labels are distinct: it does not
-- fail, reads each instruction as its counterpart, and knows where each label stands and no other
-- label.
theorem Machine.Image.load_rendered (code : List Instruction)
    (hr : ∀ i ∈ code, ∀ r ∈ i.registers, Solid r.name.toList)
    (hw : ∀ i ∈ code, ∀ w ∈ i.literal?, w.toList ≠ [] ∧ Solid w.toList ∧ w.toList.head? ≠ some '&')
    (hl : ∀ i ∈ code, ∀ l ∈ i.label?,
      Solid l.name.toList ∧ l.name.toList.head? ≠ some '&' ∧ l.name.toList.getLast? ≠ some ':')
    (hn : (code.filterMap definedLabel?).Nodup) :
    ∃ img, load (render code) = .ok img ∧ img.ops = (code.map Instruction.op).toArray ∧
      ∀ name k, img.line? name = some k ↔ code[k]? = some (.label ⟨name⟩) := by
  have hi : ∀ i ∈ code, i.Legible := fun i hi => {
    registers := hr i hi
    label     := fun l h => have ⟨h₁, h₂, h₃⟩ := hl i hi l h; ⟨h₁, h₂, h₃⟩
    literal   := fun w h => have ⟨h₁, h₂, h₃⟩ := hw i hi w h; ⟨h₁, h₂, h₃⟩
  }
  have ⟨img, h, hh⟩ := load_render hi hn
  exact ⟨img, h, hh.ops_eq, fun name => hh.line?_iff ⟨name⟩⟩

-- A label with a colon inside, a literal like a separator, and a register that looks like a label.
theorem Machine.Image.load_rendered_lookalikes :
    let code := [.label ⟨"a:b"⟩, .load "##" (.named "&x"), .blank,
      .binary .add (.named "") .sink (.temp 0),
      .jumpIf ⟨"a:b"⟩ (.named "LOAD"), .separator]
    ∃ img, load (render code) = .ok img ∧ img.ops = (code.map Instruction.op).toArray ∧
      img.line? "a:b" = some 0 := by
  intro code
  have ⟨img, hl, ho, hk⟩ := load_rendered code (by decide) (by decide) (by decide) (by decide)
  exact ⟨img, hl, ho, (hk "a:b" 0).mpr rfl⟩

end LineCode

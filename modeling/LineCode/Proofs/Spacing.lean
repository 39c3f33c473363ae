import LineCode.Machine.Run
import LineCode.Proofs.Loading

namespace LineCode

namespace Text

-- A text of blanks only.
def Blank (cs : List Char) : Prop := ∀ c ∈ cs, isBlank c

variable {cs w : List Char} {c : Char}

theorem Blank.nil : Blank [] := by
  simp [Blank]

theorem Blank.cons (hc : isBlank c) (h : Blank cs) : Blank (c :: cs) :=
  List.forall_mem_cons.mpr ⟨hc, h⟩

-- Nothing but blanks comes after a word that no other word follows.
theorem splitWords_last (h : splitWords cs = (w, [])) :
    Solid w ∧ ∃ bs, Blank bs ∧ cs = w ++ bs := by
  induction cs generalizing w
  case nil =>
    cases h
    exact ⟨.nil, [], .nil, rfl⟩
  case cons c cs hi =>
    by_cases hc : isBlank c
    case pos =>
      simp only [splitWords, hc, if_true, Prod.mk.injEq, ite_eq_iff, List.isEmpty_iff, reduceCtorEq,
        and_false,
        or_false] at h
      obtain ⟨rfl, hw, hs⟩ := h
      obtain ⟨-, bs, hb, he⟩ := hi (Prod.ext hw hs)
      exact ⟨.nil, c :: bs, hb.cons hc, congrArg (c :: ·) he⟩
    case neg =>
      simp only [splitWords, hc, Bool.false_eq_true, if_false, Prod.mk.injEq] at h
      obtain ⟨rfl, hs⟩ := h
      obtain ⟨hw, bs, hb, he⟩ := hi (Prod.ext rfl hs)
      exact ⟨Solid.cons_iff.mpr ⟨by simpa using hc, hw⟩, bs, hb, congrArg (c :: ·) he⟩

theorem words_single (h : words cs = [w]) :
    Word w ∧ ∃ as bs, Blank as ∧ Blank bs ∧ cs = as ++ (w ++ bs) := by
  induction cs
  case nil => contradiction
  case cons c cs hi =>
    by_cases hc : isBlank c
    case pos =>
      rw [words_blank_cons hc] at h
      obtain ⟨hw, as, bs, ha, hb, he⟩ := hi h
      exact ⟨hw, c :: as, bs, ha.cons hc, hb, congrArg (c :: ·) he⟩
    case neg =>
      simp only [words, splitWords, hc, Bool.false_eq_true, if_false, List.isEmpty_cons,
        List.cons.injEq] at h
      obtain ⟨rfl, hs⟩ := h
      obtain ⟨hw, bs, hb, he⟩ := splitWords_last (Prod.ext rfl hs)
      refine ⟨⟨Solid.cons_iff.mpr ⟨by simpa using hc, hw⟩, by simp⟩, [], bs, .nil, hb, ?_⟩
      exact congrArg (c :: ·) he

theorem trim_of_words (h : words cs = [w]) : trim cs = w := by
  obtain ⟨⟨hw, hn⟩, as, bs, ha, hb, rfl⟩ := words_single h
  have hl : (w ++ bs).dropWhile isBlank = w ++ bs := by
    refine dropWhile_eq_self fun c hc => hw c ?_
    rw [List.head?_append_of_ne_nil _ hn] at hc
    exact List.mem_of_head? hc
  have hr : w.reverse.dropWhile isBlank = w.reverse :=
    dropWhile_eq_self fun c hc => hw c (List.mem_reverse.mp (List.mem_of_head? hc))
  rw [trim, List.dropWhile_append_of_pos ha, hl, List.reverse_append,
    List.dropWhile_append_of_pos fun c hc => hb c (List.mem_reverse.mp hc), hr,
      List.reverse_reverse]

theorem splitWords_blank_end (hc : isBlank c) (cs : List Char) :
    splitWords (cs ++ [c]) = splitWords cs := by
  induction cs
  case nil          => simp [splitWords, hc]
  case cons d cs hi => rw [List.cons_append, splitWords, hi, splitWords]

theorem words_blank_end (hc : isBlank c) (cs : List Char) : words (cs ++ [c]) = words cs := by
  rw [words, splitWords_blank_end hc, words]

-- The text with a carriage return before every line feed.
def crlf (cs : List Char) : List Char := cs.flatMap fun c => if c = '\n' then ['\r', '\n'] else [c]

@[simp]
theorem crlf_newline (cs : List Char) : crlf ('\n' :: cs) = '\r' :: '\n' :: crlf cs :=
  rfl

theorem crlf_cons (hc : c ≠ '\n') (cs : List Char) : crlf (c :: cs) = c :: crlf cs := by
  simp [crlf, hc]

theorem head?_crlf (cs : List Char) : (crlf cs).head? ≠ some '\n' := by
  cases cs
  case nil => simp [crlf]
  case cons c cs =>
    by_cases hc : c = '\n'
    case pos => simp [hc]
    case neg => simp [crlf_cons hc, hc]

-- A character that ends no line belongs to the line after it.
theorem lines_cons {l : List Char} {ls : List (List Char)} (hc : c ≠ '\n')
    (hn : cs.head? ≠ some '\n') (hl : lines cs = l :: ls) : lines (c :: cs) = (c :: l) :: ls := by
  rw [lines, hl]
  · exact hc
  · rintro ds - rfl
    exact hn rfl

theorem lines_eq_nil_iff : lines cs = [] ↔ cs = [] := by
  fun_cases lines cs <;> simp

theorem lines_singleton (hc : c ≠ '\n') : lines [c] = [[c]] := by
  simp [lines]

-- Where there already is a carriage return before the line feed, the first of the two is left to
-- the line.
theorem lines_crlf (cs : List Char) :
    List.Forall₂ (fun l l' => l' = l ∨ l' = l ++ ['\r']) (lines cs) (lines (crlf cs)) := by
  fun_induction lines cs
  case case1       => exact .nil
  case case2 cs hi => exact .cons (.inl rfl) hi
  case case3 cs hi =>
    have hl : lines ('\r' :: '\r' :: '\n' :: crlf cs) = ['\r'] :: lines (crlf cs) := by
      simp [lines]
    rw [crlf_cons (by decide), crlf_newline, hl]
    exact .cons (.inr rfl) hi
  case case4 c cs hc hr hl hi =>
    obtain rfl := lines_eq_nil_iff.mp hl
    rw [crlf_cons hc, show crlf [] = [] from rfl, lines_singleton hc]
    exact .cons (.inl rfl) .nil
  case case5 c cs hc hr l ls hl hi =>
    rw [hl] at hi
    obtain ⟨l', ls', hw, hws, h⟩ := List.forall₂_cons_left_iff.mp hi
    rw [crlf_cons hc, lines_cons hc (head?_crlf cs) h]
    refine .cons ?_ hws
    rcases hw with rfl | rfl <;> simp

end Text

open Text

namespace Machine

-- The error with another line to quote. Only an unparseable line is quoted as it stands.
def LoadError.quoting (line : List Char) : LoadError → LoadError
  | unparseable _ => unparseable (.ofList line)
  | e             => e

theorem bind_eq_ok_iff {ε α β : Type} {x : Except ε α} {k : α → Except ε β} {b : β} :
    x >>= k = .ok b ↔ ∃ a, x = .ok a ∧ k a = .ok b := by
  cases x <;> simp [bind, Except.bind]

theorem mapError_bind {ε α β : Type} (f : ε → ε) (x : Except ε α) (k : α → Except ε β) :
    (x >>= k).mapError f = x.mapError f >>= fun a => (k a).mapError f := by
  cases x <;> rfl

namespace Op

theorem register_quoting (line : List Char) (word : String) :
    (register word).mapError (·.quoting line) = register word := by
  unfold register
  split <;> rfl

theorem address_quoting (line : List Char) (word : String) :
    (address word).mapError (·.quoting line) = address word := by
  unfold address
  split <;> rfl

-- The words decide what a line is. Its full text is quoted at most.
theorem ofWords_quoting (line : List Char) (text : String) (ws : List String) :
    (ofWords text ws).mapError (·.quoting line) = ofWords (.ofList line) ws := by
  have hp (op : Op) : (pure op : Except LoadError Op).mapError (·.quoting line) = pure op := rfl
  unfold ofWords
  split
  case h_2 =>
    split
    case isTrue => rfl
    case isFalse =>
      split
      case isTrue => rfl
      case isFalse => split <;> rfl
  case h_3 =>
    split
    case h_6 => rfl
    all_goals simp only [mapError_bind, register_quoting, address_quoting, hp]
  case h_4 =>
    split
    case h_1 => split <;> simp only [mapError_bind, register_quoting, hp]
    case h_5 => rfl
    all_goals simp only [mapError_bind, register_quoting, address_quoting, hp]
  case h_5 => simp only [mapError_bind, register_quoting, hp]
  all_goals rfl

theorem label_of_ofWords {line : String} {ws : List String} :
    ofWords line ws = .ok .label → ∃ w, ws = [w] ∧ isLabel w := by
  have hp {op : Op} : (pure op : Except LoadError Op) = .ok .label ↔
      op = .label := by simp [pure, Except.pure]
  fun_cases ofWords line ws
  case case3 w _ hw => exact fun _ => ⟨w, rfl, hw⟩
  all_goals simp only [bind_eq_ok_iff, hp, Except.ok.injEq, reduceCtorEq, and_false, exists_false,
    false_imp_iff]

end Op

-- The same error, but for the lines that are quoted.
inductive LoadError.Alike (line line' : List Char) : LoadError → LoadError → Prop
  | unparseable : Alike line line' (unparseable (.ofList line)) (unparseable (.ofList line'))
  | same {e} : (∀ text, e ≠ .unparseable text) → Alike line line' e e

theorem LoadError.alike_quoting (line line' : List Char) (e : LoadError) :
    Alike line line' (e.quoting line) (e.quoting line') := by
  cases e
  case unparseable => exact .unparseable
  all_goals exact .same (by simp [quoting])

namespace Image

variable {img : Image} {line line' : List Char}

-- The name in a word that is a label.
def wordName (w : List Char) : String :=
  .ofList ((w.dropWhile (· == '&')).reverse.dropWhile (· == ':')).reverse

-- What makes a line a label is its only word, and this is where its name comes from.
theorem label_of_ofLine (h : Op.ofLine line = .ok .label) :
    ∃ w, words line = [w] ∧ Op.isLabel (.ofList w) ∧ labelName line = wordName w := by
  obtain ⟨v, hv, hl⟩ := Op.label_of_ofWords h
  obtain ⟨w, hw, rfl⟩ := List.map_eq_singleton_iff.mp hv
  exact ⟨w, hw, hl, by rw [labelName, trim_of_words hw, wordName]⟩

theorem ofLine_quoting (h : words line = words line') :
    (Op.ofLine line).mapError (·.quoting line') = Op.ofLine line' := by
  rw [Op.ofLine, Op.ofWords_quoting, h, Op.ofLine]

theorem addLine_quoting (img : Image) (h : words line = words line') :
    (img.addLine line).mapError (·.quoting line') = img.addLine line' := by
  have ho := ofLine_quoting h
  cases hop : Op.ofLine line
  case error e =>
    rw [hop] at ho
    rw [addLine_of_error hop, addLine_of_error ho.symm]
    rfl
  case ok op =>
    rw [hop] at ho
    by_cases hl : op = .label
    case neg =>
      rw [addLine_of_op hop hl, addLine_of_op ho.symm hl]
      rfl
    case pos =>
      subst hl
      obtain ⟨w, hw, -, hn⟩ := label_of_ofLine hop
      obtain ⟨w', hw', -, hn'⟩ := label_of_ofLine ho.symm
      obtain rfl : w = w' := by simpa [hw, hw'] using h
      rw [addLine_of_label hop, addLine_of_label ho.symm, hn, hn']
      split <;> rfl

-- The lines before the `k`-th one are read, and that one is refused.
structure Refuses (img : Image) (ls : List (List Char)) (k : Nat) (line : List Char)
    (e : LoadError) : Prop where
  line?  : ls[k]? = some line
  before : ∃ img', (ls.take k).foldlM addLine img = .ok img' ∧ img'.addLine line = .error e

namespace Refuses

variable {img' : Image} {ls : List (List Char)} {k : Nat} {e : LoadError}

theorem here (h : img.addLine line = .error e) : img.Refuses (line :: ls) 0 line e :=
  ⟨rfl, img, rfl, h⟩

theorem later (h : img.addLine line' = .ok img') (hr : img'.Refuses ls k line e) :
    img.Refuses (line' :: ls) (k + 1) line e := by
  obtain ⟨hl, img'', hb, he⟩ := hr
  refine ⟨hl, img'', ?_, he⟩
  rw [List.take_succ_cons, List.foldlM_cons, h]
  exact hb

theorem foldlM_eq (h : img.Refuses ls k line e) : ls.foldlM addLine img = .error e := by
  obtain ⟨hl, img', hb, he⟩ := h
  obtain ⟨hk, rfl⟩ := List.getElem?_eq_some_iff.mp hl
  rw [← List.take_append_drop k ls, List.foldlM_append, hb, List.drop_eq_getElem_cons hk]
  simp only [bind, Except.bind, List.foldlM_cons, he]

end Refuses

-- One line, which is taken in the same way or refused for the same reason.
theorem addLine_words (img : Image) (h : words line = words line') :
    (∃ img', img.addLine line = .ok img' ∧ img.addLine line' = .ok img') ∨
      ∃ e e', img.addLine line = .error e ∧ img.addLine line' = .error e' ∧
        e.Alike line line' e' := by
  have hs : (img.addLine line).mapError (·.quoting line) = img.addLine line :=
    img.addLine_quoting rfl
  have hl := img.addLine_quoting h
  cases ha : img.addLine line
  case ok img' =>
    rw [ha] at hl
    exact .inl ⟨img', rfl, hl.symm⟩
  case error e =>
    rw [ha] at hs hl
    exact .inr ⟨_, _, hs.symm, hl.symm, e.alike_quoting line line'⟩

-- Line by line, as long as the words are the same.
theorem foldlM_words {ls ls' : List (List Char)}
    (h : List.Forall₂ (fun l l' => words l = words l') ls ls') (img : Image) :
    (∃ img', ls.foldlM addLine img = .ok img' ∧ ls'.foldlM addLine img = .ok img') ∨
      ∃ k line line' e e', img.Refuses ls k line e ∧ img.Refuses ls' k line' e' ∧
        e.Alike line line' e' := by
  induction h generalizing img
  case nil => exact .inl ⟨img, rfl, rfl⟩
  case cons line line' ls ls' hl hls hi =>
    rcases img.addLine_words hl with ⟨img', ha, ha'⟩ | ⟨e, e', he, he', hq⟩
    · rw [List.foldlM_cons, List.foldlM_cons, ha, ha']
      refine (hi img').imp id ?_
      rintro ⟨k, l, l', e, e', hr, hr', hq⟩
      exact ⟨k + 1, l, l', e, e', hr.later ha, hr'.later ha', hq⟩
    · exact .inr ⟨0, line, line', e, e', .here he, .here he', hq⟩

end Image

-- Two texts that come to the same: both are loaded as one program, and so run alike, or both are
-- refused at the same line for the same reason.
inductive LoadsAlike (s t : String) : Prop
  | loaded {img} : Image.load s = .ok img → Image.load t = .ok img → runText s = runText t →
    LoadsAlike s t
  | refused {k line line' e e'} :
    Image.Refuses {} (lines s.toList) k line e → Image.Refuses {} (lines t.toList) k line' e' →
    Image.load s = .error e → Image.load t = .error e' → e.Alike line line' e' → LoadsAlike s t

theorem loadsAlike_of_words {s t : String}
    (h : List.Forall₂ (fun l l' => words l = words l') (lines s.toList) (lines t.toList)) :
    LoadsAlike s t := by
  rcases Image.foldlM_words h {} with ⟨img, hs, ht⟩ | ⟨k, line, line', e, e', hs, ht, he⟩
  · refine .loaded hs ht ?_
    rw [runText, runText, Image.load, Image.load, hs, ht]
  · exact .refused hs ht hs.foldlM_eq ht.foldlM_eq he

-- The loader goes by the words of each line. So a label may be recognized by its only word and be
-- named after the trimmed line, and it makes no difference how lines end, other than in what is
-- quoted.
theorem Image.load_words :
    (∀ s t : String, (lines s.toList).map words = (lines t.toList).map words → LoadsAlike s t) ∧
    (∀ line, Op.ofLine line = .ok .label →
      ∃ w, words line = [w] ∧ Op.isLabel (.ofList w) ∧ labelName line = wordName w) ∧
    ∀ text : String, LoadsAlike text (.ofList (crlf text.toList)) := by
  refine ⟨fun s t h => ?_, fun line => label_of_ofLine, fun text => ?_⟩
  · rw [← List.forall₂_eq_eq_eq, List.forall₂_map_left_iff, List.forall₂_map_right_iff] at h
    exact loadsAlike_of_words h
  · refine loadsAlike_of_words ?_
    rw [String.toList_ofList]
    refine (lines_crlf text.toList).imp fun l l' h => ?_
    rcases h with rfl | rfl
    · rfl
    · exact (words_blank_end (by decide) l).symm

-- Inside a line, a carriage return is a blank like any other, and so is an ideographic space. The
-- texts of the second pair are refused at their last lines, each of which is quoted as it stands.
theorem Image.load_words_blanks :
    let s  := "\u3000&a: \r\nJMPC\r&a\t%x\r"
    let t  := "&a:\n JMPC &a %x"
    let s' := "END\nMOVE\r%x"
    let t' := "END\r\n  MOVE %x"
    (∃ img, load s = .ok img ∧ load t = .ok img ∧ img.labels = [("a", 0)] ∧ runText s = runText t) ∧
    (LoadsAlike s' t' ∧ load s' = .error (.unparseable "MOVE\r%x") ∧
      load t' = .error (.unparseable "  MOVE %x")) ∧
    labelName "\u3000&a: ".toList = wordName "&a:".toList ∧ LoadsAlike s' "END\r\nMOVE\r%x" := by
  intro s t s' t'
  obtain ⟨hw, hl, hc⟩ := load_words
  have ht : (load t).map (·.labels) = .ok [("a", 0)] := by decide +kernel
  have hr : String.ofList (crlf s'.toList) = "END\r\nMOVE\r%x" := by decide
  refine ⟨?_, ⟨hw s' t' (by decide), by decide +kernel, by decide +kernel⟩, ?_, hr ▸ hc s'⟩
  · have h := hw s t (by decide)
    cases h
    case refused he _ => simp [he, Except.map] at ht
    case loaded img hs hi hrun =>
      simp only [hi, Except.map, Except.ok.injEq] at ht
      exact ⟨img, hs, hi, ht, hrun⟩
  · obtain ⟨w, h, -, hn⟩ := hl "\u3000&a: ".toList (by decide)
    have he : "&a:".toList = w := List.singleton_inj.mp h
    rw [he]
    exact hn

end Machine
end LineCode

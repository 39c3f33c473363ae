import LineCode.Proofs.Occurrences
import LineCode.Proofs.Scoping
import LineCode.Proofs.Spending

namespace LineCode

open Lower

-- The symbols that come about when definitions and blocks are entered and left and variables are
-- used in any order.
inductive Symbols.Reachable (naming : Naming) : Symbols → Prop
  | new : Reachable naming { naming }
  | enter {s} (name : String) : Reachable naming s → Reachable naming (s.enter name)
  | leave {s} : Reachable naming s → Reachable naming s.leave
  | openBlock {s} : Reachable naming s → Reachable naming s.openBlock
  | closeBlock {s} : Reachable naming s → Reachable naming s.closeBlock
  | use {s} (usage : Usage) (ident : String) :
    Reachable naming s → Reachable naming (s.use usage ident).snd

theorem Symbols.Reachable.named {naming : Naming} {s : Symbols} (h : s.Reachable naming) :
    s.Named := by
  induction h
  case new             => exact fun f hf => absurd hf (by simp)
  case enter name _ hi => exact hi.enter name
  case leave hi        => exact hi.leave
  case openBlock hi    => exact hi.openBlock
  case closeBlock hi   => exact hi.closeBlock
  case use usage ident _ hi =>
    cases usage
    case declare   => exact (hi.declare ident).right
    case parameter => exact (hi.declareParameter ident).right
    case resolve   => exact (hi.resolve ident).right

namespace Generator.Orderly

variable {naming : Naming} {g g' : Generator}

theorem of_reachable (hp : g.pool.Reachable) (hs : g.symbols.Reachable naming) : g.Orderly :=
  ⟨hp.sound, hp.outstanding_le_peak, hs.named⟩

theorem of_settled (h : g.Settled naming) : g.Orderly where
  pool    := h.pool.sound
  peak    := h.pool.outstanding_eq ▸ Nat.zero_le _
  symbols := h.symbols ▸ Symbols.Reachable.new.named

theorem congr (h : g.Orderly) (hp : g'.pool = g.pool) (hs : g'.symbols = g.symbols) : g'.Orderly :=
  ⟨hp ▸ h.pool, hp ▸ h.peak, hs ▸ h.symbols⟩

theorem lent (h : g.Orderly) {i : Nat} (hi : g.pool.borrow.fst = .temp i) :
    ¬g.pool.Borrowed i ∧ g.lending.pool.Borrowed i ∧ ∀ j, g.pool.Borrowed j →
      g.lending.pool.Borrowed j := by
  obtain ⟨j, hj, hn, -, hb⟩ := h.pool.borrow
  obtain rfl : j = i := Register.temp.inj (hj.symm.trans hi)
  exact ⟨hn, (hb j).mpr (.inr rfl), fun k hk => (hb k).mpr (.inl hk)⟩

end Generator.Orderly

namespace Lower

-- The register in which an action leaves a value.
def Call.target? : Call → Option Register
  | job j               => some j.target
  | operation _ _ _ dst => some dst.target
  | printing _ dst      => some dst
  | calling _ dst       => some dst
  | _                   => none

-- An action is begun with a temporary as its target only while the temporary is in use.
structure Begun (a : Call × Generator) : Prop where
  orderly : a.snd.Orderly
  held    : ∀ i, a.fst.target? = some (.temp i) → a.snd.pool.Borrowed i

section

variable {a b : Call × Generator} {g g' : Generator}

-- What an action leaves, if it succeeds.
theorem Spends.leaves {α : Type} {x : Lower α} {n : Nat} {dsts : List Register} {r : α}
    (hx : Spends n dsts x) (h : x g = .ok r g') (hg : g.Orderly) :
    g'.Orderly ∧ ∀ i, g.pool.Borrowed i → g'.pool.Borrowed i := by
  have hs := hx g r g' hg h
  exact ⟨hs.orderly, fun i hi => (hs.borrowed i).mpr hi⟩

theorem Starts.begun (h : Starts a b) (ha : Begun a) : Begun b := by
  obtain ⟨hg, hh⟩ := ha
  have hn {n demand dst} := (spends_node n).left demand dst
  have ha {ns t} := spends_pushArguments (fun (n : Node) (_ : n ∈ ns) => (spends_node n).left) t
  have ht {ns} : Spends _ [] (withTemp (pushArguments ns)) := .withTemp fun _ => ha
  cases h
  case assignment     => exact ⟨hg.congr rfl rfl, by rintro _ ⟨⟩⟩
  case value target _ _ _ _ _ h =>
    obtain ⟨⟨x, rfl⟩, hs⟩ := Finds.assignmentTarget target _ _ _ hg h
    exact ⟨hs.orderly, by rintro _ ⟨⟩⟩
  case operation      => exact ⟨hg.congr rfl rfl, hh⟩
  case left           => exact ⟨hg.lending, fun i hi => (hg.lent (Option.some.inj hi)).right.left⟩
  case right h        =>
    obtain ⟨hg', hb⟩ := hn.leaves h hg.lending
    obtain ⟨j, hj, -⟩ := hg.pool.borrow
    exact ⟨hg', fun i hi => hb i ((hg.lent hj).right.right i (hh i hi))⟩
  case arguments =>
    exact ⟨hg.lending.congr rfl rfl, fun i hi => (hg.lent (Option.some.inj hi)).right.left⟩
  case printing h | calling h =>
    obtain ⟨hg', hb⟩ := ht.leaves h (hg.congr rfl rfl)
    exact ⟨hg', fun i hi => hb i (hh i hi)⟩
  case body params _ _ _ _ _ _ _ h =>
    have hp :=
      (spends_popParameters [] params.children).leaves h ⟨hg.pool, hg.peak, hg.symbols.enter _⟩
    exact ⟨hp.left, by rintro _ ⟨⟩⟩
  case statements     => exact ⟨⟨hg.pool, hg.peak, hg.symbols.openBlock⟩, by rintro _ ⟨⟩⟩
  case values =>
    exact ⟨hg.lending.congr rfl rfl, fun i hi => (hg.lent (Option.some.inj hi)).right.left⟩
  case conditional | loop => exact ⟨hg.congr rfl rfl, by rintro _ ⟨⟩⟩
  case ifCondition | whileCondition =>
    exact ⟨hg.lending.congr rfl rfl, fun i hi => (hg.lent (Option.some.inj hi)).right.left⟩
  case ifBody h | whileBody h =>
    exact ⟨(hn.leaves h (hg.lending.congr rfl rfl)).left.congr rfl rfl, by rintro _ ⟨⟩⟩
  case first          => exact ⟨hg, hh⟩
  case rest h         =>
    obtain ⟨hg', hb⟩ := hn.leaves h hg
    exact ⟨hg', fun i hi => hb i (hh i hi)⟩
  case later          => exact ⟨hg, hh⟩
  case argument h     =>
    obtain ⟨hg', hb⟩ := ha.leaves h hg
    exact ⟨hg', fun i hi => hb i (hh i hi)⟩

theorem begun_of_starts (h : Relation.ReflTransGen Starts a b) (ha : Begun a) : Begun b := by
  induction h
  case refl        => exact ha
  case tail _ h hi => exact h.begun hi

-- The right operand may go where the result goes, because that is not where the left one waits.
theorem operation_spares {token : Token} {lhs rhs : Node} {dst : Destination}
    (ha : Begun (.operation token lhs rhs dst, g))
    (h : (Call.operation token lhs rhs dst).run g = .ok () g') :
    ∃ op t gl gr, ∃ left right : List Instruction, Operator.ofSymbol? token.text = some op ∧
      g.pool.borrow.fst = .temp t ∧
      lower lhs .any (.register (.temp t)) g.lending = .ok () gl ∧
      lower rhs .any dst gl = .ok () gr ∧
      gl.code = g.code ++ left.toArray ∧ gr.code = gl.code ++ right.toArray ∧
      g'.code = gr.code.push (.binary op (.temp t) dst.target dst.target) ∧
      ∀ i ∈ right, i.written? ≠ some (.temp t) := by
  obtain ⟨hg, hh⟩ := ha
  cases ho : Operator.ofSymbol? token.text <;> simp only [Call.run, ho] at h
  case none    => contradiction
  case some op =>
    obtain ⟨t, ht, -⟩ := hg.pool.borrow
    obtain ⟨hn, hb, -⟩ := hg.lent ht
    obtain ⟨g₁, pool, h₁, -, rfl⟩ := withTemp_eq_ok h
    rw [ht] at h₁
    obtain ⟨_, gl, hl, h₁⟩ := bind_eq_ok h₁
    obtain ⟨_, gr, hr, h₁⟩ := bind_eq_ok h₁
    cases h₁
    have hsl := (spends_node lhs).left _ _ _ _ _ hg.lending hl
    have hsr := (spends_node rhs).left _ _ _ _ _ hsl.orderly hr
    obtain ⟨left, hcl, -⟩ := hsl.code
    obtain ⟨right, hcr, hw⟩ := hsr.code
    refine ⟨op, t, gl, gr, left, right, rfl, ht, hl, hr, hcl, hcr, rfl, fun i hi hi' => ?_⟩
    rcases hw i hi (.temp t) hi' with hd | ⟨x, hx⟩ | ⟨j, hj, hj'⟩
    · exact hn (hh t (congrArg some (List.mem_singleton.mp hd).symm))
    · contradiction
    · cases hj
      exact hj' ((hsl.borrowed t).mpr hb)

end

-- No temporary that is in use is written, save the one that the value is wanted in. In the code of
-- a definition, the left operand of an operation therefore stays in its temporary until the
-- operation reads it.
theorem lower_spares :
    (∀ {naming : Naming} {g g' : Generator} {n : Node} {demand : Demand} {dst : Destination},
      g.pool.Reachable → g.symbols.Reachable naming → lower n demand dst g = .ok () g' →
      ∃ code : List Instruction, g'.code = g.code ++ code.toArray ∧
        ∀ i ∈ code, ∀ r, i.written? = some r →
        r = dst.target ∨ (∃ x, r = .named x) ∨ ∃ j, r = .temp j ∧ ¬g.pool.Borrowed j) ∧
    ∀ {naming : Naming} {g g' g₁ : Generator} {name : String} {node lhs rhs : Node} {token : Token}
      {dst : Destination}
      {code : List Instruction}, g.Reachable naming → generate name node g = .ok code g' →
      Relation.ReflTransGen Starts (.job (.node node .value (.register (.named name))), g)
        (.operation token lhs rhs dst, g₁) →
      ∃ op t gl gr, ∃ before left right after : List Instruction,
        Operator.ofSymbol? token.text = some op ∧
        g₁.pool.borrow.fst = .temp t ∧ lower lhs .any (.register (.temp t)) g₁.lending = .ok () gl ∧
        lower rhs .any dst gl = .ok () gr ∧ g₁.code.toList = before ∧
        gl.code.toList = before ++ left ∧
        gr.code.toList = before ++ left ++ right ∧
        code = before ++ left ++ right ++ .binary op (.temp t) dst.target dst.target :: after ∧
        ∀ i ∈ right, i.written? ≠ some (.temp t) := by
  constructor
  · intro naming g g' n demand dst hp hs h
    obtain ⟨code, hc, hw⟩ := ((spends_node n).left demand dst g () g' (.of_reachable hp hs) h).code
    exact ⟨code, hc, fun i hi r hr => (hw i hi r hr).imp_left List.mem_singleton.mp⟩
  · intro naming g g' g₁ name node lhs rhs token dst code hg h hs
    obtain ⟨-, g₂, hl, rfl⟩ := generate_eq_ok h
    have hb : Begun (.operation token lhs rhs dst, g₁) :=
      begun_of_starts hs ⟨.of_settled hg.settled, by rintro _ ⟨⟩⟩
    obtain ⟨-, g₃, h₃, after, ha⟩ := succeeds_of_starts hs hg.settled.pool hl
    obtain ⟨op, t, gl, gr, left, right, ho, ht, h₁, h₂, hcl, hcr, hc, hw⟩ := operation_spares hb h₃
    refine ⟨op, t, gl, gr, g₁.code.toList, left, right, after, ho, ht, h₁, h₂, rfl, ?_, ?_, ?_, hw⟩
    · simp [hcl]
    · simp [hcr, hcl]
    · simp [ha, hc, hcr, hcl]

-- There is a call in the right operand of the right operand. First a temporary has come back before
-- the one in use, and then the result of the sum is to be returned.
theorem lower_spares_call :
    let difference := Node.infixOp "-" (.ident "y") (.number "1")
    let sum        := Node.infixOp "+" (.ident "x")
      (.infixOp "*" (.ident "y") (.call "f" [difference]))
    let g          : Generator := { pool := ⟨2, [0], 2⟩, symbols := { naming := .verbatim } }
    (∃ g', lower sum .any (.register (.temp 1)) g = .ok () g' ∧ ∃ code : List Instruction,
      g'.code = code.toArray ∧
      ∀ i ∈ code, ∀ r, i.written? = some r → r = .temp 1 ∨ (∃ x, r = .named x) ∨ ∃ j, r = .temp j ∧
        ¬g.pool.Borrowed j) ∧
    ∃ code g', generate "main" (Node.function ["x", "y"] (.returns [sum])) (.new .scoped)
      = .ok code g' ∧
      ∃ before left right after : List Instruction,
        code = before ++ left ++ right ++ .binary .add (.temp 1) (.temp 0) (.temp 0) :: after ∧
        ∀ i ∈ right, i.written? ≠ some (.temp 1) := by
  intro difference sum g
  constructor
  · have hp : g.pool.Reachable := .release (r := .temp 0) (.borrow (.borrow .new)) rfl
    have hs : g.symbols.Reachable .verbatim := .new
    obtain ⟨g', hl⟩ := exists_of_final? (f := lower sum .any (.register (.temp 1))) (g := g)
      (by decide +kernel)
    obtain ⟨code, hc, hw⟩ := lower_spares.left hp hs hl
    exact ⟨g', hl, code, by simpa [g] using hc, hw⟩
  · have hg : ∃ code g', generate "main" (Node.function ["x", "y"] (.returns [sum])) (.new .scoped)
        = .ok code g' :=
      generate_of_final? rfl (by decide +kernel)
    obtain ⟨code, g', hg⟩ := hg
    obtain ⟨op, t, gl, gr, before, left, right, after, ho, ht, -, -, -, -, -, hc, hw⟩ :=
      lower_spares.right .new hg
      (.head (.body rfl rfl) <| .head .values <| .head .first <|
        .head (.operation (by decide)) .refl)
    cases ho
    cases ht
    exact ⟨code, g', hg, before, left, right, after, hc, hw⟩

end Lower
end LineCode

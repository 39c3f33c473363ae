import LineCode.Lowering.Lower
import LineCode.Proofs.Pool

namespace LineCode

-- What lowering one node leaves for the next, besides code.
@[ext]
structure Stage where
  issued  : Nat
  symbols : Symbols

namespace Stage

-- The label that is issued next.
def label (s : Stage) : Label := .numbered s.issued

def issue (s : Stage) : Stage := { s with issued := s.issued + 1 }

def withSymbols (s : Stage) (symbols : Symbols) : Stage := { s with symbols := symbols }

end Stage

namespace Generator

def stage (g : Generator) : Stage := ⟨g.labels.issued, g.symbols⟩

-- The generator after some code has been emitted. The trail is back to what it was.
def after (g : Generator) (pool : Pool) (code : List Instruction) (s : Stage) : Generator where
  pool    := pool
  labels  := ⟨s.issued⟩
  symbols := s.symbols
  code    := g.code ++ code.toArray
  trail   := g.trail

@[simp]
theorem after_stage (g : Generator) (pool : Pool) (code : List Instruction) (s : Stage) :
    (g.after pool code s).stage = s :=
  rfl

@[simp]
theorem after_pool (g : Generator) (pool : Pool) (code : List Instruction) (s : Stage) :
    (g.after pool code s).pool = pool :=
  rfl

@[simp]
theorem after_after (g : Generator) (pool₁ pool₂ : Pool) (code₁ code₂ : List Instruction)
    (s₁ s₂ : Stage) :
    (g.after pool₁ code₁ s₁).after pool₂ code₂ s₂ = g.after pool₂ (code₁ ++ code₂) s₂ := by
  simp [after]

end Generator

namespace Lower

variable {α β : Type}

-- An action succeeds exactly with the results, code and stages that a relation allows, whatever
-- else the generator holds, and leaves the same temporaries in use.
structure Realizes (f : Lower α) (d : Nat) (s : Stage) (R : α → List Instruction → Stage → Prop) :
    Prop where
  sound {g : Generator} {a : α} {g' : Generator} :
    g.stage = s → g.pool.Stacked d → f g = .ok a g' →
      ∃ pool code s', pool.Stacked d ∧ g' = g.after pool code s' ∧ R a code s'
  complete {g : Generator} {a : α} {code : List Instruction} {s' : Stage} :
    g.stage = s → g.pool.Stacked d → R a code s' →
      ∃ pool, pool.Stacked d ∧ f g = .ok a (g.after pool code s')

namespace Realizes

variable {d : Nat} {s : Stage} {f : Lower α} {R R' : α → List Instruction → Stage → Prop}

theorem congr (h : Realizes f d s R) (hr : ∀ a code s', R a code s' ↔ R' a code s') :
    Realizes f d s R' := by
  have : R = R' := by
    ext a code s'
    exact hr a code s'
  exact this ▸ h

-- An action that changes nothing but the stage and emits nothing but the given code.
theorem of_eq {a : α} {code : List Instruction} {s' : Stage}
    (h : ∀ g : Generator, g.stage = s → f g = .ok a (g.after g.pool code s')) :
    Realizes f d s fun b c t => b = a ∧ t = s' ∧ c = code where
  sound hs hp hf := by
    rw [h _ hs] at hf
    injection hf with ha hg
    exact ⟨_, _, _, hp, hg.symm, ha.symm, rfl, rfl⟩
  complete hs hp hr := by
    obtain ⟨rfl, rfl, rfl⟩ := hr
    exact ⟨_, hp, h _ hs⟩

theorem of_error (h : ∀ g : Generator, ∃ e, f g = .error e g) :
    Realizes f d s fun _ _ _ => False where
  sound {g _ _} _ _ hf := by
    have ⟨_, he⟩ := h g
    rw [he] at hf
    contradiction
  complete _ _ hr := hr.elim

theorem pure (a : α) : Realizes (Pure.pure a) d s fun b c t => b = a ∧ t = s ∧ c = [] :=
  of_eq <| by rintro g rfl; simp [Generator.after, Generator.stage, pure_apply]

theorem emit (i : Instruction) : Realizes (emit i) d s fun _ c t => t = s ∧ c = [i] :=
  have h : ∀ g : Generator, g.stage = s → Lower.emit i g = .ok () (g.after g.pool [i] s) := by
    rintro g rfl
    simp [Generator.after, Generator.stage, emit_apply]
  (of_eq h).congr <| by simp

theorem bind {k : α → Lower β} {S : α → Stage → β → List Instruction → Stage → Prop}
    (hf : Realizes f d s R) (hk : ∀ a s', Realizes (k a) d s' (S a s')) :
    Realizes (f >>= k) d s fun b c t =>
      ∃ a c₁ s₁ c₂, R a c₁ s₁ ∧ S a s₁ b c₂ t ∧ c = c₁ ++ c₂ where
  sound {g b g'} hs hp h := by
    rw [bind_apply] at h
    cases hg : f g with
    | error e g₁ => simp [hg] at h
    | ok a g₁ =>
      rw [hg] at h
      have ⟨pool₁, c₁, s₁, hp₁, hg₁, hr⟩ := hf.sound hs hp hg
      subst hg₁
      have ⟨pool₂, c₂, s₂, hp₂, hg₂, hr'⟩ := (hk a s₁).sound (by simp) (by simpa using hp₁) h
      exact ⟨pool₂, c₁ ++ c₂, s₂, hp₂, by simpa using hg₂, a, c₁, s₁, c₂, hr, hr', rfl⟩
  complete {g b c t} hs hp h := by
    obtain ⟨a, c₁, s₁, c₂, hr, hr', rfl⟩ := h
    have ⟨pool₁, hp₁, hg₁⟩ := hf.complete hs hp hr
    have ⟨pool₂, hp₂, hg₂⟩ :=
      (hk a s₁).complete (g := g.after pool₁ c₁ s₁) (by simp) (by simpa using hp₁) hr'
    refine ⟨pool₂, hp₂, ?_⟩
    rw [bind_apply, hg₁]
    simpa using hg₂

theorem withTemp {f : Register → Lower α} (hf : Realizes (f (.temp d)) (d + 1) s R) :
    Realizes (withTemp f) d s R where
  sound {g a g'} hs hp h := by
    have ⟨ht, hp'⟩ := hp.borrow
    rw [withTemp_apply, ht] at h
    cases hg : f (.temp d) { g with pool := g.pool.borrow.snd } with
    | error e g₁ =>
      rw [hg] at h
      cases hr : g₁.pool.release (.temp d) <;> simp [hr] at h
    | ok a' g₁ =>
      rw [hg] at h
      have ⟨pool, c, t, hq, hg', hr⟩ := hf.sound (by exact hs) (by exact hp') hg
      have ⟨pool', hrel, hp'⟩ := hq.release
      subst hg'
      simp only [Generator.after_pool, hrel] at h
      injection h with ha hg'
      exact ⟨pool', c, t, hp', hg'.symm, ha ▸ hr⟩
  complete {g a c t} hs hp hr := by
    have ⟨ht, hp'⟩ := hp.borrow
    have ⟨pool, hq, hg⟩ :=
      hf.complete (g := { g with pool := g.pool.borrow.snd }) (by exact hs) (by exact hp') hr
    have ⟨pool', hrel, hp'⟩ := hq.release
    refine ⟨pool', hp', ?_⟩
    simp only [withTemp_apply, ht, hg, Generator.after_pool, hrel]
    rfl

theorem within {construct : String} (hf : Realizes f d s R) :
    Realizes (within construct f) d s R where
  sound {g a g'} hs hp h := by
    rw [within_apply] at h
    cases hg : f { g with trail := construct :: g.trail } with
    | error e g₁ => simp [hg] at h
    | ok a' g₁ =>
      have ⟨pool, c, t, hp', hg', hr⟩ := hf.sound (by exact hs) (by exact hp) hg
      subst hg'
      rw [hg] at h
      injection h with ha hg'
      exact ⟨pool, c, t, hp', hg'.symm, ha ▸ hr⟩
  complete {g a c t} hs hp hr := by
    have ⟨pool, hp', hg⟩ :=
      hf.complete (g := { g with trail := construct :: g.trail }) (by exact hs) (by exact hp) hr
    refine ⟨pool, hp', ?_⟩
    rw [within_apply, hg]
    rfl

-- Blocks and definitions change the symbols before an action and after it.
theorem bracket {f' : Lower α} (before after : Symbols → Symbols)
    (hf : Realizes f d (s.withSymbols (before s.symbols)) R)
    (ha : ∀ g : Generator, f' g =
      match f { g with symbols := before g.symbols } with
      | .ok a g    => .ok a { g with symbols := after g.symbols }
      | .error e g => .error e { g with symbols := after g.symbols }) :
    Realizes f' d s fun a c t => ∃ t', R a c t' ∧ t = t'.withSymbols (after t'.symbols) where
  sound {g a g'} hs hp h := by
    subst hs
    rw [ha] at h
    cases hg : f { g with symbols := before g.symbols } with
    | error e g₁ => simp [hg] at h
    | ok a' g₁ =>
      have ⟨pool, c, t, hp', hg', hr⟩ := hf.sound (by rfl) (by exact hp) hg
      subst hg'
      rw [hg] at h
      injection h with ha hg'
      exact ⟨pool, c, t.withSymbols (after t.symbols), hp', hg'.symm, t, ha ▸ hr, rfl⟩
  complete {g a c t} hs hp hr := by
    subst hs
    obtain ⟨t', hr, rfl⟩ := hr
    have ⟨pool, hp', hg⟩ :=
      hf.complete (g := { g with symbols := before g.symbols }) (by rfl) (by exact hp) hr
    refine ⟨pool, hp', ?_⟩
    rw [ha, hg]
    rfl

theorem inBlock (hf : Realizes f d (s.withSymbols s.symbols.openBlock) R) :
    Realizes (inBlock f) d s fun a c t => ∃ t', R a c t' ∧
      t = t'.withSymbols t'.symbols.closeBlock :=
  bracket Symbols.openBlock Symbols.closeBlock hf <| inBlock_apply f

theorem inDefinition {name : String} (hf : Realizes f d (s.withSymbols (s.symbols.enter name)) R) :
    Realizes (inDefinition name f) d s fun a c t =>
      ∃ t', R a c t' ∧ t = t'.withSymbols t'.symbols.leave :=
  bracket (Symbols.enter · name) Symbols.leave hf <| inDefinition_apply name f

theorem lookup (f : Symbols → Register × Symbols) :
    Realizes (lookup f) d s fun r c t =>
      r = (f s.symbols).fst ∧ t = s.withSymbols (f s.symbols).snd ∧ c = [] :=
  of_eq <| by
    rintro g rfl
    simp [lookup_apply, Generator.after, Generator.stage, Stage.withSymbols]

theorem reject {span : Span} {cause : Cause} :
    Realizes (reject span cause : Lower α) d s fun _ _ _ => False :=
  of_error fun _ => ⟨_, rfl⟩

theorem seq {f k : Lower Unit} {R : List Instruction → Stage → Prop}
    {S : Stage → List Instruction → Stage → Prop} (hf : Realizes f d s fun _ => R)
    (hk : ∀ s', Realizes k d s' fun _ => S s') :
    Realizes (f >>= fun _ => k) d s fun _ c t => ∃ c₁ s₁ c₂, R c₁ s₁ ∧ S s₁ c₂ t ∧ c = c₁ ++ c₂ :=
  hf.bind (fun _ => hk) |>.congr <| by simp

-- A fixed piece of code, a label or a register, followed by an action.
theorem emitThen {k : Lower α} (hk : Realizes k d s R) (i : Instruction) :
    Realizes (Lower.emit i >>= fun _ => k) d s fun b c t => ∃ c', R b c' t ∧ c = i :: c' where
  sound hs hp hg := by
    rw [bind_apply, emit_apply] at hg
    have ⟨pool, c, t, hp', hg', hr⟩ := hk.sound (by exact hs) (by exact hp) hg
    refine ⟨pool, i :: c, t, hp', ?_, c, hr, rfl⟩
    simpa [Generator.after] using hg'
  complete {g a c t} hs hp hr := by
    obtain ⟨c', hr, rfl⟩ := hr
    have ⟨pool, hp', hg⟩ :=
      hk.complete (g := { g with code := g.code.push i }) (by exact hs) (by exact hp) hr
    refine ⟨pool, hp', ?_⟩
    rw [bind_apply, emit_apply]
    simpa [Generator.after] using hg

theorem freshLabelThen {k : Label → Lower α} (hk : Realizes (k s.label) d s.issue R) :
    Realizes (Lower.freshLabel >>= k) d s R where
  sound {g a g'} hs hp hg := by
    subst hs
    exact hk.sound (g := { g with labels := ⟨g.labels.issued + 1⟩ }) (by rfl) (by exact hp) hg
  complete {g a c t} hs hp hr := by
    subst hs
    have ⟨pool, hp', hg⟩ :=
      hk.complete (g := { g with labels := ⟨g.labels.issued + 1⟩ }) (by rfl) (by exact hp) hr
    exact ⟨pool, hp', hg⟩

theorem lookupThen {f : Symbols → Register × Symbols} {k : Register → Lower α}
    (hk : Realizes (k (f s.symbols).fst) d (s.withSymbols (f s.symbols).snd) R) :
    Realizes (Lower.lookup f >>= k) d s R where
  sound {g a g'} hs hp hg := by
    subst hs
    exact hk.sound (g := { g with symbols := (f g.symbols).snd }) (by rfl) (by exact hp) hg
  complete {g a c t} hs hp hr := by
    subst hs
    have ⟨pool, hp', hg⟩ :=
      hk.complete (g := { g with symbols := (f g.symbols).snd }) (by rfl) (by exact hp) hr
    exact ⟨pool, hp', hg⟩

-- An action followed by a fixed instruction.
theorem emitAfter {f : Lower Unit} {R : List Instruction → Stage → Prop}
    (hf : Realizes f d s fun _ => R) (i : Instruction) :
    Realizes (f >>= fun _ => Lower.emit i) d s fun _ c t => ∃ c₁, R c₁ t ∧ c = c₁ ++ [i] :=
  hf.seq (fun s' => emit i) |>.congr <| by grind

end Realizes

variable {d : Nat} {s : Stage}

theorem realizes_outputPopped (t : Register) (n : Nat) :
    Realizes (outputPopped t n) d s fun _ c s' =>
      s' = s ∧ c = (List.replicate n [.pop t, .out t]).flatten := by
  induction n generalizing s
  case zero => exact Realizes.pure () |>.congr <| by simp
  case succ n hi =>
    exact hi.emitThen _ |>.emitThen _ |>.congr <| by simp [List.replicate_succ]

-- What a call of `print` emits once its arguments are on the stack.
def printCode (t : Register) (count : Nat) (dst : Register) : List Instruction :=
  (List.replicate count [.pop t, .out t]).flatten ++ [.load "0" t, .move t dst]

theorem mem_printCode {t dst : Register} {n : Nat} {i : Instruction} (h : i ∈ printCode t n dst) :
    i = .pop t ∨ i = .out t ∨ i = .load "0" t ∨ i = .move t dst := by
  induction n
  case zero => simp_all [printCode]
  case succ n hi =>
    have hc : printCode t (n + 1) dst = [.pop t, .out t] ++ printCode t n dst := by
      simp [printCode, List.replicate_succ]
    rw [hc, List.mem_append] at h
    cases h
    case inl h =>
      obtain rfl | rfl : i = .pop t ∨ i = .out t := by simpa using h
      all_goals simp
    case inr h => exact hi h

theorem realizes_printArguments (n : Nat) (dst : Register) :
    Realizes (printArguments n dst) d s fun _ c s' => s' = s ∧ c = printCode (.temp d) n dst := by
  apply Realizes.withTemp
  exact realizes_outputPopped _ _ |>.seq (fun _ => Realizes.emit _ |>.emitThen _) |>.congr <| by
    simp [printCode]

theorem realizes_callVariable (callee : String) (dst : Register) :
    Realizes (callVariable callee dst) d s fun _ c s' =>
      s' = s.withSymbols (s.symbols.resolve callee).snd ∧
        c = [.callValue (s.symbols.resolve callee).fst, .pop (.temp d), .move (.temp d) dst] := by
  refine Realizes.lookupThen
    (Realizes.withTemp (Realizes.emit _ |>.emitThen _) |>.emitThen _) |>.congr ?_
  simp

-- The registers of the parameters of a definition, in order.
def parameterSlots : List Node → Symbols → List Register
  | [], _           => []
  | p :: ps, symbols =>
    (symbols.declareParameter p.text).fst :: parameterSlots ps (symbols.declareParameter p.text).snd

def parameterSymbols : List Node → Symbols → Symbols
  | [], symbols      => symbols
  | p :: ps, symbols => parameterSymbols ps (symbols.declareParameter p.text).snd

theorem realizes_popParameters (ps : List Node) :
    Realizes (popParameters ps) d s fun _ c s' =>
      (∀ p ∈ ps, p.kind = .identifier) ∧ s' = s.withSymbols (parameterSymbols ps s.symbols) ∧
        c = (parameterSlots ps s.symbols).map .pop := by
  induction ps generalizing s
  case nil =>
    exact Realizes.pure () |>.congr <| by simp [parameterSlots, parameterSymbols, Stage.withSymbols]
  case cons p ps hi =>
    by_cases hp : p.kind = .identifier
    case pos =>
      simp only [popParameters, hp, if_true]
      refine Realizes.lookupThen (hi.emitThen _) |>.congr ?_
      simp [parameterSlots, parameterSymbols, Stage.withSymbols, hp, and_assoc]
    case neg =>
      simp only [popParameters, hp, if_false]
      refine Realizes.reject |>.seq (fun _ => hi) |>.congr ?_
      simp [hp]

-- The register that an assignment writes, and the symbols afterwards.
def assigned? (target : Node) (symbols : Symbols) : Option (Register × Symbols) :=
  match target.kind with
  | .identifier => some (symbols.resolve target.text)
  | .letBinding => target.children.head?.map fun name => symbols.declare name.text
  | _           => none

theorem realizes_assignmentTarget (target : Node) :
    Realizes (assignmentTarget target) d s fun r c s' =>
      ∃ symbols, assigned? target s.symbols = some (r, symbols) ∧ s' = s.withSymbols symbols ∧
        c = [] := by
  obtain ⟨kind, token, children⟩ := target
  cases kind
  case identifier =>
    refine Realizes.lookup (·.resolve token.text) |>.congr fun r c s' => ?_
    simp [assigned?, Prod.ext_iff, Node.text]
    grind
  case letBinding =>
    cases children
    case nil  => exact Realizes.reject |>.congr <| by simp [assigned?]
    case cons name rest =>
      refine Realizes.lookup (·.declare name.text) |>.congr fun r c s' => ?_
      simp [assigned?, Prod.ext_iff]
      grind
  all_goals exact Realizes.reject |>.congr <| by simp [assigned?]

end Lower
end LineCode

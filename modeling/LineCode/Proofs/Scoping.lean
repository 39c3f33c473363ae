import LineCode.Proofs.Slots

namespace LineCode

-- The ways in which a definition comes by a variable.
inductive Usage where
  | declare | parameter | resolve
  deriving DecidableEq

def Frame.use (f : Frame) (usage : Usage) (ident : String) : Register × Frame :=
  match usage with
  | .declare   => (f.nextSlot ident, f.bindInner ident)
  | .parameter => (f.nextSlot ident, f.bindOuter ident)
  | .resolve   =>
    match f.lookup? ident with
    | some r => (r, f)
    | none   => (f.nextSlot ident, f.bindOuter ident)

def Symbols.use (s : Symbols) (usage : Usage) (ident : String) : Register × Symbols :=
  match usage with
  | .declare   => s.declare ident
  | .parameter => s.declareParameter ident
  | .resolve   => s.resolve ident

theorem Frame.use_name (f : Frame) (usage : Usage) (ident : String) :
    (f.use usage ident).snd.name = f.name := by
  cases usage
  case declare   => exact f.bindInner_name ident
  case parameter => rfl
  case resolve   => unfold use; cases f.lookup? ident <;> rfl

theorem Symbols.use_eq {s : Symbols} {f : Frame} {fs : List Frame} (hn : s.naming = .scoped)
    (hf : s.frames = f :: fs) (usage : Usage) (ident : String) :
    s.use usage ident = ((f.use usage ident).fst,
      { s with frames := (f.use usage ident).snd :: fs }) := by
  obtain ⟨naming, frames⟩ := s
  subst hn hf
  cases usage <;> rfl

-- Lexical scoping by itself: a variable is known by the number of its binding.
namespace Lexical

abbrev Scope := String → Option Nat

-- An open definition. Definitions are numbered, because names may repeat.
structure Frame where
  number : Nat
  name   : String
  outer  : Scope := fun _ => none
  blocks : List Scope := []

namespace Frame

def lookup? (f : Frame) (ident : String) : Option Nat := (f.blocks ++ [f.outer]).findSome? (· ident)

def bindOuter (f : Frame) (ident : String) (id : Nat) : Frame :=
  { f with outer := Function.update f.outer ident (some id) }

def bindInner (f : Frame) (ident : String) (id : Nat) : Frame :=
  match f.blocks with
  | []              => f.bindOuter ident id
  | scope :: blocks => { f with blocks := Function.update scope ident (some id) :: blocks }

def openBlock (f : Frame) : Frame := { f with blocks := (fun _ => none) :: f.blocks }

def closeBlock (f : Frame) : Frame := { f with blocks := f.blocks.tail }

def use (f : Frame) (fresh : Nat) (usage : Usage) (ident : String) : Nat × Frame :=
  match usage with
  | .declare   => (fresh, f.bindInner ident fresh)
  | .parameter => (fresh, f.bindOuter ident fresh)
  | .resolve   =>
    match f.lookup? ident with
    | some id => (id, f)
    | none    => (fresh, f.bindOuter ident fresh)

theorem bindInner_same (f : Frame) (ident : String) (id : Nat) :
    (f.bindInner ident id).number = f.number ∧ (f.bindInner ident id).name = f.name := by
  unfold bindInner
  split <;> exact ⟨rfl, rfl⟩

theorem use_same (f : Frame) (fresh : Nat) (usage : Usage) (ident : String) :
    (f.use fresh usage ident).snd.number = f.number ∧
      (f.use fresh usage ident).snd.name = f.name := by
  cases usage
  case declare   => exact f.bindInner_same ident fresh
  case parameter => exact ⟨rfl, rfl⟩
  case resolve   => unfold use; cases f.lookup? ident <;> exact ⟨rfl, rfl⟩

end Frame

-- The open definitions, innermost first, and how many definitions and bindings have been numbered.
structure Table where
  frames  : List Frame := []
  entered : Nat := 0
  issued  : Nat := 0

namespace Table

def enter (t : Table) (name : String) : Table :=
  { t with frames := { number := t.entered, name } :: t.frames, entered := t.entered + 1 }

def leave (t : Table) : Table := { t with frames := t.frames.tail }

def modifyFrame (t : Table) (f : Frame → Frame) : Table :=
  match t.frames with
  | []              => t
  | frame :: frames => { t with frames := f frame :: frames }

end Table
end Lexical

inductive Request where
  | enter (name : String)
  | leave
  | openBlock
  | closeBlock
  | use (usage : Usage) (ident : String)

-- What a definition was answered when it used an identifier, with symbols and by lexical scoping.
structure Reply where
  frame    : Nat
  name     : String
  register : Register
  binding  : Nat
  deriving DecidableEq

-- Symbols and a table that are asked the same, and all replies.
structure Session where
  symbols : Symbols := { naming := .scoped }
  table   : Lexical.Table := {}
  replies : List Reply := []

namespace Session

def serve (s : Session) : Request → Session
  | .enter name      => { s with symbols := s.symbols.enter name, table := s.table.enter name }
  | .leave           => { s with symbols := s.symbols.leave, table := s.table.leave }
  | .openBlock =>
    { s with symbols := s.symbols.openBlock, table := s.table.modifyFrame .openBlock }
  | .closeBlock =>
    { s with symbols := s.symbols.closeBlock, table := s.table.modifyFrame .closeBlock }
  | .use usage ident =>
    let (register, symbols) := s.symbols.use usage ident
    match s.table.frames with
    | []              => { s with symbols }
    | frame :: frames =>
      let (binding, frame') := frame.use s.table.issued usage ident
      { symbols
        table   := { s.table with frames := frame' :: frames, issued := s.table.issued + 1 }
        replies := { frame := frame.number, name := frame.name, register, binding } :: s.replies }

def run (requests : List Request) : Session := requests.foldl serve {}

theorem serve_use (f : Frame) (fs : List Frame) (a : Lexical.Frame) (as : List Lexical.Frame)
    (entered issued : Nat) (replies : List Reply) (usage : Usage) (ident : String) :
    serve ⟨⟨.scoped, f :: fs⟩, ⟨a :: as, entered, issued⟩, replies⟩ (.use usage ident) =
      ⟨⟨.scoped, (f.use usage ident).snd :: fs⟩,
        ⟨(a.use issued usage ident).snd :: as, entered, issued + 1⟩,
        ⟨a.number, a.name, (f.use usage ident).fst, (a.use issued usage ident).fst⟩ ::
          replies⟩ := by
  have hs : Symbols.use ⟨.scoped, f :: fs⟩ usage ident = _ := Symbols.use_eq rfl rfl usage ident
  simp only [serve, hs]

end Session

section

variable {R R' : Register → Nat → Prop}

-- Both kinds of scope bind the same identifiers, to related things.
def Scope.Agrees (R : Register → Nat → Prop) (scope : Scope) (scope' : Lexical.Scope) : Prop :=
  ∀ ident, Option.Rel R (scope.lookup ident) (scope' ident)

namespace Scope.Agrees

variable {scope : Scope} {scope' : Lexical.Scope}

theorem mono (h : Scope.Agrees R scope scope') (hr : ∀ r id, R r id → R' r id) :
    Scope.Agrees R' scope scope' := by
  intro ident
  match scope.lookup ident, scope' ident, h ident with
  | _, _, .some h => exact .some (hr _ _ h)
  | _, _, .none   => exact .none

theorem insert (h : Scope.Agrees R scope scope') {r : Register} {id : Nat} (hr : R r id)
    (ident : String) :
    Scope.Agrees R ((ident, r) :: scope) (Function.update scope' ident (some id)) := by
  intro ident'
  by_cases hi : ident' = ident
  case pos => simpa [hi] using Option.Rel.some hr
  case neg => simpa [List.lookup_cons, beq_false_of_ne hi, hi] using h ident'

theorem lookup {scopes : List Scope} {scopes' : List Lexical.Scope}
    (h : List.Forall₂ (Scope.Agrees R) scopes scopes') (ident : String) :
    Option.Rel R (scopes.findSome? (·.lookup ident)) (scopes'.findSome? (· ident)) := by
  induction h
  case nil => exact .none
  case cons scope scope' _ _ h _ hi =>
    rw [List.findSome?_cons, List.findSome?_cons]
    match scope.lookup ident, scope' ident, h ident with
    | _, _, .some hr => exact .some hr
    | _, _, .none    => exact hi

end Scope.Agrees

structure Frame.Agrees (R : Register → Nat → Prop) (f : Frame) (a : Lexical.Frame) : Prop where
  outer  : Scope.Agrees R f.outer a.outer
  blocks : List.Forall₂ (Scope.Agrees R) f.blocks a.blocks

namespace Frame.Agrees

variable {f : Frame} {a : Lexical.Frame} {ident : String}

theorem mono (h : f.Agrees R a) (hr : ∀ r id, R r id → R' r id) : f.Agrees R' a where
  outer  := h.outer.mono hr
  blocks := h.blocks.imp fun _ _ hs => hs.mono hr

theorem empty (name name' : String) (number : Nat) :
    Agrees R { name } { number, name := name' } where
  outer _ := .none
  blocks  := .nil

theorem lookup (h : f.Agrees R a) (ident : String) :
    Option.Rel R (f.lookup? ident) (a.lookup? ident) :=
  Scope.Agrees.lookup (List.rel_append h.blocks (.cons h.outer .nil)) ident

theorem bindOuter (h : f.Agrees R a) {id : Nat} (hr : R (f.nextSlot ident) id) :
    (f.bindOuter ident).Agrees R (a.bindOuter ident id) where
  outer  := h.outer.insert hr ident
  blocks := h.blocks

theorem bindInner (h : f.Agrees R a) {id : Nat} (hr : R (f.nextSlot ident) id) :
    (f.bindInner ident).Agrees R (a.bindInner ident id) := by
  unfold Frame.bindInner Lexical.Frame.bindInner
  match f.blocks, a.blocks, h.blocks with
  | _, _, .nil        => exact h.bindOuter hr
  | _, _, .cons hs hb => exact ⟨h.outer, .cons (hs.insert hr ident) hb⟩

theorem openBlock (h : f.Agrees R a) : f.openBlock.Agrees R a.openBlock where
  outer  := h.outer
  blocks := .cons (fun _ => .none) h.blocks

theorem closeBlock (h : f.Agrees R a) : f.closeBlock.Agrees R a.closeBlock where
  outer  := h.outer
  blocks := by
    unfold Frame.closeBlock Lexical.Frame.closeBlock
    match f.blocks, a.blocks, h.blocks with
    | _, _, .nil       => exact .nil
    | _, _, .cons _ hb => exact hb

-- An identifier is used: either both sides find it, or both make a new binding.
theorem use (h : f.Agrees R a) (fresh : Nat) (usage : Usage) (ident : String) :
    (R (f.use usage ident).fst (a.use fresh usage ident).fst ∧ (f.use usage ident).snd = f ∧
      (a.use fresh usage ident).snd = a) ∨
    ((f.use usage ident).fst = f.nextSlot ident ∧ (a.use fresh usage ident).fst = fresh ∧
      (f.use usage ident).snd.slots = ident :: f.slots ∧
      ∀ R', (∀ r id, R r id → R' r id) → R' (f.nextSlot ident) fresh →
        (f.use usage ident).snd.Agrees R' (a.use fresh usage ident).snd) := by
  cases usage
  case declare =>
    exact .inr ⟨rfl, rfl, f.bindInner_slots ident, fun _ hr hn => (h.mono hr).bindInner hn⟩
  case parameter =>
    exact .inr ⟨rfl, rfl, rfl, fun _ hr hn => (h.mono hr).bindOuter hn⟩
  case resolve =>
    unfold Frame.use Lexical.Frame.use
    match f.lookup? ident, a.lookup? ident, h.lookup ident with
    | _, _, .some hr => exact .inl ⟨hr, rfl, rfl⟩
    | _, _, .none    => exact .inr ⟨rfl, rfl, rfl, fun _ hr hn => (h.mono hr).bindOuter hn⟩

end Frame.Agrees

end

-- A register and a binding that stand for each other in a definition.
def Answered (replies : List Reply) (number : Nat) (r : Register) (id : Nat) : Prop :=
  ∃ a ∈ replies, a.frame = number ∧ a.register = r ∧ a.binding = id

theorem Answered.mono {replies : List Reply} {number : Nat} (new : Reply) (r : Register) (id : Nat)
    (h : Answered replies number r id) : Answered (new :: replies) number r id := by
  obtain ⟨a, ha, h⟩ := h
  exact ⟨a, List.mem_cons_of_mem new ha, h⟩

-- A frame of each kind for the same definition. All that was answered to it are slots made before.
structure Depicts (replies : List Reply) (f : Frame) (a : Lexical.Frame) : Prop where
  name   : a.name = f.name
  scopes : f.Agrees (Answered replies a.number) a
  slots  : ∀ b ∈ replies, b.frame = a.number →
    ∃ ident n, '.' ∉ ident.toList ∧ n < f.slots.count ident ∧ b.register = f.slot ident n

namespace Depicts

variable {replies : List Reply} {f : Frame} {a : Lexical.Frame} {new : Reply}

theorem other (h : Depicts replies f a) (hn : new.frame ≠ a.number) :
    Depicts (new :: replies) f a where
  name   := h.name
  scopes := h.scopes.mono (Answered.mono new)
  slots  := List.forall_mem_cons.mpr ⟨fun he => absurd he hn, h.slots⟩

theorem known (h : Depicts replies f a) (hk : Answered replies a.number new.register new.binding) :
    Depicts (new :: replies) f a where
  name   := h.name
  scopes := h.scopes.mono (Answered.mono new)
  slots  := by
    obtain ⟨b, hb, hf, hr, _⟩ := hk
    exact List.forall_mem_cons.mpr ⟨fun _ => hr ▸ h.slots b hb hf, h.slots⟩

-- A slot that is made now has not been answered before.
theorem register_ne {b : Reply} {ident : String} (h : Depicts replies f a) (hb : b ∈ replies)
    (he : b.frame = a.number) (hi : '.' ∉ ident.toList) : b.register ≠ f.nextSlot ident := by
  intro hr
  obtain ⟨ident', n, hd, hn, hs⟩ := h.slots b hb he
  obtain ⟨rfl, rfl⟩ := Frame.slot_inj hd hi (hs.symm.trans hr)
  exact Nat.lt_irrefl _ hn

theorem fresh {f' : Frame} {a' : Lexical.Frame} {ident : String} (h : Depicts replies f a)
    (hs : f'.Agrees (Answered (new :: replies) a.number) a') (hi : '.' ∉ ident.toList)
    (hr : new.register = f.nextSlot ident) (hf : f'.name = f.name)
    (hl : f'.slots = ident :: f.slots) (ha : a'.number = a.number) (hn : a'.name = a.name) :
    Depicts (new :: replies) f' a' where
  name   := by rw [hn, hf, h.name]
  scopes := ha ▸ hs
  slots  := by
    rw [ha, hl, Frame.slot_congr hf]
    refine List.forall_mem_cons.mpr ⟨fun _ => ⟨ident, f.slots.count ident, hi, by simp, hr⟩,
      fun b hb he => ?_⟩
    obtain ⟨ident', n, hd, hn, hr⟩ := h.slots b hb he
    exact ⟨ident', n, hd, Nat.lt_of_lt_of_le hn List.count_le_count_cons, hr⟩

end Depicts

namespace Session

structure Sound (s : Session) : Prop where
  naming  : s.symbols.naming = .scoped
  frames  : List.Forall₂ (Depicts s.replies) s.symbols.frames s.table.frames
  numbers : (s.table.frames.map (·.number)).Nodup
  entered : ∀ a ∈ s.table.frames, a.number < s.table.entered
  replies : ∀ b ∈ s.replies, b.frame < s.table.entered ∧ b.binding < s.table.issued ∧
    b.register.Under b.name
  one     : ∀ b ∈ s.replies, ∀ c ∈ s.replies, b.frame = c.frame →
    (b.register = c.register ↔ b.binding = c.binding)

theorem sound_new : Sound {} where
  naming  := rfl
  frames  := .nil
  numbers := .nil
  entered := by simp
  replies := by simp
  one     := by simp

namespace Sound

variable {s : Session}

theorem enter (h : s.Sound) (name : String) : (s.serve (.enter name)).Sound where
  naming  := h.naming
  frames  := by
    refine .cons ⟨rfl, .empty .., fun b hb he => ?_⟩ h.frames
    exact absurd he (Nat.ne_of_lt (h.replies b hb).left)
  numbers := by
    refine List.nodup_cons.mpr ⟨fun hm => ?_, h.numbers⟩
    obtain ⟨a, ha, he⟩ := List.mem_map.mp hm
    exact absurd he (Nat.ne_of_lt (h.entered a ha))
  entered :=
    List.forall_mem_cons.mpr ⟨Nat.lt_succ_self _, fun a ha => Nat.lt_succ_of_lt (h.entered a ha)⟩
  replies b hb := ⟨Nat.lt_succ_of_lt (h.replies b hb).left, (h.replies b hb).right⟩
  one     := h.one

theorem leave (h : s.Sound) : (s.serve .leave).Sound := by
  obtain ⟨⟨naming, frames⟩, ⟨frames', entered, issued⟩, replies⟩ := s
  obtain ⟨hn, hf, hd, he, hr, ho⟩ := h
  cases hf
  case nil       => exact ⟨hn, .nil, hd, he, hr, ho⟩
  case cons _ hf => exact ⟨hn, hf, hd.of_cons, fun a ha => he a (List.mem_cons_of_mem _ ha), hr, ho⟩

-- Opening and closing a block only changes the innermost frames.
theorem modifyFrame (h : s.Sound) {m : Frame → Frame} {m' : Lexical.Frame → Lexical.Frame}
    (hm : ∀ f a, Depicts s.replies f a → Depicts s.replies (m f) (m' a))
    (hn : ∀ a, (m' a).number = a.number) :
    Sound { s with symbols := s.symbols.modifyFrame m, table := s.table.modifyFrame m' } := by
  obtain ⟨⟨naming, frames⟩, ⟨frames', entered, issued⟩, replies⟩ := s
  obtain ⟨hs, hf, hd, he, hr, ho⟩ := h
  cases hf
  case nil => exact ⟨hs, .nil, hd, he, hr, ho⟩
  case cons f a _ _ hf hfs =>
    refine ⟨hs, .cons (hm f a hf) hfs, ?_, ?_, hr, ho⟩
    · simpa [Lexical.Table.modifyFrame, hn] using hd
    · simpa [Lexical.Table.modifyFrame, hn] using he

variable {f f' : Frame} {fs : List Frame} {a a' : Lexical.Frame} {as : List Lexical.Frame}
  {entered issued : Nat} {replies : List Reply}

-- The innermost definition is answered, with a register and a binding that are both new to it or
-- both known.
theorem answer (h : Sound ⟨⟨.scoped, f :: fs⟩, ⟨a :: as, entered, issued⟩, replies⟩) {new : Reply}
    (hf : new.frame = a.number) (hn : new.name = a'.name) (hd : Depicts (new :: replies) f' a')
    (ha : a'.number = a.number) (hb : new.binding ≤ issued)
    (ho : ∀ b ∈ replies, b.frame = a.number →
      (b.register = new.register ↔ b.binding = new.binding)) :
    Sound ⟨⟨.scoped, f' :: fs⟩, ⟨a' :: as, entered, issued + 1⟩, new :: replies⟩ where
  naming  := rfl
  frames  := by
    obtain ⟨_, hfs⟩ := List.forall₂_cons.mp h.frames
    obtain ⟨hm, _⟩ := List.nodup_cons.mp h.numbers
    refine .cons hd ?_
    refine (List.forall₂_iff_zip.mp hfs).elim fun hl hz =>
      List.forall₂_iff_zip.mpr ⟨hl, fun {g b} hg => ?_⟩
    have hb : b ∈ as := (List.of_mem_zip hg).right
    exact (hz hg).other fun he => hm (List.mem_map.mpr ⟨b, hb, by rw [← he, hf]⟩)
  numbers := by simpa [ha] using h.numbers
  entered := by simpa [ha] using h.entered
  replies := by
    have hr := h.replies
    refine List.forall_mem_cons.mpr
      ⟨⟨?_, ?_, ?_⟩, fun b hb => ⟨(hr b hb).left, ?_, (hr b hb).right.right⟩⟩
    · exact hf ▸ h.entered a List.mem_cons_self
    · exact Nat.lt_succ_of_le hb
    · obtain ⟨ident, n, _, _, hr⟩ := hd.slots new List.mem_cons_self (hf.trans ha.symm)
      rw [hr, hn, hd.name]
      exact f'.slot_under ident n
    · exact Nat.lt_succ_of_lt (hr b hb).right.left
  one     := by
    have hn : ∀ b ∈ replies, b.frame = new.frame →
        (b.register = new.register ↔ b.binding = new.binding) :=
      fun b hb he => ho b hb (he.trans hf)
    simp only [List.forall_mem_cons]
    refine ⟨⟨by simp, fun b hb he => ?_⟩, fun b hb => ⟨hn b hb, h.one b hb⟩⟩
    rw [eq_comm, hn b hb he.symm, eq_comm]

theorem use (h : s.Sound) (usage : Usage) {ident : String} (hi : '.' ∉ ident.toList) :
    (s.serve (.use usage ident)).Sound := by
  obtain ⟨⟨naming, frames⟩, ⟨frames', entered, issued⟩, replies⟩ := s
  obtain rfl : naming = .scoped := h.naming
  match frames, frames', h.frames with
  | _, _, .nil => cases usage <;> exact h
  | f :: fs, a :: as, .cons hf _ =>
    obtain ⟨hm, hn⟩ := a.use_same issued usage ident
    rw [serve_use]
    rcases hf.scopes.use issued usage ident with ⟨hk, hf', ha'⟩ | ⟨hr, hb, hl, hs⟩
    case inl =>
      rw [hf', ha']
      obtain ⟨b, hb, he, hr, hi⟩ := id hk
      refine h.answer rfl rfl (hf.known hk) rfl ?_ fun c hc hce => ?_
      · exact hi ▸ Nat.le_of_lt (h.replies b hb).right.left
      · exact hr ▸ hi ▸ h.one c hc b hb (hce.trans he.symm)
    case inr =>
      refine h.answer rfl hn.symm
        (hf.fresh (hs _ (Answered.mono _) ?_) hi hr (f.use_name usage ident) hl hm hn) hm ?_ ?_
      · exact ⟨_, List.mem_cons_self, rfl, hr, hb⟩
      · exact Nat.le_of_eq hb
      · intro b hm he
        have hl : b.binding < issued := (h.replies b hm).right.left
        simp only [hr, hb, hf.register_ne hm he hi, Nat.ne_of_lt hl]

end Sound

theorem Sound.serve {s : Session} (h : s.Sound) {request : Request}
    (hr : ∀ usage ident, request = .use usage ident → '.' ∉ ident.toList) :
    (s.serve request).Sound := by
  cases request
  case enter name      => exact h.enter name
  case leave           => exact h.leave
  case openBlock =>
    exact h.modifyFrame (fun _ _ hd => ⟨hd.name, hd.scopes.openBlock, hd.slots⟩) fun _ => rfl
  case closeBlock =>
    exact h.modifyFrame (fun _ _ hd => ⟨hd.name, hd.scopes.closeBlock, hd.slots⟩) fun _ => rfl
  case use usage ident => exact h.use usage (hr usage ident rfl)

theorem Sound.foldl {s : Session} (h : s.Sound) {requests : List Request}
    (hr : ∀ usage ident, .use usage ident ∈ requests → '.' ∉ ident.toList) :
    (requests.foldl Session.serve s).Sound := by
  induction requests generalizing s
  case nil => exact h
  case cons request requests hi =>
    have hs := h.serve fun usage ident he => hr usage ident (he ▸ List.mem_cons_self)
    exact hi hs fun usage ident hm => hr usage ident (List.mem_cons_of_mem _ hm)

-- Symbols tell the variables of a definition apart exactly as lexical scoping does, and never mix
-- up those of definitions with different names.
theorem run_refines {requests : List Request}
    (hr : ∀ usage ident, .use usage ident ∈ requests → '.' ∉ ident.toList) :
    ∀ b ∈ (run requests).replies, ∀ c ∈ (run requests).replies,
      (b.frame = c.frame → (b.register = c.register ↔ b.binding = c.binding)) ∧
      (b.name ≠ c.name → '.' ∉ b.name.toList → '.' ∉ c.name.toList → b.register ≠ c.register) := by
  have hs : (run requests).Sound := sound_new.foldl hr
  intro b hb c hc
  refine ⟨hs.one b hb c hc, fun hn hdb hdc he => hn ?_⟩
  have hub : b.register.Under b.name := (hs.replies b hb).right.right
  have huc : c.register.Under c.name := (hs.replies c hc).right.right
  exact hub.unique (he ▸ huc) hdb hdc

-- A variable is shadowed in a block, in which another definition has a variable of the same name.
theorem run_refines_shadowing :
    let requests : List Request := [.enter "main", .use .declare "x", .openBlock, .use .declare "x",
      .enter "f",
      .use .parameter "x", .leave, .use .resolve "x", .closeBlock, .use .resolve "x"]
    (run requests).replies = [⟨0, "main", .named "main.x", 0⟩, ⟨0, "main", .named "main.x.1", 1⟩,
      ⟨1, "f", .named "f.x", 2⟩, ⟨0, "main", .named "main.x.1", 1⟩,
      ⟨0, "main", .named "main.x", 0⟩] ∧
    ∀ b ∈ (run requests).replies, ∀ c ∈ (run requests).replies,
      (b.frame = c.frame → (b.register = c.register ↔ b.binding = c.binding)) ∧
      (b.name ≠ c.name → '.' ∉ b.name.toList → '.' ∉ c.name.toList → b.register ≠ c.register) := by
  intro requests
  refine ⟨by decide +kernel, run_refines fun usage ident hm => ?_⟩
  obtain rfl : ident = "x" := by simp [requests] at hm; tauto
  decide

end Session

end LineCode

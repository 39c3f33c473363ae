import LineCode.Register

namespace LineCode

-- An identifier is its own register in every definition, or each definition has registers of its
-- own, which its blocks may shadow.
inductive Naming where
  | verbatim
  | scoped
  deriving DecidableEq

abbrev Scope := List (String × Register)

-- The scope of a whole definition, the scopes of the blocks that are open in it with the innermost
-- first, and the identifiers for which a slot was made, once per slot.
@[ext]
structure Frame where
  name   : String
  outer  : Scope := []
  blocks : List Scope := []
  slots  : List String := []
  deriving DecidableEq

namespace Frame

def lookup? (f : Frame) (ident : String) : Option Register :=
  (f.blocks ++ [f.outer]).findSome? (·.lookup ident)

def slot (f : Frame) (ident : String) : (n : Nat) → Register
  | 0     => .named (f.name ++ "." ++ ident)
  | n + 1 => .named (f.name ++ "." ++ ident ++ "." ++ toString (n + 1))

def nextSlot (f : Frame) (ident : String) : Register := f.slot ident (f.slots.count ident)

def bindOuter (f : Frame) (ident : String) : Frame :=
  { f with outer := (ident, f.nextSlot ident) :: f.outer, slots := ident :: f.slots }

def bindInner (f : Frame) (ident : String) : Frame :=
  match f.blocks with
  | []              => f.bindOuter ident
  | scope :: blocks =>
    { f with blocks := ((ident, f.nextSlot ident) :: scope) :: blocks, slots := ident :: f.slots }

def openBlock (f : Frame) : Frame := { f with blocks := [] :: f.blocks }

def closeBlock (f : Frame) : Frame := { f with blocks := f.blocks.tail }

@[simp]
theorem closeBlock_openBlock (f : Frame) : f.openBlock.closeBlock = f :=
  rfl

end Frame

@[ext]
structure Symbols where
  naming : Naming := .verbatim
  frames : List Frame := []
  deriving DecidableEq

namespace Symbols

def depth (s : Symbols) : Nat := s.frames.length

def enter (s : Symbols) (name : String) : Symbols := { s with frames := { name } :: s.frames }

def leave (s : Symbols) : Symbols := { s with frames := s.frames.tail }

@[simp]
theorem leave_enter (s : Symbols) (name : String) : (s.enter name).leave = s :=
  rfl

def modifyFrame (s : Symbols) (f : Frame → Frame) : Symbols :=
  match s.frames with
  | []              => s
  | frame :: frames => { s with frames := f frame :: frames }

def openBlock (s : Symbols) : Symbols := s.modifyFrame Frame.openBlock

def closeBlock (s : Symbols) : Symbols := s.modifyFrame Frame.closeBlock

-- An identifier is its own register unless naming is scoped and a definition is open, in which case
-- the innermost frame decides.
def inFrame (s : Symbols) (ident : String) (f : Frame → Register × Frame) : Register × Symbols :=
  match s.naming, s.frames with
  | .scoped, frame :: frames =>
    let (r, frame) := f frame
    (r, { s with frames := frame :: frames })
  | _, _ => (.named ident, s)

def declare (s : Symbols) (ident : String) : Register × Symbols :=
  s.inFrame ident fun f => (f.nextSlot ident, f.bindInner ident)

def declareParameter (s : Symbols) (ident : String) : Register × Symbols :=
  s.inFrame ident fun f => (f.nextSlot ident, f.bindOuter ident)

-- A variable that was never seen in the definition is made in its scope.
def resolve (s : Symbols) (ident : String) : Register × Symbols :=
  s.inFrame ident fun f =>
    match f.lookup? ident with
    | some r => (r, f)
    | none   => (f.nextSlot ident, f.bindOuter ident)

theorem inFrame_verbatim {s : Symbols} (h : s.naming = .verbatim) (ident : String)
    (f : Frame → Register × Frame) : s.inFrame ident f = (.named ident, s) := by
  simp [inFrame, h]

theorem resolve_verbatim {s : Symbols} (h : s.naming = .verbatim) (ident : String) :
    s.resolve ident = (.named ident, s) :=
  inFrame_verbatim h ..

theorem inFrame_naming (s : Symbols) (ident : String) (f : Frame → Register × Frame) :
    (s.inFrame ident f).snd.naming = s.naming := by
  unfold inFrame
  split <;> rfl

theorem inFrame_depth (s : Symbols) (ident : String) (f : Frame → Register × Frame) :
    (s.inFrame ident f).snd.depth = s.depth := by
  unfold inFrame
  split <;> simp_all [depth]

end Symbols
end LineCode

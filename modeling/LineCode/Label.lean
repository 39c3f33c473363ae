namespace LineCode

@[ext]
structure Label where
  name : String
  deriving DecidableEq

namespace Label

def numbered (n : Nat) : Label := ⟨"L" ++ toString n⟩

def function (ref : String) : Label := ⟨"fn" ++ ref⟩

def operand (l : Label) : String := "&" ++ l.name

@[ext]
structure Supply where
  issued : Nat := 0
  deriving DecidableEq

def Supply.next (s : Supply) : Label × Supply := (numbered s.issued, ⟨s.issued + 1⟩)

@[simp]
theorem Supply.next_fst (s : Supply) : s.next.fst = numbered s.issued :=
  rfl

@[simp]
theorem Supply.next_issued (s : Supply) : s.next.snd.issued = s.issued + 1 :=
  rfl

end Label
end LineCode

namespace LineCode.Text

-- The characters with the Unicode property `White_Space`.
def isBlank (c : Char) : Bool :=
  let n := c.toNat
  (0x9 ≤ n && n ≤ 0xd) || n == 0x20 || n == 0x85 || n == 0xa0 || n == 0x1680 ||
    (0x2000 ≤ n && n ≤ 0x200a) || n == 0x2028 || n == 0x2029 || n == 0x202f || n == 0x205f ||
    n == 0x3000

theorem isBlank_of_isWhitespace {c : Char} (h : c.isWhitespace) : isBlank c := by
  simp only [Char.isWhitespace, Bool.or_eq_true, decide_eq_true_eq] at h
  rcases h with ((rfl | rfl) | rfl) | rfl <;> decide

def Solid (cs : List Char) : Prop := ∀ c ∈ cs, isBlank c = false

instance (cs : List Char) : Decidable (Solid cs) :=
  List.decidableBAll (isBlank · = false) cs

end LineCode.Text

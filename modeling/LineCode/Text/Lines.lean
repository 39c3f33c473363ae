namespace LineCode.Text

-- A line ends at a line feed, or at a carriage return with a line feed behind it, neither of which
-- belongs to the line. What follows the last end is a line only if it is not empty.
def lines : List Char → List (List Char)
  | []                 => []
  | '\n' :: cs         => [] :: lines cs
  | '\r' :: '\n' :: cs => [] :: lines cs
  | c :: cs            =>
    match lines cs with
    | []      => [[c]]
    | l :: ls => (c :: l) :: ls

@[simp]
theorem lines_nil : lines [] = [] :=
  rfl

@[simp]
theorem lines_newline (cs : List Char) : lines ('\n' :: cs) = [] :: lines cs := by
  simp [lines]

theorem lines_append_newline {l : List Char} (hn : '\n' ∉ l) (hr : l.getLast? ≠ some '\r')
    (cs : List Char) : lines (l ++ '\n' :: cs) = l :: lines cs := by
  induction l with
  | nil => simp
  | cons c l ih =>
    simp only [List.mem_cons, not_or] at hn
    have hl : l.getLast? ≠ some '\r' := by
      cases l with
      | nil => simp
      | cons d l => simpa [List.getLast?_cons_cons] using hr
    have hc : ∀ ds, l ++ '\n' :: cs = '\n' :: ds → c ≠ '\r' := by
      intro ds h hc
      cases l with
      | nil => simp [hc] at hr
      | cons d l =>
        simp only [List.cons_append, List.cons.injEq] at h
        simp [h.left] at hn
    rw [List.cons_append, lines, ih hn.right hl]
    · exact fun h => hn.left h.symm
    · intro ds hc' h
      exact hc ds h hc'

end LineCode.Text

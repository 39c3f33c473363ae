import LineCode.Text.Blank

namespace LineCode.Text

-- The word with which a text starts, empty if it starts with a blank, and the words after it.
def splitWords : List Char → List Char × List (List Char)
  | []      => ([], [])
  | c :: cs =>
    let (w, ws) := splitWords cs
    if isBlank c then ([], if w.isEmpty then ws else w :: ws) else (c :: w, ws)

def words (cs : List Char) : List (List Char) :=
  let (w, ws) := splitWords cs
  if w.isEmpty then ws else w :: ws

@[simp]
theorem words_nil : words [] = [] :=
  rfl

theorem words_blank_cons {c : Char} (h : isBlank c) (cs : List Char) :
    words (c :: cs) = words cs := by
  simp [words, splitWords, h]

theorem splitWords_append {w : List Char} (h : Solid w) (cs : List Char) :
    splitWords (w ++ cs) = (w ++ (splitWords cs).fst, (splitWords cs).snd) := by
  induction w with
  | nil => simp
  | cons c w ih =>
    simp [splitWords, h c, ih fun d hd => h d (List.mem_cons_of_mem c hd)]

theorem words_append_blank {w : List Char} (hw : Solid w) (hn : w ≠ []) {c : Char} (hc : isBlank c)
    (cs : List Char) : words (w ++ c :: cs) = w :: words cs := by
  simp [words, splitWords_append hw, splitWords, hc, hn]

theorem words_of_solid {w : List Char} (hw : Solid w) (hn : w ≠ []) : words w = [w] := by
  have h := splitWords_append hw []
  simp only [List.append_nil, splitWords] at h
  simp [words, h, hn]

def trim (cs : List Char) : List Char :=
  ((cs.dropWhile isBlank).reverse.dropWhile isBlank).reverse

end LineCode.Text

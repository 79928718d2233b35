import ZoneDiagram.Dbm.Basic

/-!
# Text of a matrix

Every row stands in brackets on a line of its own, its bounds aligned to the right and one space
apart. A matrix that is marked empty reads `[empty]`.
-/

namespace ZoneDiagram.Dbm

/-- The width of a column. -/
def columnWidth : Nat := 7

/-- A bound, padded on the left to the width of a column. -/
def cellText (b : Bound) : String := "".pushn ' ' (columnWidth - b.text.length) ++ b.text

/-- The matrix, one row a line. -/
def text (m : Dbm) : String :=
  if m.isEmpty then "[empty]"
  else String.join (m.rows.map fun row => "[" ++ String.intercalate " " (row.map cellText) ++ "]\n")

/-- The matrix behind its dimension. -/
def describe (m : Dbm) : String := s!"Dbm(dim = {m.dim}) " ++ m.text

instance : ToString Dbm := ⟨text⟩

end ZoneDiagram.Dbm

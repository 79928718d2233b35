import ZoneDiagram.Manager.Basic

/-!
# Diagrams in brackets

The text of a diagram as nested lists of its edges. A shared node is written out wherever it is
met.
-/

namespace ZoneDiagram.Manager

/-- The text of a diagram whose paths visit fewer nodes than `depth`. -/
def bracketWithin (m : Manager) : Nat → Handle → Except Error String
  | 0, _ => throw .tooDeep
  | depth + 1, f =>
    if f = .zero then return "(0)"
    else if f = .one then return "(1)"
    else do
      let pair ← m.pair f
      let edges ← (← m.edges f).mapM fun e => do
        return e.upper.text ++ ": " ++ (← m.bracketWithin depth e.item)
      return f.text ++ ":(" ++ pair.text ++ ", [" ++ String.intercalate ", " edges ++ "])"

/-- The text of a diagram. -/
def bracket (m : Manager) (f : Handle) : Except Error String := m.bracketWithin m.depth f

end ZoneDiagram.Manager

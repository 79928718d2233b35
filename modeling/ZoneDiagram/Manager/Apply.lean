import ZoneDiagram.Manager.Basic

/-!
# Combining diagrams

Two diagrams are combined from the top level of both downwards. Their cuts on that level are
refined to common intervals, and on every interval the children are combined. A diagram that does
not test the level keeps its place on all of them.

Paths that no valuation takes are kept.
-/

namespace ZoneDiagram.Manager

/-- The edges of a diagram as seen from a level: its own if it tests that level, and otherwise one
edge to itself. -/
def cofactors (m : Manager) (f : Handle) (level : Nat) : Except Error (CutList Handle) := do
  if (← m.level f) = level then m.edges f else return CutList.whole f

/-- The top level of two diagrams, and their children on the common intervals of that level. -/
def refine (m : Manager) (f g : Handle) : Except Error (Nat × CutList (Handle × Handle)) := do
  let level := min (← m.level f) (← m.level g)
  return (level, ← CutList.refine (← m.cofactors f level) (← m.cofactors g level))

/-- Combine two diagrams whose paths visit fewer nodes than `depth`. -/
def applyWithin (op : Connective) : Nat → Handle → Handle → ManagerM Handle
  | 0, _, _ => throw .tooDeep
  | depth + 1, f, g => do
    match op.shortcut f g with
    | some result => return result
    | none =>
      let (f, g) := f.ordered g
      match ← remembered? (.apply op f g) with
      | some result => return result
      | none =>
        let (level, pieces) ← query (·.refine f g)
        let edges ← pieces.mapM fun p => do
          return ⟨← applyWithin op depth p.item.1 p.item.2, p.upper⟩
        let result ← mkNode level edges
        remember (.apply op f g) result
        return result

/-- Combine two diagrams. -/
def apply (op : Connective) (f g : Handle) : ManagerM Handle := do
  applyWithin op (← get).depth f g

/-- The valuations of `f` that are not valuations of `g`. -/
def diff (f g : Handle) : ManagerM Handle := apply .and f (-g)

end ZoneDiagram.Manager

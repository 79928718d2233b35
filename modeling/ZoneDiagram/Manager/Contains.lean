import ZoneDiagram.Manager.Reduce

/-!
# Containment of a zone

A zone lies in a federation if every path that it admits ends in the full federation.
-/

namespace ZoneDiagram.Manager

/-- The visits that were answered before. -/
abbrev ContainsMemo := Std.TreeMap Visit Bool

/-- Every branch passes a test; the first that fails decides. -/
def allBranches (test : Handle → Dbm → StateT ContainsMemo (Except Error) Bool) :
    CutList (Handle × Dbm) → StateT ContainsMemo (Except Error) Bool
  | [] => return true
  | p :: ps => do
    let sub ← (p.item.2.inhabited? : Except Error Dbm)
    if ← test p.item.1 sub then allBranches test ps else return false

/-- The context lies in the federation of a diagram. -/
def containsWithin (m : Manager) :
    Nat → Handle → Dbm → StateT ContainsMemo (Except Error) Bool
  | 0, _, _ => throw .tooDeep
  | depth + 1, f, ctx => do
    if f = .one then return true
    if f = .zero then return false
    match (← get)[(⟨f, ctx⟩ : Visit)]? with
    | some result => return result
    | none =>
      let pair ← (m.pair f : Except Error ClockPair)
      let edges ← (m.edges f : Except Error (CutList Handle))
      let branches := ctx.feasible pair (fun _ => true) none edges
      let result ← allBranches (m.containsWithin depth) branches
      modify (·.insert ⟨f, ctx⟩ result)
      return result

/-- The zone of a matrix lies in the federation of a diagram. Clocks that the matrix does not have
are unconstrained; an empty zone lies in every federation. -/
def contains (m : Manager) (f : Handle) (zone : Dbm) : Except Error Bool := do
  m.checkDim zone.dim
  match zone.close with
  | (_, false) => return true
  | (closed, true) =>
    let (result, _) ← (m.containsWithin m.depth f (closed.extended m.dim m.dim_pos)).run ∅
    return result

end ZoneDiagram.Manager

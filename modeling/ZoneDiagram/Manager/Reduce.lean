import Std.Data.TreeMap
import ZoneDiagram.Manager.Apply
import ZoneDiagram.Manager.Build
import ZoneDiagram.Dbm.Feasible

/-!
# Reduction

A node is reduced together with its context, the closed matrix of the constraints collected on the
way down to it. Edges that the context does not admit are absorbed by the admitted neighbour, edges
to the same reduced child are merged, and nodes with a single edge disappear. So the node that
results is right inside of the context only.

Combining and reducing are done in one pass by `applyReduce`, which reduces the combination without
building it first.
-/

namespace ZoneDiagram

/-- A diagram met in a context. -/
structure Visit where
  diagram : Handle
  context : Dbm
  deriving DecidableEq

namespace Visit

instance : Ord Visit := ⟨compareLex (compareOn diagram) (compareOn context)⟩

instance : Std.TransOrd Visit :=
  inferInstanceAs (Std.TransCmp (compareLex (compareOn diagram) (compareOn context)))

instance : Std.LawfulEqOrd Visit where
  eq_of_compare {v w} h := by
    obtain ⟨hd, hc⟩ := Ordering.then_eq_eq.1 h
    cases v
    cases w
    exact (mk.injEq ..).mpr ⟨Std.LawfulEqOrd.eq_of_compare hd, Std.LawfulEqOrd.eq_of_compare hc⟩

end Visit

/-- Two diagrams met in a context. -/
structure PairVisit where
  left : Handle
  right : Handle
  context : Dbm
  deriving DecidableEq

namespace PairVisit

instance : Ord PairVisit :=
  ⟨compareLex (compareOn left) (compareLex (compareOn right) (compareOn context))⟩

instance : Std.TransOrd PairVisit :=
  inferInstanceAs
    (Std.TransCmp (compareLex (compareOn left) (compareLex (compareOn right) (compareOn context))))

instance : Std.LawfulEqOrd PairVisit where
  eq_of_compare {v w} h := by
    obtain ⟨hl, h⟩ := Ordering.then_eq_eq.1 h
    obtain ⟨hr, hc⟩ := Ordering.then_eq_eq.1 h
    cases v
    cases w
    exact (mk.injEq ..).mpr ⟨Std.LawfulEqOrd.eq_of_compare hl, Std.LawfulEqOrd.eq_of_compare hr,
      Std.LawfulEqOrd.eq_of_compare hc⟩

end PairVisit

/-- The reduced diagrams of a pass. -/
abbrev ReduceMemo := Std.TreeMap Visit Handle

/-- The combined and the reduced diagrams of a pass. -/
structure ApplyMemo where
  applied : Std.TreeMap PairVisit Handle := ∅
  reduced : ReduceMemo := ∅

namespace Manager

/-- The context without constraints, over all clocks. -/
def openContext (m : Manager) : Dbm := .unconstrained m.dim m.dim_pos

/-- The node on a level from the pieces that a context admits. Each gives a child by its item and
the context on its interval, and the last one takes the rest of the line. -/
def reducePieces {σ α : Type} (level : Nat) (ctx : Dbm) (pieces : CutList α)
    (child : α → Dbm → StateT σ ManagerM Handle) : StateT σ ManagerM Handle := do
  let pair ← (ClockPair.ofLevel level : ManagerM ClockPair)
  let run := ctx.feasibleRun pair none pieces
  if run.isEmpty then throw (.noFeasibleEdge pair)
  let edges ← run.mapM fun p => do
    let sub ← (p.item.2.inhabited? : ManagerM Dbm)
    return ⟨← child p.item.1 sub, p.upper⟩
  mkNode level (CutList.stretch edges)

/-! ## Reducing a diagram -/

/-- Reduce a diagram in a context. The complement of a diagram reduces to the complement. -/
def reduceWithin : Nat → Handle → Dbm → StateT ReduceMemo ManagerM Handle
  | 0, _, _ => throw .tooDeep
  | depth + 1, f, ctx => do
    if f.isTerminal then return f
    let root := f.regular
    match (← get)[(⟨root, ctx⟩ : Visit)]? with
    | some result => return f.applySign result
    | none =>
      let node ← query (·.node root)
      let result ← reducePieces node.level ctx node.edges (reduceWithin depth)
      modify (·.insert ⟨root, ctx⟩ result)
      return f.applySign result

/-- A diagram of the same federation whose paths are all taken by some valuation. -/
def reduce (f : Handle) : ManagerM Handle := do
  if f.isTerminal then return f
  match ← remembered? (.reduce f) with
  | some result => return result
  | none =>
    let m ← get
    let (depth, ctx) := (m.depth, m.openContext)
    let (result, _) ← (reduceWithin depth f ctx).run ∅
    remember (.reduce f) result
    return result

/-! ## Combining and reducing in one pass -/

/-- Reduce a diagram inside of a pass that also combines. -/
def reduceIn (depth : Nat) (f : Handle) (ctx : Dbm) : StateT ApplyMemo ManagerM Handle :=
  fun memo => do
    let (result, reduced) ← (reduceWithin depth f ctx).run memo.reduced
    return (result, { memo with reduced })

/-- Combine two diagrams in a context and reduce the result. -/
def applyReduceWithin (op : Connective) :
    Nat → Handle × Handle → Dbm → StateT ApplyMemo ManagerM Handle
  | 0, _, _ => throw .tooDeep
  | depth + 1, (f, g), ctx => do
    match op.shortcut f g with
    | some result => reduceIn (depth + 1) result ctx
    | none =>
      let (f, g) := f.ordered g
      match (← get).applied[(⟨f, g, ctx⟩ : PairVisit)]? with
      | some result => return result
      | none =>
        let (level, pieces) ← query (·.refine f g)
        let result ← reducePieces level ctx pieces (applyReduceWithin op depth)
        modify fun memo => { memo with applied := memo.applied.insert ⟨f, g, ctx⟩ result }
        return result

/-- Combine two diagrams and reduce the result. -/
def applyReduce (op : Connective) (f g : Handle) : ManagerM Handle := do
  match op.shortcut f g with
  | some result => reduce result
  | none =>
    let (f, g) := f.ordered g
    match ← remembered? (.applyReduce op f g) with
    | some result => return result
    | none =>
      let m ← get
      let (depth, ctx) := (m.depth, m.openContext)
      let (result, _) ← (applyReduceWithin op depth (f, g) ctx).run {}
      remember (.applyReduce op f g) result
      return result

/-! ## Questions answered by reduction -/

/-- No valuation is in the federation. -/
def isEmpty (f : Handle) : ManagerM Bool := do return (← reduce f) == .zero

/-- The diagrams describe the same federation. -/
def isEquivalent (f g : Handle) : ManagerM Bool := do return (← applyReduce .xor f g) == .zero

/-! ## Non-negative clocks -/

/-- The federation where some clocks are not below the reference clock. -/
def nonNegative (clocks : List Nat) : ManagerM Handle :=
  clocks.foldlM (fun f i => do applyReduce .and f (← lowerBound i 0 0)) .one

/-- The valuations of a diagram where no clock is below the reference clock. With the reference
clock alone there is nothing to remove. -/
def removeNegative (f : Handle) : ManagerM Handle := do
  let clocks := (← get).clocks
  if clocks ≤ 1 then return f
  applyReduce .and f (← nonNegative (List.range' 1 (clocks - 1)))

end Manager

end ZoneDiagram

import ZoneDiagram.Drawing
import ZoneDiagram.Manager.Basic

/-!
# Reachable nodes

The slots that the paths of some diagrams visit, the drawing of their nodes, and the collection of
all other nodes.
-/

namespace ZoneDiagram.Manager

/-- Add the slots that a diagram visits to those seen before. -/
def reachFrom (m : Manager) : Nat → Std.TreeSet Nat → Handle → Except Error (Std.TreeSet Nat)
  | 0, _, _ => throw .tooDeep
  | depth + 1, seen, f => do
    if seen.contains f.slot then return seen
    else
      let node ← m.node f
      node.edges.foldlM (fun seen e => m.reachFrom depth seen e.item) (seen.insert f.slot)

/-- The slots that some diagrams visit; the terminal node is always among them. -/
def reach (m : Manager) (roots : List Handle) : Except Error (Std.TreeSet Nat) :=
  roots.foldlM (m.reachFrom m.depth) (Std.TreeSet.empty.insert Handle.one.slot)

/-- The number of nodes that a diagram visits, the terminal node included. -/
def size (m : Manager) (f : Handle) : Except Error Nat := do return (← m.reach [f]).size

/-- The nodes that some diagrams visit, by slot. -/
def visited (m : Manager) (roots : List Handle) : Except Error (List StoredNode) := do
  (← m.reach roots).toList.mapM fun slot => do
    let node ← m.node (.ofSlot slot)
    return ⟨slot, node.level, node.edges⟩

/-- Draw some diagrams. Shared nodes are drawn once. -/
def draw (m : Manager) (roots : List Handle) (style : DrawingStyle) : Except Error String := do
  let decisions := (← m.visited roots).filter (·.slot != Handle.one.slot)
  return (← Drawing.ofNodes style.showZeroEdges roots decisions).text style

/-- Drop every node that the roots do not visit, and forget all results. Returns the number of
nodes dropped. -/
def collectGarbage (roots : List Handle) : ManagerM Nat := do
  modify fun m => { m with cache := m.cache.clear }
  let alive ← query (·.reach roots)
  let (dropped, store) ← query (·.store.retain alive.contains)
  modify fun m => { m with store }
  return dropped

end ZoneDiagram.Manager

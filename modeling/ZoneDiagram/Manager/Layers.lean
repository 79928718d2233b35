import Std.Data.TreeSet
import ZoneDiagram.Manager.Reduce

/-!
# Reduction by layers

The same reduction without recursion into children. A pass from the root down collects, one level
after the other, every diagram together with every context in which a reduction meets it. A second
pass rebuilds them from the deepest level up.
-/

namespace ZoneDiagram

/-- What is met on one level, in the order in which it was found. -/
structure Layer where
  level : Nat
  visits : List Visit

/-- What a pass from the root has found: everything, and by level what it has not looked into. -/
structure Frontier where
  seen : Std.TreeSet Visit
  pending : Std.TreeMap Nat (Array Visit)

namespace Frontier

/-- Add a visit on a level, unless it was found before. -/
def add (fr : Frontier) (level : Nat) (v : Visit) : Frontier :=
  if fr.seen.contains v then fr
  else
    { seen := fr.seen.insert v
      pending := fr.pending.insert level ((fr.pending.getD level #[]).push v) }

end Frontier

namespace Manager

/-- Add what the edges of a diagram lead to, where its context admits them. -/
def expand (m : Manager) (fr : Frontier) (v : Visit) : Except Error Frontier := do
  let pair ← m.pair v.diagram
  let next := v.context.feasible pair (fun child => !child.isTerminal) none (← m.edges v.diagram)
  next.foldlM (fun fr p => do
    let child := p.item.1.regular
    let sub ← p.item.2.inhabited?
    return fr.add (← m.level child) ⟨child, sub⟩) fr

/-- Look into the pending levels from the top down. Returns the layers, the deepest first. -/
def layersFrom (m : Manager) : Nat → Frontier → List Layer → Except Error (List Layer)
  | 0, _, _ => throw .tooDeep
  | depth + 1, fr, layers =>
    match fr.pending.minKey? with
    | none => return layers
    | some level => do
      let visits := (fr.pending.getD level #[]).toList
      let fr ← visits.foldlM m.expand { fr with pending := fr.pending.erase level }
      m.layersFrom depth fr (⟨level, visits⟩ :: layers)

/-- The reduced diagram of a child: itself if constant, and otherwise found among those that were
rebuilt before. -/
def rebuiltChild (child : Handle) (ctx : Dbm) : StateT ReduceMemo ManagerM Handle := do
  if child.isTerminal then return child
  match (← get)[(⟨child.regular, ctx⟩ : Visit)]? with
  | some result => return child.applySign result
  | none => throw .missingState

/-- Rebuild one diagram in its context. -/
def rebuild (level : Nat) (v : Visit) : StateT ReduceMemo ManagerM Unit := do
  let edges ← query (·.edges v.diagram)
  let result ← reducePieces level v.context edges rebuiltChild
  modify (·.insert v result)

/-- Rebuild layers, the deepest first. -/
def rebuildLayers (layers : List Layer) : StateT ReduceMemo ManagerM Unit :=
  layers.forM fun layer => layer.visits.forM (rebuild layer.level)

/-- Reduce a diagram layer by layer. Nothing is remembered. -/
def reduceByLayers (f : Handle) : ManagerM Handle := do
  if f.isTerminal then return f
  let layers ← query fun m => do
    let fr : Frontier := ⟨∅, ∅⟩
    m.layersFrom m.depth (fr.add (← m.level f) ⟨f.regular, m.openContext⟩) []
  let ctx := (← get).openContext
  let (result, _) ← (do rebuildLayers layers; rebuiltChild f ctx).run ∅
  return result

end Manager

end ZoneDiagram

import ZoneDiagram.Node
import ZoneDiagram.SlotTable
import ZoneDiagram.Cache
import ZoneDiagram.Operation
import ZoneDiagram.ClockPair.Level

/-!
# The manager

A manager owns the nodes of all its diagrams, each distinct node once, and remembers results of
operations. A diagram is a handle to one of its nodes.

An operation on a manager is a computation with the manager as its state. A computation that fails
keeps all changes that it made before.
-/

namespace ZoneDiagram

/-- The sizes of a manager. -/
structure Config where
  /-- The most decision nodes that are kept at once. -/
  nodeCapacity : Nat := 1048576
  /-- The least number of results that the cache has room for. -/
  cacheCapacity : Nat := 65536
  /-- If not zero, the cache has room for one result for so many nodes at least. -/
  cacheRatio : Nat := 0
  deriving DecidableEq, Repr

namespace Config

/-- The number of results that the cache must have room for. -/
def effectiveCacheCapacity (c : Config) : Nat :=
  if c.cacheRatio = 0 then c.cacheCapacity
  else max c.cacheCapacity (c.nodeCapacity / c.cacheRatio)

end Config

/-- The nodes, the remembered results and the number of clocks. -/
structure Manager where
  store : SlotTable Node
  cache : Cache OpKey Handle
  /-- The number of clocks, the reference clock included. -/
  clocks : Nat

/-- A computation on a manager that can fail. -/
abbrev ManagerM := EStateM Error Manager

/-- A plain failure inside of a computation. -/
instance : MonadLift (Except Error) ManagerM where
  monadLift
    | .ok a => fun m => .ok a m
    | .error e => fun m => .error e m

namespace Manager

/-- A manager without clocks, which holds the terminal node only. -/
def create (config : Config) : Except Error Manager := do
  let store ← SlotTable.empty? (config.nodeCapacity + 1)
  let (slot, store) := store.add .terminal
  let _ ← slot
  let cache ← Cache.withCapacity? config.effectiveCacheCapacity
  return { store, cache, clocks := 0 }

/-- The most clocks that a manager can have. -/
def maxClocks : Nat := 65535

/-- Read from a manager inside of a computation. -/
def query {α : Type} (read : Manager → Except Error α) : ManagerM α := do
  let result := read (← get)
  result

/-- The number of clocks after `n` more. The sum is one of words of 64 bits, before it is compared
with the limit. -/
def clocksPlus (m : Manager) (n : Nat) : Except Error Nat :=
  if UInt64.size ≤ m.clocks + n then .error .sumOverflow
  else if maxClocks < m.clocks + n then .error (.tooManyClocks (m.clocks + n) maxClocks)
  else .ok (m.clocks + n)

/-- Add clocks after those that exist. Results are remembered for one number of clocks, so they are
forgotten. -/
def addClocks (n : Nat) : ManagerM Unit := do
  let clocks ← query (·.clocksPlus n)
  modify fun m => { m with clocks, cache := m.cache.clear }

/-! ## Reading diagrams -/

/-- The number of decision nodes that the manager holds. -/
def nodeCount (m : Manager) : Nat := m.store.realSize - 1

/-- One more than the number of levels: no path visits more nodes. -/
def depth (m : Manager) : Nat := ClockPair.count m.clocks + 1

/-- The dimension of matrices over all clocks; the reference clock is always there. -/
def dim (m : Manager) : Nat := max m.clocks 1

theorem dim_pos (m : Manager) : 0 < m.dim := Nat.le_max_right m.clocks 1

/-- The root node of a diagram. -/
def node (m : Manager) (f : Handle) : Except Error Node := m.store.value f.slot

/-- The level of the root node; constants have the terminal level. -/
def level (m : Manager) (f : Handle) : Except Error Nat := do return (← m.node f).level

/-- The clock pair that the root node tests. -/
def pair (m : Manager) (f : Handle) : Except Error ClockPair := do
  if f.isTerminal then throw .terminalDiagram
  ClockPair.ofLevel (← m.level f)

/-- The edges of a diagram: those of its root node, complemented if the diagram is. -/
def edges (m : Manager) (f : Handle) : Except Error (CutList Handle) := do
  return CutList.mapItems f.applySign (← m.node f).edges

/-- The sizes of a manager in words. -/
def summary (m : Manager) : String :=
  "Cdd \x7b " ++ s!"clocks: {m.clocks}, capacity: {m.store.capacity}, " ++
    s!"size: {m.store.size}, real_size: {m.store.realSize}" ++ " \x7d"

/-! ## Remembered results -/

/-- Look up a remembered result. -/
def remembered? (key : OpKey) : ManagerM (Option Handle) := fun m =>
  let (result, cache) := m.cache.get key
  .ok result { m with cache }

/-- Remember a result. -/
def remember (key : OpKey) (result : Handle) : ManagerM Unit :=
  modify fun m => { m with cache := m.cache.insert key result }

/-! ## Making nodes -/

/-- The manager after a node was put into its store, with the diagram of the slot. -/
def afterPut (m : Manager) :
    Except Error Nat × SlotTable Node → EStateM.Result Error Manager Handle
  | (.ok slot, store) => .ok (.ofSlot slot) { m with store }
  | (.error e, store) => .error e { m with store }

/-- The diagram of a stored node, which is stored if it is not there yet. -/
def intern (node : Node) : ManagerM Handle := fun m => m.afterPut (m.store.put node)

/-- The diagram with the given edges. A stored node has a last child without complement, so both
the edges and the diagram are complemented if need be. -/
def putNode (level : Nat) (edges : CutList Handle) : ManagerM Handle :=
  if (edges.getLast?.any fun e => e.item.isNegated) then do
    return -(← intern ⟨level, CutList.mapItems Neg.neg edges⟩)
  else intern ⟨level, edges⟩

/-- The diagram with the given edges, after neighbours with the same child are merged. A decision
with a single edge is no decision, and its child takes its place.

That the cuts increase is an assertion, which only a build for debugging makes. No operation on live
diagrams fails it if the constants from which it makes cuts fit the encoding
(`Reachable.properCuts`). -/
def mkNode (level : Nat) (edges : CutList Handle) : ManagerM Handle :=
  match CutList.merge edges with
  | [] => throw .noEdges
  | e :: rest =>
    if ¬ CutList.Proper (e :: rest) then throw .improperCuts
    else if rest.isEmpty then return e.item
    else putNode level (e :: rest)

end Manager

end ZoneDiagram

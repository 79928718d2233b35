import Std.Data.TreeSet
import ZoneDiagram.Node
import ZoneDiagram.ClockPair.Level

/-!
# Drawings

A drawing shows diagrams as a graph. The roots stand in the first rank, the two constants in the
last, and the decision nodes of one clock pair share a rank. A node is named by its slot and drawn
once. An edge is labelled with the interval that it covers; a complemented one has its own style
and a dot for an arrow head. Edges to the empty federation are left out unless wanted.

The text of a drawing is in the DOT language of graphs. It does not depend on the order in which
the nodes are given.
-/

namespace ZoneDiagram

/-- A node as it is stored. -/
structure StoredNode where
  slot : Nat
  level : Nat
  edges : CutList Handle

/-- An edge that is drawn: the interval that it covers, and the child that it leads to. -/
structure DrawnEdge where
  lower : Option Bound
  upper : Bound
  child : Handle

/-- A node that is drawn, with the edges that leave it. -/
structure DrawnNode where
  slot : Nat
  edges : List DrawnEdge

/-- The nodes that test one clock pair. -/
structure Rank where
  pair : ClockPair
  nodes : List DrawnNode

/-- Roots, and ranks of decision nodes from the top down. -/
structure Drawing where
  roots : List Handle
  ranks : List Rank

/-- Shapes and styles of a drawing. -/
structure DrawingStyle where
  nodeShape : String := "ellipse"
  terminalShape : String := "square"
  rootShape : String := "rect"
  edgeStyle : String := "solid"
  negatedEdgeStyle : String := "dotted"
  /-- Draw the edges to the empty federation. -/
  showZeroEdges : Bool := false

namespace Drawing

/-! ## From stored nodes -/

/-- The edges of a node that are drawn. -/
def drawnEdges (showZeroEdges : Bool) : Option Bound → CutList Handle → List DrawnEdge
  | _, [] => []
  | lower, e :: es =>
    let rest := drawnEdges showZeroEdges (some e.upper) es
    if e.item = .zero ∧ !showZeroEdges then rest else ⟨lower, e.upper, e.item⟩ :: rest

/-- The nodes of one level, by slot. -/
def rankOf (showZeroEdges : Bool) (nodes : List StoredNode) (level : Nat) : Except Error Rank := do
  let pair ← ClockPair.ofLevel level
  let nodes := (nodes.filter (·.level == level)).mergeSort fun a b => decide (a.slot ≤ b.slot)
  return ⟨pair, nodes.map fun node => ⟨node.slot, drawnEdges showZeroEdges none node.edges⟩⟩

/-- The drawing of some decision nodes below some roots. -/
def ofNodes (showZeroEdges : Bool) (roots : List Handle) (nodes : List StoredNode) :
    Except Error Drawing := do
  let levels := (Std.TreeSet.ofList (nodes.map (·.level))).toList
  return ⟨roots, ← levels.mapM (rankOf showZeroEdges nodes)⟩

/-! ## Text -/

/-- The interval above a bound that fails and within a bound that holds. -/
def intervalLabel (lower : Option Bound) (upper : Bound) : String :=
  let low := match lower with
    | none => "(-inf"
    | some b => if b.isStrict then s!"[{b.value}" else s!"({b.value}"
  let up :=
    if upper.isInfinity then "inf)"
    else if upper.isStrict then s!"{upper.value})"
    else s!"{upper.value}]"
  low ++ ", " ++ up

/-- The lines of a group of nodes in one rank. -/
def group (place : String) (lines : List String) : List String :=
  ["\x7b rank=" ++ place] ++ lines ++ ["\x7d"]

/-- The line of an edge. The empty federation is the constant zero. -/
def edgeLine (style : DrawingStyle) (slot : Nat) (e : DrawnEdge) : String :=
  let label := " [label=\"" ++ intervalLabel e.lower e.upper ++ "\", style="
  if e.child = .zero then s!"{slot} -> 0" ++ label ++ style.edgeStyle ++ "];"
  else
    let ends := s!"{slot} -> {e.child.slot}"
    if e.child.isNegated then ends ++ label ++ style.negatedEdgeStyle ++ ", arrowhead=odot];"
    else ends ++ label ++ style.edgeStyle ++ "];"

/-- The line that declares one of the two constants. -/
def constantLine (style : DrawingStyle) (name : String) : String :=
  name ++ " [shape=" ++ style.terminalShape ++ ", label=\"" ++ name ++ "\"];"

/-- The line that declares a decision node. -/
def nodeLine (pair : ClockPair) (node : DrawnNode) : String :=
  s!"{node.slot} [label=\"" ++ pair.text ++ "\"];"

/-- The line that declares a root. -/
def rootLine (style : DrawingStyle) (k : Nat) (root : Handle) : String :=
  s!"r{k} [shape=" ++ style.rootShape ++ ", label=\"" ++ root.text ++ "\"];"

/-- The line from a root to its node. -/
def rootEdge (k : Nat) (root : Handle) : String :=
  if root = .zero then s!"r{k} -> 0;"
  else if root.isNegated then s!"r{k} -> {root.slot} [arrowhead=odot];"
  else s!"r{k} -> {root.slot};"

/-- The lines of a drawing. -/
def lines (style : DrawingStyle) (d : Drawing) : List String :=
  ["digraph \x7b", "node [shape=" ++ style.nodeShape ++ "];"] ++
  group "sink" (["0", "1"].map (constantLine style)) ++
  (d.ranks.flatMap fun rank => group "same" (rank.nodes.map (nodeLine rank.pair))) ++
  (d.ranks.flatMap fun rank => rank.nodes.flatMap fun node =>
    node.edges.map (edgeLine style node.slot)) ++
  group "source" (d.roots.mapIdx (rootLine style)) ++
  d.roots.mapIdx rootEdge ++
  ["\x7d"]

/-- The text of a drawing. -/
def text (style : DrawingStyle) (d : Drawing) : String :=
  String.join ((d.lines style).map (· ++ "\n"))

end Drawing

end ZoneDiagram

import ZoneDiagram.Valuation

/-!
# Graphs in text

A reader of the DOT language, as far as drawings need it, and the meaning of the graphs that it
reads. It knows nothing of diagrams.

A text has one statement on each line. A statement declares a node of the open group, opens or
closes a group, or is an edge. A word ends at a break, unless it is quoted. The label of an edge is
an interval, and the label of a node that is decided is a difference of two clocks.

A node denotes a truth value under a valuation (`DotGraph.Denotes`): that of the node where its edge
leads, the other one if the arrow head is a dot. Of several edges the one is followed whose interval
contains the difference that labels the node; if there is none, the value is false.
-/

namespace ZoneDiagram

/-- A declared node. -/
structure DotNode where
  name : String
  label : String
  deriving DecidableEq, Repr

/-- The nodes that are declared in one rank. -/
structure DotGroup where
  place : String
  nodes : List DotNode
  deriving DecidableEq, Repr

/-- An edge. Its arrow head may be a dot. -/
structure DotEdge where
  source : String
  target : String
  label : Option String
  dotted : Bool
  deriving DecidableEq, Repr

/-- A graph whose nodes stand in groups. -/
structure DotGraph where
  groups : List DotGroup
  edges : List DotEdge
  deriving DecidableEq, Repr

namespace DotGraph

/-! ## Words -/

/-- The characters that end a word outside of quotes. -/
def isBreak (c : Char) : Bool := [' ', '\n', ',', ';', '[', ']'].contains c

/-- Put a word in front of others, unless it is empty. -/
def consWord : List Char → List (List Char) → List (List Char)
  | [], rest => rest
  | c :: cs, rest => (c :: cs) :: rest

/-- The words of a text, the first of which has begun before. -/
def words (quoted : Bool) (word : List Char) : List Char → List (List Char)
  | [] => consWord word []
  | c :: cs =>
    if c = '\"' then words (!quoted) word cs
    else if isBreak c && !quoted then consWord word (words quoted [] cs)
    else words quoted (word ++ [c]) cs

/-- The value that a list of words gives to an attribute. -/
def attribute? (key : String) (attributes : List (List Char)) : Option String :=
  (attributes.findSome? (key.toList ++ ['=']).isPrefixOf?).map String.ofList

/-! ## Statements -/

/-- One line of a graph. -/
inductive Statement where
  | graph
  | defaults
  | group (place : String)
  | close
  | node (n : DotNode)
  | edge (e : DotEdge)

/-- The statement about a name: an edge to another name, or a declaration with a label. -/
def named? (name : List Char) : List (List Char) → Option Statement
  | ['-', '>'] :: target :: attributes =>
    some (.edge ⟨.ofList name, .ofList target, attribute? "label" attributes,
      attribute? "arrowhead" attributes == some "odot"⟩)
  | attributes => (attribute? "label" attributes).map fun label => .node ⟨.ofList name, label⟩

/-- The statement that some words make. -/
def statement? : List (List Char) → Option Statement
  | [] => none
  | first :: rest =>
    if first = "digraph".toList then some .graph
    else if first = "node".toList then some .defaults
    else if first = "\x7b".toList then (attribute? "rank" rest).map .group
    else if first = "\x7d".toList then some .close
    else named? first rest

/-- The graph of some statements, which may begin inside of a group. -/
def ofStatements? : Option DotGroup → List Statement → Option DotGraph
  | none, [.close] => some ⟨[], []⟩
  | none, .defaults :: rest => ofStatements? none rest
  | none, .group place :: rest => ofStatements? (some ⟨place, []⟩) rest
  | none, .edge e :: rest =>
    (ofStatements? none rest).map fun g => { g with edges := e :: g.edges }
  | some group, .node n :: rest =>
    ofStatements? (some { group with nodes := group.nodes ++ [n] }) rest
  | some group, .close :: rest =>
    (ofStatements? none rest).map fun g => { g with groups := group :: g.groups }
  | _, _ => none

/-- The statement that a line makes. -/
def ofLine? (line : List Char) : Option Statement := statement? (words false [] line)

/-- The lines of a text that are not empty. -/
def linesOf (text : String) : List (List Char) :=
  (text.toList.splitOn '\n').filter (!·.isEmpty)

/-- The graph that a text describes. -/
def ofText? (text : String) : Option DotGraph := do
  match ← (linesOf text).mapM ofLine? with
  | .graph :: rest => ofStatements? none rest
  | _ => none

/-! ## Labels -/

/-- The end of an interval: its constant, unless it is infinite, and whether it is in the
interval. -/
structure End where
  value : Option Int
  closed : Bool
  deriving DecidableEq, Repr

/-- The constant of an end. -/
def value? (infinity : String) (cs : List Char) : Option (Option Int) :=
  if cs = infinity.toList then some none else (String.ofList cs).toInt?.map some

/-- The lower end of an interval. -/
def lowerEnd? : List Char → Option End
  | '(' :: cs => (value? "-inf" cs).map fun c => ⟨c, false⟩
  | '[' :: cs => (value? "-inf" cs).map fun c => ⟨c, true⟩
  | _ => none

/-- The upper end of an interval. -/
def upperEnd? (cs : List Char) : Option End :=
  if cs.getLast? = some ')' then (value? "inf" cs.dropLast).map fun c => ⟨c, false⟩
  else if cs.getLast? = some ']' then (value? "inf" cs.dropLast).map fun c => ⟨c, true⟩
  else none

/-- The ends of the interval that a label stands for. -/
def interval? (label : String) : Option (End × End) :=
  match label.toList.splitOn ',' with
  | [low, ' ' :: up] => do return (← lowerEnd? low, ← upperEnd? up)
  | _ => none

/-- The value is past the lower end of an interval. -/
def End.Below (e : End) (d : Rat) : Prop := ∀ c ∈ e.value, if e.closed then (c : Rat) ≤ d else c < d

/-- The value is before the upper end of an interval. -/
def End.Above (e : End) (d : Rat) : Prop := ∀ c ∈ e.value, if e.closed then d ≤ (c : Rat) else d < c

/-- The clock that a part of a label stands for. -/
def clock? : List Char → Option Nat
  | 'x' :: digits => (String.ofList digits).toNat?
  | _ => none

/-- The two clocks whose difference a label stands for. -/
def clocks? (label : String) : Option (Nat × Nat) :=
  match label.toList.splitOn '-' with
  | [i, j] => do return (← clock? i, ← clock? j)
  | _ => none

end DotGraph

/-! ## Meaning -/

/-- The interval on an edge contains a value. -/
def DotEdge.Covers (e : DotEdge) (d : Rat) : Prop :=
  ∃ label low up, e.label = some label ∧ DotGraph.interval? label = some (low, up) ∧
    low.Below d ∧ up.Above d

namespace DotGraph

variable (g : DotGraph)

/-- All names that are declared. -/
def names : List String := g.groups.flatMap fun group => group.nodes.map DotNode.name

/-- The label of a declared node stands for a difference that has some value. -/
def Tests (v : Valuation) (name : String) (d : Rat) : Prop :=
  ∃ group ∈ g.groups, ∃ node ∈ group.nodes, node.name = name ∧
    ∃ i j, clocks? node.label = some (i, j) ∧ d = v i - v j

/-- The truth of a node. -/
inductive Denotes (v : Valuation) : String → Bool → Prop
  | zero : Denotes v "0" false
  | one : Denotes v "1" true
  | lead {e : DotEdge} {b : Bool} (edge : e ∈ g.edges) (plain : e.label = none)
      (target : Denotes v e.target b) : Denotes v e.source (e.dotted ^^ b)
  | follow {e : DotEdge} {d : Rat} {b : Bool} (tests : g.Tests v e.source d) (edge : e ∈ g.edges)
      (covers : e.Covers d) (target : Denotes v e.target b) : Denotes v e.source (e.dotted ^^ b)
  | absent {name : String} {d : Rat} (tests : g.Tests v name d)
      (uncovered : ∀ e ∈ g.edges, e.source = name → ¬ e.Covers d) : Denotes v name false

end DotGraph

end ZoneDiagram

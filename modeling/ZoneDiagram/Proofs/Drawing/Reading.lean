import Mathlib.Data.List.Basic
import Std.Data.String.ToInt
import ZoneDiagram.Drawing
import ZoneDiagram.Proofs.Drawing.Graph

/-!
# The text of a drawing is read back

**Theorem (`Drawing.ofText?_text`).** The text of a drawing describes the graph of the drawing
(`Drawing.graph`), if the shapes and styles are plain words.

A node has a plain name, and a label fits between quotes. So every line of the text makes one
statement (`readLine?`), and the statements of the lines in their order make up the graph.
-/

namespace ZoneDiagram

namespace DotGraph

variable {word xs cs : List Char} {x y z : String}

/-! ## Words -/

/-- The characters may stand in a word. -/
def Plain (cs : List Char) : Prop := ∀ c ∈ cs, isBreak c = false ∧ c ≠ '\"'

/-- The characters may stand between quotes. -/
def Quotable (cs : List Char) : Prop := '\"' ∉ cs ∧ '\n' ∉ cs

-- Where all of Mathlib is imported, the search finds a decision over all characters first.
instance (cs : List Char) : Decidable (Plain cs) :=
  List.decidableBAll (fun c => isBreak c = false ∧ c ≠ '\"') cs

instance (cs : List Char) : Decidable (Quotable cs) :=
  inferInstanceAs (Decidable ('\"' ∉ cs ∧ '\n' ∉ cs))

theorem Plain.quotable (h : Plain cs) : Quotable cs :=
  ⟨fun mem => (h _ mem).2 rfl, fun mem => absurd (h _ mem).1 (by decide)⟩

@[simp] theorem newline_notMem_of_plain (h : Plain cs) : '\n' ∉ cs := h.quotable.2

theorem plain_append : Plain (x ++ y).toList ↔ Plain x.toList ∧ Plain y.toList := by
  rw [String.toList_append]
  exact List.forall_mem_append

theorem quotable_append :
    Quotable (x ++ y).toList ↔ Quotable x.toList ∧ Quotable y.toList := by
  simp only [Quotable, String.toList_append, List.mem_append, not_or]
  exact and_and_and_comm

@[simp] theorem consWord_nil (rest : List (List Char)) : consWord [] rest = rest := rfl

@[simp] theorem consWord_cons (c : Char) (cs : List Char) (rest : List (List Char)) :
    consWord (c :: cs) rest = (c :: cs) :: rest := rfl

theorem consWord_of_ne_nil (h : word ≠ []) (rest : List (List Char)) :
    consWord word rest = word :: rest := by
  cases word with
  | nil => exact absurd rfl h
  | cons c cs => rfl

/-- Plain characters are added to the word that has begun. -/
@[simp] theorem words_plain_append (h : Plain xs) (word cs : List Char) :
    words false word (xs ++ cs) = words false (word ++ xs) cs := by
  induction xs generalizing word with
  | nil => rw [List.nil_append, List.append_nil]
  | cons c xs ih =>
    obtain ⟨noBreak, noQuote⟩ := h c List.mem_cons_self
    have rest : Plain xs := fun c hc => h c (List.mem_cons_of_mem _ hc)
    rw [List.cons_append, words, if_neg noQuote, noBreak]
    change words false (word ++ [c]) (xs ++ cs) = _
    rw [ih rest, List.append_assoc]
    rfl

/-- So are the characters up to a quote, and the quote is dropped. -/
@[simp] theorem words_quotable_append (h : Quotable xs) (word cs : List Char) :
    words true word (xs ++ '\"' :: cs) = words false (word ++ xs) cs := by
  obtain ⟨h, -⟩ := h
  induction xs generalizing word with
  | nil => simp [words]
  | cons c xs ih =>
    obtain ⟨ne, rest⟩ := not_or.1 fun mem => h (List.mem_cons.2 mem)
    simp [words, Ne.symm ne, ih (word ++ [c]) rest]

/-! ## Lines -/

/-- The statement that a text makes, if the text is one line. -/
def readLine? (line : String) : Option Statement :=
  if '\n' ∈ line.toList then none else ofLine? line.toList

/-- The characters name a node: they are plain, and they are no keyword. -/
structure IsName (cs : List Char) : Prop where
  plain : Plain cs
  ne_nil : cs ≠ []
  notKeyword : cs ∉ ["digraph", "node", "\x7b", "\x7d"].map String.toList

theorem IsName.statement? (h : IsName xs) (rest : List (List Char)) :
    statement? (xs :: rest) = named? xs rest := by
  have ne := h.notKeyword
  simp only [List.map_cons, List.map_nil, List.mem_cons, List.not_mem_nil, or_false, not_or] at ne
  obtain ⟨graph, defaults, group, close⟩ := ne
  rw [DotGraph.statement?, if_neg graph, if_neg defaults, if_neg group, if_neg close]

theorem readLine?_group (h : Plain x.toList) :
    readLine? ("\x7b rank=" ++ x) = some (.group x) := by
  have word := words_plain_append h "rank=".toList []
  rw [List.append_nil] at word
  simp_all [readLine?, ofLine?, words, isBreak, statement?, attribute?, List.isPrefixOf?]

theorem readLine?_defaults (h : Plain x.toList) :
    readLine? ("node [shape=" ++ x ++ "];") = some .defaults := by
  simp [readLine?, ofLine?, words, isBreak, statement?, h]

section Named

variable (hx : IsName x.toList)
include hx

/-- A line that declares a node by its label. -/
theorem readLine?_node (hz : Quotable z.toList) :
    readLine? (x ++ " [label=\"" ++ z ++ "\"];") = some (.node ⟨x, z⟩) := by
  simp [readLine?, ofLine?, words, isBreak, named?, attribute?, List.isPrefixOf?,
    consWord_of_ne_nil, hx.statement?, hx.plain, hx.ne_nil, hz, hz.2]

/-- A line that declares a node by its shape and its label. -/
theorem readLine?_shaped (hy : Plain y.toList) (hz : Quotable z.toList) :
    readLine? (x ++ " [shape=" ++ y ++ ", label=\"" ++ z ++ "\"];") = some (.node ⟨x, z⟩) := by
  simp [readLine?, ofLine?, words, isBreak, named?, attribute?, List.isPrefixOf?,
    consWord_of_ne_nil, hx.statement?, hx.plain, hx.ne_nil, hy, hz, hz.2]

/-- A line from one node to another. -/
theorem readLine?_lead (hy : IsName y.toList) (dotted : Bool) :
    readLine? (x ++ " -> " ++ y ++ if dotted then " [arrowhead=odot];" else ";") =
      some (.edge ⟨x, y, none, dotted⟩) := by
  cases dotted <;>
    simp [readLine?, ofLine?, words, isBreak, named?, attribute?, List.isPrefixOf?,
      consWord_of_ne_nil, hx.statement?, hx.plain, hx.ne_nil, hy.plain, hy.ne_nil]

/-- A line from one node to another, with a label and a style. -/
theorem readLine?_edge {w : String} (hy : IsName y.toList) (hz : Quotable z.toList)
    (hw : Plain w.toList) (dotted : Bool) :
    readLine? (x ++ " -> " ++ y ++ (" [label=\"" ++ z ++ "\", style=") ++ w ++
      if dotted then ", arrowhead=odot];" else "];") = some (.edge ⟨x, y, some z, dotted⟩) := by
  cases dotted <;>
    simp [readLine?, ofLine?, words, isBreak, named?, attribute?, List.isPrefixOf?,
      consWord_of_ne_nil, hx.statement?, hx.plain, hx.ne_nil, hy.plain, hy.ne_nil, hz, hz.2, hw]

end Named

/-! ## Texts -/

theorem linesOf_cons (hx : '\n' ∉ x.toList) (ne : x.toList ≠ []) (y : String) :
    linesOf (x ++ "\n" ++ y) = x.toList :: linesOf y := by
  have text : (x ++ "\n" ++ y).toList = x.toList ++ '\n' :: y.toList := by simp
  rw [linesOf, text, List.splitOn_append_cons_self_of_not_mem hx]
  exact List.filter_cons_of_pos (by simpa using ne)

theorem readLine?_eq_some {st : Statement} (h : readLine? x = some st) :
    '\n' ∉ x.toList ∧ x.toList ≠ [] ∧ ofLine? x.toList = some st := by
  unfold readLine? at h
  split at h
  next => cases h
  next noNewline =>
    refine ⟨noNewline, fun empty => ?_, h⟩
    rw [empty] at h
    cases h

/-- The statements of a text are those of its lines. -/
theorem mapM_linesOf {lines : List String} {statements : List Statement}
    (h : lines.map readLine? = statements.map some) :
    (linesOf (String.join (lines.map (· ++ "\n")))).mapM ofLine? = some statements := by
  induction lines generalizing statements with
  | nil =>
    cases statements with
    | nil => rfl
    | cons st statements => cases h
  | cons line lines ih =>
    cases statements with
    | nil => cases h
    | cons st statements =>
      obtain ⟨head, tail⟩ := List.cons.inj h
      obtain ⟨noNewline, ne, read⟩ := readLine?_eq_some head
      rw [List.map_cons, String.join_cons, linesOf_cons noNewline ne, List.mapM_cons, read, ih tail]
      rfl

/-! ## Graphs -/

/-- The statements that declare a group. -/
def groupStatements (group : DotGroup) : List Statement :=
  .group group.place :: group.nodes.map .node ++ [.close]

theorem ofStatements?_nodes (place : String) (nodes done : List DotNode) (rest : List Statement) :
    ofStatements? (some ⟨place, done⟩) (nodes.map .node ++ .close :: rest) =
      (ofStatements? none rest).map fun g =>
        { g with groups := ⟨place, done ++ nodes⟩ :: g.groups } := by
  induction nodes generalizing done with
  | nil => simp [ofStatements?]
  | cons node nodes ih => simp [ofStatements?, ih]

theorem ofStatements?_groups {rest : List Statement} {g : DotGraph} (groups : List DotGroup)
    (h : ofStatements? none rest = some g) :
    ofStatements? none (groups.flatMap groupStatements ++ rest) =
      some { g with groups := groups ++ g.groups } := by
  induction groups with
  | nil => exact h
  | cons group groups ih =>
    simp [groupStatements, ofStatements?, ofStatements?_nodes, List.append_assoc, ih]

theorem ofStatements?_edges {rest : List Statement} {g : DotGraph} (edges : List DotEdge)
    (h : ofStatements? none rest = some g) :
    ofStatements? none (edges.map .edge ++ rest) = some { g with edges := edges ++ g.edges } := by
  induction edges with
  | nil => exact h
  | cons edge edges ih => simp [ofStatements?, ih]

end DotGraph

open DotGraph

/-! ## Names and labels -/

/-- A natural number is written with digits. -/
theorem isDigit_of_mem_toString {n : Nat} {c : Char} (h : c ∈ (toString n).toList) :
    c.isDigit = true := by
  rw [Nat.toString_eq_repr, Nat.toList_repr] at h
  exact Nat.isDigit_of_mem_toDigits (by decide) (by decide) h

theorem plain_of_isDigit {cs : List Char} (h : ∀ c ∈ cs, c.isDigit = true) : Plain cs := by
  refine fun c hc => ⟨Bool.eq_false_iff.2 fun isBreak => ?_, fun quote => ?_⟩
  · have digit := h c hc
    have among : c ∈ [' ', '\n', ',', ';', '[', ']'] := List.contains_iff_mem.1 isBreak
    simp only [List.mem_cons, List.not_mem_nil, or_false] at among
    rcases among with rfl | rfl | rfl | rfl | rfl | rfl <;> cases digit
  · have digit := h c hc
    rw [quote] at digit
    cases digit

/-- So its text may stand in a word. -/
theorem plain_toString (n : Nat) : Plain (toString n).toList :=
  plain_of_isDigit fun _ => isDigit_of_mem_toString

theorem quotable_toString (n : Nat) : Quotable (toString n).toList := (plain_toString n).quotable

theorem quotable_toString_int (c : Int) : Quotable (toString c).toList := by
  cases c with
  | ofNat n => exact quotable_toString n
  | negSucc n =>
    change Quotable ("-" ++ toString (n + 1)).toList
    exact quotable_append.2 ⟨by decide, quotable_toString (n + 1)⟩

/-- The nodes of a drawing are slots and roots. The constants have the names of two slots. -/
inductive DrawnName where
  | slot (s : Nat)
  | root (k : Nat)
  deriving DecidableEq

namespace DrawnName

/-- The text of a name. -/
def text : DrawnName → String
  | slot s => toString s
  | root k => "r" ++ toString k

theorem toString_injective {s t : Nat} (h : toString s = toString t) : s = t := by
  rw [Nat.toString_eq_repr, Nat.toString_eq_repr] at h
  have read := Nat.toNat?_repr s
  rw [h, Nat.toNat?_repr] at read
  exact (Option.some.inj read).symm

theorem toString_ne_root (s k : Nat) : toString s ≠ "r" ++ toString k := by
  intro h
  have mem : 'r' ∈ (toString s).toList := by simp [h]
  exact absurd (isDigit_of_mem_toString mem) (by decide)

theorem text_injective {x y : DrawnName} (h : x.text = y.text) : x = y := by
  cases x with
  | slot s =>
    cases y with
    | slot t => exact congrArg slot (toString_injective h)
    | root k => exact absurd h (toString_ne_root s k)
  | root k =>
    cases y with
    | slot t => exact absurd h.symm (toString_ne_root t k)
    | root l =>
      have h : "r" ++ toString k = "r" ++ toString l := h
      exact congrArg root (toString_injective (by simpa using h))

theorem plain (x : DrawnName) : Plain x.text.toList := by
  cases x with
  | slot s => exact plain_toString s
  | root k => exact plain_append.2 ⟨by decide, plain_toString k⟩

theorem exists_digit (x : DrawnName) : ∃ c ∈ x.text.toList, c.isDigit = true := by
  have number (n : Nat) : ∃ c ∈ (toString n).toList, c.isDigit = true := by
    have ne : (toString n).toList ≠ [] := by
      rw [Nat.toString_eq_repr, Nat.toList_repr]
      exact Nat.toDigits_ne_nil
    obtain ⟨c, hc⟩ := List.exists_mem_of_ne_nil _ ne
    exact ⟨c, hc, isDigit_of_mem_toString hc⟩
  cases x with
  | slot s => exact number s
  | root k =>
    obtain ⟨c, hc, digit⟩ := number k
    refine ⟨c, ?_, digit⟩
    rw [text, String.toList_append]
    exact List.mem_append_right _ hc

/-- Every name has a digit, and no keyword has one. -/
theorem isName (x : DrawnName) : IsName x.text.toList := by
  obtain ⟨c, hc, digit⟩ := x.exists_digit
  have none : ∀ word ∈ ["digraph", "node", "\x7b", "\x7d"].map String.toList,
      word.any Char.isDigit = false := by decide
  refine ⟨x.plain, List.ne_nil_of_mem hc, fun keyword => ?_⟩
  exact List.any_eq_false.1 (none _ keyword) c hc digit

end DrawnName

theorem quotable_text_handle (f : Handle) : Quotable f.text.toList := by
  refine quotable_append.2 ⟨?_, quotable_toString f.slot⟩
  cases f.isNegated <;> decide

theorem quotable_text_pair (p : ClockPair) : Quotable p.text.toList := by
  change Quotable ("x" ++ toString p.i ++ "-x" ++ toString p.j).toList
  simp only [quotable_append]
  exact ⟨⟨⟨by decide, quotable_toString p.i⟩, by decide⟩, quotable_toString p.j⟩

namespace Drawing

/-- The text of the lower end of an interval. -/
def lowerText : Option Bound → String
  | none => "(-inf"
  | some b => if b.isStrict then "[" ++ toString b.value else "(" ++ toString b.value

/-- The text of the upper end of an interval. -/
def upperText (upper : Bound) : String :=
  if upper.isInfinity then "inf)"
  else if upper.isStrict then toString upper.value ++ ")"
  else toString upper.value ++ "]"

theorem intervalLabel_eq (lower : Option Bound) (upper : Bound) :
    intervalLabel lower upper = lowerText lower ++ ", " ++ upperText upper := by
  cases lower <;> rfl

theorem quotable_lowerText (lower : Option Bound) : Quotable (lowerText lower).toList := by
  cases lower with
  | none => decide
  | some b =>
    rw [lowerText]
    split <;> exact quotable_append.2 ⟨by decide, quotable_toString_int b.value⟩

theorem quotable_upperText (upper : Bound) : Quotable (upperText upper).toList := by
  unfold upperText
  split
  · decide
  · split <;> exact quotable_append.2 ⟨quotable_toString_int upper.value, by decide⟩

theorem quotable_intervalLabel (lower : Option Bound) (upper : Bound) :
    Quotable (intervalLabel lower upper).toList := by
  simp only [intervalLabel_eq, quotable_append]
  exact ⟨⟨quotable_lowerText lower, by decide⟩, quotable_upperText upper⟩

end Drawing

/-! ## Drawings -/

namespace Drawing

/-- The name of the node where an edge to a diagram leads. The empty federation has a node of its
own. -/
def target (f : Handle) : DrawnName := .slot (if f = .zero then 0 else f.slot)

/-- The arrow head of an edge to a diagram is a dot. -/
def dotted (f : Handle) : Bool := decide (f ≠ .zero) && f.isNegated

/-- The declaration of a decision node. -/
def dotNode (pair : ClockPair) (node : DrawnNode) : DotNode :=
  ⟨(DrawnName.slot node.slot).text, pair.text⟩

/-- The declaration of a root. -/
def dotRoot (k : Nat) (f : Handle) : DotNode := ⟨(DrawnName.root k).text, f.text⟩

/-- An edge between nodes. -/
def dotEdge (slot : Nat) (e : DrawnEdge) : DotEdge :=
  ⟨(DrawnName.slot slot).text, (target e.child).text, some (intervalLabel e.lower e.upper),
    dotted e.child⟩

/-- The edge of a root. -/
def dotRootEdge (k : Nat) (f : Handle) : DotEdge :=
  ⟨(DrawnName.root k).text, (target f).text, none, dotted f⟩

/-- The group of the constants. -/
def dotConstants : DotGroup := ⟨"sink", [⟨"0", "0"⟩, ⟨"1", "1"⟩]⟩

/-- The group of a rank. -/
def dotRank (rank : Rank) : DotGroup := ⟨"same", rank.nodes.map (dotNode rank.pair)⟩

/-- The group of the roots. -/
def dotRoots (roots : List Handle) : DotGroup := ⟨"source", roots.mapIdx dotRoot⟩

/-- The edges between nodes. -/
def dotEdges (ranks : List Rank) : List DotEdge :=
  ranks.flatMap fun rank => rank.nodes.flatMap fun node => node.edges.map (dotEdge node.slot)

/-- The graph of a drawing. -/
def graph (d : Drawing) : DotGraph where
  groups := dotConstants :: d.ranks.map dotRank ++ [dotRoots d.roots]
  edges := dotEdges d.ranks ++ d.roots.mapIdx dotRootEdge

/-- The shapes and styles are plain words. -/
structure PlainStyle (style : DrawingStyle) : Prop where
  nodeShape : Plain style.nodeShape.toList
  terminalShape : Plain style.terminalShape.toList
  rootShape : Plain style.rootShape.toList
  edgeStyle : Plain style.edgeStyle.toList
  negatedEdgeStyle : Plain style.negatedEdgeStyle.toList

variable {style : DrawingStyle}

theorem edgeLine_eq (style : DrawingStyle) (slot : Nat) (e : DrawnEdge) :
    edgeLine style slot e = (DrawnName.slot slot).text ++ " -> " ++ (target e.child).text ++
      (" [label=\"" ++ intervalLabel e.lower e.upper ++ "\", style=") ++
      (if dotted e.child then style.negatedEdgeStyle else style.edgeStyle) ++
      if dotted e.child then ", arrowhead=odot];" else "];" := by
  have self (s : String) : toString s = s := rfl
  rw [← String.toList_inj]
  by_cases zero : e.child = .zero
  · simp [edgeLine, target, dotted, zero, DrawnName.text, self]
  · cases sign : e.child.isNegated <;>
      simp [edgeLine, target, dotted, zero, sign, DrawnName.text, self]

theorem rootEdge_eq (k : Nat) (f : Handle) :
    rootEdge k f = (DrawnName.root k).text ++ " -> " ++ (target f).text ++
      if dotted f then " [arrowhead=odot];" else ";" := by
  have self (s : String) : toString s = s := rfl
  rw [← String.toList_inj]
  by_cases zero : f = .zero
  · simp [rootEdge, target, dotted, zero, DrawnName.text, self]
  · cases sign : f.isNegated <;> simp [rootEdge, target, dotted, zero, sign, DrawnName.text, self]

theorem readLine?_edgeLine (h : PlainStyle style) (slot : Nat) (e : DrawnEdge) :
    readLine? (edgeLine style slot e) = some (.edge (dotEdge slot e)) := by
  rw [edgeLine_eq]
  refine readLine?_edge (DrawnName.isName _) (DrawnName.isName _) (quotable_intervalLabel _ _) ?_ _
  split
  · exact h.negatedEdgeStyle
  · exact h.edgeStyle

theorem readLine?_rootEdge (k : Nat) (f : Handle) :
    readLine? (rootEdge k f) = some (.edge (dotRootEdge k f)) := by
  rw [rootEdge_eq]
  exact readLine?_lead (DrawnName.isName _) (DrawnName.isName _) _

theorem readLine?_nodeLine (pair : ClockPair) (node : DrawnNode) :
    readLine? (nodeLine pair node) = some (.node (dotNode pair node)) :=
  readLine?_node (DrawnName.isName (.slot node.slot)) (quotable_text_pair pair)

theorem readLine?_rootLine (h : PlainStyle style) (k : Nat) (f : Handle) :
    readLine? (rootLine style k f) = some (.node (dotRoot k f)) :=
  readLine?_shaped (DrawnName.isName (.root k)) h.rootShape (quotable_text_handle f)

theorem readLine?_constantLine (h : PlainStyle style) (s : Nat) :
    readLine? (constantLine style (toString s)) = some (.node ⟨toString s, toString s⟩) :=
  readLine?_shaped (DrawnName.isName (.slot s)) h.terminalShape (quotable_toString s)

theorem map_readLine?_group {place : String} {lines : List String} {nodes : List DotNode}
    (h : Plain place.toList) (read : lines.map readLine? = (nodes.map .node).map some) :
    (group place lines).map readLine? = (groupStatements ⟨place, nodes⟩).map some := by
  simp only [group, groupStatements, List.map_append, List.map_cons, List.map_nil, read,
    readLine?_group h]
  rfl

/-- The statements of a drawing, one for each line. -/
def statements (d : Drawing) : List Statement :=
  [.graph, .defaults] ++ groupStatements dotConstants ++
    (d.ranks.map dotRank).flatMap groupStatements ++ (dotEdges d.ranks).map .edge ++
    groupStatements (dotRoots d.roots) ++ (d.roots.mapIdx dotRootEdge).map .edge ++ [.close]

/-- Every line of a drawing makes its statement. -/
theorem map_readLine?_lines (h : PlainStyle style) (d : Drawing) :
    (d.lines style).map readLine? = d.statements.map some := by
  have start : readLine? "digraph \x7b" = some .graph := rfl
  have constants : (group "sink" [constantLine style "0", constantLine style "1"]).map readLine? =
      (groupStatements dotConstants).map some :=
    map_readLine?_group (by decide) (List.cons_eq_cons.2 ⟨readLine?_constantLine h 0,
      List.cons_eq_cons.2 ⟨readLine?_constantLine h 1, rfl⟩⟩)
  have rank (rank : Rank) : (group "same" (rank.nodes.map (nodeLine rank.pair))).map readLine? =
      (groupStatements (dotRank rank)).map some :=
    map_readLine?_group (by decide) (by simp [readLine?_nodeLine])
  have roots : (group "source" (d.roots.mapIdx (rootLine style))).map readLine? =
      (groupStatements (dotRoots d.roots)).map some :=
    map_readLine?_group (by decide)
      (by simp [List.mapIdx_eq_zipIdx_map, readLine?_rootLine h])
  have rootEdges : (d.roots.mapIdx rootEdge).map readLine? =
      ((d.roots.mapIdx dotRootEdge).map Statement.edge).map some := by
    simp [List.mapIdx_eq_zipIdx_map, readLine?_rootEdge]
  have finish : readLine? "\x7d" = some .close := rfl
  simp only [lines, statements, dotEdges, List.map_append, List.map_cons, List.map_nil,
    List.map_flatMap, List.flatMap_map, List.map_map, start, readLine?_defaults h.nodeShape,
    constants, rank, readLine?_edgeLine h, roots, rootEdges, finish, Function.comp_def]

/-- The statements of a drawing make up its graph. -/
theorem ofStatements?_statements (d : Drawing) :
    ofStatements? none d.statements.tail = some d.graph := by
  have finish : ofStatements? none [.close] = some ⟨[], []⟩ := rfl
  have rootEdges := ofStatements?_edges (d.roots.mapIdx dotRootEdge) finish
  have roots := ofStatements?_groups [dotRoots d.roots] rootEdges
  have edges := ofStatements?_edges (dotEdges d.ranks) roots
  have groups := ofStatements?_groups (dotConstants :: d.ranks.map dotRank) edges
  simp only [List.flatMap_cons, List.flatMap_nil, List.append_nil, List.append_assoc] at groups
  simpa [statements, graph, ofStatements?] using groups

/-- **The text of a drawing describes its graph.** -/
theorem ofText?_text (h : PlainStyle style) (d : Drawing) :
    ofText? (d.text style) = some d.graph := by
  rw [ofText?, text, mapM_linesOf (map_readLine?_lines h d)]
  exact ofStatements?_statements d

end Drawing

end ZoneDiagram

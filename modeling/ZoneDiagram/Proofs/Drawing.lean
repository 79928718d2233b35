import ZoneDiagram.Proofs.Drawing.Labels
import ZoneDiagram.Proofs.Drawing.Nodes
import ZoneDiagram.Proofs.Reduction

/-!
# Drawings are faithful

**Theorem (`Reachable.draw_faithful`).** In every reachable manager, live diagrams can be drawn. The
text of the drawing is the same in whatever order the visited nodes are given, and the graph that is
read from it shows the diagrams (`DotGraph.Shows`): no name is declared twice, every decision node
below the roots is declared in the group of its level, edges lead between declared names, and each
root denotes the truth of its diagram under every valuation.

A name denotes one value only (`Draws.eq_nameValue_of_denotes`), by induction on the way that the
edges lead: the value of a slot is the truth of its node, and the dots on the way are the
complements. That it denotes a value at all is by induction on the levels of nodes
(`Draws.denotes_slot`). Where an edge is left out, the child is the empty federation, and the absent
interval denotes the same.
-/

namespace ZoneDiagram

open CutList DotGraph

/-! ## Drawn edges -/

namespace Drawing

variable {showZeroEdges : Bool} {lower : Option Bound} {ps : CutList Handle} {x : DrawnEdge}

/-- An edge is drawn unless it leads to the empty federation and those edges are left out. -/
theorem mem_drawnEdges : x ∈ drawnEdges showZeroEdges lower ps ↔
    (x.lower, ⟨x.child, x.upper⟩) ∈ intervals lower ps ∧
      (x.child = .zero → showZeroEdges = true) := by
  induction ps generalizing lower with
  | nil => simp [drawnEdges, intervals]
  | cons p ps ih =>
    have head : (x.lower, ⟨x.child, x.upper⟩) = (lower, p) ↔ x = ⟨lower, p.upper, p.item⟩ := by
      obtain ⟨lo, upper, child⟩ := x
      obtain ⟨item, bound⟩ := p
      simp only [Prod.mk.injEq, Piece.mk.injEq, DrawnEdge.mk.injEq]
      exact and_congr_right fun _ => and_comm
    rw [intervals, List.mem_cons, head, drawnEdges]
    split
    next skipped =>
      obtain ⟨zero, hidden⟩ := skipped
      rw [ih]
      refine and_congr_left fun shown => (or_iff_right fun eq => ?_).symm
      rw [eq] at shown
      simp [shown zero] at hidden
    next drawn =>
      have shown : p.item = .zero → showZeroEdges = true := by simpa using drawn
      rw [List.mem_cons, ih, or_and_right]
      refine or_congr_left (and_iff_left_of_imp fun eq zero => shown ?_).symm
      rw [← zero, eq]

theorem mapIdx_eq_map_range {α β : Type} (f : Nat → β) (l : List α) :
    l.mapIdx (fun k _ => f k) = (List.range l.length).map f :=
  List.ext_getElem (by simp) (by simp)

/-- The names of the nodes of a drawing. -/
def names (d : Drawing) : List DrawnName :=
  [.slot 0, .slot 1] ++ (d.ranks.flatMap fun rank => rank.nodes.map fun node => .slot node.slot) ++
    (List.range d.roots.length).map .root

theorem names_graph (d : Drawing) : d.graph.names = d.names.map DrawnName.text := by
  have roots : (dotRoots d.roots).nodes.map DotNode.name =
      ((List.range d.roots.length).map DrawnName.root).map DrawnName.text := by
    rw [List.map_map, ← mapIdx_eq_map_range]
    simp [dotRoots, List.mapIdx_eq_zipIdx_map, dotRoot]
  have constants : dotConstants.nodes.map DotNode.name =
      [DrawnName.slot 0, .slot 1].map DrawnName.text := rfl
  simp only [DotGraph.names, graph, names, List.flatMap_append, List.flatMap_cons, List.flatMap_nil,
    constants, roots, List.map_append, List.append_nil, List.flatMap_map, List.map_flatMap]
  simp [dotRank, dotNode, Function.comp_def]

end Drawing

/-! ## Truth -/

namespace Manager

variable {m : Manager} {roots : List Handle} {d : Drawing} {showZeroEdges : Bool} {s : Nat}
  {f : Handle} {v : Valuation}

theorem eval_regular {y : Assignment} (hf : f.slot ≠ 0) :
    m.eval y f.regular = (f.isNegated ^^ m.eval y f) := by
  cases sign : f.isNegated with
  | false =>
    have same := Handle.applySign_regular f
    rw [Handle.applySign_of_isNegated_eq_false sign] at same
    rw [same, Bool.false_xor]
  | true =>
    have same := Handle.applySign_regular f
    rw [Handle.applySign_of_isNegated sign] at same
    rw [← Handle.neg_neg f.regular, same, eval_neg m y hf, Bool.true_xor]

/-- The children of a drawn node are drawn, unless they are constants. -/
theorem DrawnSlot.child {e : Edge} (hs : m.DrawnSlot roots s) (hm : m.Nodes)
    (hr : ∀ f ∈ roots, m.Live f) (he : e ∈ (m.nodeOf (.ofSlot s)).edges)
    (inner : e.item.isTerminal = false) : m.DrawnSlot roots e.item.slot := by
  obtain ⟨seen, found, reached⟩ := hm.reach_eq_ok hr
  obtain ⟨-, -, closed⟩ := reach_closed hm hr found
  have node := (hs.live hm hr).get?
  rw [Handle.slot_ofSlot] at node
  have ne := Handle.isTerminal_eq_false_iff.1 inner
  have mem := closed ((reached s).2 (.inr hs.2)) node e he
  exact ⟨ne, ((reached _).1 mem).resolve_left ne⟩

theorem DrawnSlot.proper (hs : m.DrawnSlot roots s) (hm : m.Nodes) (hr : ∀ f ∈ roots, m.Live f) :
    Proper (m.nodeOf (.ofSlot s)).edges :=
  (hm.canonical_nodeOf (hs.live hm hr) hs.isTerminal).1.proper

/-- The truth of a drawn node is that of the child whose interval contains its difference. -/
theorem DrawnSlot.eval {lower : Option Bound} {e : Edge} (hs : m.DrawnSlot roots s) (hm : m.Nodes)
    (hr : ∀ f ∈ roots, m.Live f) (y : Assignment)
    (he : (lower, e) ∈ intervals none (m.nodeOf (.ofSlot s)).edges)
    (between : Between lower e.upper (y (m.levelOf (.ofSlot s)))) :
    m.eval y (.ofSlot s) = m.eval y e.item := by
  have live := hs.live hm hr
  have edges := edgesOf_of_isNegated_eq_false (m := m) (Handle.isNegated_regular (.ofSlot s))
  rw [Handle.regular, Handle.slot_ofSlot] at edges
  have item := itemAt?_of_between (hs.proper hm hr).ascending he between
  have child : m.Live e.item := hm.live_child live (mem_of_mem_intervals he)
  rw [hm.eval_eq live, hm.unfold_of_inner live hs.isTerminal, Diagram.eval_node, itemAt?_mapItems,
    edges, item, hm.eval_eq child]
  rfl

/-- The label of a drawn edge contains the values of its interval. -/
theorem DrawnSlot.covers_iff {x : DrawnEdge} {y : ℚ} (hs : m.DrawnSlot roots s) (hm : m.Nodes)
    (hr : ∀ f ∈ roots, m.Live f)
    (hx : x ∈ Drawing.drawnEdges showZeroEdges none (m.nodeOf (.ofSlot s)).edges) :
    (Drawing.dotEdge s x).Covers y ↔ Between x.lower x.upper y :=
  Drawing.covers_dotEdge_iff
    ((hs.proper hm hr).ascending.isInfinity_eq_false (Drawing.mem_drawnEdges.1 hx).1)

/-! ## Names -/

/-- The truth of what a name stands for. -/
def nameValue (m : Manager) (roots : List Handle) (v : Valuation) : DrawnName → Bool
  | .slot s => if s = 0 then false else m.eval v.differences (.ofSlot s)
  | .root k => (roots[k]?.map (m.eval v.differences)).getD false

theorem nameValue_target (hm : m.Nodes) (hf : m.Live f) (v : Valuation) :
    m.nameValue roots v (Drawing.target f) = (Drawing.dotted f ^^ m.eval v.differences f) := by
  by_cases zero : f = .zero
  · subst zero
    rfl
  · have slot := hm.slot_ne_zero hf
    simp only [nameValue, Drawing.target, Drawing.dotted, if_neg zero, if_neg slot]
    rw [decide_eq_true zero, Bool.true_and]
    exact eval_regular slot

theorem nameValue_slot (hm : m.Nodes) (hs : m.Live (.ofSlot s)) :
    m.nameValue roots v (.slot s) = m.eval v.differences (.ofSlot s) :=
  if_neg (Handle.slot_ofSlot s ▸ hm.slot_ne_zero hs)

theorem nameValue_root {k : Nat} (hk : k < roots.length) :
    m.nameValue roots v (.root k) = m.eval v.differences roots[k] := by
  rw [nameValue, List.getElem?_eq_getElem hk]
  rfl

/-- Where an edge to a diagram leads, the truth of the diagram is denoted up to a dot, if that of
its decision node is. -/
theorem denotes_target (hm : m.Nodes) (hf : m.Live f) (h : f.isTerminal = false →
    d.graph.Denotes v (DrawnName.slot f.slot).text (m.eval v.differences (.ofSlot f.slot))) :
    d.graph.Denotes v (Drawing.target f).text (Drawing.dotted f ^^ m.eval v.differences f) := by
  cases inner : f.isTerminal with
  | true =>
    rcases Handle.eq_one_or_eq_zero inner with rfl | rfl
    · exact .one
    · exact .zero
  | false =>
    have ne : f ≠ .zero := by
      rintro rfl
      cases inner
    rw [Drawing.target, if_neg ne, Drawing.dotted, decide_eq_true ne, Bool.true_and,
      ← eval_regular (hm.slot_ne_zero hf)]
    exact h inner

/-! ## What a drawing declares -/

namespace Draws

variable (hd : m.Draws showZeroEdges roots d)
include hd

theorem mem_edges {e : DotEdge} : e ∈ d.graph.edges ↔
    (∃ s x, m.DrawnSlot roots s ∧
      x ∈ Drawing.drawnEdges showZeroEdges none (m.nodeOf (.ofSlot s)).edges ∧
      e = Drawing.dotEdge s x) ∨
    ∃ k, ∃ h : k < roots.length, e = Drawing.dotRootEdge k roots[k] := by
  simp only [Drawing.graph, Drawing.dotEdges, List.mem_append, List.mem_flatMap, List.mem_map,
    hd.roots_eq, List.mem_mapIdx]
  constructor
  · rintro (⟨rank, hrank, node, hnode, x, hx, rfl⟩ | ⟨k, hk, rfl⟩)
    · obtain ⟨s, hs, -, rfl⟩ := (hd.nodes rank hrank node).1 hnode
      exact .inl ⟨s, x, hs, hx, rfl⟩
    · exact .inr ⟨k, hk, rfl⟩
  · rintro (⟨s, x, hs, hx, rfl⟩ | ⟨k, hk, rfl⟩)
    · obtain ⟨rank, hrank, level⟩ := hd.complete s hs
      exact .inl ⟨rank, hrank, _, (hd.nodes rank hrank _).2 ⟨s, hs, level.symm, rfl⟩, x, hx, rfl⟩
    · exact .inr ⟨k, hk, rfl⟩

theorem mem_names {x : DrawnName} : x ∈ d.names ↔
    (∃ s, (s = 0 ∨ s = 1 ∨ m.DrawnSlot roots s) ∧ x = .slot s) ∨
      ∃ k < roots.length, x = .root k := by
  simp only [Drawing.names, List.mem_append, List.mem_cons, List.not_mem_nil, or_false,
    List.mem_flatMap, List.mem_map, List.mem_range, hd.roots_eq]
  constructor
  · rintro (((rfl | rfl) | ⟨rank, hrank, node, hnode, rfl⟩) | ⟨k, hk, rfl⟩)
    · exact .inl ⟨0, .inl rfl, rfl⟩
    · exact .inl ⟨1, .inr (.inl rfl), rfl⟩
    · obtain ⟨s, hs, -, rfl⟩ := (hd.nodes rank hrank node).1 hnode
      exact .inl ⟨s, .inr (.inr hs), rfl⟩
    · exact .inr ⟨k, hk, rfl⟩
  · rintro (⟨s, rfl | rfl | hs, rfl⟩ | ⟨k, hk, rfl⟩)
    · exact .inl (.inl (.inl rfl))
    · exact .inl (.inl (.inr rfl))
    · obtain ⟨rank, hrank, level⟩ := hd.complete s hs
      exact .inl (.inr ⟨rank, hrank, _, (hd.nodes rank hrank _).2 ⟨s, hs, level.symm, rfl⟩, rfl⟩)
    · exact .inr ⟨k, hk, rfl⟩

/-- A slot is drawn in the rank of its level only. -/
theorem nodup_slots : (d.ranks.flatMap fun rank => rank.nodes.map (·.slot)).Nodup := by
  refine List.nodup_flatMap.2 ⟨hd.slots, (List.pairwise_map.1 hd.levels).imp_of_mem ?_⟩
  intro r r' hr hr' ne s hs hs'
  obtain ⟨node, hnode, rfl⟩ := List.mem_map.1 hs
  obtain ⟨node', hnode', same⟩ := List.mem_map.1 hs'
  obtain ⟨t, -, level, rfl⟩ := (hd.nodes r hr node).1 hnode
  obtain ⟨t', -, level', rfl⟩ := (hd.nodes r' hr' node').1 hnode'
  obtain rfl : t' = t := same
  exact ne (level.symm.trans level')

section

variable (hm : m.Nodes) (hr : ∀ f ∈ roots, m.Live f)
include hm hr

/-- Names are not declared twice. -/
theorem nodup_names : d.names.Nodup := by
  have slots : (d.ranks.flatMap fun rank => rank.nodes.map fun node =>
      DrawnName.slot node.slot).Nodup := by
    have named := hd.nodup_slots.map (f := DrawnName.slot) fun _ _ eq => DrawnName.slot.inj eq
    simpa only [List.map_flatMap, List.map_map, Function.comp_def] using named
  have roots : ((List.range d.roots.length).map DrawnName.root).Nodup :=
    List.nodup_range.map fun _ _ eq => DrawnName.root.inj eq
  refine List.nodup_append.2 ⟨List.nodup_append.2 ⟨by decide, slots, ?_⟩, roots, ?_⟩
  · rintro x constant y drawn rfl
    obtain ⟨rank, hrank, drawn⟩ := List.mem_flatMap.1 drawn
    obtain ⟨node, hnode, rfl⟩ := List.mem_map.1 drawn
    obtain ⟨s, hs, -, rfl⟩ := (hd.nodes rank hrank node).1 hnode
    have ne := hm.slot_ne_zero (hs.live hm hr)
    rw [Handle.slot_ofSlot] at ne
    simp [ne, show s ≠ 1 from hs.1] at constant
  · rintro x first y root rfl
    obtain ⟨k, -, rfl⟩ := List.mem_map.1 root
    simp at first

/-- Only drawn slots have a label that stands for a difference, and it is that of their level. -/
theorem tests_iff {name : String} {y : ℚ} :
    d.graph.Tests v name y ↔ ∃ s, m.DrawnSlot roots s ∧ (DrawnName.slot s).text = name ∧
      y = v.differences (m.levelOf (.ofSlot s)) := by
  have differences (rank : Rank) (s) (hs : m.DrawnSlot roots s)
      (level : m.levelOf (.ofSlot s) = rank.pair.level) :
      v.differences (m.levelOf (.ofSlot s)) = v rank.pair.i - v rank.pair.j := by
    have lt := (hm.canonical_nodeOf (hs.live hm hr) hs.isTerminal).2
    rw [level] at lt ⊢
    obtain ⟨pair, ok, -, same⟩ := ClockPair.ofLevel_eq_ok hm.few lt
    obtain rfl := ClockPair.level_injective same
    exact Diagram.differences_of_ofLevel ok v
  constructor
  -- The labels of constants and roots name no pair of clocks.
  · rintro ⟨group, hgroup, node, hnode, rfl, i, j, clocks, rfl⟩
    rcases List.mem_append.1 hgroup with hgroup | hgroup
    · rcases List.mem_cons.1 hgroup with rfl | hgroup
      · have none : ∀ node ∈ Drawing.dotConstants.nodes, '-' ∉ node.label.toList := by decide
        rw [Drawing.clocks?_eq_none (none node hnode)] at clocks
        cases clocks
      · obtain ⟨rank, hrank, rfl⟩ := List.mem_map.1 hgroup
        obtain ⟨drawn, hdrawn, rfl⟩ := List.mem_map.1 hnode
        obtain ⟨s, hs, level, rfl⟩ := (hd.nodes rank hrank drawn).1 hdrawn
        rw [Drawing.dotNode, Drawing.clocks?_text] at clocks
        cases clocks
        exact ⟨s, hs, rfl, (differences rank s hs level).symm⟩
    · obtain rfl := List.mem_singleton.1 hgroup
      obtain ⟨k, hk, rfl⟩ := List.mem_mapIdx.1 hnode
      rw [Drawing.dotRoot, Drawing.clocks?_text_handle] at clocks
      cases clocks
  · rintro ⟨s, hs, rfl, rfl⟩
    obtain ⟨rank, hrank, level⟩ := hd.complete s hs
    have hnode := (hd.nodes rank hrank _).2 ⟨s, hs, level.symm, rfl⟩
    refine ⟨Drawing.dotRank rank, ?_, _, List.mem_map_of_mem hnode, rfl, _, _,
      Drawing.clocks?_text rank.pair, differences rank s hs level.symm⟩
    exact List.mem_append_left _ (List.mem_cons_of_mem _ (List.mem_map_of_mem hrank))

/-- The interval that contains a value is absent if the edge is left out. -/
theorem uncovered_iff {y : ℚ} (hs : m.DrawnSlot roots s) :
    (∀ e ∈ d.graph.edges, e.source = (DrawnName.slot s).text → ¬ e.Covers y) ↔
      ∀ x ∈ Drawing.drawnEdges showZeroEdges none (m.nodeOf (.ofSlot s)).edges,
        ¬ Between x.lower x.upper y := by
  constructor
  · intro h x hx between
    exact h _ (hd.mem_edges.2 (.inl ⟨s, x, hs, hx, rfl⟩)) rfl
      ((hs.covers_iff hm hr hx).2 between)
  · intro h e he source covers
    obtain ⟨t, x, ht, hx, rfl⟩ | ⟨k, hk, rfl⟩ := hd.mem_edges.1 he
    · obtain ⟨rfl⟩ : DrawnName.slot t = .slot s := DrawnName.text_injective source
      exact h x hx ((hs.covers_iff hm hr hx).1 covers)
    · cases DrawnName.text_injective (x := .root k) (y := .slot s) source

/-! ## What a drawing denotes -/

/-- A name denotes the truth of what it stands for, and nothing else. -/
theorem eq_nameValue_of_denotes {name : String} {b : Bool} (h : d.graph.Denotes v name b)
    (x : DrawnName) (eq : x.text = name) : b = m.nameValue roots v x := by
  -- The induction is on how the value came about; every rule fits one kind of names.
  induction h generalizing x with
  | zero =>
    obtain rfl : x = .slot 0 := DrawnName.text_injective eq
    rfl
  | one =>
    obtain rfl : x = .slot 1 := DrawnName.text_injective eq
    rfl
  | @lead e b edge plain target ih =>
    obtain ⟨s, c, -, -, rfl⟩ | ⟨k, hk, rfl⟩ := hd.mem_edges.1 edge
    · cases plain
    · obtain rfl : x = .root k := DrawnName.text_injective eq
      have live := hr roots[k] (List.getElem_mem hk)
      rw [nameValue_root hk, ih (Drawing.target roots[k]) rfl, nameValue_target hm live]
      simp [Drawing.dotRootEdge]
  | @follow e y b tests edge covers target ih =>
    obtain ⟨s, c, hs, hc, rfl⟩ | ⟨k, hk, rfl⟩ := hd.mem_edges.1 edge
    · obtain rfl : x = .slot s := DrawnName.text_injective eq
      obtain ⟨t, ht, same, rfl⟩ := (hd.tests_iff hm hr).1 tests
      obtain ⟨rfl⟩ : DrawnName.slot t = .slot s := DrawnName.text_injective same
      have mem := (Drawing.mem_drawnEdges.1 hc).1
      have value := hs.eval hm hr _ mem ((hs.covers_iff hm hr hc).1 covers)
      have live : m.Live c.child := hm.live_child (hs.live hm hr) (mem_of_mem_intervals mem)
      rw [nameValue_slot hm (hs.live hm hr), value, ih (Drawing.target c.child) rfl,
        nameValue_target hm live]
      simp [Drawing.dotEdge]
    · obtain ⟨label, -, -, none, -⟩ := covers
      cases none
  | @absent name y tests uncovered =>
    obtain ⟨s, hs, rfl, rfl⟩ := (hd.tests_iff hm hr).1 tests
    obtain rfl : x = .slot s := DrawnName.text_injective eq
    obtain ⟨⟨lo, e⟩, ⟨mem, between⟩, -⟩ :=
      (hs.proper hm hr).existsUnique_interval (v.differences (m.levelOf (.ofSlot s)))
    -- The piece of the difference is not drawn, and only edges to zero are left out.
    have zero : e.item = .zero := by
      by_contra ne
      have drawn : (⟨lo, e.upper, e.item⟩ : DrawnEdge) ∈
          Drawing.drawnEdges showZeroEdges none (m.nodeOf (.ofSlot s)).edges :=
        Drawing.mem_drawnEdges.2 ⟨mem, fun zero => absurd zero ne⟩
      exact (hd.uncovered_iff hm hr hs).1 uncovered _ drawn between
    rw [nameValue_slot hm (hs.live hm hr), hs.eval hm hr _ mem between, zero]
    rfl

/-- A node denotes what the child denotes to which a drawn edge leads. -/
theorem denotes_of_shown {e : DrawnEdge} (hs : m.DrawnSlot roots s)
    (he : e ∈ Drawing.drawnEdges showZeroEdges none (m.nodeOf (.ofSlot s)).edges)
    (between : Between e.lower e.upper (v.differences (m.levelOf (.ofSlot s))))
    (target : d.graph.Denotes v (Drawing.target e.child).text
      (Drawing.dotted e.child ^^ m.eval v.differences e.child)) :
    d.graph.Denotes v (DrawnName.slot s).text (m.eval v.differences e.child) := by
  have follow := Denotes.follow ((hd.tests_iff hm hr).2 ⟨s, hs, rfl, rfl⟩)
    (hd.mem_edges.2 (.inl ⟨s, e, hs, he, rfl⟩)) ((hs.covers_iff hm hr he).2 between) target
  simpa [Drawing.dotEdge] using follow

/-- A node denotes the empty federation if the edge whose interval contains the value is left
out. -/
theorem denotes_of_hidden {lo : Option Bound} {e : Edge} (hs : m.DrawnSlot roots s)
    (mem : (lo, e) ∈ intervals none (m.nodeOf (.ofSlot s)).edges)
    (between : Between lo e.upper (v.differences (m.levelOf (.ofSlot s))))
    (zero : e.item = .zero) (hidden : showZeroEdges ≠ true) :
    d.graph.Denotes v (DrawnName.slot s).text false := by
  refine .absent ((hd.tests_iff hm hr).2 ⟨s, hs, rfl, rfl⟩)
    ((hd.uncovered_iff hm hr hs).2 fun x hx between' => hidden ?_)
  obtain ⟨mem', shown⟩ := Drawing.mem_drawnEdges.1 hx
  have same : (x.lower, ⟨x.child, x.upper⟩) = (lo, e) :=
    ((hs.proper hm hr).existsUnique_interval _).unique ⟨mem', between'⟩ ⟨mem, between⟩
  exact shown ((congrArg (fun c => c.2.item) same).trans zero)

/-- Every drawn node denotes its truth. -/
theorem denotes_slot (v : Valuation) (hs : m.DrawnSlot roots s) :
    d.graph.Denotes v (DrawnName.slot s).text (m.eval v.differences (.ofSlot s)) := by
  have all := hm.induct (P := fun f => m.DrawnSlot roots f.slot →
    d.graph.Denotes v (DrawnName.slot f.slot).text (m.eval v.differences (.ofSlot f.slot)))
    (fun f hf ih hs => ?_) (hs.live hm hr)
  · rw [Handle.slot_ofSlot] at all
    exact all hs
  obtain ⟨⟨lo, e⟩, ⟨mem, between⟩, -⟩ :=
    (hs.proper hm hr).existsUnique_interval (v.differences (m.levelOf (.ofSlot f.slot)))
  have he := mem_of_mem_intervals mem
  rw [hs.eval hm hr v.differences mem between]
  by_cases shown : e.item = .zero → showZeroEdges = true
  · have drawn : (⟨lo, e.upper, e.item⟩ : DrawnEdge) ∈
        Drawing.drawnEdges showZeroEdges none (m.nodeOf (.ofSlot f.slot)).edges :=
      Drawing.mem_drawnEdges.2 ⟨mem, shown⟩
    refine hd.denotes_of_shown hm hr hs drawn between ?_
    refine denotes_target hm (hm.live_child (hs.live hm hr) he) fun inner => ?_
    have child := ih ⟨f.applySign e.item, e.upper⟩ (List.mem_map_of_mem he)
    rw [Handle.slot_applySign] at child
    exact child (hs.child hm hr he inner)
  · obtain ⟨zero, hidden⟩ := Classical.not_imp.1 shown
    have absent := hd.denotes_of_hidden hm hr hs mem between zero hidden
    rw [zero]
    exact absent

/-- Every root denotes the truth of its diagram, and nothing else. -/
theorem denotes_root_iff {k : Nat} (hk : k < roots.length) {b : Bool} :
    d.graph.Denotes v (DrawnName.root k).text b ↔ b = m.eval v.differences roots[k] := by
  constructor
  · intro h
    rw [hd.eq_nameValue_of_denotes hm hr h (.root k) rfl, nameValue_root hk]
  · rintro rfl
    have mem := List.getElem_mem hk
    have live := hr roots[k] mem
    have target := denotes_target hm live fun inner =>
      hd.denotes_slot hm hr v ⟨Handle.isTerminal_eq_false_iff.1 inner, _, mem, _, .root _, rfl⟩
    have lead := Denotes.lead (hd.mem_edges.2 (.inr ⟨k, hk, rfl⟩)) rfl target
    simpa [Drawing.dotRootEdge] using lead

end

end Draws

end Manager

/-! ## Faithful drawings -/

open Manager

/-- What a graph must say about diagrams to show them. -/
structure DotGraph.Shows (g : DotGraph) (m : Manager) (roots : List Handle) : Prop where
  /-- No name is declared twice. -/
  nodup : g.names.Nodup
  /-- Every decision node below the roots is declared in a rank. -/
  declared : ∀ s, m.DrawnSlot roots s →
    ∃ group ∈ g.groups, group.place = "same" ∧ ∃ node ∈ group.nodes, node.name = toString s
  /-- A rank has the decision nodes of one level, labelled with the pair of the level. -/
  ranks : ∀ group ∈ g.groups, group.place = "same" → group.nodes ≠ [] ∧
    ∃ pair : ClockPair, ∀ node, node ∈ group.nodes ↔
      ∃ s, m.DrawnSlot roots s ∧ m.levelOf (.ofSlot s) = pair.level ∧ node = ⟨toString s, pair.text⟩
  /-- Edges lead between declared names. -/
  edges : ∀ e ∈ g.edges, e.source ∈ g.names ∧ e.target ∈ g.names
  /-- Every root denotes the truth of its diagram, and nothing else. -/
  denotes : ∀ (v : Valuation) (k : Nat) (hk : k < roots.length) (b : Bool),
    g.Denotes v s!"r{k}" b ↔ b = m.eval v.differences roots[k]

namespace Manager

variable {m : Manager} {roots : List Handle} {d : Drawing} {showZeroEdges : Bool}

theorem Draws.shows (hd : m.Draws showZeroEdges roots d) (hm : m.Nodes)
    (hr : ∀ f ∈ roots, m.Live f) : d.graph.Shows m roots where
  nodup := by
    rw [Drawing.names_graph]
    exact (hd.nodup_names hm hr).map fun _ _ => DrawnName.text_injective
  declared s hs := by
    obtain ⟨rank, hrank, level⟩ := hd.complete s hs
    have hnode := (hd.nodes rank hrank _).2 ⟨s, hs, level.symm, rfl⟩
    exact ⟨Drawing.dotRank rank,
      List.mem_append_left _ (List.mem_cons_of_mem _ (List.mem_map_of_mem hrank)), rfl, _,
      List.mem_map_of_mem hnode, rfl⟩
  ranks group hgroup place := by
    rcases List.mem_append.1 hgroup with hgroup | hgroup
    · rcases List.mem_cons.1 hgroup with rfl | hgroup
      · exact absurd place (by decide)
      · obtain ⟨rank, hrank, rfl⟩ := List.mem_map.1 hgroup
        refine ⟨fun none => hd.nonempty rank hrank (List.map_eq_nil_iff.1 none), rank.pair,
          fun node => ?_⟩
        constructor
        · intro hnode
          obtain ⟨drawn, hdrawn, rfl⟩ := List.mem_map.1 hnode
          obtain ⟨s, hs, level, rfl⟩ := (hd.nodes rank hrank drawn).1 hdrawn
          exact ⟨s, hs, level, rfl⟩
        · rintro ⟨s, hs, level, rfl⟩
          exact List.mem_map_of_mem (f := Drawing.dotNode rank.pair)
            ((hd.nodes rank hrank _).2 ⟨s, hs, level, rfl⟩)
    · obtain rfl := List.mem_singleton.1 hgroup
      exact absurd place (show "source" ≠ "same" by decide)
  edges e he := by
    have declared {x : DrawnName} (hx : x ∈ d.names) : x.text ∈ d.graph.names := by
      rw [Drawing.names_graph]
      exact List.mem_map_of_mem hx
    -- An edge leads to a constant or to a node below the roots, and both are declared.
    have target {f : Handle} (h : f.isTerminal = false → m.DrawnSlot roots f.slot) :
        (Drawing.target f).text ∈ d.graph.names := by
      refine declared (hd.mem_names.2 (.inl ⟨_, ?_, rfl⟩))
      split
      · exact .inl rfl
      · cases inner : f.isTerminal with
        | true => exact .inr (.inl (Handle.isTerminal_iff.1 inner))
        | false => exact .inr (.inr (h inner))
    obtain ⟨s, x, hs, hx, rfl⟩ | ⟨k, hk, rfl⟩ := hd.mem_edges.1 he
    · have mem := mem_of_mem_intervals (Drawing.mem_drawnEdges.1 hx).1
      exact ⟨declared (hd.mem_names.2 (.inl ⟨s, .inr (.inr hs), rfl⟩)),
        target fun inner => hs.child hm hr mem inner⟩
    · exact ⟨declared (hd.mem_names.2 (.inr ⟨k, hk, rfl⟩)), target fun inner =>
        ⟨Handle.isTerminal_eq_false_iff.1 inner, _, List.getElem_mem hk, _, .root _, rfl⟩⟩
  denotes v k hk b := hd.denotes_root_iff hm hr hk

/-- Without other wishes the styles are plain words. -/
theorem plainStyle_default : Drawing.PlainStyle { showZeroEdges } := by
  cases showZeroEdges <;> constructor <;> decide

/-- **Drawings are faithful.** The text does not depend on the order of the visited nodes, and the
graph that is read from it shows the diagrams. -/
theorem Reachable.draw_faithful (h : m.Reachable) (hr : ∀ f ∈ roots, m.Live f)
    (showZeroEdges : Bool) :
    ∃ nodes text g, m.visited roots = .ok nodes ∧
      (∀ s, s ∈ nodes.map (·.slot) ↔ s = Handle.one.slot ∨ ∃ f ∈ roots, m.VisitsSlot f s) ∧
      m.draw roots { showZeroEdges } = .ok text ∧
      (∀ nodes', nodes'.Perm nodes → drawNodes roots { showZeroEdges } nodes' = .ok text) ∧
      DotGraph.ofText? text = some g ∧ g.Shows m roots := by
  have hm := h.sound.toNodes
  obtain ⟨nodes, d, read, visited, drawn, draws⟩ := hm.draw_eq_ok hr { showZeroEdges }
  refine ⟨nodes, _, d.graph, read, visited, ?_, drawn, d.ofText?_text plainStyle_default,
    draws.shows hm hr⟩
  rw [draw_eq, read]
  exact drawn nodes (.refl nodes)

/-- A box and its outside, drawn with all edges. The origin lies in the box. -/
theorem draw_faithful_box : (∀ f ∈ [⟨-7⟩, ⟨7⟩], box.Live f) ∧ ∃ nodes text g,
    box.visited [⟨-7⟩, ⟨7⟩] = .ok nodes ∧
    box.draw [⟨-7⟩, ⟨7⟩] { showZeroEdges := true } = .ok text ∧
    drawNodes [⟨-7⟩, ⟨7⟩] { showZeroEdges := true } nodes.reverse = .ok text ∧
    DotGraph.ofText? text = some g ∧ g.Shows box [⟨-7⟩, ⟨7⟩] ∧
    g.Denotes (fun _ => 0) "r0" true ∧ g.Denotes (fun _ => 0) "r1" false := by
  have live : ∀ f ∈ [⟨-7⟩, ⟨7⟩], box.Live f := by
    rintro f (_ | ⟨_, _ | ⟨_, ⟨⟩⟩⟩)
    · exact live_box
    · exact live_box.neg
  have inside : true = box.eval (Valuation.differences fun _ => 0) ⟨-7⟩ := by decide +kernel
  have outside : false = box.eval (Valuation.differences fun _ => 0) ⟨7⟩ := by decide +kernel
  obtain ⟨nodes, text, g, visited, -, drawn, order, read, shows⟩ :=
    reachable_box.draw_faithful live true
  exact ⟨live, nodes, text, g, visited, drawn, order _ nodes.reverse_perm, read, shows,
    (shows.denotes _ 0 (by decide) true).2 inside, (shows.denotes _ 1 (by decide) false).2 outside⟩

end Manager

end ZoneDiagram

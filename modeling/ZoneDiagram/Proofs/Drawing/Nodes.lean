import Mathlib.Data.List.Nodup
import Std.Data.TreeSet.Lemmas
import ZoneDiagram.Drawing
import ZoneDiagram.Proofs.Manager.Reach

/-!
# The nodes of a drawing

The nodes that are drawn are those below the roots, each in the rank of its level
(`Nodes.draw_eq_ok`). The drawing of some nodes does not depend on the order in which they are
given (`Drawing.ofNodes_perm`): levels are kept in an ordered set, and the nodes of a level are
sorted by their slots, which differ.
-/

namespace ZoneDiagram

/-- Steps that succeed make a list of their results. The results have the arguments as keys. -/
theorem mapM_eq_ok {α β : Type} {f : α → Except Error β} {l : List α} (key : β → α)
    {P : β → Prop} (h : ∀ a ∈ l, ∃ b, f a = .ok b ∧ key b = a ∧ P b) :
    ∃ bs, l.mapM f = .ok bs ∧ bs.map key = l ∧ ∀ b ∈ bs, P b := by
  induction l with
  | nil => exact ⟨[], rfl, rfl, nofun⟩
  | cons a l ih =>
    obtain ⟨b, hb, same, first⟩ := h a List.mem_cons_self
    obtain ⟨bs, hbs, keys, rest⟩ := ih fun c hc => h c (List.mem_cons_of_mem a hc)
    refine ⟨b :: bs, ?_, by rw [List.map_cons, same, keys], List.forall_mem_cons.2 ⟨first, rest⟩⟩
    rw [List.mapM_cons, hb, hbs]
    rfl

theorem nodup_toList (numbers : Std.TreeSet Nat) : numbers.toList.Nodup :=
  Std.TreeSet.distinct_toList.imp fun ne eq => ne (Std.LawfulEqOrd.compare_eq_iff_eq.2 eq)

namespace Drawing

variable {showZeroEdges : Bool} {roots : List Handle} {nodes nodes' : List StoredNode}
  {level : Nat}

/-! ## Order -/

/-- Nodes in the order of their slots. -/
def bySlot (nodes : List StoredNode) : List StoredNode :=
  nodes.mergeSort fun a b => decide (a.slot ≤ b.slot)

theorem bySlot_perm (nodes : List StoredNode) : (bySlot nodes).Perm nodes :=
  List.mergeSort_perm nodes _

/-- Nodes with different slots are sorted in one way. -/
theorem bySlot_eq_of_perm (perm : nodes.Perm nodes') (slots : (nodes.map (·.slot)).Nodup) :
    bySlot nodes = bySlot nodes' := by
  have sorted (nodes : List StoredNode) :
      (bySlot nodes).Pairwise fun a b => decide (a.slot ≤ b.slot) = true :=
    List.pairwise_mergeSort (fun a b c => by simpa using Nat.le_trans)
      (fun a b => by simpa using Nat.le_total a.slot b.slot) nodes
  refine List.Perm.eq_of_pairwise (fun a b ha hb le ge => ?_) (sorted nodes) (sorted nodes')
    ((bySlot_perm nodes).trans (perm.trans (bySlot_perm nodes').symm))
  have ha : a ∈ nodes := (bySlot_perm nodes).mem_iff.1 ha
  have hb : b ∈ nodes := perm.mem_iff.2 ((bySlot_perm nodes').mem_iff.1 hb)
  exact List.inj_on_of_nodup_map slots ha hb
    (Nat.le_antisymm (of_decide_eq_true le) (of_decide_eq_true ge))

/-- The nodes of one level by slot, and their edges. -/
def nodesAt (showZeroEdges : Bool) (nodes : List StoredNode) (level : Nat) : List DrawnNode :=
  (bySlot (nodes.filter (·.level == level))).map
    fun node => ⟨node.slot, drawnEdges showZeroEdges none node.edges⟩

/-- The levels of some nodes. -/
def levels (nodes : List StoredNode) : List Nat := (Std.TreeSet.ofList (nodes.map (·.level))).toList

theorem mem_levels : level ∈ levels nodes ↔ ∃ node ∈ nodes, node.level = level := by
  rw [levels, Std.TreeSet.mem_toList, Std.TreeSet.mem_ofList, List.contains_iff_mem, List.mem_map]

theorem levels_perm (perm : nodes.Perm nodes') : levels nodes = levels nodes' := by
  refine (Std.TreeSet.Equiv.of_forall_mem_iff fun level => ?_).toList_eq
  rw [Std.TreeSet.mem_ofList, Std.TreeSet.mem_ofList, List.contains_iff_mem, List.contains_iff_mem]
  exact (perm.map _).mem_iff

theorem rankOf_eq (showZeroEdges : Bool) (nodes : List StoredNode) (level : Nat) :
    rankOf showZeroEdges nodes level =
      (return ⟨← ClockPair.ofLevel level, nodesAt showZeroEdges nodes level⟩) := rfl

theorem ofNodes_eq (showZeroEdges : Bool) (roots : List Handle) (nodes : List StoredNode) :
    ofNodes showZeroEdges roots nodes =
      (return ⟨roots, ← (levels nodes).mapM (rankOf showZeroEdges nodes)⟩) := rfl

/-- **The drawing does not depend on the order of the nodes.** -/
theorem ofNodes_perm (showZeroEdges : Bool) (roots : List Handle) (perm : nodes.Perm nodes')
    (slots : (nodes.map (·.slot)).Nodup) :
    ofNodes showZeroEdges roots nodes = ofNodes showZeroEdges roots nodes' := by
  have ranks : rankOf showZeroEdges nodes = rankOf showZeroEdges nodes' := by
    funext level
    have sorted := bySlot_eq_of_perm (perm.filter (·.level == level))
      (slots.sublist (List.filter_sublist.map _))
    rw [rankOf_eq, rankOf_eq, nodesAt, nodesAt, sorted]
  rw [ofNodes_eq, ofNodes_eq, ranks, levels_perm perm]

/-! ## Ranks -/

/-- Nodes whose levels have pairs can be drawn, with one rank for each level. -/
theorem ofNodes_eq_ok (showZeroEdges : Bool) (roots : List Handle)
    (h : ∀ node ∈ nodes, ∃ pair, ClockPair.ofLevel node.level = .ok pair ∧
      pair.level = node.level) :
    ∃ ranks, ofNodes showZeroEdges roots nodes = .ok ⟨roots, ranks⟩ ∧
      (ranks.map fun rank => rank.pair.level) = levels nodes ∧
      ∀ rank ∈ ranks, rank.nodes = nodesAt showZeroEdges nodes rank.pair.level := by
  obtain ⟨ranks, drawn, keys, made⟩ :=
    mapM_eq_ok (f := rankOf showZeroEdges nodes) (l := levels nodes)
      (P := fun rank => rank.nodes = nodesAt showZeroEdges nodes rank.pair.level)
      (fun rank => rank.pair.level) fun level hlevel => by
        obtain ⟨node, hnode, rfl⟩ := mem_levels.1 hlevel
        obtain ⟨pair, found, same⟩ := h node hnode
        exact ⟨⟨pair, nodesAt showZeroEdges nodes node.level⟩, by rw [rankOf_eq, found]; rfl, same,
          by rw [same]⟩
  refine ⟨ranks, ?_, keys, made⟩
  rw [ofNodes_eq, drawn]
  rfl

theorem nodup_levels (nodes : List StoredNode) : (levels nodes).Nodup := nodup_toList _

theorem mem_nodesAt {drawn : DrawnNode} : drawn ∈ nodesAt showZeroEdges nodes level ↔
    ∃ node ∈ nodes, node.level = level ∧
      ⟨node.slot, drawnEdges showZeroEdges none node.edges⟩ = drawn := by
  simp only [nodesAt, List.mem_map, (bySlot_perm _).mem_iff, List.mem_filter, beq_iff_eq, and_assoc]

theorem nodup_slots_nodesAt (slots : (nodes.map (·.slot)).Nodup) (level : Nat) :
    ((nodesAt showZeroEdges nodes level).map (·.slot)).Nodup := by
  have sorted := (bySlot_perm (nodes.filter (·.level == level))).map StoredNode.slot
  rw [nodesAt, List.map_map]
  exact sorted.nodup_iff.2 (slots.sublist (List.filter_sublist.map _))

end Drawing

namespace Manager

variable {m : Manager} {roots : List Handle} {s : Nat}

/-! ## Nodes below roots -/

/-- The slot holds a decision node that a root visits. -/
def DrawnSlot (m : Manager) (roots : List Handle) (s : Nat) : Prop :=
  s ≠ Handle.one.slot ∧ ∃ f ∈ roots, m.VisitsSlot f s

/-- A slot with its node. -/
def storedNode (m : Manager) (s : Nat) : StoredNode :=
  ⟨s, m.levelOf (.ofSlot s), (m.nodeOf (.ofSlot s)).edges⟩

theorem VisitsSlot.live {f : Handle} (h : m.VisitsSlot f s) (hm : m.Nodes) (hf : m.Live f) :
    m.Live (.ofSlot s) := by
  obtain ⟨g, visits, rfl⟩ := h
  exact (visits.live hm hf).regular

theorem DrawnSlot.live (h : m.DrawnSlot roots s) (hm : m.Nodes) (hr : ∀ f ∈ roots, m.Live f) :
    m.Live (.ofSlot s) := by
  obtain ⟨-, f, hf, visits⟩ := h
  exact visits.live hm (hr f hf)

theorem DrawnSlot.isTerminal (h : m.DrawnSlot roots s) : (Handle.ofSlot s).isTerminal = false :=
  Handle.isTerminal_eq_false_iff.2 (by rw [Handle.slot_ofSlot]; exact h.1)

/-- The nodes that are visited are the terminal node and those below the roots. -/
theorem Nodes.visited_eq_ok (hm : m.Nodes) (hr : ∀ f ∈ roots, m.Live f) :
    ∃ nodes, m.visited roots = .ok nodes ∧ (nodes.map (·.slot)).Nodup ∧
      (∀ s, s ∈ nodes.map (·.slot) ↔ s = Handle.one.slot ∨ ∃ f ∈ roots, m.VisitsSlot f s) ∧
      ∀ node ∈ nodes, node = m.storedNode node.slot := by
  obtain ⟨seen, found, reached⟩ := hm.reach_eq_ok hr
  obtain ⟨nodes, read, slots, stored⟩ :=
    mapM_eq_ok (l := seen.toList) (P := fun node => node = m.storedNode node.slot)
      (f := fun slot => do
        let node ← m.node (.ofSlot slot)
        return (⟨slot, node.level, node.edges⟩ : StoredNode))
      StoredNode.slot fun s hs => by
        have live : m.Live (.ofSlot s) := by
          rcases (reached s).1 (Std.TreeSet.mem_toList.1 hs) with rfl | ⟨f, hf, visits⟩
          · exact hm.live_one
          · exact visits.live hm (hr f hf)
        exact ⟨m.storedNode s, by rw [hm.node_eq_ok live]; rfl, rfl, rfl⟩
  refine ⟨nodes, ?_, ?_, fun s => ?_, stored⟩
  · rw [visited, found]
    exact read
  · rw [slots]
    exact nodup_toList seen
  · rw [slots, Std.TreeSet.mem_toList]
    exact reached s

/-- A drawing shows the decision nodes below its roots, each in the rank of its level. -/
structure Draws (m : Manager) (showZeroEdges : Bool) (roots : List Handle) (d : Drawing) :
    Prop where
  roots_eq : d.roots = roots
  levels : (d.ranks.map fun rank => rank.pair.level).Nodup
  nonempty : ∀ rank ∈ d.ranks, rank.nodes ≠ []
  slots : ∀ rank ∈ d.ranks, (rank.nodes.map (·.slot)).Nodup
  nodes : ∀ rank ∈ d.ranks, ∀ node, node ∈ rank.nodes ↔
    ∃ s, m.DrawnSlot roots s ∧ m.levelOf (.ofSlot s) = rank.pair.level ∧
      ⟨s, Drawing.drawnEdges showZeroEdges none (m.nodeOf (.ofSlot s)).edges⟩ = node
  complete : ∀ s, m.DrawnSlot roots s → ∃ rank ∈ d.ranks, rank.pair.level = m.levelOf (.ofSlot s)

/-- What is drawn when some nodes are visited. The rest of `draw` follows the visit (`draw_eq`). -/
def drawNodes (roots : List Handle) (style : DrawingStyle) (nodes : List StoredNode) :
    Except Error String := do
  let decisions := nodes.filter (·.slot != Handle.one.slot)
  return (← Drawing.ofNodes style.showZeroEdges roots decisions).text style

theorem draw_eq (m : Manager) (roots : List Handle) (style : DrawingStyle) :
    m.draw roots style = m.visited roots >>= drawNodes roots style := rfl

theorem draws_of_levels {showZeroEdges : Bool} {nodes : List StoredNode} {ranks : List Rank}
    (slots : (nodes.map (·.slot)).Nodup)
    (drawn : ∀ node, node ∈ nodes ↔ ∃ s, m.DrawnSlot roots s ∧ m.storedNode s = node)
    (levels : (ranks.map fun rank => rank.pair.level) = Drawing.levels nodes)
    (made : ∀ rank ∈ ranks, rank.nodes = Drawing.nodesAt showZeroEdges nodes rank.pair.level) :
    m.Draws showZeroEdges roots ⟨roots, ranks⟩ where
  roots_eq := rfl
  levels := levels ▸ Drawing.nodup_levels nodes
  nonempty rank hrank := by
    have level : rank.pair.level ∈ Drawing.levels nodes := levels ▸ List.mem_map_of_mem hrank
    obtain ⟨node, hnode, same⟩ := Drawing.mem_levels.1 level
    rw [made rank hrank]
    exact List.ne_nil_of_mem (Drawing.mem_nodesAt.2 ⟨node, hnode, same, rfl⟩)
  slots rank hrank := by
    rw [made rank hrank]
    exact Drawing.nodup_slots_nodesAt slots rank.pair.level
  nodes rank hrank node := by
    rw [made rank hrank, Drawing.mem_nodesAt]
    constructor
    · rintro ⟨stored, hstored, level, rfl⟩
      obtain ⟨s, hs, rfl⟩ := (drawn stored).1 hstored
      exact ⟨s, hs, level, rfl⟩
    · rintro ⟨s, hs, level, rfl⟩
      exact ⟨m.storedNode s, (drawn _).2 ⟨s, hs, rfl⟩, level, rfl⟩
  complete s hs := by
    have level : m.levelOf (.ofSlot s) ∈ Drawing.levels nodes :=
      Drawing.mem_levels.2 ⟨m.storedNode s, (drawn _).2 ⟨s, hs, rfl⟩, rfl⟩
    rw [← levels] at level
    obtain ⟨rank, hrank, same⟩ := List.mem_map.1 level
    exact ⟨rank, hrank, same⟩

/-- **Live roots can be drawn**, and the text is the same for every order of the nodes that are
visited. -/
theorem Nodes.draw_eq_ok (hm : m.Nodes) (hr : ∀ f ∈ roots, m.Live f) (style : DrawingStyle) :
    ∃ nodes d, m.visited roots = .ok nodes ∧
      (∀ s, s ∈ nodes.map (·.slot) ↔ s = Handle.one.slot ∨ ∃ f ∈ roots, m.VisitsSlot f s) ∧
      (∀ nodes', nodes'.Perm nodes → drawNodes roots style nodes' = .ok (d.text style)) ∧
      m.Draws style.showZeroEdges roots d := by
  obtain ⟨nodes, read, slots, reached, stored⟩ := hm.visited_eq_ok hr
  let decisions := nodes.filter (·.slot != Handle.one.slot)
  have drawn (node : StoredNode) :
      node ∈ decisions ↔ ∃ s, m.DrawnSlot roots s ∧ m.storedNode s = node := by
    rw [List.mem_filter, bne_iff_ne]
    constructor
    · rintro ⟨hnode, ne⟩
      have visits := ((reached node.slot).1 (List.mem_map_of_mem hnode)).resolve_left ne
      exact ⟨node.slot, ⟨ne, visits⟩, (stored node hnode).symm⟩
    · rintro ⟨s, ⟨ne, visits⟩, rfl⟩
      obtain ⟨node, hnode, rfl⟩ := List.mem_map.1 ((reached s).2 (.inr visits))
      rw [← stored node hnode]
      exact ⟨hnode, ne⟩
  have distinct : (decisions.map (·.slot)).Nodup := slots.sublist (List.filter_sublist.map _)
  have pairs (node) (hnode : node ∈ decisions) :
      ∃ pair, ClockPair.ofLevel node.level = .ok pair ∧ pair.level = node.level := by
    obtain ⟨s, hs, rfl⟩ := (drawn node).1 hnode
    have lt := (hm.canonical_nodeOf (hs.live hm hr) hs.isTerminal).2
    obtain ⟨pair, found, -, level⟩ := ClockPair.ofLevel_eq_ok hm.few lt
    exact ⟨pair, found, level⟩
  obtain ⟨ranks, ok, levels, made⟩ := Drawing.ofNodes_eq_ok style.showZeroEdges roots pairs
  refine ⟨nodes, ⟨roots, ranks⟩, read, reached, fun nodes' perm => ?_,
    draws_of_levels distinct drawn levels made⟩
  -- The ranks depend on the set of the decisions only, not on their order.
  have same := Drawing.ofNodes_perm style.showZeroEdges roots
    (perm.filter (·.slot != Handle.one.slot)).symm distinct
  rw [drawNodes, ← same, ok]
  rfl

end Manager

end ZoneDiagram

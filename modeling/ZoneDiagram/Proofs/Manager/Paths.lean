import ZoneDiagram.Proofs.Diagram.Reduce
import ZoneDiagram.Proofs.Manager.Unfold

/-!
# Walks through a manager

What a client sees that walks down from a diagram by its levels and edges: the edge that a
difference selects, the bounds below a diagram, and the paths to the constants. Complements are
pushed down on the way, because the edges of a complemented diagram are complemented.

All of it is read off the tree of the diagram too, where reduction is understood. The last section
shows that the context of a reduction has room for constants up to `constantLimit`.
-/

namespace ZoneDiagram.Manager

open CutList

variable {m : Manager} {f g : Handle} {d : Assignment} {edges : CutList Handle} {level : Nat}
  {lo : Option Bound} {e : Edge} {K : Int} {tests : List Diagram.Test}

/-! ## Following an edge -/

/-- For every value of the difference, one edge of a decision has an interval that contains it. -/
theorem Nodes.existsUnique_edge (hm : m.Nodes) (hf : m.Live f) (inner : f.isTerminal = false)
    (read : m.edges f = .ok edges) (x : ℚ) :
    ∃! c, c ∈ intervals none edges ∧ Between c.1 c.2.upper x := by
  rw [hm.edges_eq_ok hf] at read
  cases read
  exact (hm.proper_edgesOf hf inner).existsUnique_interval x

/-- A decision has the truth of the child on the interval that contains the difference. -/
theorem Nodes.eval_of_between (hm : m.Nodes) (hf : m.Live f) (inner : f.isTerminal = false)
    (readLevel : m.level f = .ok level) (read : m.edges f = .ok edges)
    (he : (lo, e) ∈ intervals none edges) (h : Between lo e.upper (d level)) :
    m.eval d f = m.eval d e.item := by
  rw [hm.level_eq_ok hf] at readLevel
  rw [hm.edges_eq_ok hf] at read
  cases readLevel
  cases read
  have found := itemAt?_of_between (hm.proper_edgesOf hf inner).ascending he h
  have child := (hm.child hf (mem_of_mem_intervals he)).1
  rw [hm.eval_eq hf, hm.eval_eq child, hm.unfold_of_inner hf inner, Diagram.eval_node,
    itemAt?_mapItems, found]
  rfl

/-! ## The bounds below a diagram -/

/-- The diagrams that are met on the way down. -/
inductive Visits (m : Manager) : Handle → Handle → Prop
  | root (f : Handle) : Visits m f f
  | child {f g : Handle} {edges : CutList Handle} {e : Edge} (read : m.edges f = .ok edges)
      (he : e ∈ edges) (rest : Visits m e.item g) : Visits m f g

/-- What is visited is live. -/
theorem Visits.live (visits : m.Visits f g) (hm : m.Nodes) (hf : m.Live f) : m.Live g := by
  induction visits with
  | root f => exact hf
  | child read he _ ih =>
    rw [hm.edges_eq_ok hf] at read
    cases read
    exact ih (hm.child hf he).1

/-- The finite bounds below a diagram have at most the magnitude `K`. -/
def BoundsWithin (m : Manager) (K : Int) (f : Handle) : Prop :=
  ∀ g edges, m.Visits f g → m.edges g = .ok edges → ∀ e ∈ edges, e.upper.Within K

theorem BoundsWithin.child (h : m.BoundsWithin K f) (read : m.edges f = .ok edges)
    (he : e ∈ edges) : m.BoundsWithin K e.item := by
  intro g edges' visits
  exact h g edges' (.child read he visits)

/-- Bounds that are small in every node are small below every diagram. -/
theorem boundsWithin_of_nodes (h : ∀ slot < m.store.slots.size, ∀ node ∈ m.store.get? slot,
    ∀ e ∈ node.edges, e.upper.Within K) (f : Handle) : m.BoundsWithin K f := by
  intro g edges _ read e he
  obtain ⟨node, hnode, read⟩ := Except.bind_eq_ok_iff.1 read
  cases read
  obtain ⟨o, ho, rfl⟩ := List.mem_map.1 he
  obtain ⟨⟨held, next⟩, hheld, read⟩ := Except.bind_eq_ok_iff.1 hnode
  cases read
  cases held with
  | none => cases ho
  | some node =>
    have stored : m.store.get? g.slot = some node := SlotTable.get?_of_cell hheld
    exact h g.slot (SlotTable.lt_size_of_get? stored) node stored o ho

theorem Nodes.small_unfold (hm : m.Nodes) (hf : m.Live f) (h : m.BoundsWithin K f) :
    Diagram.Small K (m.unfold f) := by
  refine hm.induct (P := fun f => m.BoundsWithin K f → Diagram.Small K (m.unfold f))
    (fun f hf ih h => ?_) hf h
  cases inner : f.isTerminal with
  | true =>
    rw [unfold_of_isTerminal inner]
    exact .leaf _
  | false =>
    have read := hm.edges_eq_ok hf
    rw [hm.unfold_of_inner hf inner]
    refine .node (fun p hp => ?_) fun p hp => ?_ <;> obtain ⟨e, he, rfl⟩ := List.mem_map.1 hp
    · exact h f _ (.root f) read e he
    · exact ih e he (h.child read he)

/-! ## Paths -/

/-- The tests on the way from a diagram down to a constant. -/
inductive Path (m : Manager) : Handle → List Diagram.Test → Prop
  | constant {f : Handle} (h : f.isTerminal = true) : Path m f []
  | edge {f : Handle} {level : Nat} {edges : CutList Handle} {lo : Option Bound} {e : Edge}
      {tests : List Diagram.Test} (inner : f.isTerminal = false) (readLevel : m.level f = .ok level)
      (read : m.edges f = .ok edges) (he : (lo, e) ∈ intervals none edges)
      (rest : Path m e.item tests) : Path m f (⟨level, lo, e.upper⟩ :: tests)

theorem Nodes.path_unfold (hm : m.Nodes) (hf : m.Live f) (h : m.Path f tests) :
    Diagram.Path (m.unfold f) tests := by
  induction h with
  | constant terminal =>
    rw [unfold_of_isTerminal terminal]
    exact .leaf _
  | @edge f level edges lo e tests inner readLevel read he _ ih =>
    rw [hm.level_eq_ok hf] at readLevel
    rw [hm.edges_eq_ok hf] at read
    cases readLevel
    cases read
    rw [hm.unfold_of_inner hf inner]
    exact .edge (p := ⟨m.unfold e.item, e.upper⟩) (mem_intervals_mapItems m.unfold he)
      (ih (hm.child hf (mem_of_mem_intervals he)).1)

/-! ## Constants that add up -/

/-- The magnitude up to which constants add up without clamping on the way of a reduction. -/
def constantLimit (m : Manager) : Int := Bound.maxValue / (4 * m.dim * m.dim)

theorem constantLimit_nonneg (m : Manager) : 0 ≤ m.constantLimit :=
  Int.ediv_nonneg (by decide) (by positivity)

theorem constantLimit_mul_le (m : Manager) :
    4 * (m.dim * (m.dim * m.constantLimit)) ≤ Bound.maxValue := by
  have pos : (0 : Int) < m.dim := Int.ofNat_lt.2 m.dim_pos
  calc 4 * (m.dim * (m.dim * m.constantLimit)) = m.constantLimit * (4 * m.dim * m.dim) := by ring
    _ ≤ Bound.maxValue := Int.ediv_mul_le _ (by positivity)

/-- The limit leaves room for constants that are sums of as many constants as there are clocks. -/
theorem room_sums (m : Manager) : Dbm.Room m.dim (m.dim * m.constantLimit) := by
  have nonneg : 0 ≤ (m.dim : Int) * m.constantLimit :=
    mul_nonneg (Int.natCast_nonneg _) m.constantLimit_nonneg
  have total : 0 ≤ (m.dim : Int) * (m.dim * m.constantLimit) :=
    mul_nonneg (Int.natCast_nonneg _) nonneg
  have fits := m.constantLimit_mul_le
  exact ⟨nonneg, by linarith⟩

theorem room_constantLimit (m : Manager) : Dbm.Room m.dim m.constantLimit := by
  have pos : (1 : Int) ≤ m.dim := Int.ofNat_le.2 m.dim_pos
  refine ⟨m.constantLimit_nonneg, ?_⟩
  calc 2 * (m.dim * m.constantLimit) ≤ 2 * (m.dim * (m.dim * m.constantLimit)) := by
        have := mul_le_mul_of_nonneg_right pos m.room_sums.nonneg
        linarith
    _ ≤ Bound.maxValue := m.room_sums.small

theorem Nodes.dim_le (hm : m.Nodes) : m.dim ≤ maxClocks := Nat.max_le.2 ⟨hm.few, by decide⟩

theorem Nodes.ready_openContext (hm : m.Nodes) (room : Dbm.Room m.dim K) :
    Diagram.Ready m.clocks K m.openContext where
  settled := Dbm.settled_unconstrained m.dim_pos
  room := room
  clocks_le := Nat.le_max_left m.clocks 1
  few := hm.few

/-- No valuation is excluded by the context of a reduction. -/
theorem holds_openContext (m : Manager) (v : Valuation) : m.openContext.Holds v :=
  Dbm.holds_unconstrained m.dim_pos v

/-! ## Diagrams met in a context -/

/-- A live diagram, met in a context that has room for its constants. -/
structure MetIn (m : Manager) (K : Int) (ctx : Dbm) (f : Handle) : Prop where
  live : m.Live f
  ready : Diagram.Ready m.clocks K ctx
  small : Diagram.Small K (m.unfold f)

section MetIn

variable {ctx : Dbm} {pair : ClockPair} {c : Option Bound × Edge}

theorem MetIn.regular (h : m.MetIn K ctx f) (hm : m.Nodes) : m.MetIn K ctx f.regular where
  live := h.live.regular
  ready := h.ready
  small := by
    rcases hm.unfold_regular h.live with eq | eq <;> rw [eq]
    exacts [h.small, h.small.neg]

theorem Extends.metIn {m' : Manager} (h : m.Extends m') (hm : m.Nodes) (hf : m.MetIn K ctx f) :
    m'.MetIn K ctx f where
  live := h.live hf.live
  ready := h.clocks ▸ hf.ready
  small := h.unfold hm hf.live ▸ hf.small

/-- The edges divide the context. -/
theorem MetIn.divides (h : m.MetIn K ctx f) (hm : m.Nodes) (inner : f.isTerminal = false)
    (hpair : ClockPair.ofLevel (m.levelOf f) = .ok pair) :
    Dbm.Divides K ctx pair none (m.edgesOf f) := by
  have small := h.small
  rw [hm.unfold_of_inner h.live inner] at small
  exact h.ready.divides (hm.canonical_nodeOf h.live inner).2 (hm.proper_edgesOf h.live inner)
    (fun e he => small.root _ (List.mem_map_of_mem he)) hpair

/-- A child is met in what is left of the context on its interval. -/
theorem MetIn.child (h : m.MetIn K ctx f) (hm : m.Nodes) (inner : f.isTerminal = false)
    (hpair : ClockPair.ofLevel (m.levelOf f) = .ok pair)
    (hc : c ∈ intervals none (m.edgesOf f)) (admitted : ctx.admits pair c.1 c.2.upper) :
    m.MetIn K (ctx.restricted pair c.1 c.2.upper) c.2.item where
  live := (hm.child h.live (mem_of_mem_intervals hc)).1
  ready := h.ready.restricted ((h.divides hm inner hpair).cuttable hc) admitted
  small := by
    have small := h.small
    rw [hm.unfold_of_inner h.live inner] at small
    exact small.child (p := ⟨m.unfold c.2.item, c.2.upper⟩)
      (List.mem_map_of_mem (mem_of_mem_intervals hc))

end MetIn

end ZoneDiagram.Manager

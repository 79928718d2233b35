import ZoneDiagram.Manager.Basic

/-!
# The invariant of a manager

What every operation on live diagrams keeps: the nodes form levels, so that no path visits more
nodes than there are levels and one; every node is written in one way only; and no node is stored
twice.
-/

namespace ZoneDiagram

namespace Manager

/-- The diagram is rooted at a stored node. -/
def Live (m : Manager) (f : Handle) : Prop := (m.store.get? f.slot).isSome

/-- The edges of a stored decision: two at least, over the whole line, no two neighbours with the
same child, and a last child without complement. -/
structure Canonical (edges : CutList Handle) : Prop where
  two_le : 2 ≤ edges.length
  proper : edges.Proper
  merged : edges.Merged
  regular : ∀ e ∈ edges.getLast?, e.item.isNegated = false

/-- The first slot holds the terminal node. All other nodes are canonical decisions about clocks
that exist, whose children are stored and test later levels; and no two slots hold the same. -/
structure WellFormed (m : Manager) : Prop where
  terminal : m.store.get? Handle.one.slot = some .terminal
  canonical : ∀ ⦃slot node⦄, m.store.get? slot = some node → slot ≠ Handle.one.slot →
    Canonical node.edges ∧ node.level < ClockPair.count m.clocks
  below : ∀ ⦃slot node⦄, m.store.get? slot = some node → ∀ e ∈ node.edges,
    ∃ child, m.store.get? e.item.slot = some child ∧ node.level < child.level
  unique : ∀ ⦃s t node⦄, m.store.get? s = some node → m.store.get? t = some node → s = t

end Manager

end ZoneDiagram

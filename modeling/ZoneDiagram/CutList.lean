import ZoneDiagram.Bound

/-!
# Cut lists

A cut list divides the line into intervals and carries an item on each. A piece covers the values
that meet its upper bound and break the upper bound of the piece before it. In a proper cut list
the bounds increase and the last one is infinite, so the pieces cover the line and do not overlap.
-/

namespace ZoneDiagram

/-- The item on one interval, given by its upper bound. -/
structure Piece (α : Type) where
  item : α
  upper : Bound
  deriving DecidableEq, Repr

/-- Intervals from left to right, with an item on each. -/
abbrev CutList (α : Type) := List (Piece α)

namespace CutList

variable {α β : Type}

/-- The bounds increase, and the last one is infinite. -/
def Proper : CutList α → Prop
  | [] => False
  | [p] => p.upper = .infinity
  | p :: q :: ps => p.upper < q.upper ∧ Proper (q :: ps)

/-- Whether a cut list is proper can be decided. -/
def decideProper : (pieces : CutList α) → Decidable (Proper pieces)
  | [] => inferInstanceAs (Decidable False)
  | [p] => inferInstanceAs (Decidable (p.upper = .infinity))
  | p :: q :: ps =>
    have := decideProper (q :: ps)
    inferInstanceAs (Decidable (p.upper < q.upper ∧ Proper (q :: ps)))

instance (pieces : CutList α) : Decidable (Proper pieces) := decideProper pieces

/-- No two neighbours carry the same item. -/
def Merged : CutList α → Prop
  | [] => True
  | [_] => True
  | p :: q :: ps => p.item ≠ q.item ∧ Merged (q :: ps)

/-- The same item on the whole line. -/
def whole (a : α) : CutList α := [⟨a, .infinity⟩]

/-- Apply a function to every item. -/
def mapItems (f : α → β) (pieces : CutList α) : CutList β :=
  pieces.map fun p => ⟨f p.item, p.upper⟩

/-- Extend the last piece to the end of the line. -/
def stretch : CutList α → CutList α
  | [] => []
  | [p] => [⟨p.item, .infinity⟩]
  | p :: q :: pieces => p :: stretch (q :: pieces)

/-- Put a piece in front of a merged cut list. A first piece with the same item swallows it. -/
def consMerged [BEq α] (p : Piece α) : CutList α → CutList α
  | [] => [p]
  | q :: pieces => if p.item == q.item then q :: pieces else p :: q :: pieces

/-- Merge neighbouring pieces with the same item. -/
def merge [BEq α] (pieces : CutList α) : CutList α := pieces.foldr consMerged []

/-- The cuts of both lists, with the items of both on every interval. Fails if a list ends before
the line does. -/
def refine : CutList α → CutList β → Except Error (CutList (α × β))
  | [], _ => .error .indexOutOfBounds
  | _ :: _, [] => .error .indexOutOfBounds
  | p :: ps, q :: qs =>
    let item := (p.item, q.item)
    if p.upper < q.upper then do return ⟨item, p.upper⟩ :: (← refine ps (q :: qs))
    else if q.upper < p.upper then do return ⟨item, q.upper⟩ :: (← refine (p :: ps) qs)
    else if p.upper.isInfinity then .ok [⟨item, p.upper⟩]
    else do return ⟨item, p.upper⟩ :: (← refine ps qs)
termination_by ps qs => ps.length + qs.length

end CutList

end ZoneDiagram

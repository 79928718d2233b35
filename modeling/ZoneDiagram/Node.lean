import ZoneDiagram.CutList
import ZoneDiagram.Digest

/-!
# Nodes

A decision node tests one clock difference, named by its level, and leads on by a cut list of
handles. The terminal node has a level past all others and no edges.

The digest of a node covers its level, the number of its edges, and every edge in turn.
-/

namespace ZoneDiagram

/-- An edge leads to a child for the values of the difference in one interval. -/
abbrev Edge := Piece Handle

/-- A node: the level of the difference that it tests, and its edges. -/
structure Node where
  level : Nat
  edges : CutList Handle
  deriving DecidableEq, Repr

namespace Node

/-- The terminal node, where every path ends. -/
def terminal : Node := ⟨ClockPair.terminalLevel, []⟩

instance : Inhabited Node := ⟨terminal⟩

/-- The node is past all levels. -/
def isTerminal (n : Node) : Bool := n.level == ClockPair.terminalLevel

/-- Fold one edge into a digest. -/
def digestEdge (acc : UInt64) (e : Edge) : UInt64 :=
  Digest.triple (Digest.mix acc) (Digest.word32 e.item.raw) (Digest.word32 e.upper.raw)

/-- The structural digest, which selects the bucket of a node. -/
def digest (n : Node) : UInt64 :=
  Digest.mix
    (n.edges.foldl digestEdge (Digest.pair n.level.toUInt64 n.edges.length.toUInt64))

instance : Hashable Node := ⟨digest⟩

end Node

/-- The largest slot that a handle can name. -/
def Handle.maxSlot : Nat := 2147483647

/-- The handle of a slot, if a handle can name it. -/
def Handle.ofSlot? (slot : Nat) : Except Error Handle :=
  if slot ≤ maxSlot then .ok (ofSlot slot) else .error .slotTooLarge

/-- The handle of a signed slot, if a handle can name the slot. -/
def Handle.ofRaw? (raw : Int) : Except Error Handle := do
  let f ← ofSlot? raw.natAbs
  return if raw < 0 then -f else f

end ZoneDiagram

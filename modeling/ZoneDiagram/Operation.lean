import ZoneDiagram.Handle.Basic
import ZoneDiagram.Digest

/-!
# Operations on diagrams

The binary connectives, the results that need no look at the nodes, and the keys under which
results are remembered. All connectives are commutative, so a key lists its operands in order.
-/

namespace ZoneDiagram

/-- A binary connective. -/
inductive Connective where
  | and
  | or
  | xor
  deriving DecidableEq, Repr

namespace Connective

/-- The connective on truth values. -/
def onBool : Connective → Bool → Bool → Bool
  | and, a, b => a && b
  | or, a, b => a || b
  | xor, a, b => a ^^ b

/-- The number of the connective. -/
def tag : Connective → UInt64
  | and => 0
  | or => 1
  | xor => 2

/-- The name of the connective. -/
def text : Connective → String
  | and => "And"
  | or => "Or"
  | xor => "Xor"

instance : ToString Connective := ⟨text⟩

/-- The result, if it is a constant, an operand or the complement of an operand: one operand is
constant, or the operands are the same up to complement. -/
def shortcut (op : Connective) (f g : Handle) : Option Handle :=
  match op with
  | and =>
    if f = .zero ∨ g = .zero ∨ f = -g then some .zero
    else if f = .one ∨ f = g then some g
    else if g = .one then some f
    else none
  | or =>
    if f = .one ∨ g = .one ∨ f = -g then some .one
    else if f = .zero ∨ f = g then some g
    else if g = .zero then some f
    else none
  | xor =>
    if f = g then some .zero
    else if f = -g then some .one
    else if f = .zero then some g
    else if g = .zero then some f
    else if f = .one then some (-g)
    else if g = .one then some (-f)
    else none

end Connective

/-- What a remembered result is the result of. -/
inductive OpKey where
  /-- Two diagrams combined. -/
  | apply (op : Connective) (f g : Handle)
  /-- Two diagrams combined and reduced. -/
  | applyReduce (op : Connective) (f g : Handle)
  /-- A diagram reduced. -/
  | reduce (f : Handle)
  deriving DecidableEq, Repr

namespace OpKey

instance : Inhabited OpKey := ⟨reduce default⟩

/-- The digest, which selects the cache set of a key. -/
def digest : OpKey → UInt64
  | apply op f g =>
    Digest.ofTriple (Digest.pair 0 op.tag) (Digest.word32 f.raw) (Digest.word32 g.raw)
  | applyReduce op f g =>
    Digest.ofTriple (Digest.pair 1 op.tag) (Digest.word32 f.raw) (Digest.word32 g.raw)
  | reduce f => Digest.ofPair (Digest.triple 2 0 0) (Digest.word32 f.raw)

instance : Hashable OpKey := ⟨digest⟩

end OpKey

/-- Two operands in order. -/
def Handle.ordered (f g : Handle) : Handle × Handle := if f ≤ g then (f, g) else (g, f)

end ZoneDiagram

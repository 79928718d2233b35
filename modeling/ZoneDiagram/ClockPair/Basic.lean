/-!
# Clock pairs and their levels

A decision tests the difference `x_i - x_j` of one pair of clocks with `j < i`. The pairs are laid
out in one fixed order, and the place of a pair in it is its level:

`(1,0) (2,0) (2,1) (3,0) (3,1) (3,2) …` have the levels `0 1 2 3 4 5 …`

Adding clocks only appends levels, so the order of the pairs that exist never changes.
-/

namespace ZoneDiagram

/-- Two clocks whose difference is tested, the later one first. -/
structure ClockPair where
  i : Nat
  j : Nat
  lt : j < i
  deriving DecidableEq, Repr

namespace ClockPair

/-- Pairs are ordered by the first clock, then by the second. -/
instance : Ord ClockPair := ⟨fun p q => (compare p.i q.i).then (compare p.j q.j)⟩

/-- The number of pairs whose first clock is below `i`. -/
def triangle (i : Nat) : Nat := i * (i - 1) / 2

/-- The place of the pair in the order of decisions. -/
def level (p : ClockPair) : Nat := triangle p.i + p.j

/-- A pair reads as the difference that it stands for. -/
def text (p : ClockPair) : String := s!"x{p.i}-x{p.j}"

instance : ToString ClockPair := ⟨text⟩

/-- The level of the terminal node, which sorts after every pair. -/
def terminalLevel : Nat := 4294967295

/-- The number of pairs of `clocks` clocks, the reference clock included. -/
def count (clocks : Nat) : Nat := triangle clocks

end ClockPair

end ZoneDiagram

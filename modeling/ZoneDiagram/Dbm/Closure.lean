import ZoneDiagram.Dbm.Basic

/-!
# Closure

A matrix is closed if no entry can be tightened by a detour over a third clock. Closing visits all
detours once, the clock in the middle outermost, as in the algorithm of Floyd and Warshall. It
stops at the first clock with a negative cycle and marks the matrix as empty.

Adding one constraint to a closed matrix needs only the detours over that constraint.
-/

namespace ZoneDiagram.Dbm

/-! ## Full closure -/

/-- Tighten the entry `(i, j)` to a bound if the bound is smaller. -/
def tighten (m : Dbm) (i j : Nat) (b : Bound) : Dbm :=
  if b < m.entry i j then m.setEntry i j b else m

/-- Tighten row `i` by the detours that begin with the bound `first` on `x_i - x_k`. -/
def relaxRow (m : Dbm) (first : Bound) (k i : Nat) : Dbm :=
  (List.range m.dim).foldl (fun m j => m.tighten i j (first + m.entry k j)) m

/-- Visit detours, given by their middle and first clock. Returns the matrix, and whether no
negative cycle turned up. -/
def closeAlong : List (Nat × Nat) → Dbm → Dbm × Bool
  | [], m => (m, true)
  | (k, i) :: detours, m =>
    let first := m.entry i k
    if first.isInfinity then closeAlong detours m
    else
      let m := m.relaxRow first k i
      if m.entry i i < .zero then (m.markEmpty, false) else closeAlong detours m

/-- All detours among `n` clocks, the middle clock outermost. -/
def detours (n : Nat) : List (Nat × Nat) :=
  (List.range n).flatMap fun k => (List.range n).map fun i => (k, i)

/-- Tighten every entry as far as the others imply. Returns the matrix, and whether the zone is
inhabited; an empty zone is left half-finished and marked. -/
def close (m : Dbm) : Dbm × Bool := closeAlong (detours m.dim) m

/-- No detour tightens an entry. -/
def isClosed (m : Dbm) : Bool :=
  (List.range m.dim).all fun k => (List.range m.dim).all fun i =>
    (m.entry i k).isInfinity ||
      (List.range m.dim).all fun j => decide (m.entry i j ≤ m.entry i k + m.entry k j)

/-- The zone is inhabited. -/
def isValid (m : Dbm) : Bool := !m.isEmpty && m.close.2

/-! ## One more constraint -/

/-- Tighten row `k` by the detours through the constraint `b` on `x_i - x_j`. -/
def relaxRowThrough (i j : Nat) (b : Bound) (m : Dbm) (k : Nat) : Dbm :=
  let first := m.entry k i
  if first.isInfinity then m
  else
    let via := first + b
    (List.range m.dim).foldl (fun m l => m.tighten k l (via + m.entry j l)) m

/-- Tighten every entry by the detours through the constraint `b` on `x_i - x_j`. -/
def relaxThrough (m : Dbm) (i j : Nat) (b : Bound) : Dbm :=
  (List.range m.dim).foldl (relaxRowThrough i j b) m

/-- Add the constraint `b` on `x_i - x_j` to a closed matrix and close it again. Returns the matrix,
and whether the zone is inhabited; an empty zone is marked. -/
def constrain (m : Dbm) (i j : Nat) (b : Bound) : Dbm × Bool :=
  if m.isEmpty then (m, false)
  else if m.entry i j ≤ b then (m, true)
  else if b + m.entry j i < .zero then (m.markEmpty, false)
  else ((m.setEntry i j b).relaxThrough i j b, true)

/-- Add a constraint at a position that is checked as far as it is read. -/
def constrain? (m : Dbm) (i j : Nat) (b : Bound) : Except Error (Dbm × Bool) := do
  if m.isEmpty then return (m, false)
  if (← m.get? i j) ≤ b then return (m, true)
  let _ ← m.get? j i
  return m.constrain i j b

/-! ## Two matrices -/

/-- The matrices have the same dimension. -/
def checkSameDim (m o : Dbm) : Except Error Unit :=
  if m.dim = o.dim then .ok () else .error (.dimensionMismatch m.dim o.dim)

/-- Both constraints of every entry. -/
def meet (m o : Dbm) : Dbm := ofFn m.dim m.dim_pos fun i j => min (m.entry i j) (o.entry i j)

/-- The intersection of two zones, closed, and whether it is inhabited. -/
def intersect (m o : Dbm) : Except Error (Dbm × Bool) := do
  m.checkSameDim o
  return (m.meet o).close

/-- The matrices describe the same zone: their closures are equal, or both are empty. -/
def canonicalEq (m o : Dbm) : Except Error Bool := do
  m.checkSameDim o
  match m.close, o.close with
  | (m, true), (o, true) => return m == o
  | (_, false), (_, false) => return true
  | _, _ => return false

/-- The zone of `m` contains the zone of `o`; meant for closed matrices. -/
def includes (m o : Dbm) : Except Error Bool := do
  m.checkSameDim o
  if o.isEmpty then return true
  if m.isEmpty then return false
  return (List.range m.dim).all fun i => (List.range m.dim).all fun j =>
    decide (o.entry i j ≤ m.entry i j)

end ZoneDiagram.Dbm

import ZoneDiagram.Manager.Basic
import ZoneDiagram.Dbm.Closure

/-!
# Elementary diagrams

Diagrams of constraints on one clock pair, and the diagram of a zone.

The diagram of a zone is one path to the terminal node, with a decision for every entry of the
closed matrix that the entries above do not imply. It is built from the end of the path upwards.
-/

namespace ZoneDiagram.Manager

/-- The edges that lead to `inside` between two bounds, and to the empty federation elsewhere. The
lower side is given as a bound on the opposite difference. -/
def bandEdges (inside : Handle) (lower upper : Option Bound) : CutList Handle :=
  let below := match lower with
    | none => []
    | some lower => [⟨.zero, lower.complement⟩]
  let rest := match upper with
    | none => [⟨inside, .infinity⟩]
    | some upper => [⟨inside, upper⟩, ⟨.zero, .infinity⟩]
  below ++ rest

/-- A bound, unless it is no constraint. -/
def finite? (b : Bound) : Option Bound := if b.isInfinity then none else some b

/-! ## One clock pair -/

/-- The clock exists. -/
def checkClock (m : Manager) (clock : Nat) : Except Error Unit :=
  if clock < m.clocks then .ok () else .error (.clockOutOfRange clock m.clocks)

/-- The pair of two distinct clocks in either order, and whether they had to be swapped. -/
def checkPair (m : Manager) (i j : Nat) : Except Error (ClockPair × Bool) := do
  m.checkClock i
  m.checkClock j
  if lt : j < i then return (⟨i, j, lt⟩, false)
  else if lt : i < j then return (⟨j, i, lt⟩, true)
  else throw (.sameClock i)

/-- The diagram of one bound on `x_i - x_j` and one on `x_j - x_i`. -/
def range (i j : Nat) (bound opposite : Bound) : ManagerM Handle := do
  let (pair, swapped) ← query (·.checkPair i j)
  let (upper, lower) := if swapped then (opposite, bound) else (bound, opposite)
  if !upper.isInfinity && !lower.isInfinity && decide (upper + lower < .zero) then return .zero
  else mkNode pair.level (bandEdges .one (finite? lower) (finite? upper))

/-- The diagram of `low ≤ x_i - x_j < up`. -/
def interval (i j : Nat) (low up : Int) : ManagerM Handle := do
  let low ← Bound.checkValue low
  let up ← Bound.checkValue up
  range i j (.strict up) (.weak (-low))

/-- The diagram of `low ≤ x_i - x_j`. -/
def lowerBound (i j : Nat) (low : Int) : ManagerM Handle := do
  range i j .infinity (.weak (-(← Bound.checkValue low)))

/-- The diagram of `x_i - x_j < up`. -/
def upperBound (i j : Nat) (up : Int) : ManagerM Handle := do
  range i j (.strict (← Bound.checkValue up)) .infinity

/-- The diagram of any bound on `x_i - x_j`. -/
def constraint (i j : Nat) (bound : Bound) : ManagerM Handle := range i j bound .infinity

/-! ## Zones -/

/-- A decision on the path of a zone: the bounds on a difference that are not implied above it. -/
structure Cut where
  level : Nat
  lower : Option Bound
  upper : Option Bound

/-- The clock pairs of a matrix, in the order of their levels. -/
def pairsBelow (dim : Nat) : List (Nat × Nat) :=
  (List.range dim).flatMap fun i => (List.range i).map fun j => (i, j)

/-- The bound, unless it is no constraint or already implied. -/
def needed? (bound implied : Bound) : Option Bound :=
  if bound.isInfinity || implied == bound then none else some bound

/-- The cuts of a closed matrix at some clock pairs, after constraints that are closed in
`implied`. -/
def cutsAt (m : Dbm) : Dbm → List (Nat × Nat) → List Cut
  | _, [] => []
  | implied, (i, j) :: pairs =>
    let upper := m.entry i j
    let lower := m.entry j i
    match needed? lower (implied.entry j i), needed? upper (implied.entry i j) with
    | none, none => cutsAt m implied pairs
    | cutLower, cutUpper =>
      let implied := ((implied.constrain i j upper).1.constrain j i lower).1
      ⟨ClockPair.triangle i + j, cutLower, cutUpper⟩ :: cutsAt m implied pairs

/-- The cuts of a closed matrix, from the top of the path down. -/
def cuts (m : Dbm) : List Cut := cutsAt m (.unconstrained m.dim m.dim_pos) (pairsBelow m.dim)

/-- The path through the cuts, built from its end. -/
def pathThrough : List Cut → ManagerM Handle
  | [] => return .one
  | cut :: cuts => do
    mkNode cut.level (bandEdges (← pathThrough cuts) cut.lower cut.upper)

/-- The matrix has no more clocks than the manager. -/
def checkDim (m : Manager) (dim : Nat) : Except Error Unit :=
  if dim ≤ m.dim then .ok () else .error (.dimensionMismatch m.clocks dim)

/-- The diagram of a zone. Clocks that the matrix does not have are unconstrained. -/
def ofDbm (zone : Dbm) : ManagerM Handle := do
  query (·.checkDim zone.dim)
  match zone.close with
  | (_, false) => return .zero
  | (closed, true) => pathThrough (cuts closed)

end ZoneDiagram.Manager

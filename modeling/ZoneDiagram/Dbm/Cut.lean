import ZoneDiagram.Dbm.Closure

/-!
# Cutting a zone

A decision cuts a zone into the parts where a difference lies in one interval. An interval is given
by an upper bound that holds and, unless it reaches down without end, a lower bound that fails:
the upper bound of the interval before it.
-/

namespace ZoneDiagram.Dbm

/-- Some valuation of a closed, inhabited zone has the difference of the pair in the interval. -/
def admits (m : Dbm) (pair : ClockPair) (lower : Option Bound) (upper : Bound) : Bool :=
  (upper.isInfinity || decide (.zero ≤ upper + m.entry pair.j pair.i)) &&
    match lower with
    | none => true
    | some lower => decide (.zero ≤ lower.complement + m.entry pair.i pair.j)

/-- The valuations of a closed zone that have the difference of the pair in the interval. -/
def restricted (m : Dbm) (pair : ClockPair) (lower : Option Bound) (upper : Bound) : Dbm :=
  let m := if upper.isInfinity then m else (m.constrain pair.i pair.j upper).1
  match lower with
  | none => m
  | some lower => (m.constrain pair.j pair.i lower.complement).1

/-- A restricted zone. That it is not empty is an assertion of a build for debugging. -/
def inhabited? (m : Dbm) : Except Error Dbm :=
  if m.isEmpty then .error .emptyRestriction else .ok m

end ZoneDiagram.Dbm

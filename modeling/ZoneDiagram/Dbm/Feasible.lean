import ZoneDiagram.CutList
import ZoneDiagram.Dbm.Cut

/-!
# Cut lists inside a zone

Which pieces of a cut list meet a zone, and the zone that is left on each of them. A zone is
convex, so the pieces that meet it stand side by side.
-/

namespace ZoneDiagram.Dbm

variable {α : Type}

/-- The pieces that the zone admits, each with the zone on its interval. Pieces whose item is not
wanted are left out. -/
def feasible (m : Dbm) (pair : ClockPair) (wanted : α → Bool) :
    Option Bound → CutList α → CutList (α × Dbm)
  | _, [] => []
  | lower, p :: ps =>
    if wanted p.item && m.admits pair lower p.upper then
      let sub := m.restricted pair lower p.upper
      ⟨(p.item, sub), p.upper⟩ :: feasible m pair wanted (some p.upper) ps
    else feasible m pair wanted (some p.upper) ps

/-- The pieces up to the first one that the zone does not admit. -/
def admittedStart (m : Dbm) (pair : ClockPair) : Option Bound → CutList α → CutList (α × Dbm)
  | _, [] => []
  | lower, p :: ps =>
    if m.admits pair lower p.upper then
      let sub := m.restricted pair lower p.upper
      ⟨(p.item, sub), p.upper⟩ :: admittedStart m pair (some p.upper) ps
    else []

/-- The first run of pieces that the zone admits, each with the zone on its interval. -/
def feasibleRun (m : Dbm) (pair : ClockPair) : Option Bound → CutList α → CutList (α × Dbm)
  | _, [] => []
  | lower, p :: ps =>
    if m.admits pair lower p.upper then admittedStart m pair lower (p :: ps)
    else feasibleRun m pair (some p.upper) ps

end ZoneDiagram.Dbm

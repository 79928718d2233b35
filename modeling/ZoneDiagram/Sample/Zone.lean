import ZoneDiagram.Sample.Source
import ZoneDiagram.Dbm.Closure

/-!
# Random zones

A random zone is drawn around a hidden valuation of the clocks by naturals: about half of all clock
pairs get a constraint, each loosened by some slack from the difference in the valuation, so the
valuation meets all of them and the zone is inhabited. At the end the zone is closed.
-/

namespace ZoneDiagram.Sample

variable {σ : Type}

/-- The largest range of constants. -/
def maxRange : Int := Bound.maxValue / 4

/-- A range that is checked. -/
def checkRange (range : Int) : Except Error Nat :=
  if 1 ≤ range ∧ range ≤ maxRange then .ok range.toNat else .error (.badRange range maxRange)

/-- Draw the value of every clock; the reference clock is zero. -/
def drawValuation (src : Source σ) (dim range : Nat) : StateM σ (List Int) :=
  (List.range dim).mapM fun i => do
    if i = 0 then return 0 else return ((← src.upTo range).val : Int)

/-- Draw a bound that holds of a difference: loosened by slack if there is any, and only then
strict, on the toss of a coin. -/
def drawBound (src : Source σ) (range : Nat) (diff : Int) : StateM σ Bound := do
  let slack := (← src.upTo (range / 2)).val
  if slack = 0 then return .weak diff
  else if ← src.coin then return .weak (diff + slack)
  else return .strict (diff + slack)

/-- Perhaps constrain one difference. -/
def drawEntry (src : Source σ) (range : Nat) (values : List Int) (m : Dbm) (i j : Nat) :
    StateM σ Dbm := do
  if i = j then return m
  else if ← src.coin then
    return m.tighten i j (← drawBound src range (values.getD i 0 - values.getD j 0))
  else return m

/-- Perhaps constrain every difference, row by row. -/
def drawEntries (src : Source σ) (range : Nat) (values : List Int) (m : Dbm) : StateM σ Dbm :=
  (List.range m.dim).foldlM (fun m i =>
    (List.range m.dim).foldlM (fun m j => drawEntry src range values m i j) m) m

/-- A matrix with an inhabited zone, not yet closed. -/
def drawMatrix (src : Source σ) (dim : Nat) (dim_pos : 0 < dim) (range : Nat) : StateM σ Dbm := do
  let values ← drawValuation src dim range
  drawEntries src range values (.nonNegative dim dim_pos)

/-- A closed, inhabited zone of clocks that are not below the reference clock, with constants in a
range; and whether it is smaller than the zone of all such clocks. That it is inhabited is an
assertion of a build for debugging. -/
def zone (src : Source σ) (dim : Nat) (range : Int) : StateT σ (Except Error) (Dbm × Bool) :=
  fun s => do
    let ⟨n, n_pos⟩ ← Dbm.checkDim dim
    let range ← checkRange range
    let (m, s) := drawMatrix src n n_pos range s
    let (m, inhabited) := m.close
    if inhabited then return ((m, m != .nonNegative n n_pos), s) else throw .emptySample

end ZoneDiagram.Sample

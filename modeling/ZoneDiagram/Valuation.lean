import ZoneDiagram.CutList
import ZoneDiagram.Dbm.Basic

/-!
# Valuations

What bounds, matrices and cut lists mean. A valuation gives every clock a rational value. A bound
holds of some differences, a matrix of the valuations whose differences meet all its entries, and a
cut list has one item for every value on the line: that of the first piece whose upper bound holds.
-/

namespace ZoneDiagram

/-- A value for every clock, the reference clock included. -/
abbrev Valuation := Nat → Rat

namespace Bound

/-- The bound holds of a difference. -/
def Holds (b : Bound) (d : Rat) : Prop :=
  if b.isInfinity then True else if b.isStrict then d < b.value else d ≤ b.value

instance (b : Bound) (d : Rat) : Decidable (b.Holds d) := by
  unfold Holds
  infer_instance

theorem holds_infinity (d : Rat) : infinity.Holds d := trivial

theorem holds_strict_iff {c : Int} {d : Rat} : (strict c).Holds d ↔ d < c := by
  have odd : 2 * c ≠ 2147483647 := by omega
  simp [Holds, isInfinity, infinity, greatestRaw, isStrict, value, strict, odd]

theorem holds_weak_iff {c : Int} {d : Rat} (hc : c ≤ maxValue) : (weak c).Holds d ↔ d ≤ c := by
  have finite : 2 * c + 1 ≠ 2147483647 := by
    unfold maxValue at hc
    omega
  have half : (2 * c + 1) / 2 = c := by omega
  simp [Holds, isInfinity, infinity, greatestRaw, isStrict, value, weak, finite, half]

end Bound

/-- The valuation meets every entry of the matrix. -/
def Dbm.Holds (m : Dbm) (v : Valuation) : Prop :=
  ∀ i < m.dim, ∀ j < m.dim, (m.entry i j).Holds (v i - v j)

namespace CutList

variable {α β : Type}

/-- The item on the interval that contains a value. -/
def itemAt? (d : Rat) : CutList α → Option α
  | [] => none
  | p :: ps => if p.upper.Holds d then some p.item else itemAt? d ps

theorem itemAt?_whole (d : Rat) (a : α) : itemAt? d (whole a) = some a :=
  if_pos (Bound.holds_infinity d)

theorem itemAt?_mapItems (d : Rat) (f : α → β) (pieces : CutList α) :
    itemAt? d (mapItems f pieces) = (itemAt? d pieces).map f := by
  induction pieces with
  | nil => rfl
  | cons p ps ih =>
    change (if p.upper.Holds d then some (f p.item) else itemAt? d (mapItems f ps)) =
      (if p.upper.Holds d then some p.item else itemAt? d ps).map f
    split
    · rfl
    · exact ih

end CutList

end ZoneDiagram

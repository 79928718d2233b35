import ZoneDiagram.Proofs.Manager.Contains
import ZoneDiagram.Proofs.Reduction

/-!
# Containment

**Theorem (`Reachable.contains_exact`).** With constants up to `constantLimit`, a zone is found to
lie in a federation exactly if all its valuations do. The matrix of the zone need not be closed, and
it may have fewer clocks than the manager; the others are free.

The zone may be covered by many paths together and by none alone, as in `contains_wedge`.
-/

namespace ZoneDiagram.Manager

variable {m : Manager} {f : Handle} {zone : Dbm}

/-- **Containment is exact**: the answer is that all valuations of the zone are in the
federation. -/
theorem Reachable.contains_exact (h : m.Reachable) (hf : m.Live f)
    (bounds : m.BoundsWithin m.constantLimit f) (le : zone.dim ≤ m.dim)
    (zeros : ∀ i < zone.dim, zone.entry i i = .zero)
    (within : ∀ i < zone.dim, ∀ j < zone.dim, (zone.entry i j).Within m.constantLimit) :
    ∃ b, m.contains f zone = .ok b ∧ (b = true ↔ ∀ v, zone.Holds v → m.Holds f v) :=
  contains_eq_ok h.sound.toNodes hf m.room_constantLimit (h.sound.small_unfold hf bounds) le zeros
    within

/-- The bounds of `-5 ≤ x₁ - x₀` and `2 ≤ x₂ - x₁`. -/
def wedgeBound (i j : Nat) : Bound :=
  if i = j then .zero else if i = 0 ∧ j = 1 then .weak 5 else if i = 1 ∧ j = 2 then .weak (-2)
  else .infinity

/-- The zone with these bounds. That `-3 ≤ x₂ - x₀` is left to the closure. -/
def wedge : Dbm := .ofFn 3 (by decide) wedgeBound

theorem zeros_wedge (i : Nat) (hi : i < 3) : wedge.entry i i = .zero := by
  rw [wedge, Dbm.entry_ofFn hi hi, wedgeBound, if_pos rfl]

theorem small_wedge (i : Nat) (hi : i < 3) (j : Nat) (hj : j < 3) :
    (wedge.entry i j).Within 29826161 := by
  rw [wedge, Dbm.entry_ofFn hi hj]
  exact (by decide : ∀ i < 3, ∀ j < 3, (wedgeBound i j).Within 29826161) i hi j hj

theorem dim_box : box.dim = 3 := by decide +kernel

theorem constantLimit_box : box.constantLimit = 29826161 := by
  rw [constantLimit, dim_box]
  rfl

set_option maxRecDepth 10000 in
theorem contains_box_wedge : box.contains ⟨7⟩ wedge = .ok true := by decide +kernel

/-- The wedge lies outside of the box: where `x₁` is inside its band, `x₂` is too large. -/
theorem contains_wedge : box.contains ⟨7⟩ wedge = .ok true ∧
    ∀ v, wedge.Holds v → box.Holds ⟨7⟩ v := by
  have le : wedge.dim ≤ box.dim := dim_box.ge
  have small : ∀ i < wedge.dim, ∀ j < wedge.dim, (wedge.entry i j).Within box.constantLimit := by
    rw [constantLimit_box]
    exact small_wedge
  obtain ⟨b, answer, exact⟩ :=
    reachable_box.contains_exact live_box.neg small_box le zeros_wedge small
  cases answer.symm.trans contains_box_wedge
  exact ⟨answer, exact.1 rfl⟩

end ZoneDiagram.Manager

import ZoneDiagram.Proofs.CombinedReduction
import ZoneDiagram.Proofs.Emptiness

/-!
# Equivalence

Two diagrams are equivalent if combining and reducing where exactly one of them holds gives the
constant without valuations. Reduced diagrams of one federation need not be the same handle, so
this is how federations are compared.

**Theorem (`Reachable.isEquivalent_exact`).** With constants up to `constantLimit`, two diagrams are
found equivalent exactly if they have the same federation.

No valuation is lost, as the pass is exact, and none is left over, as every path of what it gives is
taken: an irredundant diagram other than the constant holds somewhere.
-/

namespace ZoneDiagram.Manager

variable {m : Manager} {f g : Handle}

/-- **Equivalence is exact** for small constants. -/
theorem Reachable.isEquivalent_exact (h : m.Reachable) (hf : m.Live f) (hg : m.Live g)
    (fBounds : m.BoundsWithin m.constantLimit f) (gBounds : m.BoundsWithin m.constantLimit g) :
    m.Gives (isEquivalent f g) fun b _ =>
      (b = true ↔ ∀ v : Valuation, m.eval v.differences f = m.eval v.differences g) := by
  have runs : Runs m (isEquivalent f g) (fun b _ => (b = true ↔
      ∀ v : Valuation, m.eval v.differences f = m.eval v.differences g)) fun _ => False := by
    have fSmall := h.sound.small_unfold hf fBounds
    have gSmall := h.sound.small_unfold hg gBounds
    refine (applyReduce_irredundant_runs h.sound hf hg m.room_constantLimit fSmall gSmall).bind
      fun r m' grows ⟨irredundant, truth⟩ => ?_
    refine .pure grows.sound ?_
    rw [beq_iff_eq, irredundant.eq_zero_iff grows.sound.toNodes]
    simp [truth, Connective.onBool]
  exact runs.gives h.sound

/-! ## The square with and without its implied band -/

theorem isEquivalent_exact_box : ∃ m', isEquivalent ⟨-7⟩ ⟨-5⟩ box = .ok true m' ∧
    (true = true ↔ ∀ v : Valuation, box.eval v.differences ⟨-7⟩ = box.eval v.differences ⟨-5⟩) := by
  have square : box.Live ⟨-5⟩ := evaluate_box.2.2.1 _ (by simp)
  obtain ⟨m', run, exact⟩ := (reachable_box.isEquivalent_exact live_box square small_box
    small_box).of_result? (a := true) (by decide +kernel)
  exact ⟨m', run, exact⟩

end ZoneDiagram.Manager

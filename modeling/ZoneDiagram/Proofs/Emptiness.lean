import ZoneDiagram.Proofs.Reduction

/-!
# Emptiness

A diagram is empty if it reduces to the constant without valuations.

**Theorem (`Reachable.isEmpty_exact`).** With constants up to `constantLimit`, a diagram is found
empty exactly if no valuation is in its federation.

Without the limit this fails (`isEmpty_strip`): the bounds on a path are added up, and a sum past
the greatest constant is clamped to a finite bound, which is tighter than the sum.
-/

namespace ZoneDiagram.Manager

variable {m : Manager} {f r : Handle} {K : Int}

/-- An irredundant diagram without valuations is the constant. -/
theorem Irredundant.eq_zero_iff (hr : m.Irredundant K r) (hm : m.Nodes) :
    r = .zero ↔ ∀ v : Valuation, m.eval v.differences r = false := by
  constructor
  · rintro rfl v
    exact eval_zero m _
  · intro empty
    have tree : m.unfold r = .leaf false := by
      refine Diagram.eq_leaf_of_taken (hm.canonical_unfold hr.live) hr.taken fun v _ => ?_
      rw [← hm.eval_eq hr.live]
      exact empty v
    rw [← unfold_zero m] at tree
    exact hm.eq_of_unfold_eq hr.live hm.live_zero tree

/-- **Emptiness is exact** for small constants. -/
theorem Reachable.isEmpty_exact (h : m.Reachable) (hf : m.Live f)
    (bounds : m.BoundsWithin m.constantLimit f) :
    m.Gives (isEmpty f) fun b _ =>
      (b = true ↔ ¬∃ v : Valuation, m.eval v.differences f = true) := by
  have runs : Runs m (isEmpty f) (fun b _ => (b = true ↔
      ¬∃ v : Valuation, m.eval v.differences f = true)) fun _ => False := by
    have small := h.sound.small_unfold hf bounds
    refine (reduce_irredundant_runs h.sound hf m.room_constantLimit small).bind
      fun r m' grows ⟨irredundant, truth⟩ => ?_
    refine .pure grows.sound ?_
    rw [beq_iff_eq, irredundant.eq_zero_iff grows.sound.toNodes]
    simp [truth]
  exact runs.gives h.sound

theorem isEmpty_exact_box : ∃ m', isEmpty ⟨-7⟩ box = .ok false m' ∧
    (false = true ↔ ¬∃ v : Valuation, box.eval v.differences ⟨-7⟩ = true) := by
  obtain ⟨m', run, exact⟩ :=
    (reachable_box.isEmpty_exact live_box small_box).of_result? (a := false) (by decide +kernel)
  exact ⟨m', run, exact⟩

/-! ## Constants that are clamped -/

/-- With `M` the greatest constant, the diagrams of `x₁ - x₀ < M`, of `-M ≤ x₂ - x₀` and of
`x₂ - x₁ < -M`, and all three together. -/
def strip : Manager :=
  (Action.apply .and ⟨-5⟩ ⟨-4⟩).next <| (Action.apply .and ⟨-2⟩ ⟨3⟩).next <|
    (Action.upperBound 2 1 (-Bound.maxValue)).next <|
    (Action.lowerBound 2 0 (-Bound.maxValue)).next <|
    (Action.upperBound 1 0 Bound.maxValue).next <| (Action.addClocks 3).next smallManager

/-- The first two constraints give `x₁ - x₂ < 2 M`, which is clamped to `x₁ - x₂ ≤ M`. So the third
one seems to contradict them, but it does not. -/
theorem isEmpty_strip : strip.Reachable ∧ result? (isEmpty ⟨-7⟩) strip = some true ∧
    ∃ v : Valuation, strip.eval v.differences ⟨-7⟩ = true := by
  have made := (((Reachable.create create_smallManager).step (.addClocks 3) nofun).step
    (.upperBound 1 0 Bound.maxValue) nofun).step (.lowerBound 2 0 (-Bound.maxValue)) nofun
  have built := made.step (.upperBound 2 1 (-Bound.maxValue)) nofun
  have pair := built.step (.apply .and ⟨-2⟩ ⟨3⟩) (by decide +kernel)
  refine ⟨pair.step (.apply .and ⟨-5⟩ ⟨-4⟩) (by decide +kernel), by decide +kernel,
    fun i => if i = 1 then Bound.maxValue - 1 else if i = 2 then 1 - Bound.maxValue else 0, ?_⟩
  decide +kernel

end ZoneDiagram.Manager

import ZoneDiagram.Proofs.Manager.Outcome
import ZoneDiagram.Proofs.Manager.Paths
import ZoneDiagram.Proofs.Manager.Reachable

/-!
# Combining diagrams is exact

**Theorem (`Reachable.apply_exact`).** In every reachable manager, a connective of two live diagrams
is the connective of their truths at every valuation, and every diagram that was live before is what
it was. It fails only if every slot of the store is taken.

The truth of a diagram is that of the edges that the differences of the clocks select
(`Nodes.existsUnique_edge`, `Nodes.eval_of_between`), flipped by every complement on the way
(`eval_neg`).
-/

namespace ZoneDiagram.Manager

variable {m : Manager} {f g : Handle}

/-- **Combining diagrams is exact**, whatever is remembered. -/
theorem Reachable.apply_exact (h : m.Reachable) (op : Connective) (hf : m.Live f)
    (hg : m.Live g) :
    m.Gives (apply op f g) fun r m' => m'.Live r ∧ ∀ v : Valuation, m'.eval v.differences r =
      op.onBool (m.eval v.differences f) (m.eval v.differences g) := by
  have runs : Runs m (apply op f g) (fun r m' => m'.Applied op f g r) fun _ => False :=
    apply_runs h.sound hf hg
  refine runs.gives_of h.sound fun r m' grows applied => ⟨applied.live, fun v => ?_⟩
  have preserves := h.sound.preserves grows
  rw [applied.eval, preserves.eval f hf, preserves.eval g hg]

/-! ## Three bands -/

/-- A manager with room for few nodes. -/
def smallManager : Manager :=
  match create { nodeCapacity := 16, cacheCapacity := 4 } with
  | .ok m => m
  | .error _ => ⟨.empty 1, .empty 0, 0⟩

theorem create_smallManager :
    create { nodeCapacity := 16, cacheCapacity := 4 } = .ok smallManager := by
  have created : (create { nodeCapacity := 16, cacheCapacity := 4 }).isOk = true := by
    with_unfolding_all rfl
  unfold smallManager
  cases h : create { nodeCapacity := 16, cacheCapacity := 4 } with
  | ok m => rfl
  | error e =>
    rw [h] at created
    cases created

/-- Three clocks, and the bands `0 ≤ x₁ - x₀ < 2`, `0 ≤ x₂ - x₀ < 2` and `x₂ - x₁ < 5`. The third
one is implied by the others. -/
def bands : Manager :=
  (Action.upperBound 2 1 5).next <| (Action.interval 2 0 0 2).next <|
    (Action.interval 1 0 0 2).next <| (Action.addClocks 3).next smallManager

theorem reachable_bands : bands.Reachable :=
  have made := Reachable.create create_smallManager
  (((made.step (.addClocks 3) nofun).step (.interval 1 0 0 2) nofun).step
    (.interval 2 0 0 2) nofun).step (.upperBound 2 1 5) nofun

theorem apply_exact_bands : ∃ m', apply .and ⟨-2⟩ ⟨-3⟩ bands = .ok ⟨-5⟩ m' ∧ m'.Live ⟨-5⟩ ∧
    ∀ v : Valuation, m'.eval v.differences ⟨-5⟩ =
      Connective.and.onBool (bands.eval v.differences ⟨-2⟩) (bands.eval v.differences ⟨-3⟩) := by
  have first : bands.Live ⟨-2⟩ := by decide +kernel
  have second : bands.Live ⟨-3⟩ := by decide +kernel
  exact (reachable_bands.apply_exact .and first second).of_result? (by decide +kernel)

end ZoneDiagram.Manager

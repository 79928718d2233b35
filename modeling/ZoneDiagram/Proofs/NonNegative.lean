import ZoneDiagram.Proofs.Builders
import ZoneDiagram.Proofs.Construction
import ZoneDiagram.Proofs.Equivalence

/-!
# Removing negative clocks

**Theorem (`Reachable.removeNegative_exact`).** For diagrams with constants up to `constantLimit`,
what is left after removing negative clocks holds where the diagram holds and no clock is below the
reference clock. With two clocks at least it reduces to itself. Two diagrams that hold at the same
such valuations are found equivalent after the removal.

The zone without negative clocks is built clock by clock. The invariant of the loop (`Orthant`) is
that the diagram holds where none of the clocks so far is below the reference clock, and that all
its constants are zero. So the limit on the constants of the diagram is all that the last step
needs.
-/

namespace ZoneDiagram.Manager

variable {m m' : Manager} {f g r : Handle} {K : Int} {i : Nat} {done is : List Nat}

/-- No clock is below the reference clock. -/
def NoneBelow (m : Manager) (v : Valuation) : Prop := ∀ i, 1 ≤ i → i < m.clocks → 0 ≤ v i - v 0

/-! ## Intersections -/

/-- The one pass intersects the federations. -/
theorem applyReduce_and_runs (hm : m.Sound) (hf : m.Live f) (hg : m.Live g)
    (room : Dbm.Room m.dim K) (fSmall : Diagram.Small K (m.unfold f))
    (gSmall : Diagram.Small K (m.unfold g)) :
    Runs m (applyReduce .and f g) (fun r m' => m'.Irredundant K r ∧
      ∀ v, m'.Holds r v ↔ m.Holds f v ∧ m.Holds g v) fun _ => False := by
  refine (applyReduce_irredundant_runs hm hf hg room fSmall gSmall).imp ?_ fun _ h => h
  intro r m' _ ⟨irredundant, truth⟩
  exact ⟨irredundant, fun v => by simp [Holds, truth v, Connective.onBool]⟩

/-- Diagrams of one federation are found equivalent. -/
theorem isEquivalent_true_runs (hm : m.Sound) (hf : m.Live f) (hg : m.Live g)
    (room : Dbm.Room m.dim K) (fSmall : Diagram.Small K (m.unfold f))
    (gSmall : Diagram.Small K (m.unfold g)) (same : ∀ v, m.Holds f v ↔ m.Holds g v) :
    Runs m (isEquivalent f g) (fun b _ => b = true) fun _ => False := by
  refine (applyReduce_irredundant_runs hm hf hg room fSmall gSmall).bind ?_
  intro r m' grows ⟨irredundant, truth⟩
  refine .pure grows.sound ?_
  rw [beq_iff_eq, irredundant.eq_zero_iff grows.sound.toNodes]
  intro v
  have eq : m.eval v.differences f = m.eval v.differences g := Bool.eq_iff_iff.2 (same v)
  simp [truth v, eq, Connective.onBool]

theorem Grows.holds_iff (h : m.Grows m') (hm : m.Sound) (hf : m.Live f) (v : Valuation) :
    m'.Holds f v ↔ m.Holds f v := by
  rw [Holds, Holds, (hm.preserves h).eval f hf]

theorem Grows.small (h : m.Grows m') (hm : m.Sound) (hf : m.Live f)
    (small : Diagram.Small K (m.unfold f)) : Diagram.Small K (m'.unfold f) := by
  rwa [h.keeps.unfold hm.toNodes hf]

/-! ## One clock -/

/-- No sum of zeros is clamped. -/
theorem room_zero (n : Nat) : Dbm.Room n 0 := ⟨le_rfl, by simp [Bound.maxValue]⟩

/-- The diagram of `0 ≤ xᵢ - x₀` has no other constant. -/
theorem lowerBound_zero_runs (hm : m.Sound) (hi : 1 ≤ i) (lt : i < m.clocks) :
    Runs m (lowerBound i 0 0) (fun g m' => m'.Irredundant 0 g ∧
      ∀ v, m'.Holds g v ↔ 0 ≤ v i - v 0) fun _ => False := by
  have zero_lt : 0 < m.clocks := by omega
  let free := Dbm.unconstrained m.clocks zero_lt
  have pair : free.OnePair i 0 .infinity .infinity :=
    Dbm.onePair_unconstrained zero_lt lt zero_lt (by omega)
  have le : free.dim ≤ m.dim := Nat.le_max_left m.clocks 1
  have fits : |(0 : Int)| ≤ Bound.maxValue := by decide
  have builds := builds_lowerBound hm pair lt zero_lt le fits
  let zone := free.setEntry 0 i (.weak (-0))
  have one : zone.OnePair i 0 .infinity (.weak (-0)) := pair.setOpposite (.weak (-0))
  have room : Dbm.Room m.dim 0 := room_zero m.dim
  have wide : Dbm.Room m.dim (m.dim * 0) := by
    rw [mul_zero]
    exact room
  have small : zone.Small 0 := ⟨fun k hk => one.entry_self hk,
    fun k hk l hl => one.within le_rfl (Bound.within_infinity 0) (by decide) hk hl⟩
  have runs : Runs m (lowerBound i 0 0) (fun g m' => m'.Irredundant (m.dim * 0) g ∧
      ∀ v, m'.Holds g v ↔ zone.Holds v) fun _ => False := by
    rw [Runs, builds.same]
    exact ofDbm_irredundant_runs hm wide room le small
  refine (runs.and_of_eq_ok fun g m' run => builds.gives.of_ok run).imp ?_ fun _ h => h
  rintro g m' - ⟨⟨irredundant, -⟩, band⟩
  rw [mul_zero] at irredundant
  exact ⟨irredundant, fun v => by simpa using band.holds v⟩

/-! ## All clocks -/

/-- What the loop over the clocks has built: a diagram with zero constants that holds where none of
the clocks so far is below the reference clock. -/
structure Orthant (m : Manager) (done : List Nat) (f : Handle) : Prop where
  live : m.Live f
  small : Diagram.Small 0 (m.unfold f)
  holds : ∀ v, m.Holds f v ↔ ∀ i ∈ done, 0 ≤ v i - v 0

theorem orthant_one (hm : m.Sound) : m.Orthant [] .one where
  live := hm.live_one
  small := by
    rw [unfold_one]
    exact .leaf true
  holds v := by simp [Holds, eval_one]

/-- One more clock. -/
theorem Orthant.step_runs (h : m.Orthant done f) (hm : m.Sound) (hi : 1 ≤ i) (lt : i < m.clocks) :
    Runs m (do applyReduce .and f (← lowerBound i 0 0)) (fun r m' => m'.Orthant (done ++ [i]) r)
      fun _ => False := by
  refine (lowerBound_zero_runs hm hi lt).bind fun g m₁ grows ⟨bound, holds⟩ => ?_
  refine (applyReduce_and_runs grows.sound (grows.keeps.live h.live) bound.live (room_zero _)
    (grows.small hm h.live h.small) bound.small).imp ?_ fun _ h => h
  intro r m₂ _ ⟨irredundant, both⟩
  refine ⟨irredundant.live, irredundant.small, fun v => ?_⟩
  rw [both v, grows.holds_iff hm h.live v, h.holds v, holds v]
  simp [or_imp, forall_and]

/-- The whole loop. -/
theorem Orthant.foldlM_runs (h : m.Orthant done f) (hm : m.Sound)
    (inside : ∀ i ∈ is, 1 ≤ i ∧ i < m.clocks) :
    Runs m (is.foldlM (fun f i => do applyReduce .and f (← lowerBound i 0 0)) f)
      (fun r m' => m'.Orthant (done ++ is) r) fun _ => False := by
  induction is generalizing m f done with
  | nil => simpa using Runs.pure hm h
  | cons i is ih =>
    obtain ⟨⟨hi, lt⟩, rest⟩ := List.forall_mem_cons.1 inside
    rw [List.foldlM_cons]
    refine (h.step_runs hm hi lt).bind fun g m' grows step => ?_
    rw [List.append_cons]
    exact ih step grows.sound (grows.keeps.clocks ▸ rest)

/-- The diagram of the valuations without negative clocks. -/
theorem nonNegative_exact_runs (hm : m.Sound) :
    Runs m (nonNegative (List.range' 1 (m.clocks - 1))) (fun g m' => m'.Live g ∧
      Diagram.Small 0 (m'.unfold g) ∧ ∀ v, m'.Holds g v ↔ m.NoneBelow v) fun _ => False := by
  have inside : ∀ i ∈ List.range' 1 (m.clocks - 1), 1 ≤ i ∧ i < m.clocks := by
    intro i hi
    have := List.mem_range'_1.1 hi
    omega
  refine ((orthant_one hm).foldlM_runs hm inside).imp (fun g m' _ h => ?_) fun _ h => h
  refine ⟨h.live, h.small, fun v => (h.holds v).trans ?_⟩
  constructor
  · intro above i hi lt
    exact above i (List.mem_range'_1.2 (by omega))
  · intro above i hi
    obtain ⟨hi, lt⟩ := inside i hi
    exact above i hi lt

/-! ## The removal -/

/-- What is left of a diagram without negative clocks. -/
structure Removed (m : Manager) (K : Int) (f : Handle) (m' : Manager) (r : Handle) : Prop where
  live : m'.Live r
  small : Diagram.Small K (m'.unfold r)
  holds : ∀ v, m'.Holds r v ↔ m.Holds f v ∧ m.NoneBelow v
  irredundant : 2 ≤ m.clocks → m'.Irredundant K r

theorem removeNegative_exact_runs (hm : m.Sound) (hf : m.Live f) (room : Dbm.Room m.dim K)
    (small : Diagram.Small K (m.unfold f)) :
    Runs m (removeNegative f) (fun r m' => m.Removed K f m' r) fun _ => False := by
  refine .get_bind ?_
  dsimp only
  split
  next few =>
    have all (v : Valuation) : m.NoneBelow v := fun i hi lt => by omega
    refine .pure hm ⟨hf, small, fun v => (and_iff_left (all v)).symm, fun two => ?_⟩
    omega
  next =>
    refine (nonNegative_exact_runs hm).bind fun g m₁ grows ⟨live, zeros, above⟩ => ?_
    refine (applyReduce_and_runs grows.sound (grows.keeps.live hf) live (grows.keeps.dim ▸ room)
      (grows.small hm hf small) (zeros.mono room.nonneg)).imp ?_ fun _ h => h
    intro r m₂ _ ⟨irredundant, both⟩
    refine ⟨irredundant.live, irredundant.small, fun v => ?_, fun _ => irredundant⟩
    rw [both v, grows.holds_iff hm hf v, above v]

theorem Removed.grow {m'' : Manager} (h : m.Removed K f m' r) (hm' : m'.Sound)
    (grows : m'.Grows m'') : Diagram.Small K (m''.unfold r) ∧ m''.Live r ∧
      ∀ v, m''.Holds r v ↔ m.Holds f v ∧ m.NoneBelow v :=
  ⟨grows.small hm' h.live h.small, grows.keeps.live h.live, fun v =>
    (grows.holds_iff hm' h.live v).trans (h.holds v)⟩

/-- Diagrams that hold at the same valuations without negative clocks are found equivalent after
the removal. -/
theorem removeNegative_equivalent_runs (hm : m.Sound) (hf : m.Live f) (hg : m.Live g)
    (room : Dbm.Room m.dim K) (fSmall : Diagram.Small K (m.unfold f))
    (gSmall : Diagram.Small K (m.unfold g))
    (same : ∀ v, m.NoneBelow v → (m.Holds f v ↔ m.Holds g v)) :
    Runs m (do isEquivalent (← removeNegative f) (← removeNegative g)) (fun b _ => b = true)
      fun _ => False := by
  refine (removeNegative_exact_runs hm hf room fSmall).bind fun r m₁ grows first => ?_
  refine (removeNegative_exact_runs grows.sound (grows.keeps.live hg) (grows.keeps.dim ▸ room)
    (grows.small hm hg gSmall)).bind fun s m₂ grows' second => ?_
  obtain ⟨rSmall, rLive, rHolds⟩ := first.grow grows.sound grows'
  have dim : m₂.dim = m.dim := grows'.keeps.dim.trans grows.keeps.dim
  refine isEquivalent_true_runs grows'.sound rLive second.live (dim ▸ room) rSmall second.small ?_
  intro v
  have above : m₁.NoneBelow v ↔ m.NoneBelow v := by
    rw [NoneBelow, NoneBelow, grows.keeps.clocks]
  rw [rHolds v, second.holds v, grows.holds_iff hm hg v, above]
  constructor
  · rintro ⟨hf, none⟩
    exact ⟨(same v none).1 hf, none⟩
  · rintro ⟨hg, none⟩
    exact ⟨(same v none).2 hg, none⟩

/-! ## Reachable managers -/

/-- **The removal keeps exactly the valuations without negative clocks**, and it fails only if every
slot of the store is taken. -/
theorem Reachable.removeNegative_exact (h : m.Reachable) (hf : m.Live f)
    (bounds : m.BoundsWithin m.constantLimit f) :
    m.Gives (removeNegative f) (fun r m' => m'.Live r ∧
      (∀ v, m'.Holds r v ↔ m.Holds f v ∧ m.NoneBelow v) ∧
      (2 ≤ m.clocks → m'.Trusts m'.cache ∧ m'.Trusts m'.cache.clear ∧ ∀ c, m'.Trusts c →
        ∃ c', reduce r { m' with cache := c } = .ok r { m' with cache := c' })) ∧
    ∀ g, m.Live g → m.BoundsWithin m.constantLimit g →
      (∀ v, m.NoneBelow v → (m.Holds f v ↔ m.Holds g v)) →
      m.Gives (do isEquivalent (← removeNegative f) (← removeNegative g)) fun b _ => b = true := by
  have fSmall := h.sound.small_unfold hf bounds
  have room := m.room_constantLimit
  constructor
  · refine (removeNegative_exact_runs h.sound hf room fSmall).gives_of h.sound ?_
    intro r m' grows removed
    refine ⟨removed.live, removed.holds, fun two => ?_⟩
    exact ⟨grows.sound.trusts_cache, grows.sound.trusts_clear,
      fun c hc => (removed.irredundant two).reduce_eq_self grows.sound hc⟩
  · intro g hg gBounds same
    exact (removeNegative_equivalent_runs h.sound hf hg room fSmall
      (h.sound.small_unfold hg gBounds) same).gives h.sound

/-! ## Outside of the box -/

/-- The box and the square are one zone. -/
theorem holds_square_iff_box (v : Valuation) : box.Holds ⟨-5⟩ v ↔ box.Holds ⟨-7⟩ v := by
  have hm := reachable_box.sound
  obtain ⟨m', run⟩ := exists_of_result? reduce_box
  obtain ⟨grows, -, truth⟩ := (reduce_irredundant_runs hm live_box box.room_constantLimit
    (hm.small_unfold live_box small_box)).result run
  have live : box.Live ⟨-5⟩ := evaluate_box.2.2.1 _ (by simp)
  rw [← grows.holds_iff hm live v, Holds, Holds, truth v]

/-- Negative clocks are removed from the outside of the box and from that of the square, and the
results are found equivalent. -/
theorem removeNegative_exact_box : (box.Live ⟨7⟩ ∧ box.Live ⟨5⟩) ∧ 2 ≤ box.clocks ∧
    (∀ v, box.Holds ⟨7⟩ v ↔ box.Holds ⟨5⟩ v) ∧
    (∃ r m', removeNegative ⟨7⟩ box = .ok r m' ∧
      (∀ v, m'.Holds r v ↔ box.Holds ⟨7⟩ v ∧ box.NoneBelow v) ∧
      ∃ c, reduce r m' = .ok r { m' with cache := c }) ∧
    ∃ m', (do isEquivalent (← removeNegative ⟨7⟩) (← removeNegative ⟨5⟩)) box = .ok true m' := by
  have outside : box.Live ⟨7⟩ := live_box.neg
  have square : box.Live ⟨-5⟩ := evaluate_box.2.2.1 _ (by simp)
  have two : 2 ≤ box.clocks := by decide +kernel
  have hm := reachable_box.sound.toNodes
  have same (v : Valuation) : box.Holds ⟨7⟩ v ↔ box.Holds ⟨5⟩ v := by
    change box.eval v.differences (-⟨-7⟩) = true ↔ box.eval v.differences (-⟨-5⟩) = true
    rw [hm.eval_neg live_box, hm.eval_neg square, Bool.not_eq_true', Bool.not_eq_true',
      ← Bool.not_eq_true, ← Bool.not_eq_true]
    exact not_congr (holds_square_iff_box v).symm
  obtain ⟨removed, equivalent⟩ := reachable_box.removeNegative_exact outside small_box
  obtain ⟨r, m', run, -, holds, fixed⟩ := removed.of_isSome (by decide +kernel)
  obtain ⟨trusts, -, again⟩ := fixed two
  obtain ⟨b, n, run', rfl⟩ :=
    (equivalent ⟨5⟩ square.neg small_box fun v _ => same v).of_isSome (by decide +kernel)
  exact ⟨⟨outside, square.neg⟩, two, same, ⟨r, m', run, holds, again _ trusts⟩, n, run'⟩

end ZoneDiagram.Manager

import ZoneDiagram.Proofs.Combination
import ZoneDiagram.Proofs.Manager.Recall

/-!
# Reduction is exact

Constants up to `constantLimit` add up along every path without clamping. For diagrams with such
constants:

**Theorem (`Reachable.reduce_exact`).** A reduction keeps the truth at every valuation.

**Theorem (`Reachable.reduce_path`).** Every path of a reduced diagram is taken by a valuation.

**Theorem (`Reachable.reduce_fixed`).** A reduced diagram reduces to itself, and no node is stored,
whatever results are remembered.

A reduction fails only if every slot of the store is taken. The last two theorems hold because a
reduced diagram is irredundant (`Irredundant`), and a pass over an irredundant diagram meets every
path of it, in whatever contexts the first pass has met them.
-/

namespace ZoneDiagram.Manager

variable {m m' : Manager} {f r : Handle} {tests : List Diagram.Test} {K : Int}

/-! ## Irredundant diagrams -/

/-- The constants of the diagram have at most the magnitude `K`, for which there is room, and all
its paths are taken. -/
abbrev Irredundant (m : Manager) (K : Int) (r : Handle) : Prop := m.TakenIn K m.openContext r

/-- **Every path of an irredundant diagram is taken.** -/
theorem Irredundant.exists_holds (hr : m.Irredundant K r) (hm : m.Nodes) (path : m.Path r tests) :
    ∃ v : Valuation, ∀ t ∈ tests, t.Holds v := by
  obtain ⟨v, -, passes⟩ := hr.taken tests (hm.path_unfold hr.live path)
  exact ⟨v, passes⟩

/-- A tree that is right in the open context, with small constants, names an irredundant
diagram. -/
theorem Nodes.irredundant_of_reducesTo {truth : Valuation → Bool} (hm : m.Nodes) (hr : m.Live r)
    (room : Dbm.Room m.dim K) (small : Diagram.Small K (m.unfold r))
    (spec : Diagram.ReducesTo m.openContext truth (m.unfold r)) :
    m.Irredundant K r ∧ ∀ v : Valuation, m.eval v.differences r = truth v := by
  refine ⟨⟨⟨hr, hm.ready_openContext room, small⟩, spec.takesAll⟩, fun v => ?_⟩
  rw [hm.eval_eq hr]
  exact spec.agrees v (m.holds_openContext v)

/-- What a reduction gives is irredundant and has the truth of the diagram. -/
theorem reduce_irredundant_runs (hm : m.Sound) (hf : m.Live f) (room : Dbm.Room m.dim K)
    (small : Diagram.Small K (m.unfold f)) :
    Runs m (reduce f) (fun r m' => m'.Irredundant K r ∧
      ∀ v : Valuation, m'.eval v.differences r = m.eval v.differences f) fun _ => False := by
  obtain ⟨t, ht, spec⟩ :=
    Diagram.reduces_of_ready (hm.ready_openContext room) (hm.canonical_unfold hf) small
  refine (reduce_runs hm hf).imp (fun r m' grows reduced => ?_) fun e stuck => stuck.none ⟨t, ht⟩
  have tree : m'.unfold r = t := by
    injection reduced.unfold.symm.trans ((grows.keeps.unfold hm.toNodes hf).symm ▸ ht)
  subst tree
  rw [← grows.keeps.openContext] at spec
  have small := Diagram.small_of_reduce small ht
  obtain ⟨irredundant, truth⟩ := grows.sound.toNodes.irredundant_of_reducesTo reduced.live
    (grows.keeps.dim ▸ room) small spec
  refine ⟨irredundant, fun v => ?_⟩
  rw [truth v, hm.eval_eq hf]

/-! ## Whatever is remembered -/

/-- **An irredundant diagram reduces to itself** with any cache, and no node is stored. -/
theorem Irredundant.reduce_eq_self (hr : m.Irredundant K r) (hm : m.Sound) {c : Cache OpKey Handle}
    (hc : m.Trusts c) : ∃ c', reduce r { m with cache := c } = .ok r { m with cache := c' } := by
  obtain ⟨c', -, run⟩ := hr.reduce_recalls hm c hc
  exact ⟨c', run⟩

/-! ## Reduction in reachable managers -/

/-- **Reduction keeps the truth.** It fails only if every slot of the store is taken. -/
theorem Reachable.reduce_exact (h : m.Reachable) (hf : m.Live f)
    (bounds : m.BoundsWithin m.constantLimit f) :
    m.Gives (reduce f) fun r m' => m'.Live r ∧
      ∀ v : Valuation, m'.eval v.differences r = m.eval v.differences f := by
  have small := h.sound.small_unfold hf bounds
  refine (reduce_irredundant_runs h.sound hf m.room_constantLimit small).gives_of h.sound ?_
  intro r m' _ ⟨irredundant, truth⟩
  exact ⟨irredundant.live, truth⟩

/-- **No path survives reduction that no valuation takes.** -/
theorem Reachable.reduce_path (h : m.Reachable) (hf : m.Live f)
    (bounds : m.BoundsWithin m.constantLimit f) :
    m.Gives (reduce f) fun r m' => ∀ tests, m'.Path r tests →
      ∃ v : Valuation, ∀ t ∈ tests, t.Holds v := by
  have small := h.sound.small_unfold hf bounds
  refine (reduce_irredundant_runs h.sound hf m.room_constantLimit small).gives_of h.sound ?_
  intro r m' grows ⟨irredundant, _⟩ tests path
  exact irredundant.exists_holds grows.sound.toNodes path

/-- **A reduced diagram reduces to itself** and no node is stored, with the cache that the
reduction leaves, with an empty one and with any other that holds right results. -/
theorem Reachable.reduce_fixed (h : m.Reachable) (hf : m.Live f)
    (bounds : m.BoundsWithin m.constantLimit f) :
    m.Gives (reduce f) fun r m' => m'.Trusts m'.cache ∧ m'.Trusts m'.cache.clear ∧
      ∀ c, m'.Trusts c → ∃ c', reduce r { m' with cache := c } = .ok r { m' with cache := c' } := by
  have small := h.sound.small_unfold hf bounds
  refine (reduce_irredundant_runs h.sound hf m.room_constantLimit small).gives_of h.sound ?_
  intro r m' grows ⟨irredundant, _⟩
  exact ⟨grows.sound.trusts_cache, grows.sound.trusts_clear,
    fun c hc => irredundant.reduce_eq_self grows.sound hc⟩

/-! ## A box with an implied band -/

/-- The bands on the two clocks in one diagram. -/
def square : Manager := (Action.apply .and ⟨-2⟩ ⟨-3⟩).next bands

/-- The square with the third band, which it implies. -/
def box : Manager := (Action.apply .and ⟨-5⟩ ⟨-4⟩).next square

/-- What evaluating the square and the box shows. -/
theorem evaluate_box : (∀ f ∈ [⟨-2⟩, ⟨-3⟩], bands.Live f) ∧ (∀ f ∈ [⟨-5⟩, ⟨-4⟩], square.Live f) ∧
    (∀ f ∈ [⟨-7⟩, ⟨-5⟩], box.Live f) ∧ (∀ slot < box.store.slots.size, ∀ node ∈ box.store.get? slot,
      ∀ e ∈ node.edges, e.upper.Within box.constantLimit) ∧
    result? (reduce ⟨-7⟩) box = some ⟨-5⟩ := by
  decide +kernel

theorem reachable_square : square.Reachable :=
  reachable_bands.step (.apply .and ⟨-2⟩ ⟨-3⟩) evaluate_box.1

theorem live_square : ∀ f ∈ [⟨-5⟩, ⟨-4⟩], square.Live f := evaluate_box.2.1

theorem reachable_box : box.Reachable := reachable_square.step (.apply .and ⟨-5⟩ ⟨-4⟩) live_square

theorem live_box : box.Live ⟨-7⟩ := evaluate_box.2.2.1 _ (by simp)

theorem small_box {f : Handle} : box.BoundsWithin box.constantLimit f :=
  boundsWithin_of_nodes evaluate_box.2.2.2.1 f

theorem reduce_box : result? (reduce ⟨-7⟩) box = some ⟨-5⟩ := evaluate_box.2.2.2.2

theorem reduce_exact_box : ∃ m', reduce ⟨-7⟩ box = .ok ⟨-5⟩ m' ∧ m'.Live ⟨-5⟩ ∧
    ∀ v : Valuation, m'.eval v.differences ⟨-5⟩ = box.eval v.differences ⟨-7⟩ :=
  (reachable_box.reduce_exact live_box small_box).of_result? reduce_box

theorem reduce_path_box : ∃ m', reduce ⟨-7⟩ box = .ok ⟨-5⟩ m' ∧
    ∀ tests, m'.Path ⟨-5⟩ tests → ∃ v : Valuation, ∀ t ∈ tests, t.Holds v :=
  (reachable_box.reduce_path live_box small_box).of_result? reduce_box

theorem reduce_fixed_box : ∃ m', reduce ⟨-7⟩ box = .ok ⟨-5⟩ m' ∧ m'.Trusts m'.cache ∧
    m'.Trusts m'.cache.clear ∧ ∀ c, m'.Trusts c →
      ∃ c', reduce ⟨-5⟩ { m' with cache := c } = .ok ⟨-5⟩ { m' with cache := c' } :=
  (reachable_box.reduce_fixed live_box small_box).of_result? reduce_box

end ZoneDiagram.Manager

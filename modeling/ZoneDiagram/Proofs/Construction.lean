import ZoneDiagram.Proofs.Closure
import ZoneDiagram.Proofs.Diagram.CutPaths
import ZoneDiagram.Proofs.Intersection

/-!
# The diagram of a matrix is exact and reduced

**Theorem (`Reachable.ofDbm_exact`).** The diagram of a matrix with constants up to `constantLimit`,
closed or not, has the valuations of the matrix and no others. It is the constant without valuations
exactly if there are none, and it reduces to itself.

The diagram is reduced because all paths of the tree through the cuts are taken
(`Diagram.takesAll_cuts`), those that leave the tree at one side of a cut included.
-/

namespace ZoneDiagram.Manager

variable {m : Manager} {zone : Dbm} {K : Int}

/-- Every path of the diagram of a matrix is taken. -/
theorem TreeOf.takesAll {f : Handle} {ctx : Dbm} (h : m.TreeOf K f zone) (hm : m.Nodes)
    (wide : Dbm.Room m.dim (m.dim * K)) (room : Dbm.Room m.dim K) (le : zone.dim ≤ m.dim)
    (all : ∀ v, ctx.Holds v) : Diagram.TakesAll (m.unfold f) ctx := by
  rcases h with ⟨rfl, -⟩ | ⟨closed, dim, settled, -, tree⟩
  · intro tests path
    rw [unfold_zero] at path
    exact ⟨fun _ => 0, all _, by simp [path.eq_nil]⟩
  · have inside : closed.dim ≤ m.dim := dim.trans_le le
    rw [tree]
    exact Diagram.takesAll_cuts settled (room.mono inside) (wide.mono inside)
      (fun i hi j hj => within_sums settled room inside hi hj) (inside.trans hm.dim_le) all

/-- The diagram of a matrix is irredundant and has its valuations. -/
theorem ofDbm_irredundant_runs (hm : m.Sound) (wide : Dbm.Room m.dim (m.dim * K))
    (room : Dbm.Room m.dim K) (le : zone.dim ≤ m.dim) (small : zone.Small K) :
    Runs m (ofDbm zone) (fun f m' => m'.Irredundant (m.dim * K) f ∧
      ∀ v, m'.Holds f v ↔ zone.Holds v) fun _ => False := by
  refine ((ofDbm_isZone_runs hm wide room le small).and
    (ofDbm_treeOf_runs hm room le small)).imp (fun f m' grows ⟨isZone, _, tree⟩ => ?_) fun _ h => h
  have dim : m'.dim = m.dim := grows.keeps.dim
  have hm' := grows.sound.toNodes
  rw [← dim] at wide room le isZone ⊢
  have taken := tree.takesAll hm' wide room le m'.holds_openContext
  exact ⟨⟨⟨isZone.live, hm'.ready_openContext wide, isZone.small⟩, taken⟩, isZone.holds⟩

/-- **The diagram of a matrix is exact and reduced.** -/
theorem Reachable.ofDbm_exact (h : m.Reachable) (le : zone.dim ≤ m.dim)
    (small : zone.Small m.constantLimit) :
    m.Gives (ofDbm zone) fun f m' => m'.Live f ∧ (∀ v, m'.Holds f v ↔ zone.Holds v) ∧
      (f = .zero ↔ ∀ v, ¬zone.Holds v) ∧ ∃ c, reduce f m' = .ok f { m' with cache := c } := by
  refine (ofDbm_irredundant_runs h.sound m.room_sums m.room_constantLimit le small).gives_of
    h.sound ?_
  intro f m' grows ⟨irredundant, holds⟩
  refine ⟨irredundant.live, holds, ?_, irredundant.reduce_eq grows.sound⟩
  rw [irredundant.eq_zero_iff grows.sound.toNodes]
  simp only [← holds, Holds, Bool.not_eq_true]

/-- The kite is not closed, and its diagram is that of a zone. The gap has the constant without
valuations as its diagram. -/
theorem ofDbm_exact_kite : Dbm.kite.Small box.constantLimit ∧ Dbm.gap.Small box.constantLimit ∧
    (∃ f m', ofDbm Dbm.kite box = .ok f m' ∧ (∀ v, m'.Holds f v ↔ Dbm.kite.Holds v) ∧
      ∃ c, reduce f m' = .ok f { m' with cache := c }) ∧
    ∃ m', ofDbm Dbm.gap box = .ok .zero m' ∧ ∀ v, ¬Dbm.gap.Holds v := by
  have kiteSmall : Dbm.kite.Small box.constantLimit :=
    Dbm.small_ofFn _ (by decide) (by rw [constantLimit_box]; decide)
  have gapSmall : Dbm.gap.Small box.constantLimit :=
    Dbm.small_ofFn _ (by decide) (by rw [constantLimit_box]; decide)
  obtain ⟨f, m', run, -, holds, -, reduced⟩ :=
    (reachable_box.ofDbm_exact dim_box.ge kiteSmall).of_isSome (by decide +kernel)
  have gapInside : Dbm.gap.dim ≤ box.dim := dim_box.ge.trans' (by decide)
  obtain ⟨n, run', -, -, empty, -⟩ :=
    (reachable_box.ofDbm_exact gapInside gapSmall).of_result? (a := .zero) (by decide +kernel)
  exact ⟨kiteSmall, gapSmall, ⟨f, m', run, holds, reduced⟩, n, run', empty.1 rfl⟩

end ZoneDiagram.Manager

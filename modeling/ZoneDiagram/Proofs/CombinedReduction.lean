import ZoneDiagram.Proofs.Manager.ApplyReduce
import ZoneDiagram.Proofs.Reduction

/-!
# Combining and reducing in one pass is exact

For diagrams with constants up to `constantLimit`:

**Theorem (`Reachable.applyReduce_exact`).** The one pass gives the connective of the truths, as a
reduction of the combined diagram does.

**Theorem (`Reachable.applyReduce_fixed`).** What the pass gives has only paths that some valuation
takes, and both ways of reducing give it back.

The pass never builds the combined diagram. It is right as the trees are
(`Diagram.applyReduces_of_ready`): every piece of the operands is combined in the context of its
path, and where a shortcut ends the recursion, the operand that is left is reduced in that context.
-/

namespace ZoneDiagram.Manager

variable {m m' : Manager} {op : Connective} {f g r : Handle} {K : Int}

/-- What the pass gives is irredundant and has the combined truth. -/
theorem applyReduce_irredundant_runs (hm : m.Sound) (hf : m.Live f) (hg : m.Live g)
    (room : Dbm.Room m.dim K) (fSmall : Diagram.Small K (m.unfold f))
    (gSmall : Diagram.Small K (m.unfold g)) :
    Runs m (applyReduce op f g) (fun r m' => m'.Irredundant K r ∧ ∀ v : Valuation,
      m'.eval v.differences r = op.onBool (m.eval v.differences f) (m.eval v.differences g))
      fun _ => False := by
  have fTree := hm.canonical_unfold hf
  have gTree := hm.canonical_unfold hg
  have ready := hm.ready_openContext room
  obtain ⟨exists_tree, spec⟩ :
      (∃ t, Diagram.ApplyReduces op (m.unfold f) (m.unfold g) m.openContext t) ∧ _ :=
    Diagram.applyReduces_of_ready hm.few ready fTree gTree fSmall gSmall
  refine (applyReduce_runs hm hf hg).imp (fun r m' grows combined => ?_)
    fun e stuck => stuck.none exists_tree
  have tree := combined.unfold
  rw [grows.keeps.unfold hm.toNodes hf, grows.keeps.unfold hm.toNodes hg] at tree
  have small := Diagram.small_of_applyReduces hm.few fTree gTree fSmall gSmall tree
  have spec := spec _ tree
  rw [← grows.keeps.openContext] at spec
  obtain ⟨irredundant, truth⟩ := grows.sound.toNodes.irredundant_of_reducesTo combined.live
    (grows.keeps.dim ▸ room) small spec
  refine ⟨irredundant, fun v => ?_⟩
  rw [truth v, hm.eval_eq hf, hm.eval_eq hg]

/-- The combined diagram has the constants of its operands, and its reduction the same truth. -/
theorem reduce_apply_runs (hm : m.Sound) (hf : m.Live f) (hg : m.Live g)
    (room : Dbm.Room m.dim K) (fSmall : Diagram.Small K (m.unfold f))
    (gSmall : Diagram.Small K (m.unfold g)) :
    Runs m (do reduce (← apply op f g)) (fun r m' => m'.Irredundant K r ∧ ∀ v : Valuation,
      m'.eval v.differences r = op.onBool (m.eval v.differences f) (m.eval v.differences g))
      fun _ => False := by
  have runs : Runs m (apply op f g) (fun r m' => m'.Applied op f g r) fun _ => False :=
    apply_runs hm hf hg
  refine runs.bind fun u m' grows applied => ?_
  have small : Diagram.Small K (m'.unfold u) := by
    refine applied.small ?_ ?_
    · rwa [grows.keeps.unfold hm.toNodes hf]
    · rwa [grows.keeps.unfold hm.toNodes hg]
  have room := grows.keeps.dim ▸ room
  refine (reduce_irredundant_runs grows.sound applied.live room small).imp ?_ fun _ h => h
  intro r m'' _ ⟨irredundant, truth⟩
  refine ⟨irredundant, fun v => ?_⟩
  have preserves := hm.preserves grows
  rw [truth v, applied.eval, preserves.eval f hf, preserves.eval g hg]

/-! ## Reachable managers -/

/-- **The pass is exact**, whatever is remembered: it gives the connective of the truths, and a
reduction of the combined diagram gives the same federation. Both fail only if every slot of the
store is taken. -/
theorem Reachable.applyReduce_exact (h : m.Reachable) (op : Connective) (hf : m.Live f)
    (hg : m.Live g) (fBounds : m.BoundsWithin m.constantLimit f)
    (gBounds : m.BoundsWithin m.constantLimit g) :
    m.Gives (applyReduce op f g) fun r m' => m'.Live r ∧
      (∀ v : Valuation, m'.eval v.differences r =
        op.onBool (m.eval v.differences f) (m.eval v.differences g)) ∧
      m'.Gives (do reduce (← apply op f g)) fun s m'' => m''.Live s ∧
        ∀ v : Valuation, m''.eval v.differences s = m''.eval v.differences r := by
  have fSmall := h.sound.small_unfold hf fBounds
  have gSmall := h.sound.small_unfold hg gBounds
  have room := m.room_constantLimit
  refine (applyReduce_irredundant_runs h.sound hf hg room fSmall gSmall).gives_of h.sound ?_
  intro r m' grows ⟨irredundant, truth⟩
  refine ⟨irredundant.live, truth, ?_⟩
  have left := grows.keeps.live hf
  have right := grows.keeps.live hg
  have room := grows.keeps.dim ▸ m.room_constantLimit
  rw [← grows.keeps.unfold h.sound.toNodes hf] at fSmall
  rw [← grows.keeps.unfold h.sound.toNodes hg] at gSmall
  refine (reduce_apply_runs grows.sound left right room fSmall gSmall).gives_of grows.sound ?_
  intro s m'' grows' ⟨irredundant', truth'⟩
  refine ⟨irredundant'.live, fun v => ?_⟩
  rw [truth' v, (grows.sound.preserves grows').eval r irredundant.live, truth v,
    (h.sound.preserves grows).eval f hf, (h.sound.preserves grows).eval g hg]

/-- **What the pass gives is reduced.** Every path is taken by a valuation, and both reductions give
the diagram back and store no node. -/
theorem Reachable.applyReduce_fixed (h : m.Reachable) (op : Connective) (hf : m.Live f)
    (hg : m.Live g) (fBounds : m.BoundsWithin m.constantLimit f)
    (gBounds : m.BoundsWithin m.constantLimit g) :
    m.Gives (applyReduce op f g) fun r m' =>
      (∀ tests, m'.Path r tests → ∃ v : Valuation, ∀ t ∈ tests, t.Holds v) ∧
      (∃ c, reduce r m' = .ok r { m' with cache := c }) ∧ reduceByLayers r m' = .ok r m' := by
  have fSmall := h.sound.small_unfold hf fBounds
  have gSmall := h.sound.small_unfold hg gBounds
  have room := m.room_constantLimit
  refine (applyReduce_irredundant_runs h.sound hf hg room fSmall gSmall).gives_of h.sound ?_
  intro r m' grows ⟨irredundant, _⟩
  exact ⟨fun tests path => irredundant.exists_holds grows.sound.toNodes path,
    irredundant.reduce_eq grows.sound, irredundant.reduceByLayers_eq grows.sound.toNodes⟩

/-! ## The square cut by its implied band -/

/-- What evaluating the square shows. -/
theorem evaluate_square : (∀ slot < square.store.slots.size, ∀ node ∈ square.store.get? slot,
      ∀ e ∈ node.edges, e.upper.Within square.constantLimit) ∧
    result? (applyReduce .and ⟨-5⟩ ⟨-4⟩) square = some ⟨-5⟩ := by
  decide +kernel

theorem small_square (f : Handle) : square.BoundsWithin square.constantLimit f :=
  boundsWithin_of_nodes evaluate_square.1 f

theorem applyReduce_square : result? (applyReduce .and ⟨-5⟩ ⟨-4⟩) square = some ⟨-5⟩ :=
  evaluate_square.2

theorem applyReduce_exact_square : ∃ m', applyReduce .and ⟨-5⟩ ⟨-4⟩ square = .ok ⟨-5⟩ m' ∧
    m'.Live ⟨-5⟩ ∧ (∀ v : Valuation, m'.eval v.differences ⟨-5⟩ =
      Connective.and.onBool (square.eval v.differences ⟨-5⟩) (square.eval v.differences ⟨-4⟩)) ∧
    m'.Gives (do reduce (← apply .and ⟨-5⟩ ⟨-4⟩)) fun s m'' => m''.Live s ∧
      ∀ v : Valuation, m''.eval v.differences s = m''.eval v.differences ⟨-5⟩ :=
  (reachable_square.applyReduce_exact .and (live_square _ (by simp)) (live_square _ (by simp))
    (small_square _) (small_square _)).of_result? applyReduce_square

/-! ## A band without the square inside of it -/

/-- What evaluating the second band without the box shows. The pass stores a node, and what it gives
is not the combined diagram, which still tests the implied band. -/
theorem applyReduce_box : (∀ f ∈ [⟨-3⟩, ⟨7⟩], box.Live f) ∧ ¬ box.Live ⟨-8⟩ ∧
    result? (applyReduce .and ⟨-3⟩ ⟨7⟩) box = some ⟨-8⟩ ∧
    result? (apply .and ⟨-3⟩ ⟨7⟩) box ≠ some ⟨-8⟩ := by
  decide +kernel

theorem applyReduce_fixed_box : ¬ box.Live ⟨-8⟩ ∧
    ∃ m', applyReduce .and ⟨-3⟩ ⟨7⟩ box = .ok ⟨-8⟩ m' ∧
      (∀ tests, m'.Path ⟨-8⟩ tests → ∃ v : Valuation, ∀ t ∈ tests, t.Holds v) ∧
      (∃ c, reduce ⟨-8⟩ m' = .ok ⟨-8⟩ { m' with cache := c }) ∧
      reduceByLayers ⟨-8⟩ m' = .ok ⟨-8⟩ m' := by
  obtain ⟨live, new, result, -⟩ := applyReduce_box
  exact ⟨new, (reachable_box.applyReduce_fixed .and (live _ (by simp)) (live _ (by simp))
    small_box small_box).of_result? result⟩

end ZoneDiagram.Manager

import ZoneDiagram.Proofs.Combination
import ZoneDiagram.Proofs.Diagram.Unique
import ZoneDiagram.Proofs.Manager.SameTree

/-!
# Results do not depend on history

A manager stores a tree in slots that depend on what it stored and dropped before, with complements
where the first node with that tree had them, and an operation orders its operands by slot and takes
what it remembers. None of this shows in the trees of the results.

**Theorem (`Reachable.history_independent`).** Two managers with the same number of clocks are given
diagrams with the same trees. Then combining them, reducing them, and both in one pass give the same
tree in both managers, or fail in both, unless one of them finds the store full. So does building
the diagram of a matrix. And the zones of the diagrams are found in the same order.

Each operation relates its result to the trees of its operands in a way that only one tree has
(`Determines`): the combination is the one canonical tree with its truth, and what a reduction gives
is described on trees.
-/

namespace ZoneDiagram.Manager

variable {m m' : Manager} {x x' : ManagerM Handle} {R : Diagram → Prop} {op : Connective}
  {f f' g g' : Handle}

/-! ## Determined computations -/

/-- The computation gives a diagram of a tree as described, and it fails only if there is no such
tree, or because the store is full. -/
def Determines (m : Manager) (x : ManagerM Handle) (R : Diagram → Prop) : Prop :=
  Runs m x (fun r m' => m'.Live r ∧ R (m'.unfold r)) fun _ => ¬∃ t, R t

/-- The computations give diagrams with the same tree, or both fail, unless one of them finds the
store full. -/
def Coincide (m : Manager) (x : ManagerM Handle) (m' : Manager) (x' : ManagerM Handle) : Prop :=
  match x m, x' m' with
  | .ok r n, .ok r' n' => SameTree n n' r r'
  | .ok _ _, .error e n' => Exhausted e n'
  | .error e n, .ok _ _ => Exhausted e n
  | .error _ _, .error _ _ => True

/-- Computations that are determined alike coincide, if they can only give one tree. -/
theorem Determines.coincide (h : m.Determines x R) (h' : m'.Determines x' R)
    (unique : ∀ {t t'}, R t → R t' → t = t') : Coincide m x m' x' := by
  unfold Determines Runs at h h'
  unfold Coincide
  cases run : x m with
  | ok r n =>
    rw [run] at h
    obtain ⟨-, live, tree⟩ := h
    cases run' : x' m' with
    | ok r' n' =>
      rw [run'] at h'
      exact ⟨live, h'.2.1, unique tree h'.2.2⟩
    | error e n' =>
      rw [run'] at h'
      exact h'.2.resolve_right fun none => none ⟨_, tree⟩
  | error e n =>
    rw [run] at h
    cases run' : x' m' with
    | ok r' n' =>
      rw [run'] at h'
      exact h.2.resolve_right fun none => none ⟨_, h'.2.2⟩
    | error e' n' => trivial

/-! ## Operations -/

/-- The canonical tree with the combined truth of two others. -/
structure CombinedTree (clocks : Nat) (op : Connective) (s t r : Diagram) : Prop where
  canonical : Diagram.Canonical clocks r
  eval : ∀ d, Diagram.eval d r = op.onBool (Diagram.eval d s) (Diagram.eval d t)

theorem CombinedTree.unique {clocks : Nat} {s t r r' : Diagram} (h : CombinedTree clocks op s t r)
    (h' : CombinedTree clocks op s t r') : r = r' :=
  Diagram.eq_of_eval_eq h.canonical h'.canonical fun d => (h.eval d).trans (h'.eval d).symm

theorem Sound.determines_apply (hm : m.Sound) (op : Connective) (hf : m.Live f) (hg : m.Live g) :
    m.Determines (apply op f g) (CombinedTree m.clocks op (m.unfold f) (m.unfold g)) := by
  refine (apply_runs (F := fun _ => False) hm hf hg).imp (fun r m' grows applied => ?_)
    fun _ none => none.elim
  have hm' := grows.sound.toNodes
  refine ⟨applied.live, grows.keeps.clocks ▸ hm'.canonical_unfold applied.live, fun d => ?_⟩
  rw [← grows.keeps.unfold hm.toNodes hf, ← grows.keeps.unfold hm.toNodes hg,
    ← hm'.eval_eq applied.live, ← hm'.eval_eq (grows.keeps.live hf),
    ← hm'.eval_eq (grows.keeps.live hg)]
  exact applied.eval d

theorem Sound.determines_reduce (hm : m.Sound) (hf : m.Live f) :
    m.Determines (reduce f) fun t => (m.unfold f).reduce m.openContext = .ok t := by
  refine (reduce_runs hm hf).imp (fun r m' grows reduced => ⟨reduced.live, ?_⟩)
    fun _ stuck => stuck.none
  rw [← grows.keeps.unfold hm.toNodes hf]
  exact reduced.unfold

theorem Sound.determines_applyReduce (hm : m.Sound) (op : Connective) (hf : m.Live f)
    (hg : m.Live g) : m.Determines (applyReduce op f g)
      (Diagram.ApplyReduces op (m.unfold f) (m.unfold g) m.openContext) := by
  refine (applyReduce_runs hm hf hg).imp (fun r m' grows combined => ⟨combined.live, ?_⟩)
    fun _ stuck => stuck.none
  rw [← grows.keeps.unfold hm.toNodes hf, ← grows.keeps.unfold hm.toNodes hg]
  exact combined.unfold

/-- The tree of a matrix over so many clocks, if it has one. -/
structure ZoneTree (dim : Nat) (zone : Dbm) (t : Diagram) : Prop where
  le : zone.dim ≤ dim
  tree : t = if zone.close.2 then Diagram.pathThrough (cuts zone.close.1) else .leaf false
  passable : zone.close.2 = true → Diagram.Passable (cuts zone.close.1)

theorem Sound.determines_ofDbm (hm : m.Sound) (zone : Dbm) :
    m.Determines (ofDbm zone) (ZoneTree m.dim zone) := by
  refine .query_cases hm (fun _ eq => ?_) fun e failed ⟨t, zoneTree⟩ => ?_
  · have le : zone.dim ≤ m.dim := checkDim_eq_ok_iff.1 eq
    have inside : zone.close.1.dim ≤ m.dim := (Dbm.dim_close zone).trans_le le
    -- A matrix without valuations gives zero, and any other the path through its cuts.
    rcases close : zone.close with ⟨closed, inhabited⟩
    rw [close] at inside
    cases inhabited with
    | false =>
      refine .pure hm ⟨hm.live_zero, le, ?_, fun some => ?_⟩
      · rw [close, unfold_zero]
        rfl
      · rw [close] at some
        cases some
    | true =>
      refine (pathThrough_cuts_runs hm inside).imp
        (fun r m' _ ⟨live, path, passable⟩ => ⟨live, le, ?_, fun _ => ?_⟩)
        fun _ stuck ⟨t, h⟩ => ?_
      · rw [close, path]
        rfl
      · rw [close]
        exact passable
      · have passable := h.passable
        rw [close] at passable
        exact stuck (passable rfl)
  · rw [checkDim_eq_ok_iff.2 zoneTree.le] at failed
    cases failed

/-! ## The theorem -/

/-- **Results do not depend on history.** -/
theorem Reachable.history_independent (h : m.Reachable) (h' : m'.Reachable)
    (clocks : m.clocks = m'.clocks) (hf : SameTree m m' f f') (hg : SameTree m m' g g') :
    (∀ op, Coincide m (apply op f g) m' (apply op f' g')) ∧
      Coincide m (reduce f) m' (reduce f') ∧
      (∀ op, Coincide m (applyReduce op f g) m' (applyReduce op f' g')) ∧
      (∀ zone, Coincide m (ofDbm zone) m' (ofDbm zone)) ∧
      m.zones f = m'.zones f' ∧ ∀ limit, m.firstZones f limit = m'.firstZones f' limit := by
  have hm := h.sound
  have hm' := h'.sound
  have dim : m.dim = m'.dim := congrArg (max · 1) clocks
  have ctx : m.openContext = m'.openContext := openContext_congr clocks
  refine ⟨fun op => ?_, ?_, fun op => ?_, fun zone => ?_, ?_⟩
  · have same := hm.determines_apply op hf.left hg.left
    rw [hf.unfold, hg.unfold, clocks] at same
    exact same.coincide (hm'.determines_apply op hf.right hg.right) CombinedTree.unique
  · have same := hm.determines_reduce hf.left
    rw [hf.unfold, ctx] at same
    refine same.coincide (hm'.determines_reduce hf.right) fun eq eq' => ?_
    exact Except.ok.inj (eq.symm.trans eq')
  · have same := hm.determines_applyReduce op hf.left hg.left
    rw [hf.unfold, hg.unfold, ctx] at same
    exact same.coincide (hm'.determines_applyReduce op hf.right hg.right)
      Diagram.ApplyReduces.unique
  · have same := hm.determines_ofDbm zone
    rw [dim] at same
    exact same.coincide (hm'.determines_ofDbm zone) fun h h' => h.tree.trans h'.tree.symm
  · exact ⟨zones_eq hm.toNodes hm'.toNodes clocks hf,
      firstZones_eq hm.toNodes hm'.toNodes clocks hf⟩

/-! ## Two bands in other slots -/

/-- The first two bands, made in the other order, with the third one made and dropped between. -/
def shuffled : Manager :=
  (Action.interval 1 0 0 2).next <| (Action.collectGarbage [⟨-2⟩]).next <|
    (Action.upperBound 2 1 5).next <| (Action.interval 2 0 0 2).next <|
      (Action.addClocks 3).next smallManager

theorem reachable_shuffled : shuffled.Reachable :=
  have made := Reachable.create create_smallManager
  ((((made.step (.addClocks 3) nofun).step (.interval 2 0 0 2) nofun).step
    (.upperBound 2 1 5) nofun).step (.collectGarbage [⟨-2⟩]) (by decide +kernel)).step
      (.interval 1 0 0 2) nofun

theorem sameTree_shuffled :
    SameTree bands shuffled ⟨-2⟩ ⟨-3⟩ ∧ SameTree bands shuffled ⟨-3⟩ ⟨-2⟩ := by
  have live : ∀ f ∈ [⟨-2⟩, ⟨-3⟩], bands.Live f ∧ shuffled.Live f := by decide +kernel
  exact ⟨⟨(live _ (by simp)).1, (live _ (by simp)).2, by decide +kernel⟩,
    ⟨(live _ (by simp)).1, (live _ (by simp)).2, by decide +kernel⟩⟩

/-- The square has other handles, and the same tree. -/
theorem history_independent_shuffled : ∃ n n', apply .and ⟨-2⟩ ⟨-3⟩ bands = .ok ⟨-5⟩ n ∧
    apply .and ⟨-3⟩ ⟨-2⟩ shuffled = .ok ⟨-4⟩ n' ∧ SameTree n n' ⟨-5⟩ ⟨-4⟩ ∧
    bands.zones ⟨-2⟩ = shuffled.zones ⟨-3⟩ := by
  obtain ⟨n, run⟩ := exists_of_result? (x := apply .and ⟨-2⟩ ⟨-3⟩) (m := bands) (a := ⟨-5⟩) (by decide +kernel)
  obtain ⟨n', run'⟩ :=
    exists_of_result? (x := apply .and ⟨-3⟩ ⟨-2⟩) (m := shuffled) (a := ⟨-4⟩) (by decide +kernel)
  obtain ⟨first, second⟩ := sameTree_shuffled
  obtain ⟨combine, -, -, -, zones, -⟩ :=
    reachable_bands.history_independent reachable_shuffled (by decide +kernel) first second
  have square := combine .and
  rw [Coincide, run, run'] at square
  exact ⟨n, n', run, run', square, zones⟩

end ZoneDiagram.Manager

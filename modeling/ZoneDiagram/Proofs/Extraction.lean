import ZoneDiagram.Proofs.CombinedReduction
import ZoneDiagram.Proofs.Manager.Extract

/-!
# Extraction

**Theorem (`Reachable.extract_succeeds`).** With constants up to `constantLimit`, a zone is
extracted from every federation that has a valuation. It is closed, inhabited and inside of the
federation. The only other failure is a store whose slots are all taken.

The extracted zone has constants that are sums along its path, up to as many as there are clocks.
The limit leaves room for these too (`room_sums`), so the rest of the federation can be reduced.

Without the limit an extraction can fail (`extract_sheet`): a sum that is clamped leaves a matrix
that is not closed.
-/

namespace ZoneDiagram.Manager

variable {m : Manager} {f : Handle} {dim : Nat} {full : Dbm} {e : Error} {K : Int}

theorem checkExtractDim_eq_ok (pos : 0 < dim) (le : dim ≤ m.dim) :
    m.checkExtractDim dim = .ok ⟨dim, pos⟩ := dif_pos ⟨pos, le⟩

/-- Without a zone nothing is extracted. -/
theorem extract_eq_error (pos : 0 < dim) (le : dim ≤ m.dim) (chosen : m.chooseZone f = .error e) :
    extract f dim m = .error e m := by
  unfold extract
  rw [bind_of_ok (query_of_ok (checkExtractDim_eq_ok pos le))]
  exact bind_of_error (query_of_error chosen)

/-- What an extraction gives: the diagram of a matrix, the matrix on the first clocks, and the
rest of the federation. -/
structure Parts (m m' : Manager) (K : Int) (f : Handle) (full : Dbm) (ex : Extraction) : Prop where
  live : m'.Live ex.zone
  tree : m'.unfold ex.zone = Diagram.pathThrough (cuts full)
  irredundant : m'.Irredundant K ex.remainder
  rest : ∀ v, m'.Holds ex.remainder v ↔ m.Holds f v ∧ ¬m'.Holds ex.zone v

/-- A chosen matrix is extracted, and the rest of the federation is reduced. -/
theorem extract_settled_runs (hm : m.Sound) (hf : m.Live f)
    (small : Diagram.Small (m.dim * K) (m.unfold f)) (wide : Dbm.Room m.dim (m.dim * K))
    (pos : 0 < dim) (le : dim ≤ m.dim) (chosen : m.chooseZone f = .ok full)
    (dims : full.dim = m.dim) (settled : full.Settled K) (room : Dbm.Room full.dim K) :
    Runs m (extract f dim) (fun ex m' => Parts m m' (m.dim * K) f full ex ∧
      ex.dbm = full.projected dim pos) fun _ => False := by
  have nonneg := room.nonneg
  refine .query_bind (checkExtractDim_eq_ok pos le) (.query_bind chosen ?_)
  refine (ofDbm_runs_of_settled hm settled room dims.le).bind fun z m₁ grows ⟨live, tree⟩ => ?_
  have zoneSmall : Diagram.Small (m.dim * K) (m₁.unfold (-z)) := by
    rw [grows.sound.unfold_neg live, tree]
    refine ((Diagram.small_pathThrough fun c hc =>
      (consistent_of_mem_cuts settled room hc).2).mono ?_).neg
    rw [dims]
    linarith
  have restSmall : Diagram.Small (m.dim * K) (m₁.unfold f) := by
    rw [grows.keeps.unfold hm.toNodes hf]
    exact small
  refine (applyReduce_irredundant_runs grows.sound (grows.keeps.live hf) live.neg
    (grows.keeps.dim ▸ wide) restSmall zoneSmall).bind fun r m₂ grows' ⟨irredundant, truth⟩ => ?_
  refine .pure grows'.sound ⟨⟨grows'.keeps.live live, ?_, irredundant, fun v => ?_⟩, rfl⟩
  · rw [grows'.keeps.unfold grows.sound.toNodes live, tree]
  · have zoneKept := (grows.sound.preserves grows').eval z live
    have oldKept := (hm.preserves grows).eval f hf
    have slot := grows.sound.toNodes.slot_ne_zero live
    rw [Holds, truth v, oldKept, eval_neg m₁ _ slot, Holds, Holds, zoneKept]
    simp [Connective.onBool]

/-- A zone that the search has found is extracted. -/
theorem extract_parts_runs (hm : m.Sound) (hf : m.MetIn K m.openContext f)
    (wide : Dbm.Room m.dim (m.dim * K)) (pos : 0 < dim) (le : dim ≤ m.dim)
    (chosen : m.chooseZone f = .ok full) (zone : m.ZoneOf K f m.openContext full) :
    Runs m (extract f dim) (fun ex m' => Parts m m' (m.dim * K) f full ex ∧
      ex.dbm = full.projected dim pos) fun _ => False := by
  have nonneg := zone.ready.room.nonneg
  have one_le : (1 : Int) ≤ m.dim := Int.ofNat_le.2 m.dim_pos
  have small : Diagram.Small (m.dim * K) (m.unfold f) := hf.small.mono (by nlinarith)
  exact extract_settled_runs hm hf.live small wide pos le chosen zone.dim zone.ready.settled
    zone.ready.room

theorem extract_zone_runs (hm : m.Sound) (hf : m.MetIn K m.openContext f)
    (wide : Dbm.Room m.dim (m.dim * K)) (pos : 0 < dim) (le : dim ≤ m.dim)
    (chosen : m.chooseZone f = .ok full) (zone : m.ZoneOf K f m.openContext full) :
    Runs m (extract f dim) (fun ex m' => m'.Live ex.zone ∧ m'.Live ex.remainder ∧
      ex.dbm = full.projected dim pos) fun _ => False :=
  (extract_parts_runs hm hf wide pos le chosen zone).imp
    (fun _ _ _ ⟨parts, dbm⟩ => ⟨parts.live, parts.irredundant.live, dbm⟩) fun _ h => h

/-- **A zone is extracted from every federation that has a valuation**, unless every slot of the
store is taken. It is projected from a matrix that is inhabited, closed and inside of the
federation. From a federation without valuations there is nothing to extract. -/
theorem Reachable.extract_succeeds (h : m.Reachable) (hf : m.Live f)
    (bounds : m.BoundsWithin m.constantLimit f) (pos : 0 < dim) (le : dim ≤ m.dim) :
    ((∃ v, m.Holds f v) → m.Gives (extract f dim) fun ex m' => m'.Live ex.zone ∧
      m'.Live ex.remainder ∧ ∃ full : Dbm, full.isValid = true ∧ full.isClosed = true ∧
        (∀ v, full.Holds v → m.Holds f v) ∧ ex.dbm = full.projected dim pos) ∧
    ((¬∃ v, m.Holds f v) → extract f dim m = .error .emptyFederation m) := by
  have hm := h.sound
  have met : m.MetIn m.constantLimit m.openContext f :=
    ⟨hf, hm.ready_openContext m.room_constantLimit, hm.small_unfold hf bounds⟩
  rcases chooseZone_cases hm.toNodes met with ⟨none, empty⟩ | ⟨full, chosen, zone⟩
  · exact ⟨fun ⟨v, hv⟩ => absurd hv (empty v), fun _ => extract_eq_error pos le none⟩
  · have settled := zone.ready.settled
    have room := zone.ready.room
    have some : ∃ v, m.Holds f v := by
      obtain ⟨v, hv⟩ := settled.exists_holds
      exact ⟨v, (zone.holds v hv).2⟩
    refine ⟨fun _ => ?_, fun none => absurd some none⟩
    refine (extract_zone_runs hm met m.room_sums pos le chosen zone).gives_of hm ?_
    intro ex m' _ ⟨liveZone, liveRest, dbm⟩
    exact ⟨liveZone, liveRest, full, settled.isValid room, settled.isClosed room,
      fun v hv => (zone.holds v hv).2, dbm⟩

theorem extract_succeeds_box : (∃ v, box.Holds ⟨-7⟩ v) ∧ ∃ ex m', extract ⟨-7⟩ 2 box = .ok ex m' ∧
    m'.Live ex.zone ∧ m'.Live ex.remainder ∧ ∃ full : Dbm, full.isValid = true ∧
      full.isClosed = true ∧ (∀ v, full.Holds v → box.Holds ⟨-7⟩ v) ∧
        ex.dbm = full.projected 2 (by decide) := by
  have origin : ∃ v, box.Holds ⟨-7⟩ v := ⟨fun _ => 0, by decide +kernel⟩
  have le : 2 ≤ box.dim := by decide +kernel
  have extracted := reachable_box.extract_succeeds live_box small_box (by decide) le
  exact ⟨origin, (extracted.1 origin).of_isSome (by decide +kernel)⟩

/-! ## Constants that are clamped -/

/-- With `M` the greatest constant, the diagrams of `-M ≤ x₀ - x₁ < 1 - M`, of `-1 ≤ x₂ - x₀` and of
`-M ≤ x₂ - x₁`, and all three together. -/
def sheet : Manager :=
  (Action.apply .and ⟨-5⟩ ⟨4⟩).next <| (Action.apply .and ⟨-2⟩ ⟨3⟩).next <|
    (Action.lowerBound 2 1 (-Bound.maxValue)).next <| (Action.lowerBound 2 0 (-1)).next <|
    (Action.interval 0 1 (-Bound.maxValue) (1 - Bound.maxValue)).next <|
    (Action.addClocks 3).next smallManager

/-- The first two constraints give `x₁ - x₂ ≤ M + 1`, which is clamped to `x₁ - x₂ ≤ M`. So the
third one seems to be implied, and a matrix is left that is not closed. -/
theorem extract_sheet : sheet.Reachable ∧
    failure? (extract ⟨-7⟩ 3) sheet = some (.extractedOpen ⟨-7⟩) ∧ ∃ v, sheet.Holds ⟨-7⟩ v := by
  have made := (((Reachable.create create_smallManager).step (.addClocks 3) nofun).step
    (.interval 0 1 (-Bound.maxValue) (1 - Bound.maxValue)) nofun).step (.lowerBound 2 0 (-1)) nofun
  have built := made.step (.lowerBound 2 1 (-Bound.maxValue)) nofun
  have pair := built.step (.apply .and ⟨-2⟩ ⟨3⟩) (by decide +kernel)
  refine ⟨pair.step (.apply .and ⟨-5⟩ ⟨4⟩) (by decide +kernel), by decide +kernel,
    fun i => if i = 1 then Bound.maxValue else 0, ?_⟩
  decide +kernel

end ZoneDiagram.Manager

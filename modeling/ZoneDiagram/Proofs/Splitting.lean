import ZoneDiagram.Proofs.Diagram.Cuts
import ZoneDiagram.Proofs.Extraction

/-!
# Extraction splits a federation

**Theorem (`Reachable.extract_splits`).** With constants up to `constantLimit`, an extraction
reports an empty federation exactly if there is no valuation. Otherwise it splits the federation
into an inhabited zone and the rest (`SplitsOff`), unless every slot of the store is taken. The
matrix is closed, and it holds exactly of the valuations of the first clocks that extend to one in
the zone.

The diagram of the zone has the valuations of the matrix that the search has found, although its
path leaves out all bounds that others imply (`Parts.holds_zone_iff`).
-/

namespace ZoneDiagram.Manager

variable {m m' : Manager} {f : Handle} {dim : Nat} {full : Dbm} {ex : Extraction} {K : Int}

/-- A federation is split into an inhabited zone, which the matrix shows on the first clocks, and
the rest. -/
structure SplitsOff (m m' : Manager) (f : Handle) (dim : Nat) (ex : Extraction) : Prop where
  live_zone : m'.Live ex.zone
  live_remainder : m'.Live ex.remainder
  inhabited : ∃ v, m'.Holds ex.zone v
  inside : ∀ v, m'.Holds ex.zone v → m.Holds f v
  disjoint : ∀ v, m'.Holds ex.zone v → ¬m'.Holds ex.remainder v
  union : ∀ v, m'.Holds ex.zone v ∨ m'.Holds ex.remainder v ↔ m.Holds f v
  dim_dbm : ex.dbm.dim = dim
  closed : ex.dbm.isClosed = true
  valid : ex.dbm.isValid = true
  shadow : ∀ v, ex.dbm.Holds v ↔ ∃ w, (∀ i < dim, w i = v i) ∧ m'.Holds ex.zone w

/-- The path through the cuts of a settled matrix holds of its valuations. -/
theorem Nodes.holds_iff_of_cuts (hm : m.Nodes) (hf : m.Live f)
    (tree : m.unfold f = Diagram.pathThrough (cuts full)) (settled : full.Settled K)
    (room : Dbm.Room full.dim K) (wide : Dbm.Room full.dim (full.dim * K))
    (le : full.dim ≤ m.dim) (v : Valuation) : m.Holds f v ↔ full.Holds v := by
  have within (i : Nat) (hi : i < full.dim) (j : Nat) (hj : j < full.dim) :
      (full.entry i j).Within (full.dim * K) :=
    (settled.within room.nonneg hi hj).mono (by linarith [room.nonneg])
  rw [hm.holds_iff hf, tree]
  exact Diagram.eval_cuts_iff settled room wide within (le.trans hm.dim_le) v

/-- The diagram of the zone holds of the valuations of its matrix. -/
theorem Parts.holds_zone_iff (parts : Parts m m' K f full ex) (hm' : m'.Nodes) {L : Int}
    (settled : full.Settled L) (room : Dbm.Room full.dim L)
    (wide : Dbm.Room full.dim (full.dim * L)) (dim : full.dim = m'.dim) (v : Valuation) :
    m'.Holds ex.zone v ↔ full.Holds v :=
  hm'.holds_iff_of_cuts parts.live parts.tree settled room wide dim.le v

/-- The parts of an extraction split the federation. -/
theorem Parts.splitsOff (parts : Parts m m' (m.dim * K) f full ex) (grows : m.Grows m')
    (zone : m.ZoneOf K f m.openContext full) (wide : Dbm.Room m.dim (m.dim * K)) (pos : 0 < dim)
    (le : dim ≤ m.dim) (dbm : ex.dbm = full.projected dim pos) : SplitsOff m m' f dim ex := by
  have dims : full.dim = m.dim := zone.dim
  have settled := zone.ready.settled
  have room := zone.ready.room
  have le' : dim ≤ full.dim := le.trans dims.ge
  rw [← dims] at wide
  have holds (v : Valuation) : m'.Holds ex.zone v ↔ full.Holds v :=
    parts.holds_zone_iff grows.sound.toNodes settled room wide (dims.trans grows.keeps.dim.symm) v
  have inside (v : Valuation) (hv : m'.Holds ex.zone v) : m.Holds f v :=
    (zone.holds v ((holds v).1 hv)).2
  have block : ex.dbm.Settled (full.dim * K) := dbm ▸ settled.projected room.nonneg le'
  have blockRoom : Dbm.Room ex.dbm.dim (full.dim * K) := dbm ▸ wide.mono le'
  refine ⟨parts.live, parts.irredundant.live, ?_, inside, fun v hv rest => ?_, fun v => ?_,
    dbm ▸ rfl, block.isClosed blockRoom, block.isValid blockRoom, fun v => ?_⟩
  · obtain ⟨v, hv⟩ := settled.exists_holds
    exact ⟨v, (holds v).2 hv⟩
  · exact ((parts.rest v).1 rest).2 hv
  · rw [parts.rest v]
    constructor
    · rintro (hv | ⟨hv, -⟩)
      exacts [inside v hv, hv]
    · intro hv
      by_cases taken : m'.Holds ex.zone v
      exacts [.inl taken, .inr ⟨hv, taken⟩]
  · rw [dbm, settled.holds_projected_iff le']
    simp only [holds]

/-- **Extraction splits a federation**, unless it is empty, which is reported, or the store is
full. -/
theorem Reachable.extract_splits (h : m.Reachable) (hf : m.Live f)
    (bounds : m.BoundsWithin m.constantLimit f) (pos : 0 < dim) (le : dim ≤ m.dim) :
    ((∃ m', extract f dim m = .error .emptyFederation m') ↔ ¬∃ v, m.Holds f v) ∧
      ((∃ v, m.Holds f v) → m.Gives (extract f dim) fun ex m' => SplitsOff m m' f dim ex) := by
  have hm := h.sound
  have met : m.MetIn m.constantLimit m.openContext f :=
    ⟨hf, hm.ready_openContext m.room_constantLimit, hm.small_unfold hf bounds⟩
  rcases chooseZone_cases hm.toNodes met with ⟨none, empty⟩ | ⟨full, chosen, zone⟩
  · have noValuation : ¬∃ v, m.Holds f v := fun ⟨v, hv⟩ => empty v hv
    have failed := extract_eq_error pos le none
    exact ⟨iff_of_true ⟨m, failed⟩ noValuation, fun some => absurd some noValuation⟩
  · have gives : m.Gives (extract f dim) fun ex m' => SplitsOff m m' f dim ex := by
      refine (extract_parts_runs hm met m.room_sums pos le chosen zone).gives_of hm ?_
      intro ex m' grows ⟨parts, dbm⟩
      exact parts.splitsOff grows zone m.room_sums pos le dbm
    obtain ⟨v, hv⟩ := zone.ready.settled.exists_holds
    refine ⟨iff_of_false ?_ (not_not.2 ⟨v, (zone.holds v hv).2⟩), fun _ => gives⟩
    rintro ⟨m', failed⟩
    have reported : failure? (extract f dim) m = some .emptyFederation := by
      rw [failure?, failed]
    obtain ⟨capacity, full⟩ := gives.eq_storeFull reported
    cases full

/-! ## Zones inside and outside of the box -/

/-- The bounds of `0 ≤ x₁ - x₀ < 2` and `0 ≤ x₂ - x₀ < 2`, and `x₁ - x₂ < 2` and `x₂ - x₁ < 2`, which
are implied. -/
def cornerBound (i j : Nat) : Bound := if i = j then .zero else if i = 0 then .weak 0 else .strict 2

theorem corner_dim_pos : 0 < 3 := by decide

/-- The zone of the box. -/
def corner : Dbm := .ofFn 3 corner_dim_pos cornerBound

/-- What evaluating extractions shows: of a zone outside of the box, and of the zone of the box. -/
theorem evaluate_zones : (3 ≤ box.dim ∧ 2 ≤ box.constantLimit) ∧
    (box.Holds ⟨7⟩ (fun i => if i = 1 then 3 else 0) ∧
      (result? (extract ⟨7⟩ 2) box).isSome = true) ∧
    corner.isClosed = true ∧ (result? (do extract (← ofDbm corner) 3) box).isSome = true := by
  decide +kernel

/-- A zone outside of the box, where there is more than one. -/
theorem extract_outside : (∃ v, box.Holds ⟨7⟩ v) ∧ ∃ ex m', extract ⟨7⟩ 2 box = .ok ex m' ∧
    SplitsOff box m' ⟨7⟩ 2 ex := by
  obtain ⟨⟨le, -⟩, ⟨far, extracted⟩, -⟩ := evaluate_zones
  have dim_le : 2 ≤ box.dim := le_trans (by decide) le
  have splits := reachable_box.extract_splits live_box.neg small_box Nat.two_pos dim_le
  exact ⟨⟨_, far⟩, (splits.2 ⟨_, far⟩).of_isSome extracted⟩

end ZoneDiagram.Manager

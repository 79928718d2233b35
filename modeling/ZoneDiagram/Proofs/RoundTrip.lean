import ZoneDiagram.Proofs.Diagram.PathCount
import ZoneDiagram.Proofs.Emptiness
import ZoneDiagram.Proofs.Splitting

/-!
# From a matrix to a diagram and back

**Theorem (`Reachable.extract_ofDbm`).** From the diagram of a closed matrix with constants up to
`constantLimit`, extraction gives back the matrix, entry by entry, and the very diagram; nothing
remains. Either step fails only if every slot of the store is taken.

The diagram has one path to the full federation (`Diagram.pathCount_pathThrough_le`), so the search
finds all of its valuations at once. The matrix that it finds has the entries of the one that the
diagram was made from, because both are the tightest bounds on the same valuations
(`MetIn.chooseZone_of_holds`).
-/

namespace ZoneDiagram.Manager

variable {m : Manager} {f : Handle} {zone full : Dbm} {K L : Int}

/-- If there is one path and its valuations are those of a settled matrix, then that matrix is
found. -/
theorem MetIn.chooseZone_of_holds (hf : m.MetIn L m.openContext f) (hm : m.Nodes)
    (one : (m.unfold f).pathCount ≤ 1) (settled : full.Settled K) (room : Dbm.Room full.dim K)
    (dim : full.dim = m.dim) (same : ∀ v, full.Holds v ↔ m.Holds f v) :
    m.chooseZone f = .ok full ∧ m.ZoneOf L f m.openContext full := by
  obtain ⟨zones, all⟩ := hf.zones_spec hm
  obtain ⟨v, hv⟩ := settled.exists_holds
  obtain ⟨z, hz, -⟩ := all v (m.holds_openContext v) ((same v).1 hv)
  -- There are at most as many zones as paths, and some valuation is in a zone.
  have only : (m.unfold f).zones m.openContext = [z] := by
    have few := (Diagram.length_zones_le (m.unfold f) m.openContext).trans one
    have some := List.length_pos_of_mem hz
    obtain ⟨z', eq⟩ := List.length_eq_one_iff.1 (le_antisymm few some)
    rw [eq, List.mem_singleton] at hz
    rw [eq, hz]
  have zoneOf := zones z hz
  have found : z = full := by
    refine zoneOf.ready.settled.eq_of_holds_iff settled zoneOf.ready.room room
      (zoneOf.dim.trans dim.symm) fun v => ⟨fun hv => ?_, fun hv => ?_⟩
    · exact (same v).2 (zoneOf.holds v hv).2
    · obtain ⟨z', hz', holds⟩ := all v (m.holds_openContext v) ((same v).1 hv)
      rw [only, List.mem_singleton] at hz'
      exact hz' ▸ holds
  subst found
  refine ⟨?_, zoneOf⟩
  rw [chooseZone_eq hm hf, only]
  rfl

/-- The diagram of a closed matrix is met with the matrix as its only zone. -/
theorem Nodes.chooseZone_of_unfold (hm : m.Nodes) (hf : m.Live f)
    (tree : m.unfold f = Diagram.pathThrough (cuts zone)) (room : Dbm.Room m.dim K)
    (le : zone.dim ≤ m.dim) (settled : zone.Settled K)
    (within : ∀ i < zone.dim, ∀ j < zone.dim, (zone.entry i j).Within K) :
    m.MetIn K m.openContext f ∧ m.chooseZone f = .ok (zone.extended m.dim m.dim_pos) ∧
      m.ZoneOf K f m.openContext (zone.extended m.dim m.dim_pos) := by
  have small : Diagram.Small K (m.unfold f) :=
    tree ▸ Diagram.small_pathThrough fun c hc => small_of_mem_cuts within hc
  have met : m.MetIn K m.openContext f := ⟨hf, hm.ready_openContext room, small⟩
  refine ⟨met, met.chooseZone_of_holds hm ?_ (settled.extended le) room rfl fun v => ?_⟩
  · rw [tree]
    exact Diagram.pathCount_pathThrough_le (cuts zone)
  · rw [Dbm.holds_extended_iff le, hm.holds_iff hf, tree]
    exact (Diagram.eval_cuts_iff settled (room.mono le) (room.mono le) within (le.trans hm.dim_le)
      v).symm

/-- **Extraction gives back the matrix of a diagram**, the diagram itself, and no rest. -/
theorem Reachable.extract_ofDbm (h : m.Reachable) (le : zone.dim ≤ m.dim)
    (closed : zone.isClosed = true) (zeros : ∀ i < zone.dim, zone.entry i i = .zero)
    (within : ∀ i < zone.dim, ∀ j < zone.dim, (zone.entry i j).Within m.constantLimit) :
    m.Gives (ofDbm zone) fun f m' => m'.Live f ∧ m'.Gives (extract f zone.dim) fun ex _ =>
      ex.dbm = zone ∧ ex.zone = f ∧ ex.remainder = .zero := by
  have room := m.room_constantLimit
  have settled := Dbm.settled_of_isClosed closed (room.mono le) zeros within
  refine (ofDbm_runs_of_settled h.sound settled (room.mono le) le).gives_of h.sound ?_
  intro f m₁ grows ⟨live, tree⟩
  have dims : m₁.dim = m.dim := grows.keeps.dim
  have hm₁ := grows.sound
  obtain ⟨met, chosen, zoneOf⟩ := hm₁.toNodes.chooseZone_of_unfold live tree (dims ▸ room)
    (dims ▸ le) settled within
  have wide : Dbm.Room m₁.dim (m₁.dim * m.constantLimit) := dims ▸ m.room_sums
  refine ⟨live, (extract_parts_runs hm₁ met wide zone.dim_pos (dims ▸ le) chosen
    zoneOf).gives_of hm₁ ?_⟩
  intro ex m₂ grows' ⟨parts, dbm⟩
  have hm₂ := grows'.sound.toNodes
  have same : ex.zone = f := by
    refine hm₂.eq_of_unfold_eq parts.live (grows'.keeps.live live) ?_
    rw [parts.tree, grows'.keeps.unfold hm₁.toNodes live, tree,
      cuts_extended settled (dims ▸ room) within (dims ▸ le)]
  refine ⟨dbm.trans (Dbm.projected_extended (dims ▸ le)), same, ?_⟩
  refine (parts.irredundant.eq_zero_iff hm₂).2 fun v => ?_
  have kept := (hm₁.preserves grows').eval f live v.differences
  have rest := parts.rest v
  rw [same, Holds, Holds, Holds, kept] at rest
  rw [← Bool.not_eq_true]
  intro taken
  obtain ⟨inside, outside⟩ := rest.1 taken
  exact outside inside

theorem zeros_corner (i : Nat) (hi : i < 3) : corner.entry i i = .zero := by
  rw [corner, Dbm.entry_ofFn hi hi, cornerBound, if_pos rfl]

theorem small_corner (i : Nat) (hi : i < 3) (j : Nat) (hj : j < 3) :
    (corner.entry i j).Within 2 := by
  rw [corner, Dbm.entry_ofFn hi hj]
  exact (by decide : ∀ i < 3, ∀ j < 3, (cornerBound i j).Within 2) i hi j hj

/-- The diagram of the corner has no decision on `x₂ - x₁`, and the matrix has its bounds again. -/
theorem extract_ofDbm_corner : corner.isClosed = true ∧ ∃ f m', ofDbm corner box = .ok f m' ∧
    m'.Live f ∧ ∃ ex m'', extract f 3 m' = .ok ex m'' ∧ ex.dbm = corner ∧ ex.zone = f ∧
      ex.remainder = .zero := by
  obtain ⟨⟨le, limit⟩, -, closed, extracted⟩ := evaluate_zones
  have small : ∀ i < 3, ∀ j < 3, (corner.entry i j).Within box.constantLimit :=
    fun i hi j hj => (small_corner i hi j hj).mono limit
  have made := reachable_box.extract_ofDbm le closed zeros_corner small
  obtain ⟨f, m', run, found⟩ := exists_of_isSome_bind extracted
  obtain ⟨live, trip⟩ := made.of_ok run
  exact ⟨closed, f, m', run, live, trip.of_isSome found⟩

end ZoneDiagram.Manager

import ZoneDiagram.Proofs.Manager.Zones
import ZoneDiagram.Proofs.Splitting

/-!
# The zones of a federation

**Theorem (`Reachable.zones_partition`).** With constants up to `constantLimit`, the search for the
zones of a diagram, reduced or not, ends after finitely many zones. They are closed and inhabited,
no valuation lies in two of them, and together they have exactly the valuations of the federation
(`Partitions`).
-/

namespace ZoneDiagram.Manager

variable {m : Manager} {f : Handle} {K : Int}

/-- Closed and inhabited zones that divide a federation. -/
structure Partitions (m : Manager) (f : Handle) (zones : List Dbm) : Prop where
  dim : ∀ z ∈ zones, z.dim = m.dim
  closed : ∀ z ∈ zones, z.isClosed = true
  inhabited : ∀ z ∈ zones, z.isEmpty = false ∧ ∃ v, z.Holds v
  disjoint : zones.Pairwise fun y z => ∀ v, ¬(y.Holds v ∧ z.Holds v)
  covers : ∀ v, (∃ z ∈ zones, z.Holds v) ↔ m.Holds f v

/-- The zones of the tree divide the federation. -/
theorem MetIn.partitions (hf : m.MetIn K m.openContext f) (hm : m.Nodes) :
    m.Partitions f ((m.unfold f).zones m.openContext) := by
  obtain ⟨zones, all⟩ := hf.zones_spec hm
  exact {
    dim := fun z hz => (zones z hz).dim
    closed := fun z hz => (zones z hz).ready.settled.isClosed (zones z hz).ready.room
    inhabited := fun z hz =>
      ⟨(zones z hz).ready.settled.isEmpty_eq_false, (zones z hz).ready.settled.exists_holds⟩
    disjoint := Diagram.zones_disjoint (hm.canonical_unfold hf.live) hf.small hf.ready
    covers := fun v => ⟨fun ⟨z, hz, hv⟩ => ((zones z hz).holds v hv).2,
      all v (m.holds_openContext v)⟩ }

/-- **The search for zones ends, and the zones that it finds divide the federation.** -/
theorem Reachable.zones_partition (h : m.Reachable) (hf : m.Live f)
    (bounds : m.BoundsWithin m.constantLimit f) :
    ∃ s zones, ZoneSearch.start m f = .ok s ∧ m.Yields s zones ∧ m.Partitions f zones := by
  have hm := h.sound.toNodes
  have met : m.MetIn m.constantLimit m.openContext f :=
    ⟨hf, hm.ready_openContext m.room_constantLimit, hm.small_unfold hf bounds⟩
  obtain ⟨s, start, yields⟩ := start_yields hm met
  exact ⟨s, _, start, yields, met.partitions hm⟩

/-- The zones outside of the box, among them one that is far from it. -/
theorem zones_partition_box : ∃ s zones, ZoneSearch.start box ⟨7⟩ = .ok s ∧ box.Yields s zones ∧
    box.Partitions ⟨7⟩ zones ∧ ∃ z ∈ zones, z.Holds fun i => if i = 1 then 3 else 0 := by
  obtain ⟨-, ⟨far, -⟩, -⟩ := evaluate_zones
  obtain ⟨s, zones, start, yields, parts⟩ := reachable_box.zones_partition live_box.neg small_box
  exact ⟨s, zones, start, yields, parts, (parts.covers _).2 far⟩

end ZoneDiagram.Manager

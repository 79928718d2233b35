import ZoneDiagram.Proofs.Dbm.Block
import ZoneDiagram.Proofs.Manager.Routes
import ZoneDiagram.Proofs.Partition

/-!
# Counting, listing and extracting agree

**Theorem (`Reachable.paths_and_zones`).** The count of paths is the number of routes from the root
to the full federation. For diagrams with constants up to `constantLimit`, at most as many zones are
listed, and exactly as many if the diagram is reduced. An extraction on all clocks takes out the
first zone of the list, and finds the federation empty exactly if the list is.

Counting goes by nodes, listing by a stack and extracting by recursion, and all three are compared
with the zones and paths of the tree.
-/

namespace ZoneDiagram

/-- All clocks of a matrix are the matrix. -/
theorem Dbm.projected_self {zone : Dbm} {n : Nat} (pos : 0 < n) (dim : zone.dim = n) :
    zone.projected n pos = zone := by
  subst dim
  exact ext_entry rfl fun i hi j hj => entry_projected hi hj

namespace Manager

variable {m : Manager} {f r : Handle} {K : Int} {full : Dbm}

/-- At the root nothing is constrained yet. -/
theorem Sound.metIn_openContext (hm : m.Sound) (hf : m.Live f)
    (bounds : m.BoundsWithin m.constantLimit f) : m.MetIn m.constantLimit m.openContext f :=
  ⟨hf, hm.ready_openContext m.room_constantLimit, hm.small_unfold hf bounds⟩

/-- All zones of the tree are listed. -/
theorem MetIn.zones_eq_ok (hf : m.MetIn K m.openContext f) (hm : m.Nodes) :
    m.zones f = .ok ((m.unfold f).zones m.openContext) := by
  obtain ⟨s, start, yields⟩ := start_yields hm hf
  rw [zones, start]
  exact yields.all_eq_ok

/-- There are no more zones than routes. -/
theorem Nodes.length_zones_le (hm : m.Nodes) (hf : m.Live f) (ctx : Dbm) :
    ((m.unfold f).zones ctx).length ≤ {es | m.Route f es}.ncard := by
  rw [(hm.ncard_routes hf).2]
  exact Diagram.length_zones_le ..

/-- On an irredundant diagram every route has its zone. -/
theorem Irredundant.length_zones (hr : m.Irredundant K r) (hm : m.Nodes) :
    ((m.unfold r).zones m.openContext).length = {es | m.Route r es}.ncard := by
  rw [(hm.ncard_routes hr.live).2]
  exact Diagram.length_zones_eq hr.ready (hm.canonical_unfold hr.live) hr.small hr.taken

/-- A reduction gives a diagram with one zone for every route. -/
theorem MetIn.reduce_counted_runs (hf : m.MetIn K m.openContext f) (hm : m.Sound)
    (room : Dbm.Room m.dim K) :
    Runs m (reduce f) (fun r m' => (∃ zones, m'.zones r = .ok zones ∧
      m'.pathCount r = .ok zones.length) ∧
      (r = f → ((m.unfold f).zones m.openContext).length = {es | m.Route f es}.ncard))
      fun _ => False := by
  refine (reduce_irredundant_runs hm hf.live room hf.small).imp ?_ fun _ h => h
  intro r m' grows ⟨irredundant, _⟩
  have hm' := grows.sound.toNodes
  have length := irredundant.length_zones hm'
  refine ⟨⟨_, irredundant.zones_eq_ok hm', ?_⟩, ?_⟩
  · rw [hm'.pathCount_eq_ok irredundant.live, length]
  · rintro rfl
    rw [(hm'.ncard_routes irredundant.live).2, grows.keeps.unfold hm.toNodes hf.live,
      grows.keeps.openContext] at length
    rw [length, (hm.toNodes.ncard_routes hf.live).2]

/-- An extraction on all clocks gives the first zone. -/
theorem MetIn.extract_first_runs {zone : Dbm} {rest : List Dbm}
    (hf : m.MetIn K m.openContext f) (hm : m.Sound) (wide : Dbm.Room m.dim (m.dim * K))
    (first : (m.unfold f).zones m.openContext = zone :: rest) :
    Runs m (extract f m.dim) (fun ex _ => ex.dbm = zone) fun _ => False := by
  have chosen : m.chooseZone f = .ok zone := by
    rw [chooseZone_eq hm.toNodes hf, first]
    rfl
  have zoneOf := (hf.zones_spec hm.toNodes).1 zone (first ▸ List.mem_cons_self)
  refine (extract_zone_runs hm hf wide m.dim_pos le_rfl chosen zoneOf).imp ?_ fun _ h => h
  intro ex m' _ ⟨_, _, dbm⟩
  rw [dbm, Dbm.projected_self m.dim_pos zoneOf.dim]

/-- Without a zone the federation is found empty. -/
theorem MetIn.extract_eq_error (hf : m.MetIn K m.openContext f) (hm : m.Nodes)
    (none : (m.unfold f).zones m.openContext = []) :
    extract f m.dim m = .error .emptyFederation m := by
  refine Manager.extract_eq_error m.dim_pos le_rfl ?_
  rw [chooseZone_eq hm hf, none]
  rfl

/-- **Counting, listing and extracting agree.** -/
theorem Reachable.paths_and_zones (h : m.Reachable) (hf : m.Live f)
    (bounds : m.BoundsWithin m.constantLimit f) :
    ({es | m.Route f es}.Finite ∧ m.pathCount f = .ok {es | m.Route f es}.ncard) ∧
    ∃ zones, m.zones f = .ok zones ∧ zones.length ≤ {es | m.Route f es}.ncard ∧
      (m.Gives (reduce f) fun r m' =>
        (∃ reduced, m'.zones r = .ok reduced ∧ m'.pathCount r = .ok reduced.length) ∧
        (r = f → zones.length = {es | m.Route f es}.ncard)) ∧
      (∀ zone rest, zones = zone :: rest → m.Gives (extract f m.dim) fun ex _ => ex.dbm = zone) ∧
      (failure? (extract f m.dim) m = some .emptyFederation ↔ zones = []) := by
  have hm := h.sound
  have room := m.room_constantLimit
  have met := hm.metIn_openContext hf bounds
  have first (zone rest) (eq : (m.unfold f).zones m.openContext = zone :: rest) :
      m.Gives (extract f m.dim) fun ex _ => ex.dbm = zone :=
    (met.extract_first_runs hm m.room_sums eq).gives hm
  refine ⟨⟨(hm.ncard_routes hf).1, hm.pathCount_eq_ok hf⟩, _, met.zones_eq_ok hm.toNodes,
    hm.length_zones_le hf _, (met.reduce_counted_runs hm room).gives hm, first, ?_⟩
  constructor
  · intro failed
    cases found : (m.unfold f).zones m.openContext with
    | nil => rfl
    | cons zone rest =>
      obtain ⟨capacity, full⟩ := (first zone rest found).eq_storeFull failed
      cases full
  · intro none
    rw [failure?, met.extract_eq_error hm.toNodes none]

/-- Outside of the box there are five routes. A valuation far from the box lies in one of the zones,
so there is a first one. -/
theorem paths_and_zones_box : box.Live ⟨7⟩ ∧ box.pathCount ⟨7⟩ = .ok 5 ∧
    ∃ zone rest, box.zones ⟨7⟩ = .ok (zone :: rest) ∧ (zone :: rest).length ≤ 5 ∧
      box.Gives (extract ⟨7⟩ box.dim) fun ex _ => ex.dbm = zone := by
  have live : box.Live ⟨7⟩ := live_box.neg
  have five : box.pathCount ⟨7⟩ = .ok 5 := by decide +kernel
  obtain ⟨⟨-, counted⟩, zones, listed, le, -, first, -⟩ :=
    reachable_box.paths_and_zones live small_box
  rw [← Except.ok.inj (five.symm.trans counted)] at le
  have met := reachable_box.sound.metIn_openContext live small_box
  have hm := reachable_box.sound.toNodes
  obtain ⟨-, ⟨far, -⟩, -⟩ := evaluate_zones
  obtain ⟨z, hz, -⟩ := (met.zones_spec hm).2 _ (box.holds_openContext _) far
  rw [← Except.ok.inj (listed.symm.trans (met.zones_eq_ok hm))] at hz
  obtain ⟨zone, rest, rfl⟩ := List.exists_cons_of_ne_nil (List.ne_nil_of_mem hz)
  exact ⟨live, five, zone, rest, listed, le, first zone rest rfl⟩

end Manager

end ZoneDiagram

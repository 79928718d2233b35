import ZoneDiagram.Manager.Extract
import ZoneDiagram.Proofs.Dbm.Closed
import ZoneDiagram.Proofs.Diagram.Zones
import ZoneDiagram.Proofs.Manager.Search

/-!
# The search for a zone

The search ends at the first path that its context admits, so it finds the first zone of the tree
(`findZone_ends`). The dead ends it remembers are visits without a zone (`Dead`). A zone is settled,
and its valuations are in the federation (`ZoneOf`).
-/

namespace ZoneDiagram.Manager

open CutList

variable {m : Manager} {f : Handle} {ctx z : Dbm} {K : Int} {depth : Nat} {dead : DeadEnds}
  {pair : ClockPair} {branches : CutList (Handle × Dbm)}

/-! ## Zones of a diagram -/

/-- The zone is settled, and its valuations are in the context and in the federation. -/
structure ZoneOf (m : Manager) (K : Int) (f : Handle) (ctx zone : Dbm) : Prop where
  ready : Diagram.Ready m.clocks K zone
  dim : zone.dim = ctx.dim
  holds : ∀ v, zone.Holds v → ctx.Holds v ∧ m.Holds f v

theorem Nodes.holds_iff (hm : m.Nodes) (hf : m.Live f) (v : Valuation) :
    m.Holds f v ↔ Diagram.eval v.differences (m.unfold f) = true := by
  rw [Holds, hm.eval_eq hf]

/-- The zones of the tree contain exactly the valuations of the federation. -/
theorem MetIn.zones_spec (hf : m.MetIn K ctx f) (hm : m.Nodes) :
    (∀ z ∈ (m.unfold f).zones ctx, m.ZoneOf K f ctx z) ∧
      ∀ v, ctx.Holds v → m.Holds f v → ∃ z ∈ (m.unfold f).zones ctx, z.Holds v := by
  obtain ⟨zones, all⟩ := Diagram.zones_spec (hm.canonical_unfold hf.live) hf.small hf.ready
  constructor
  · intro z hz
    obtain ⟨ready, dim, holds⟩ := zones z hz
    exact ⟨ready, dim, fun v hv => (holds v hv).imp_right (hm.holds_iff hf.live v).2⟩
  · intro v hv holds
    exact all v hv ((hm.holds_iff hf.live v).1 holds)

/-- The zones of a decision come from its branches, one after the other. -/
theorem Nodes.zones_unfold (hm : m.Nodes) (hf : m.Live f) (inner : f.isTerminal = false)
    (hpair : ClockPair.ofLevel (m.levelOf f) = .ok pair) (ctx : Dbm) :
    (m.unfold f).zones ctx = (ctx.feasible pair (· != .zero) none (m.edgesOf f)).flatMap
      fun p => (m.unfold p.item.1).zones p.item.2 := by
  have unwanted (e : Handle) (sub : Dbm) (zero : (e != .zero) = false) :
      (m.unfold e).zones sub = [] := by
    rw [bne_eq_false_iff_eq] at zero
    rw [zero, unfold_zero]
    rfl
  rw [hm.unfold_of_inner hf inner, Diagram.zones_node hpair, Dbm.feasible_mapItems, mapItems,
    List.flatMap_map]
  exact ctx.flatMap_feasible pair unwanted none (m.edgesOf f)

/-! ## The search -/

/-- No zone is left at the remembered visits. -/
def Dead (m : Manager) (dead : DeadEnds) : Prop :=
  ∀ v ∈ dead, (m.unfold v.diagram).zones v.context = []

theorem dead_empty (m : Manager) : m.Dead ∅ := fun v hv => by cases hv

theorem Dead.insert (hdead : m.Dead dead) (h : (m.unfold f).zones ctx = []) :
    m.Dead (dead.insert ⟨f, ctx⟩) := by
  intro v hv
  rcases Std.TreeSet.mem_insert.1 hv with eq | hv
  · rw [← Std.LawfulEqOrd.eq_of_compare eq]
    exact h
  · exact hdead v hv

/-- The search ends with the first of some zones, if there is one. -/
abbrev Finds (m : Manager) (dead : DeadEnds) (x : StateT DeadEnds (Except Error) (Option Dbm))
    (zones : List Dbm) : Prop := Ends m.Dead dead x fun found => found = zones.head?

theorem firstBranch_finds {search : Handle → Dbm → StateT DeadEnds (Except Error) (Option Dbm)}
    (hdead : m.Dead dead) (h : ∀ p ∈ branches, p.item.2.isEmpty = false ∧ ∀ dead, m.Dead dead →
      m.Finds dead (search p.item.1 p.item.2) ((m.unfold p.item.1).zones p.item.2)) :
    m.Finds dead (firstBranch search branches)
      (branches.flatMap fun p => (m.unfold p.item.1).zones p.item.2) := by
  induction branches generalizing dead with
  | nil => exact .pure hdead rfl
  | cons p ps ih =>
    obtain ⟨inhabited, finds⟩ := h p List.mem_cons_self
    unfold firstBranch
    refine .lift_bind (Dbm.inhabited?_eq_ok_iff.2 ⟨inhabited, rfl⟩) ?_
    refine (finds dead hdead).bind fun found dead' hdead' first => ?_
    rw [List.flatMap_cons, List.head?_append, ← first]
    cases found with
    | some zone => exact .pure hdead' rfl
    | none => exact ih hdead' fun q hq => h q (List.mem_cons_of_mem p hq)

/-- **The search finds the first zone of the tree.** -/
theorem findZone_finds (hm : m.Nodes) (hf : m.MetIn K ctx f) (fits : m.Fits depth f)
    (hdead : m.Dead dead) : m.Finds dead (m.findZone depth f ctx) ((m.unfold f).zones ctx) := by
  induction depth generalizing f ctx dead with
  | zero => exact absurd fits.pos (Nat.lt_irrefl 0)
  | succ depth ih =>
    unfold findZone
    by_cases zero : f = .zero
    · rw [if_pos zero, zero, unfold_zero]
      exact .pure hdead rfl
    rw [if_neg zero]
    by_cases one : f = .one
    · rw [if_pos one, one, unfold_one]
      exact .pure hdead rfl
    rw [if_neg one]
    refine .get_bind ?_
    split
    -- A visit that is known to be dead has no zones.
    next known =>
      refine .pure hdead ?_
      rw [hdead _ (Std.TreeSet.contains_iff_mem.1 known)]
      rfl
    next =>
      obtain ⟨inner, pair, hpair⟩ := hm.exists_pair hf.live zero one
      refine .lift_bind (branches_eq_ok hm hf.live inner hpair) ?_
      have finds : m.Finds dead
          (firstBranch (m.findZone depth) (ctx.feasible pair (· != .zero) none (m.edgesOf f)))
          ((m.unfold f).zones ctx) := by
        rw [hm.zones_unfold hf.live inner hpair]
        refine firstBranch_finds hdead fun p hp => ?_
        obtain ⟨met, e, he, eq⟩ := hf.branch hm inner hpair hp
        have lower := eq ▸ fits.child hm hf.live inner he
        exact ⟨met.isEmpty_eq_false, fun dead hdead => ih met lower hdead⟩
      refine finds.bind fun found dead' hdead' first => ?_
      cases found with
      | some zone => exact .pure hdead' first
      | none =>
        exact .modify_bind (.pure (hdead'.insert (List.head?_eq_none_iff.1 first.symm)) first)

/-- **The first zone is chosen**, if there is one. -/
theorem chooseZone_eq (hm : m.Nodes) (hf : m.MetIn K m.openContext f) :
    m.chooseZone f = match ((m.unfold f).zones m.openContext).head? with
      | none => .error .emptyFederation
      | some zone => .ok zone := by
  obtain ⟨found, dead, run, -, first⟩ := findZone_finds hm hf (fits_depth m f) (dead_empty m)
  unfold chooseZone
  rw [run, ← first]
  cases found with
  | none => rfl
  | some zone =>
    have zoneOf := (hf.zones_spec hm).1 zone (List.mem_of_mem_head? first.symm)
    have settled := zoneOf.ready.settled
    have room := zoneOf.ready.room
    show (if !zone.isValid then _ else if !zone.isClosed then _ else _) = _
    rw [settled.isValid room, settled.isClosed room]
    rfl

/-- **A zone is chosen if there is one**: closed, inhabited, and inside of the federation. -/
theorem chooseZone_cases (hm : m.Nodes) (hf : m.MetIn K m.openContext f) :
    (m.chooseZone f = .error .emptyFederation ∧ ∀ v, ¬m.Holds f v) ∨
      ∃ zone, m.chooseZone f = .ok zone ∧ m.ZoneOf K f m.openContext zone := by
  obtain ⟨zones, all⟩ := hf.zones_spec hm
  rw [chooseZone_eq hm hf]
  cases first : (m.unfold f).zones m.openContext with
  | nil =>
    refine .inl ⟨rfl, fun v hv => ?_⟩
    obtain ⟨z, hz, -⟩ := all v (m.holds_openContext v) hv
    rw [first] at hz
    cases hz
  | cons z rest => exact .inr ⟨z, rfl, zones z (first ▸ List.mem_cons_self)⟩

end ZoneDiagram.Manager

import ZoneDiagram.Proofs.Diagram.Zone

/-!
# The zones of a tree

Every path of a tree to the full federation that a context admits leaves a part of the context
(`Diagram.zones`). In a context with room for the constants of a canonical tree these zones are
settled, and a valuation of the context is in one of them exactly if the tree is true of it
(`zones_spec`).

No valuation lies in two of them (`zones_disjoint`).
-/

namespace ZoneDiagram

open CutList

theorem Dbm.feasible_mapItems {α β : Type} (m : Dbm) (pair : ClockPair) (f : α → β)
    (wanted : β → Bool) (lower : Option Bound) (ps : CutList α) :
    m.feasible pair wanted lower (mapItems f ps) =
      mapItems (Prod.map f id) (m.feasible pair (fun a => wanted (f a)) lower ps) := by
  induction ps generalizing lower with
  | nil => rfl
  | cons p ps ih =>
    show m.feasible pair wanted lower (⟨f p.item, p.upper⟩ :: mapItems f ps) = _
    rw [feasible, feasible, ih]
    split <;> rfl

/-- Pieces that are not wanted and give nothing may be left out. -/
theorem Dbm.flatMap_feasible {α β : Type} (m : Dbm) (pair : ClockPair) {wanted : α → Bool}
    {g : α → Dbm → List β} (h : ∀ a sub, wanted a = false → g a sub = []) (lower : Option Bound)
    (ps : CutList α) :
    ((m.feasible pair (fun _ => true) lower ps).flatMap fun p => g p.item.1 p.item.2) =
      (m.feasible pair wanted lower ps).flatMap fun p => g p.item.1 p.item.2 := by
  induction ps generalizing lower with
  | nil => rfl
  | cons p ps ih =>
    rw [feasible, feasible]
    by_cases admitted : m.admits pair lower p.upper
    · cases want : wanted p.item with
      | true => simp [admitted, ih]
      | false => simp [admitted, ih, h _ _ want]
    · simp [admitted, ih]

namespace Diagram

variable {clocks level : Nat} {K : Int} {edges : List (Piece Diagram)} {t : Diagram}
  {ctx z : Dbm} {pair : ClockPair} {v : Valuation}

/-! ## Zones -/

/-- The zones of the children, each in what is left of a context on its interval. -/
def zonesNode (level : Nat) (edges : CutList (Dbm → List Dbm)) (ctx : Dbm) : List Dbm :=
  match ClockPair.ofLevel level with
  | .ok pair => (ctx.feasible pair (fun _ => true) none edges).flatMap fun p => p.item.1 p.item.2
  | .error _ => []

/-- What is left of a context on each path to the full federation, in the order of the edges. -/
def zones : Diagram → Dbm → List Dbm := fold (fun b ctx => if b then [ctx] else []) zonesNode

theorem zones_leaf (b : Bool) (ctx : Dbm) : (leaf b).zones ctx = if b then [ctx] else [] := rfl

theorem zones_node (hpair : ClockPair.ofLevel level = .ok pair) (ctx : Dbm) :
    (node level edges).zones ctx =
      (ctx.feasible pair (fun _ => true) none edges).flatMap fun p => p.item.1.zones p.item.2 := by
  rw [zones, fold_node]
  show zonesNode level (mapItems zones edges) ctx = _
  simp only [zonesNode, hpair, Dbm.feasible_mapItems]
  rw [mapItems, List.flatMap_map]
  rfl

/-- A feasible piece carries a child, in what is left of the context on its interval. -/
theorem Ready.of_mem_feasible {α : Type} {wanted : α → Bool} {ps : CutList α}
    {q : Piece (α × Dbm)} (h : Ready clocks K ctx) (div : Dbm.Divides K ctx pair none ps)
    (hq : q ∈ ctx.feasible pair wanted none ps) : (∃ p ∈ ps, p.item = q.item.1) ∧
      Ready clocks K q.item.2 ∧ q.item.2.dim = ctx.dim := by
  obtain ⟨c, hc, -, admitted, rfl⟩ := Dbm.mem_feasible_iff.1 hq
  have cut := div.cuttable hc
  exact ⟨⟨c.2, mem_of_mem_intervals hc, rfl⟩, h.restricted cut admitted,
    (cut.restricted_spec admitted).1⟩

/-- The zone is settled, and its valuations are in the context and meet the tree. -/
structure ZoneOf (clocks : Nat) (K : Int) (t : Diagram) (ctx z : Dbm) : Prop where
  ready : Ready clocks K z
  dim : z.dim = ctx.dim
  holds : ∀ v, z.Holds v → ctx.Holds v ∧ eval v.differences t = true

/-- The edges of a canonical decision divide a context. -/
theorem Ready.exists_divides (h : Ready clocks K ctx) (root : CanonicalNode clocks level edges)
    (within : ∀ p ∈ edges, p.upper.Within K) :
    ∃ pair, ClockPair.ofLevel level = .ok pair ∧ Dbm.Divides K ctx pair none edges := by
  obtain ⟨pair, hpair, -⟩ := ClockPair.ofLevel_eq_ok h.few root.level_lt
  exact ⟨pair, hpair, h.divides root.level_lt root.proper within hpair⟩

theorem eval_of_itemAt? {c : Diagram} (hpair : ClockPair.ofLevel level = .ok pair)
    (item : itemAt? (v pair.i - v pair.j) edges = some c) :
    eval v.differences (node level edges) = eval v.differences c := by
  rw [eval_node, differences_of_ofLevel hpair, item]
  rfl

/-- **The zones are the valuations of the context that meet the tree.** -/
theorem zones_spec (ht : Canonical clocks t) (small : Small K t) (h : Ready clocks K ctx) :
    (∀ z ∈ t.zones ctx, ZoneOf clocks K t ctx z) ∧
      ∀ v, ctx.Holds v → eval v.differences t = true → ∃ z ∈ t.zones ctx, z.Holds v := by
  induction ht generalizing ctx with
  | leaf b =>
    rw [zones_leaf]
    cases b with
    | true => simpa using ⟨⟨h, rfl, fun v hv => ⟨hv, rfl⟩⟩, fun v hv _ => hv⟩
    | false => exact ⟨by simp, fun v _ meets => by cases meets⟩
  | @node level edges root _ ih =>
    obtain ⟨pair, hpair, div⟩ := h.exists_divides root small.root
    rw [zones_node hpair]
    constructor
    -- A zone is found below an admitted edge, so it lies in the context that is left there.
    · intro z hz
      obtain ⟨q, hq, hz⟩ := List.mem_flatMap.1 hz
      obtain ⟨⟨p, hp, eq⟩, ready, dim⟩ := h.of_mem_feasible div hq
      obtain ⟨zones, -⟩ := ih p hp (small.child hp) ready
      have zone := zones z (eq ▸ hz)
      refine ⟨zone.ready, zone.dim.trans dim, fun v hv => ?_⟩
      obtain ⟨left, meets⟩ := zone.holds v hv
      obtain ⟨inside, item⟩ := div.holds_of_mem_feasible hq left
      exact ⟨inside, (eval_of_itemAt? hpair item).trans (eq ▸ meets)⟩
    -- The valuation takes one edge, and its zone is found below this edge.
    · intro v hv meets
      obtain ⟨c, item⟩ := root.proper.exists_itemAt? (v pair.i - v pair.j)
      rw [eval_of_itemAt? hpair item] at meets
      obtain ⟨q, hq, rfl, left⟩ :=
        div.exists_feasible_of_holds (fun _ => true) hv item rfl
      obtain ⟨⟨p, hp, eq⟩, ready, -⟩ := h.of_mem_feasible div hq
      obtain ⟨-, all⟩ := ih p hp (small.child hp) ready
      obtain ⟨z, hz, holds⟩ := all v left (eq ▸ meets)
      exact ⟨z, List.mem_flatMap.2 ⟨q, hq, eq ▸ hz⟩, holds⟩

/-- **No valuation lies in two zones.** -/
theorem zones_disjoint (ht : Canonical clocks t) (small : Small K t) (h : Ready clocks K ctx) :
    (t.zones ctx).Pairwise fun y z => ∀ v, ¬(y.Holds v ∧ z.Holds v) := by
  induction ht generalizing ctx with
  | leaf b =>
    rw [zones_leaf]
    cases b with
    | true => exact List.pairwise_singleton _ _
    | false => exact .nil
  | @node level edges root canonical ih =>
    obtain ⟨pair, hpair, div⟩ := h.exists_divides root small.root
    have left {q : Piece (Diagram × Dbm)} (hq : q ∈ ctx.feasible pair (fun _ => true) none edges) :
        (q.item.1.zones q.item.2).Pairwise (fun y z => ∀ v, ¬(y.Holds v ∧ z.Holds v)) ∧
          ∀ z ∈ q.item.1.zones q.item.2, ∀ v, z.Holds v → q.item.2.Holds v := by
      obtain ⟨⟨p, hp, eq⟩, ready, -⟩ := h.of_mem_feasible div hq
      rw [← eq]
      refine ⟨ih p hp (small.child hp) ready, fun z hz v hv => ?_⟩
      exact (((zones_spec (canonical p hp) (small.child hp) ready).1 z hz).holds v hv).1
    rw [zones_node hpair, List.pairwise_flatMap]
    refine ⟨fun q hq => (left hq).1, ?_⟩
    refine (div.pairwise_feasible fun _ => true).imp_of_mem fun {q r} hq hr apart y hy z hz v hv => ?_
    exact apart v ⟨(left hq).2 y hy v hv.1, (left hr).2 z hz v hv.2⟩

end Diagram

end ZoneDiagram

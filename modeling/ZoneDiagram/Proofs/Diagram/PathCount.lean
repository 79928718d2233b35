import Mathlib.Tactic.GCongr
import ZoneDiagram.Proofs.Diagram.Apply
import ZoneDiagram.Proofs.Diagram.Unique
import ZoneDiagram.Proofs.Diagram.Zones

/-!
# Paths to the full federation

There are at most as many zones as paths to the full federation (`length_zones_le`). On the tree of
a single zone there is one such path (`pathCount_pathThrough_le`). Merging and reducing make no new
ones (`pathCount_le_of_reduce`), and a path of a conjunction goes along one path of each operand
(`pathCount_and_le`). So the conjunction of two zones has one path at most.
-/

namespace ZoneDiagram

open CutList

/-! ## Sums over pieces -/

section Sums

variable {α β : Type} {lower : Option Bound}

theorem CutList.sum_stretch (count : α → Nat) (ps : CutList α) :
    ((stretch ps).map fun p => count p.item).sum = (ps.map fun p => count p.item).sum := by
  induction ps with
  | nil => rfl
  | cons p ps ih =>
    cases ps with
    | nil => rfl
    | cons q ps =>
      rw [stretch_cons_cons, List.map_cons, List.map_cons, List.sum_cons, List.sum_cons, ih]

/-- Items that count less each count less together. -/
theorem CutList.SameCuts.sum_le {R : α → β → Prop} (left : α → Nat) {right : β → Nat}
    {ps : CutList α} {qs : CutList β} (h : SameCuts R ps qs)
    (le : ∀ p ∈ ps, ∀ b, R p.item b → right b ≤ left p.item) :
    (qs.map fun q => right q.item).sum ≤ (ps.map fun p => left p.item).sum := by
  induction h with
  | nil => exact le_rfl
  | cons head _ ih =>
    obtain ⟨own, rest⟩ := List.forall_mem_cons.1 le
    exact Nat.add_le_add (own _ head.2) (ih rest)

/-- On the common intervals of two lists the items of both meet once at most. -/
theorem CutList.sum_refine_le (left : α → Nat) (right : β → Nat) {ps : CutList α} {qs : CutList β}
    {rs : CutList (α × β)} (h : refine ps qs = .ok rs) :
    (rs.map fun r => left r.item.1 * right r.item.2).sum ≤
      (ps.map fun p => left p.item).sum * (qs.map fun q => right q.item).sum := by
  -- Each step pairs the two first pieces, and the product has every pair of pieces once.
  induction ps, qs using refine.induct generalizing rs with
  | case1 =>
    rw [refine] at h
    cases h
  | case2 =>
    rw [refine] at h
    cases h
  | case3 p ps q qs lt ih =>
    rw [refine, if_pos lt] at h
    obtain ⟨rest, hrest, h⟩ := Except.bind_eq_ok_iff.1 h
    cases h
    have le := ih hrest
    simp only [List.map_cons, List.sum_cons] at le ⊢
    rw [Nat.add_mul]
    exact Nat.add_le_add (Nat.mul_le_mul_left _ (Nat.le_add_right _ _)) le
  | case4 p ps q qs ge lt ih =>
    rw [refine, if_neg ge, if_pos lt] at h
    obtain ⟨rest, hrest, h⟩ := Except.bind_eq_ok_iff.1 h
    cases h
    have le := ih hrest
    simp only [List.map_cons, List.sum_cons] at le ⊢
    rw [Nat.mul_add]
    exact Nat.add_le_add (Nat.mul_le_mul_right _ (Nat.le_add_right _ _)) le
  | case5 p ps q qs ge le last =>
    rw [refine, if_neg ge, if_neg le, if_pos last] at h
    cases h
    simp only [List.map_cons, List.sum_cons, List.map_nil, List.sum_nil]
    exact Nat.mul_le_mul (Nat.le_add_right _ _) (Nat.le_add_right _ _)
  | case6 p ps q qs ge le more ih =>
    rw [refine, if_neg ge, if_neg le, if_neg more] at h
    obtain ⟨rest, hrest, h⟩ := Except.bind_eq_ok_iff.1 h
    cases h
    have le := ih hrest
    simp only [List.map_cons, List.sum_cons] at le ⊢
    rw [Nat.add_mul]
    exact Nat.add_le_add (Nat.mul_le_mul_left _ (Nat.le_add_right _ _))
      (le.trans (Nat.mul_le_mul_left _ (Nat.le_add_left _ _)))

/-- The run of admitted pieces is a part of the list. -/
theorem Dbm.sum_run_le {ctx : Dbm} {pair : ClockPair} (count : α → Nat) (ps : CutList α) :
    ((ctx.feasibleRun pair lower ps).map fun q => count q.item.1).sum ≤
      (ps.map fun p => count p.item).sum := by
  have start (lower : Option Bound) (ps : CutList α) :
      ((ctx.admittedStart pair lower ps).map fun q => count q.item.1).sum ≤
        (ps.map fun p => count p.item).sum := by
    induction ps generalizing lower with
    | nil => exact le_rfl
    | cons p ps ih =>
      unfold admittedStart
      split
      · exact Nat.add_le_add_left (ih _) _
      · exact Nat.zero_le _
  induction ps generalizing lower with
  | nil => exact le_rfl
  | cons p ps ih =>
    unfold feasibleRun
    split
    · exact start lower (p :: ps)
    · exact ih.trans (Nat.le_add_left _ _)

end Sums

namespace Diagram

variable {clocks level : Nat} {edges : List (Piece Diagram)} {s t u r : Diagram} {ctx : Dbm}
  {pair : ClockPair}

/-! ## Paths and zones -/

/-- The number of paths to the full federation. -/
def pathCount : Diagram → Nat :=
  fold (fun b => if b then 1 else 0) fun _ counts => (counts.map Piece.item).sum

theorem pathCount_node (level : Nat) (edges : List (Piece Diagram)) :
    (node level edges).pathCount = (edges.map fun p => p.item.pathCount).sum := by
  rw [pathCount, fold_node, mapItems, List.map_map]
  rfl

/-- The feasible pieces are some of the pieces. -/
theorem sum_feasible_le {α : Type} (wanted : α → Bool) (size : α → Dbm → Nat) {count : α → Nat}
    (lower : Option Bound) (ps : CutList α) (le : ∀ p ∈ ps, ∀ sub, size p.item sub ≤ count p.item) :
    ((ctx.feasible pair wanted lower ps).map fun q => size q.item.1 q.item.2).sum ≤
      (ps.map fun p => count p.item).sum := by
  induction ps generalizing lower with
  | nil => exact le_rfl
  | cons p ps ih =>
    obtain ⟨own, rest⟩ := List.forall_mem_cons.1 le
    unfold Dbm.feasible
    split
    · exact Nat.add_le_add (own _) (ih _ rest)
    · exact (ih _ rest).trans (Nat.le_add_left _ _)

/-- There are no more zones than paths to the full federation. -/
theorem length_zones_le (t : Diagram) (ctx : Dbm) : (t.zones ctx).length ≤ t.pathCount := by
  induction t using induct generalizing ctx with
  | leaf b => cases b <;> exact le_rfl
  | node level edges ih =>
    rw [pathCount_node]
    cases hpair : ClockPair.ofLevel level with
    | error e =>
      rw [zones, fold_node, zonesNode, hpair]
      exact Nat.zero_le _
    | ok pair =>
      rw [zones_node hpair, List.length_flatMap]
      exact sum_feasible_le _ (fun child sub => (child.zones sub).length) none edges ih

/-- **If every path is taken, then every path to the full federation has a zone.** -/
theorem length_zones_eq {K : Int} (hctx : Ready clocks K ctx) (ht : Canonical clocks t)
    (small : Small K t) (h : TakesAll t ctx) : (t.zones ctx).length = t.pathCount := by
  induction ht generalizing ctx with
  | leaf b => cases b <;> rfl
  | @node level edges root children ih =>
    obtain ⟨pair, hpair, div⟩ := hctx.exists_divides root small.root
    have edge {lo p} (hp : (lo, p) ∈ intervals none edges) := h.edge div hpair children hp
    have each : ∀ c ∈ intervals none edges,
        (c.2.item.zones (ctx.restricted pair c.1 c.2.upper)).length = c.2.item.pathCount := by
      intro c hc
      obtain ⟨admitted, rest⟩ := edge hc
      have mem := mem_of_mem_intervals hc
      exact ih c.2 mem (hctx.restricted (div.cuttable hc) admitted) (small.child mem) rest
    rw [zones_node hpair, Dbm.feasible_of_all_admitted none fun c hc => (edge hc).1,
      List.length_flatMap, List.map_map, pathCount_node]
    calc ((intervals none edges).map fun c =>
          (c.2.item.zones (ctx.restricted pair c.1 c.2.upper)).length).sum
        = ((intervals none edges).map fun c => c.2.item.pathCount).sum := by
          rw [List.map_congr_left each]
      _ = (((intervals none edges).map Prod.snd).map fun p => p.item.pathCount).sum := by
          rw [List.map_map]
          rfl
      _ = (edges.map fun p => p.item.pathCount).sum := by rw [map_snd_intervals]

/-- Merging loses paths, if anything. -/
theorem pathCount_make_le (level : Nat) (edges : List (Piece Diagram)) :
    (make level edges).pathCount ≤ (edges.map fun p => p.item.pathCount).sum := by
  have merged : ((merge edges).map fun p => p.item.pathCount).sum ≤
      (edges.map fun p => p.item.pathCount).sum := by
    induction edges with
    | nil => exact le_rfl
    | cons p edges ih =>
      rw [merge_cons, List.map_cons, List.sum_cons]
      cases rest : merge edges with
      | nil => simp [consMerged]
      | cons q es =>
        rw [rest] at ih
        by_cases eq : p.item = q.item
        · rw [consMerged_of_eq eq]
          exact ih.trans (Nat.le_add_left _ _)
        · rw [consMerged_of_ne eq, List.map_cons, List.sum_cons]
          exact Nat.add_le_add_left ih _
  rcases make_cases level edges with ⟨p, eq, make⟩ | ⟨-, make⟩
  · rw [eq] at merged
    rw [make]
    simpa using merged
  · rw [make, pathCount_node]
    exact merged

/-- The tree of a zone has one path to the full federation at most. -/
theorem pathCount_pathThrough_le (cs : List Manager.Cut) : (pathThrough cs).pathCount ≤ 1 := by
  induction cs with
  | nil => exact le_rfl
  | cons c cs ih =>
    have zero : (leaf false).pathCount = 0 := rfl
    refine (pathCount_make_le c.level _).trans (le_trans ?_ ih)
    cases lower : c.lower <;> cases upper : c.upper <;> simp [band, zero]

/-- Reduction makes no new paths. -/
theorem pathCount_le_of_reduce (h : t.reduce ctx = .ok r) : r.pathCount ≤ t.pathCount := by
  induction t using induct generalizing ctx r with
  | leaf b =>
    cases h
    exact le_rfl
  | node level edges ih =>
    obtain ⟨pair, es, -, -, hes, rfl⟩ := reduce_node_eq_ok_iff.1 h
    have children : (es.map fun p => p.item.pathCount).sum ≤
        ((ctx.feasibleRun pair none edges).map fun q => q.item.1.pathCount).sum := by
      refine hes.sum_le (fun c => c.1.pathCount) fun q hq e he => ?_
      obtain ⟨p, hp, item, -⟩ := mem_edges_of_mem_run hq
      have child := ih p hp (item ▸ he.2)
      rwa [item] at child
    calc (make level (stretch es)).pathCount
        ≤ ((stretch es).map fun p => p.item.pathCount).sum := pathCount_make_le _ _
      _ = (es.map fun p => p.item.pathCount).sum := sum_stretch _ es
      _ ≤ ((ctx.feasibleRun pair none edges).map fun q => q.item.1.pathCount).sum := children
      _ ≤ (edges.map fun p => p.item.pathCount).sum := Dbm.sum_run_le pathCount edges
      _ = (node level edges).pathCount := (pathCount_node level edges).symm

/-! ## Conjunctions -/

/-- The edges of a tree as seen from a level have its paths. -/
theorem sum_cofactors (t : Diagram) (l : Nat) :
    ((t.cofactors l).map fun p => p.item.pathCount).sum = t.pathCount := by
  have whole (t : Diagram) : ((whole t).map fun p => p.item.pathCount).sum = t.pathCount :=
    Nat.add_zero _
  cases t with
  | leaf b => exact whole _
  | node k edges =>
    rw [cofactors_node]
    split
    · exact (pathCount_node k edges).symm
    · exact whole _

/-- A conjunction that needs no decision has no more paths than pairs of paths of the operands. -/
theorem pathCount_shortcut_le (h : shortcut .and s t = some u) :
    u.pathCount ≤ s.pathCount * t.pathCount := by
  simp only [shortcut] at h
  split_ifs at h with no left right <;> cases h
  · exact Nat.zero_le _
  · rcases left with rfl | rfl
    · exact (Nat.one_mul _).ge
    · exact Nat.le_mul_self _
  · rw [right]
    exact (Nat.mul_one _).ge

/-- The tree is a conjunction of two trees, and each of its paths goes along a path of each. -/
structure Conjoins (clocks : Nat) (s t u : Diagram) : Prop where
  canonical : Canonical clocks u
  level_le : min s.level t.level ≤ u.level
  eval : ∀ d, Diagram.eval d u = (Diagram.eval d s && Diagram.eval d t)
  paths : u.pathCount ≤ s.pathCount * t.pathCount

theorem conjoins_of_shortcut (hs : Canonical clocks s) (ht : Canonical clocks t)
    (h : shortcut .and s t = some u) : Conjoins clocks s t u where
  canonical := hs.of_shortcut ht h
  level_le := by
    rcases shortcut_cases h with ⟨b, rfl⟩ | (rfl | rfl) | rfl | rfl
    · exact (Nat.min_le_left _ _).trans hs.level_le
    · exact Nat.min_le_left _ _
    · exact (Nat.min_le_left _ _).trans_eq (level_neg s).symm
    · exact Nat.min_le_right _ _
    · exact (Nat.min_le_right _ _).trans_eq (level_neg t).symm
  eval d := eval_shortcut d hs.proper ht.proper h
  paths := pathCount_shortcut_le h

/-- The conjunctions of the pieces make a conjunction. -/
theorem Splits.conjoins_make {ps : List (Piece (Diagram × Diagram))}
    (splits : Splits clocks s t ps) (hps : refine s t = .ok ps)
    (hes : SameCuts (fun c u => Conjoins clocks c.1 c.2 u) ps edges) :
    Conjoins clocks s t (make (min s.level t.level) edges) := by
  have proper : Proper edges := hes.proper splits.refines.proper
  have below : ∀ e ∈ edges, min s.level t.level < e.item.level := fun e he => by
    obtain ⟨p, hp, -, piece⟩ := hes.exists_mem he
    exact (splits.below p hp).trans_le piece.level_le
  refine ⟨.make splits.level_lt proper fun e he => ?_, le_level_make fun e he => (below e he).le,
    fun d => ?_, ?_⟩
  · obtain ⟨p, -, -, piece⟩ := hes.exists_mem he
    exact ⟨piece.canonical, below e he⟩
  · obtain ⟨a, ha⟩ := splits.left.exists_itemAt? (d (min s.level t.level))
    obtain ⟨b, hb⟩ := splits.right.exists_itemAt? (d (min s.level t.level))
    obtain ⟨u, hu, piece⟩ := hes.itemAt? (splits.refines.itemAt? ha hb)
    rw [eval_make d _ proper, eval_node, hu, ← eval_of_itemAt?_cofactors ha,
      ← eval_of_itemAt?_cofactors hb]
    exact piece.eval d
  · calc (make (min s.level t.level) edges).pathCount
        ≤ (edges.map fun e => e.item.pathCount).sum := pathCount_make_le _ _
      _ ≤ (ps.map fun p => p.item.1.pathCount * p.item.2.pathCount).sum :=
          hes.sum_le (fun c => c.1.pathCount * c.2.pathCount) fun _ _ _ piece => piece.paths
      _ ≤ _ := sum_refine_le pathCount pathCount hps
      _ = s.pathCount * t.pathCount := by rw [sum_cofactors, sum_cofactors]

/-- Two canonical trees have a conjunction. -/
theorem exists_conjoins (few : clocks ≤ Manager.maxClocks) (hs : Canonical clocks s)
    (ht : Canonical clocks t) : ∃ u, Conjoins clocks s t u := by
  -- The induction is on the number of levels that are left.
  generalize left : ClockPair.count clocks - min s.level t.level = n
  induction n using Nat.strong_induction_on generalizing s t with
  | _ n ih =>
    cases shortcut : Diagram.shortcut .and s t with
    | some u => exact ⟨u, conjoins_of_shortcut hs ht shortcut⟩
    | none =>
      obtain ⟨ps, hps, splits⟩ := hs.refine_eq_ok few ht shortcut
      have pieces : ∀ p ∈ ps, ∃ u, Conjoins clocks p.item.1 p.item.2 u := by
        intro p hp
        have below := splits.below p hp
        have lt := splits.level_lt
        obtain ⟨left', right'⟩ := splits.canonical p hp
        exact ih _ (by omega) left' right' rfl
      obtain ⟨es, hes⟩ := exists_sameCuts (R := fun (c : Diagram × Diagram) u =>
        Conjoins clocks c.1 c.2 u) pieces
      exact ⟨_, splits.conjoins_make hps hes⟩

/-- **Every path of a conjunction goes along a path of each operand.** -/
theorem pathCount_and_le (few : clocks ≤ Manager.maxClocks) (hs : Canonical clocks s)
    (ht : Canonical clocks t) (hu : Canonical clocks u)
    (and : ∀ d, eval d u = (eval d s && eval d t)) :
    u.pathCount ≤ s.pathCount * t.pathCount := by
  obtain ⟨u', conjoins⟩ := exists_conjoins few hs ht
  have same : u = u' :=
    eq_of_eval_eq hu conjoins.canonical fun d => (and d).trans (conjoins.eval d).symm
  rw [same]
  exact conjoins.paths

end Diagram

end ZoneDiagram

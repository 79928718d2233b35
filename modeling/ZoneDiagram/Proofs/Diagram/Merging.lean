import ZoneDiagram.Proofs.Dbm.Block
import ZoneDiagram.Proofs.Diagram.Reduce

/-!
# Merging before a reduction

A decision merges neighbours with the same child, and so does its reduction. If the first merge
joins two pieces that the context both admits, then the child is reduced once, in a larger context,
instead of twice. The result may differ then, unless the child is a constant.

**Theorem (`reduce_make`).** If every two neighbours with the same child have a constant there, or
are not both admitted, then merging first makes no difference: the tree that is made of the pieces
reduces to what the pieces reduce to.

Of a group of neighbours that is merged, only one piece is admitted, or the child is constant. In
the first case what is left of the context on the group is what is left on this piece, because both
are settled and have the same valuations (`Cuttable.restricted_eq`).
-/

namespace ZoneDiagram

open CutList

/-! ## Neighbours in a zone -/

namespace Dbm

variable {α : Type} {K : Int} {m : Dbm} {pair : ClockPair} {lower lower' : Option Bound}
  {upper upper' : Bound} {p q : Piece α} {ps : CutList α}

theorem Divides.merge [BEq α] (h : Divides K m pair lower ps) :
    Divides K m pair lower (merge ps) where
  settled := h.settled
  room := h.room
  inside := h.inside
  ascending := ascending_merge h.ascending
  within p hp := h.within p (mem_of_mem_merge hp)
  within_lower := h.within_lower

theorem Divides.merge_tail [BEq α] (h : Divides K m pair lower (p :: ps)) :
    Divides K m pair lower (p :: CutList.merge ps) where
  settled := h.settled
  room := h.room
  inside := h.inside
  ascending := ⟨h.ascending.1, h.ascending.2.1, h.tail.merge.ascending⟩
  within := List.forall_mem_cons.2 ⟨h.head.within, h.tail.merge.within⟩
  within_lower := h.within_lower

/-- What is left of a zone on an interval is known by its valuations. -/
theorem Cuttable.restricted_eq (h : Cuttable K m pair lower upper)
    (h' : Cuttable K m pair lower' upper') (admits : m.admits pair lower upper)
    (admits' : m.admits pair lower' upper') (same : ∀ v, m.Holds v →
      (Between lower upper (v pair.i - v pair.j) ↔ Between lower' upper' (v pair.i - v pair.j))) :
    m.restricted pair lower upper = m.restricted pair lower' upper' := by
  obtain ⟨dim, settled, holds⟩ := h.restricted_spec admits
  obtain ⟨dim', settled', holds'⟩ := h'.restricted_spec admits'
  refine settled.eq_of_holds_iff settled' (dim ▸ h.room) (dim' ▸ h.room) (dim.trans dim'.symm)
    fun v => ?_
  rw [holds, holds', and_congr_right_iff]
  exact same v

/-- Two intervals side by side. -/
theorem between_iff_of_le {d : ℚ} (above : ∀ b ∈ lower, b < upper) (le : upper ≤ upper')
    (top : upper' ≤ .infinity) :
    Between lower upper' d ↔ Between lower upper d ∨ Between (some upper) upper' d := by
  constructor
  · intro h
    by_cases hold : upper.Holds d
    · exact .inl ⟨hold, h.2⟩
    · exact .inr ⟨h.1, by rintro b ⟨⟩; exact hold⟩
  · rintro (h | h)
    · exact h.of_le le top
    · exact ⟨h.1, fun b hb hold =>
        h.2 upper rfl (hold.of_le (above b hb).le (le.trans top))⟩

section Neighbours

variable (h : Divides K m pair lower (p :: q :: ps))
include h

theorem Divides.cuttable_both : Cuttable K m pair lower q.upper where
  settled := h.settled
  room := h.room
  inside := h.inside
  within := h.tail.head.within
  within_lower := h.within_lower
  lt b hb := (h.head.lt b hb).trans (h.tail.head.lt _ rfl)

theorem Divides.between_iff (d : ℚ) : Between lower q.upper d ↔
    Between lower p.upper d ∨ Between (some p.upper) q.upper d :=
  between_iff_of_le h.head.lt (h.tail.head.lt _ rfl).le h.tail.ascending.2.1

/-- Two neighbours together are admitted if one of them is. -/
theorem Divides.admits_both_iff : m.admits pair lower q.upper ↔
    m.admits pair lower p.upper ∨ m.admits pair (some p.upper) q.upper := by
  rw [h.cuttable_both.admits_iff, h.head.admits_iff, h.tail.head.admits_iff]
  simp only [h.between_iff, and_or_left, exists_or]

/-- If the first neighbour is not admitted, then both together are what the second one is. -/
theorem Divides.admitted_of_not_admits (refused : ¬m.admits pair lower p.upper) :
    m.admitted pair lower (q :: ps) = m.admitted pair (some p.upper) (q :: ps) := by
  have both := h.admits_both_iff
  by_cases second : m.admits pair (some p.upper) q.upper
  · have same : m.restricted pair lower q.upper = m.restricted pair (some p.upper) q.upper := by
      refine h.cuttable_both.restricted_eq h.tail.head (both.2 (.inr second)) second fun v hv => ?_
      rw [h.between_iff]
      exact or_iff_right fun between => refused (h.head.admits_of_holds hv between)
    rw [admitted_cons_of_admits (both.2 (.inr second)), admitted_cons_of_admits second, cutPiece,
      cutPiece, same]
  · rw [admitted_cons_of_not_admits second, admitted_cons_of_not_admits]
    exact fun union => (both.1 union).elim refused second

/-- If the second neighbour is not admitted, then on both together is left what is left on the first
one. -/
theorem Divides.restricted_of_not_admits (first : m.admits pair lower p.upper)
    (refused : ¬m.admits pair (some p.upper) q.upper) :
    m.restricted pair lower q.upper = m.restricted pair lower p.upper := by
  refine h.cuttable_both.restricted_eq h.head (h.admits_both_iff.2 (.inl first)) first
    fun v hv => ?_
  rw [h.between_iff]
  exact or_iff_left fun between => refused (h.tail.head.admits_of_holds hv between)

end Neighbours

end Dbm

/-! ## Merged lists -/

namespace CutList

variable {α : Type} [BEq α] [LawfulBEq α] {e : Piece α} {es es' : CutList α}

/-- The first item stays the first one. -/
theorem exists_merge_cons (e : Piece α) (es : CutList α) :
    ∃ e' es', merge (e :: es) = e' :: es' ∧ e'.item = e.item := by
  rw [merge_cons]
  cases merge es with
  | nil => exact ⟨e, [], rfl, rfl⟩
  | cons q qs =>
    by_cases eq : e.item = q.item
    · exact ⟨q, qs, consMerged_of_eq eq, eq.symm⟩
    · exact ⟨e, q :: qs, consMerged_of_ne eq, rfl⟩

omit [BEq α] [LawfulBEq α] in
theorem exists_stretch_cons (e : Piece α) (es : CutList α) :
    ∃ e' es', stretch (e :: es) = e' :: es' ∧ e'.item = e.item := by
  cases es with
  | nil => exact ⟨_, _, rfl, rfl⟩
  | cons q es => exact ⟨_, _, rfl, rfl⟩

/-- What is made of pieces starts with the item of the first one. -/
theorem exists_merge_stretch_cons (e : Piece α) (es : CutList α) :
    ∃ e' es', merge (stretch (e :: es)) = e' :: es' ∧ e'.item = e.item := by
  obtain ⟨e₁, es₁, stretched, item₁⟩ := exists_stretch_cons e es
  obtain ⟨e₂, es₂, merged, item₂⟩ := exists_merge_cons e₁ es₁
  exact ⟨e₂, es₂, by rw [stretched, merged], item₂.trans item₁⟩

theorem merge_stretch_eq_nil_iff : merge (stretch es) = [] ↔ es = [] := by
  cases es with
  | nil => exact iff_of_true rfl rfl
  | cons e es =>
    obtain ⟨e', es', eq, -⟩ := exists_merge_stretch_cons e es
    rw [eq]
    exact iff_of_false (List.cons_ne_nil _ _) (List.cons_ne_nil _ _)

/-- One more piece in front. -/
theorem merge_stretch_cons (same : merge (stretch es) = merge (stretch es')) :
    merge (stretch (e :: es)) = merge (stretch (e :: es')) := by
  by_cases nil : es = []
  · subst nil
    rw [merge_stretch_eq_nil_iff.1 same.symm]
  · have nil' : es' ≠ [] := fun eq => nil (merge_stretch_eq_nil_iff.1 (by rw [same, eq]; rfl))
    obtain ⟨p, ps, rfl⟩ := List.exists_cons_of_ne_nil nil
    obtain ⟨q, qs, rfl⟩ := List.exists_cons_of_ne_nil nil'
    rw [stretch_cons_cons, stretch_cons_cons, merge_cons, merge_cons, same]

/-- One more piece in front with the same item is merged. -/
theorem merge_stretch_cons_of_eq {e' : Piece α} (item : e.item = e'.item)
    (same : merge (stretch es) = merge (stretch (e' :: es'))) :
    merge (stretch (e :: es)) = merge (stretch (e' :: es')) := by
  obtain ⟨q, qs, eq, first⟩ := exists_merge_stretch_cons e' es'
  have some : es ≠ [] := by
    rintro rfl
    rw [eq] at same
    cases same
  obtain ⟨p, ps, rfl⟩ := List.exists_cons_of_ne_nil some
  rw [stretch_cons_cons, merge_cons, same, eq, consMerged_of_eq (item.trans first.symm)]

end CutList

namespace Diagram

variable {clocks level : Nat} {K : Int} {ctx : Dbm} {pair : ClockPair} {lower : Option Bound}
  {ps es : List (Piece Diagram)} {r : Diagram}

/-! ## Pieces that may be merged first -/

/-- Neighbours with the same child, both of them admitted, have a constant there. -/
def Mergeable (ctx : Dbm) (pair : ClockPair) (c d : Option Bound × Piece Diagram) : Prop :=
  c.2.item = d.2.item → ctx.admits pair c.1 c.2.upper = true →
    ctx.admits pair d.1 d.2.upper = true → ∃ b, c.2.item = leaf b

section First

variable {p q : Piece Diagram} {qs es' : List (Piece Diagram)} {e : Piece Diagram} {b : Bool}

theorem eq_leaf_of_reduced {s t : Diagram} {sub : Dbm} (const : s = leaf b)
    (h : Reduced (s, sub) t) : t = leaf b := by
  have reduced : s.reduce sub = .ok t := h.2
  rw [const] at reduced
  injection reduced.symm

/-- A first piece that is merged with the next one, both of them admitted. -/
theorem exists_reduced_of_admits (div : Dbm.Divides K ctx pair lower (p :: q :: qs))
    (item : p.item = q.item) (const : p.item = leaf b) (first : ctx.admits pair lower p.upper)
    (second : ctx.admits pair (some p.upper) q.upper)
    (he : SameCut Reduced (ctx.cutPiece pair (lower, p)) e)
    (hes' : SameCuts Reduced (ctx.admitted pair (some p.upper) (q :: qs)) es')
    (same : merge (stretch es') = merge (stretch es)) :
    ∃ es'', SameCuts Reduced (ctx.admitted pair lower (q :: qs)) es'' ∧
      merge (stretch es'') = merge (stretch (e :: es)) := by
  have union := div.admits_both_iff.2 (.inl first)
  rw [Dbm.admitted_cons_of_admits union]
  rw [Dbm.admitted_cons_of_admits second] at hes'
  cases hes' with
  | @cons _ e' _ es' head tail =>
    obtain ⟨upper, reduced⟩ := head
    have eItem : e.item = leaf b := eq_leaf_of_reduced const he.2
    have eItem' : e'.item = leaf b := eq_leaf_of_reduced (item.symm.trans const) reduced
    have settled := (div.cuttable_both.restricted_spec union).2.1
    refine ⟨e' :: es', .cons ⟨upper, settled.isEmpty_eq_false, ?_⟩ tail,
      (merge_stretch_cons_of_eq (eItem.trans eItem'.symm) same.symm).symm⟩
    show q.item.reduce _ = _
    rw [← item, const, eItem']
    rfl

/-- A first piece that is merged with the next one, but is the last one that is admitted. -/
theorem exists_reduced_of_not_admits (div : Dbm.Divides K ctx pair lower (p :: q :: qs))
    (item : p.item = q.item) (first : ctx.admits pair lower p.upper)
    (second : ¬ctx.admits pair (some p.upper) q.upper)
    (he : SameCut Reduced (ctx.cutPiece pair (lower, p)) e)
    (hes' : SameCuts Reduced (ctx.admitted pair (some p.upper) (q :: qs)) es')
    (same : merge (stretch es') = merge (stretch es)) :
    ∃ es'', SameCuts Reduced (ctx.admitted pair lower (q :: qs)) es'' ∧
      merge (stretch es'') = merge (stretch (e :: es)) := by
  have none : ctx.admitted pair (some p.upper) (q :: qs) = [] := by
    by_contra more
    exact second (div.admits_next first more)
  rw [none] at hes'
  cases hes'
  obtain rfl := merge_stretch_eq_nil_iff.1 same.symm
  rw [Dbm.admitted_cons_of_not_admits second] at none
  rw [Dbm.admitted_cons_of_admits (div.admits_both_iff.2 (.inl first)), none]
  refine ⟨[⟨e.item, q.upper⟩], .cons ⟨rfl, ?_⟩ .nil, rfl⟩
  have left : Reduced (p.item, ctx.restricted pair lower p.upper) e.item := he.2
  rw [← div.restricted_of_not_admits first second, item] at left
  exact left

end First

/-- The merged pieces reduce to what the pieces reduce to. -/
theorem exists_reduced_merge (div : Dbm.Divides K ctx pair lower ps)
    (chain : (intervals lower ps).IsChain (Mergeable ctx pair))
    (hes : SameCuts Reduced (ctx.admitted pair lower ps) es) :
    ∃ es', SameCuts Reduced (ctx.admitted pair lower (merge ps)) es' ∧
      merge (stretch es') = merge (stretch es) := by
  -- Merging begins with the last pieces, so the rest is merged when a piece is put in front of it.
  induction ps generalizing lower es with
  | nil => exact ⟨es, hes, rfl⟩
  | cons p ps ih =>
    cases ps with
    | nil => exact ⟨es, hes, rfl⟩
    | cons n ps =>
      obtain ⟨mergeable, rest⟩ := List.isChain_cons_cons.1 chain
      have both := div.merge_tail
      obtain ⟨q, qs, merged, first⟩ := exists_merge_cons n ps
      rw [merge_cons, merged]
      rw [merged] at ih both
      by_cases admits : ctx.admits pair lower p.upper
      · rw [Dbm.admitted_cons_of_admits admits] at hes
        cases hes with
        | @cons _ e _ es head tail =>
          obtain ⟨es', hes', same⟩ := ih div.tail rest tail
          by_cases item : p.item = q.item
          · rw [consMerged_of_eq item]
            by_cases second : ctx.admits pair (some p.upper) q.upper
            · -- Some piece of the merged list is admitted, so some piece before the merge is.
              have next : ctx.admits pair (some p.upper) n.upper := by
                refine div.admits_next admits fun none => ?_
                rw [none] at tail
                cases tail
                rw [merge_stretch_eq_nil_iff.1 same, Dbm.admitted_cons_of_admits second] at hes'
                cases hes'
              obtain ⟨b, const⟩ := mergeable (item.trans first) admits next
              exact exists_reduced_of_admits both item const admits second head hes' same
            · exact exists_reduced_of_not_admits both item admits second head hes' same
          · rw [consMerged_of_ne item, Dbm.admitted_cons_of_admits admits]
            exact ⟨e :: es', .cons head hes', merge_stretch_cons same⟩
      · rw [Dbm.admitted_cons_of_not_admits admits] at hes
        obtain ⟨es', hes', same⟩ := ih div.tail rest hes
        refine ⟨es', ?_, same⟩
        by_cases item : p.item = q.item
        · rw [consMerged_of_eq item, both.admitted_of_not_admits admits]
          exact hes'
        · rw [consMerged_of_ne item, Dbm.admitted_cons_of_not_admits admits]
          exact hes'

theorem make_congr {es es' : List (Piece Diagram)} (h : merge es = merge es') :
    make level es = make level es' := by
  unfold make
  rw [h]

/-- If all pieces are merged to one, then its child is reduced in the same context. -/
theorem reduce_of_admitted_single {p : Piece Diagram} (last : p.upper = .infinity)
    (hes : SameCuts Reduced (ctx.admitted pair none [p]) es) :
    p.item.reduce ctx = .ok (make level (stretch es)) := by
  have whole : ctx.admits pair none p.upper := by
    rw [last]
    rfl
  have same : ctx.restricted pair none p.upper = ctx := by
    rw [last]
    rfl
  rw [Dbm.admitted_cons_of_admits whole] at hes
  cases hes with
  | @cons _ e _ _ head tail =>
    cases tail
    have reduced : p.item.reduce (ctx.restricted pair none p.upper) = .ok e.item := head.2.2
    rw [same] at reduced
    exact reduced

/-- **Pieces that may be merged first reduce to the same tree** when they are. -/
theorem reduce_make (ready : Ready clocks K ctx) (lt : level < ClockPair.count clocks)
    (proper : Proper ps) (within : ∀ p ∈ ps, p.upper.Within K)
    (chain : ∀ pair, ClockPair.ofLevel level = .ok pair →
      (intervals none ps).IsChain (Mergeable ctx pair))
    (h : NodeReduces (fun t sub s => t.reduce sub = .ok s) level ps ctx r) :
    (make level ps).reduce ctx = .ok r := by
  obtain ⟨pair, es, hpair, some, hes, rfl⟩ := h
  have div := ready.divides lt proper within hpair
  rw [div.feasibleRun_eq] at some hes
  obtain ⟨es', hes', same⟩ := exists_reduced_merge div (chain pair hpair) hes
  rw [← make_congr same]
  rcases make_cases level ps with ⟨p, single, make⟩ | ⟨-, make⟩
  · rw [make]
    have proper := proper_merge proper
    rw [single] at proper hes'
    exact reduce_of_admitted_single proper hes'
  · rw [make, reduce_node_eq_ok_iff]
    refine ⟨pair, es', hpair, fun none => some ?_, ?_, rfl⟩
    · rw [div.merge.feasibleRun_eq] at none
      rw [none] at hes'
      cases hes'
      obtain rfl := merge_stretch_eq_nil_iff.1 same.symm
      exact List.forall₂_nil_right_iff.1 hes
    · rw [div.merge.feasibleRun_eq]
      exact hes'

end Diagram

end ZoneDiagram

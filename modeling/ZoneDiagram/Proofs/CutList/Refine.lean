import ZoneDiagram.Proofs.CutList.Intervals

/-!
# Common cuts

Two proper cut lists have a proper refinement. It has the cuts of both, and it pairs the items of
both at every value.
-/

namespace ZoneDiagram.CutList

variable {α β : Type} {ps : CutList α} {qs : CutList β} {rs : CutList (α × β)}

/-- What a refinement of two cut lists is: proper, with the items of both at every value. -/
structure Refines (ps : CutList α) (qs : CutList β) (rs : CutList (α × β)) : Prop where
  proper : Proper rs
  ascending : ∀ {lower}, Ascending lower ps → Ascending lower qs → Ascending lower rs
  itemAt? : ∀ {d a b}, itemAt? d ps = some a → CutList.itemAt? d qs = some b →
    CutList.itemAt? d rs = some (a, b)
  items : ∀ r ∈ rs, (∃ p ∈ ps, p.item = r.item.1) ∧ ∃ q ∈ qs, q.item = r.item.2
  cuts : ∀ r ∈ rs, (∃ p ∈ ps, p.upper = r.upper) ∨ ∃ q ∈ qs, q.upper = r.upper

theorem Refines.swap (h : Refines ps qs rs) : Refines qs ps (mapItems Prod.swap rs) where
  proper := (sameCuts_mapItems Prod.swap rs).proper h.proper
  ascending hq hp := (sameCuts_mapItems Prod.swap rs).ascending (h.ascending hp hq)
  itemAt? hb ha := by
    rw [itemAt?_mapItems, h.itemAt? ha hb]
    rfl
  items r hr := by
    obtain ⟨s, hs, rfl⟩ := List.mem_map.1 hr
    exact (h.items s hs).symm
  cuts r hr := by
    obtain ⟨s, hs, rfl⟩ := List.mem_map.1 hr
    exact (h.cuts s hs).symm

/-- One more piece of the first list that ends before the second list has a cut. -/
theorem Refines.cons_left {p : Piece α} {q : Piece β} (h : Refines ps (q :: qs) rs)
    (hp : Ascending (some p.upper) ps) (hq : Ascending none (q :: qs)) (lt : p.upper < q.upper) :
    Refines (p :: ps) (q :: qs) (⟨(p.item, q.item), p.upper⟩ :: rs) where
  proper := proper_cons h.proper (h.ascending hp ⟨fun b hb => by cases hb; exact lt, hq.2⟩)
  ascending hps hqs := by
    refine ⟨hps.1, hps.2.1, h.ascending hp ⟨?_, hqs.2⟩⟩
    rintro b ⟨⟩
    exact lt
  itemAt? {d a b} ha hb := by
    by_cases hd : p.upper.Holds d
    · rw [itemAt?_cons_of_holds hd] at ha
      rw [itemAt?_cons_of_holds (hd.of_le (le_of_lt lt) hq.2.1)] at hb
      cases ha
      cases hb
      exact if_pos hd
    · rw [itemAt?_cons_of_not_holds hd] at ha
      exact (if_neg hd).trans (h.itemAt? ha hb)
  items r hr := by
    rcases List.mem_cons.1 hr with rfl | hr
    · exact ⟨⟨p, List.mem_cons_self, rfl⟩, q, List.mem_cons_self, rfl⟩
    · obtain ⟨⟨p', hp', eq⟩, right⟩ := h.items r hr
      exact ⟨⟨p', List.mem_cons_of_mem p hp', eq⟩, right⟩
  cuts r hr := by
    rcases List.mem_cons.1 hr with rfl | hr
    · exact .inl ⟨p, List.mem_cons_self, rfl⟩
    · exact (h.cuts r hr).imp_left fun ⟨p', hp', eq⟩ => ⟨p', List.mem_cons_of_mem p hp', eq⟩

/-- One more piece of both lists, with the same bound. -/
theorem Refines.cons_both {p : Piece α} {q : Piece β} (h : Refines ps qs rs)
    (hp : Ascending (some p.upper) ps) (hq : Ascending (some p.upper) qs) (eq : p.upper = q.upper) :
    Refines (p :: ps) (q :: qs) (⟨(p.item, q.item), p.upper⟩ :: rs) where
  proper := proper_cons h.proper (h.ascending hp hq)
  ascending hps _ := ⟨hps.1, hps.2.1, h.ascending hp hq⟩
  itemAt? {d a b} ha hb := by
    by_cases hd : p.upper.Holds d
    · rw [itemAt?_cons_of_holds hd] at ha
      rw [itemAt?_cons_of_holds (eq ▸ hd)] at hb
      cases ha
      cases hb
      exact if_pos hd
    · rw [itemAt?_cons_of_not_holds hd] at ha
      rw [itemAt?_cons_of_not_holds (eq ▸ hd)] at hb
      exact (if_neg hd).trans (h.itemAt? ha hb)
  items r hr := by
    rcases List.mem_cons.1 hr with rfl | hr
    · exact ⟨⟨p, List.mem_cons_self, rfl⟩, q, List.mem_cons_self, rfl⟩
    · obtain ⟨⟨p', hp', left⟩, q', hq', right⟩ := h.items r hr
      exact ⟨⟨p', List.mem_cons_of_mem p hp', left⟩, q', List.mem_cons_of_mem q hq', right⟩
  cuts r hr := by
    rcases List.mem_cons.1 hr with rfl | hr
    · exact .inl ⟨p, List.mem_cons_self, rfl⟩
    · exact (h.cuts r hr).imp (fun ⟨p', hp', eq⟩ => ⟨p', List.mem_cons_of_mem p hp', eq⟩)
        fun ⟨q', hq', eq⟩ => ⟨q', List.mem_cons_of_mem q hq', eq⟩

theorem refines_last {p : Piece α} {q : Piece β} (hp : p.upper = .infinity)
    (hq : q.upper = .infinity) : Refines [p] [q] [⟨(p.item, q.item), p.upper⟩] where
  proper := hp
  ascending hps _ := hps
  itemAt? {d a b} ha hb := by
    have hd : p.upper.Holds d := hp ▸ Bound.holds_infinity d
    rw [itemAt?_cons_of_holds hd] at ha
    rw [itemAt?_cons_of_holds (hq ▸ Bound.holds_infinity d)] at hb
    cases ha
    cases hb
    exact if_pos hd
  items r hr := by
    obtain rfl := List.mem_singleton.1 hr
    exact ⟨⟨p, List.mem_cons_self, rfl⟩, q, List.mem_cons_self, rfl⟩
  cuts r hr := by
    obtain rfl := List.mem_singleton.1 hr
    exact .inl ⟨p, List.mem_cons_self, rfl⟩

/-- **Proper cut lists have a refinement.** -/
theorem refine_eq_ok (hp : Proper ps) (hq : Proper qs) :
    ∃ rs, refine ps qs = .ok rs ∧ Refines ps qs rs := by
  fun_induction refine ps qs with
  | case1 => cases hp
  | case2 => cases hq
  | case3 p ps q qs item lt ih =>
    -- The piece that ends first is not the last one, since the other list goes on beyond it.
    have more : p.upper ≠ .infinity := fun last =>
      absurd (last ▸ lt) (not_lt.2 hq.ascending.2.1)
    obtain ⟨rs, ok, h⟩ := ih (hp.tail more) hq
    exact ⟨_, by rw [ok]; rfl, h.cons_left hp.ascending_tail hq.ascending lt⟩
  | case4 p ps q qs item _ lt ih =>
    have more : q.upper ≠ .infinity := fun last =>
      absurd (last ▸ lt) (not_lt.2 hp.ascending.2.1)
    obtain ⟨rs, ok, h⟩ := ih hp (hq.tail more)
    refine ⟨_, by rw [ok]; rfl, ?_⟩
    simpa [mapItems, Function.comp_def] using
      (h.swap.cons_left hq.ascending_tail hp.ascending lt).swap
  | case5 p ps q qs item ge le last =>
    have eq : p.upper = q.upper := le_antisymm (not_lt.1 le) (not_lt.1 ge)
    have last := Bound.isInfinity_iff.1 last
    obtain rfl := hp.upper_eq_infinity_iff.1 last
    obtain rfl := hq.upper_eq_infinity_iff.1 (eq ▸ last)
    exact ⟨_, rfl, refines_last last (eq ▸ last)⟩
  | case6 p ps q qs item ge le more ih =>
    have eq : p.upper = q.upper := le_antisymm (not_lt.1 le) (not_lt.1 ge)
    have more : p.upper ≠ .infinity := fun last => more (Bound.isInfinity_iff.2 last)
    obtain ⟨rs, ok, h⟩ := ih (hp.tail more) (hq.tail (eq ▸ more))
    exact ⟨_, by rw [ok]; rfl, h.cons_both hp.ascending_tail (eq ▸ hq.ascending_tail) eq⟩

/-- **The cuts of a refinement are those of both lists.** -/
theorem exists_upper_refine_iff (hp : Proper ps) (hq : Proper qs) (ok : refine ps qs = .ok rs)
    (b : Bound) : (∃ r ∈ rs, r.upper = b) ↔ (∃ p ∈ ps, p.upper = b) ∨ ∃ q ∈ qs, q.upper = b := by
  -- A step puts one piece in front of what the rest gives.
  have step {r : Piece (α × β)} {rest : Except Error (CutList (α × β))} {rs : CutList (α × β)}
      (ok : (do return r :: (← rest)) = Except.ok rs) : ∃ rs', rest = .ok rs' ∧ r :: rs' = rs := by
    cases rest with
    | ok rs' => exact ⟨rs', rfl, Except.ok.inj ok⟩
    | error e => cases ok
  revert rs
  fun_induction refine ps qs with
  | case1 => cases hp
  | case2 => cases hq
  | case3 p ps q qs item lt ih =>
    intro rs ok
    have more : p.upper ≠ .infinity := fun last =>
      absurd (last ▸ lt) (not_lt.2 hq.ascending.2.1)
    obtain ⟨rs', rest, rfl⟩ := step ok
    simp only [List.exists_mem_cons_iff, ih (hp.tail more) hq rest, or_assoc]
  | case4 p ps q qs item _ lt ih =>
    intro rs ok
    have more : q.upper ≠ .infinity := fun last =>
      absurd (last ▸ lt) (not_lt.2 hp.ascending.2.1)
    obtain ⟨rs', rest, rfl⟩ := step ok
    simp only [List.exists_mem_cons_iff, ih hp (hq.tail more) rest]
    exact or_left_comm
  | case5 p ps q qs item ge le last =>
    intro rs ok
    have eq : p.upper = q.upper := le_antisymm (not_lt.1 le) (not_lt.1 ge)
    have last := Bound.isInfinity_iff.1 last
    obtain rfl := hp.upper_eq_infinity_iff.1 last
    obtain rfl := hq.upper_eq_infinity_iff.1 (eq ▸ last)
    cases ok
    simp [eq]
  | case6 p ps q qs item ge le more ih =>
    intro rs ok
    have eq : p.upper = q.upper := le_antisymm (not_lt.1 le) (not_lt.1 ge)
    have more : p.upper ≠ .infinity := fun last => more (Bound.isInfinity_iff.2 last)
    obtain ⟨rs', rest, rfl⟩ := step ok
    simp only [List.exists_mem_cons_iff, ih (hp.tail more) (hq.tail (eq ▸ more)) rest, ← eq]
    exact or_or_distrib_left

/-! ## Other items, and the other order -/

theorem refine_mapItems {α' β' : Type} (f : α → α') (g : β → β') (ps : CutList α)
    (qs : CutList β) :
    refine (mapItems f ps) (mapItems g qs) =
      (refine ps qs).map (mapItems (Prod.map f g)) := by
  have cons (r : Piece (α × β)) (rs : Except Error (CutList (α × β))) :
      (do return ⟨Prod.map f g r.item, r.upper⟩ :: (← rs.map (mapItems (Prod.map f g)))) =
        (do return r :: (← rs)).map (mapItems (Prod.map f g)) := by
    cases rs <;> rfl
  fun_induction refine ps qs with
  | case1 => simp [refine, mapItems, Except.map]
  | case2 => simp [refine, mapItems, Except.map]
  | case3 p ps q qs item lt ih =>
    rw [← cons, ← ih]
    simp [mapItems, refine, lt, item]
  | case4 p ps q qs item ge lt ih =>
    rw [← cons, ← ih]
    simp [mapItems, refine, lt, item, ge]
  | case5 p ps q qs item ge le last =>
    simp [mapItems, refine, ge, le, last, Except.map, item]
  | case6 p ps q qs item ge le more ih =>
    rw [← cons, ← ih]
    simp [mapItems, refine, ge, le, more, item]

theorem refine_swap (ps : CutList α) (qs : CutList β) :
    refine qs ps = (refine ps qs).map (mapItems Prod.swap) := by
  have cons (r : Piece (α × β)) (rs : Except Error (CutList (α × β))) :
      (do return ⟨r.item.swap, r.upper⟩ :: (← rs.map (mapItems Prod.swap))) =
        (do return r :: (← rs)).map (mapItems Prod.swap) := by
    cases rs <;> rfl
  fun_induction refine ps qs with
  | case1 qs => cases qs <;> simp [refine, Except.map]
  | case2 => simp [refine, Except.map]
  | case3 p ps q qs item lt ih =>
    rw [← cons, ← ih, refine, if_neg (not_lt.2 lt.le), if_pos lt]
    rfl
  | case4 p ps q qs item ge lt ih =>
    rw [← cons, ← ih, refine, if_pos lt]
    rfl
  | case5 p ps q qs item ge le last =>
    have eq : p.upper = q.upper := le_antisymm (not_lt.1 le) (not_lt.1 ge)
    rw [refine, if_neg le, if_neg ge, ← eq, if_pos last]
    rfl
  | case6 p ps q qs item ge le more ih =>
    have eq : p.upper = q.upper := le_antisymm (not_lt.1 le) (not_lt.1 ge)
    rw [← cons, ← ih, refine, if_neg le, if_neg ge, ← eq, if_neg more]
    rfl

end ZoneDiagram.CutList

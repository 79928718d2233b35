import ZoneDiagram.Proofs.CutList.Intervals

/-!
# Merged cut lists are known by their items

The line is dense, so every interval of an ascending list contains a value. If no two neighbours
carry the same item, a cut can be seen at the values around it.

**Theorem (`eq_of_itemAt?_eq`).** Two proper cut lists without equal neighbours that have the same
item at every value are equal.
-/

namespace ZoneDiagram.CutList

variable {α : Type} {p q : Piece α} {ps qs : CutList α} {d : ℚ} {lower lo : Option Bound}

/-! ## Values in every interval -/

theorem Ascending.exists_between (h : Ascending lower ps) (hp : (lo, p) ∈ intervals lower ps) :
    ∃ d, Between lo p.upper d := by
  induction ps generalizing lower with
  | nil => cases hp
  | cons r ps ih =>
    obtain ⟨above, le, rest⟩ := h
    rcases List.mem_cons.1 hp with eq | hp
    · cases eq
      cases lo with
      | none =>
        obtain ⟨d, hd⟩ := Bound.exists_holds le
        exact ⟨d, hd, nofun⟩
      | some b =>
        obtain ⟨d, hd, broken⟩ := Bound.exists_holds_of_lt le (above b rfl)
        exact ⟨d, hd, by rintro _ ⟨⟩; exact broken⟩
    · exact ih rest hp

/-- Every item of a proper list is the item at some value. -/
theorem Proper.exists_value (h : Proper ps) (hp : p ∈ ps) : ∃ d, itemAt? d ps = some p.item := by
  obtain ⟨lo, hlo⟩ := exists_interval_of_mem none hp
  obtain ⟨d, hd⟩ := h.ascending.exists_between hlo
  exact ⟨d, itemAt?_of_between h.ascending hlo hd⟩

/-! ## Seeing the cuts -/

/-- A value past a cut is past everything before it. -/
theorem Ascending.not_holds_of_head (h : Ascending lower (p :: ps)) (hd : ¬ p.upper.Holds d) :
    ∀ b ∈ lower, ¬ b.Holds d := by
  intro b hb hold
  exact hd (hold.of_le (le_of_lt (h.1 b hb)) h.2.1)

/-- The lists have the same items at the values past a bound. -/
def SameItems (lower : Option Bound) (ps qs : CutList α) : Prop :=
  ∀ d, (∀ b ∈ lower, ¬ b.Holds d) → itemAt? d ps = itemAt? d qs

theorem SameItems.symm (h : SameItems lower ps qs) : SameItems lower qs ps :=
  fun d hd => (h d hd).symm

theorem SameItems.head (h : SameItems lower (p :: ps) (q :: qs)) (hp : Ascending lower (p :: ps))
    (hq : q.upper ≤ .infinity) (le : p.upper ≤ q.upper) : p.item = q.item := by
  obtain ⟨d, upper, above⟩ := hp.exists_between List.mem_cons_self
  have same := h d above
  rw [itemAt?_cons_of_holds upper, itemAt?_cons_of_holds (upper.of_le le hq)] at same
  exact Option.some.inj same

/-- A first piece that ended earlier would be followed by one with the same item. -/
theorem SameItems.upper_le (h : SameItems lower (p :: ps) (q :: qs))
    (hp : Ascending lower (p :: ps)) (proper : Proper (p :: ps)) (merged : Merged (p :: ps))
    (hq : q.upper ≤ .infinity) : q.upper ≤ p.upper := by
  by_contra wider
  have lt : p.upper < q.upper := not_le.1 wider
  have first : p.item = q.item := h.head hp hq (le_of_lt lt)
  cases ps with
  | nil => exact wider (proper ▸ hq)
  | cons r ps =>
    -- A value past the first cut, but in the second piece and in the piece of the other list.
    obtain ⟨d, hd, past⟩ := Bound.exists_holds_of_lt ((min_le_right r.upper q.upper).trans hq)
      (lt_min proper.1 lt)
    have second := h d (hp.not_holds_of_head past)
    rw [itemAt?_cons_of_not_holds past,
      itemAt?_cons_of_holds (hd.of_le (min_le_left _ _) hp.2.2.2.1),
      itemAt?_cons_of_holds (hd.of_le (min_le_right _ _) hq)] at second
    exact merged.1 (first.trans (Option.some.inj second).symm)

theorem SameItems.tail (h : SameItems lower (p :: ps) (q :: qs)) (hp : Ascending lower (p :: ps))
    (upper : p.upper = q.upper) : SameItems (some p.upper) ps qs := by
  intro d past
  have past : ¬ p.upper.Holds d := past p.upper rfl
  have same := h d (hp.not_holds_of_head past)
  rwa [itemAt?_cons_of_not_holds past, itemAt?_cons_of_not_holds (upper ▸ past)] at same

theorem Merged.tail (h : Merged (p :: ps)) : Merged ps := by
  cases ps with
  | nil => trivial
  | cons q ps => exact h.2

theorem SameItems.eq (h : SameItems lower ps qs) (hp : Ascending lower ps)
    (hq : Ascending lower qs) (pProper : Proper ps) (qProper : Proper qs) (pMerged : Merged ps)
    (qMerged : Merged qs) : ps = qs := by
  induction ps generalizing lower qs with
  | nil => cases pProper
  | cons p ps ih =>
    cases qs with
    | nil => cases qProper
    | cons q qs =>
      have upper : p.upper = q.upper := le_antisymm
        (h.symm.upper_le hq qProper qMerged hp.2.1) (h.upper_le hp pProper pMerged hq.2.1)
      have item : p.item = q.item := h.head hp hq.2.1 (le_of_eq upper)
      have head : p = q := by
        cases p
        cases q
        exact congrArg₂ Piece.mk item upper
      by_cases last : p.upper = .infinity
      · rw [head, pProper.upper_eq_infinity_iff.1 last,
          qProper.upper_eq_infinity_iff.1 (upper ▸ last)]
      · rw [head, ih (h.tail hp upper) hp.2.2 (upper ▸ hq.2.2) (pProper.tail last)
          (qProper.tail (upper ▸ last)) pMerged.tail qMerged.tail]

/-- **Merged lists with the same items are equal.** -/
theorem eq_of_itemAt?_eq (pProper : Proper ps) (qProper : Proper qs) (pMerged : Merged ps)
    (qMerged : Merged qs) (h : ∀ d, itemAt? d ps = itemAt? d qs) : ps = qs := by
  have same : SameItems none ps qs := fun d _ => h d
  exact same.eq pProper.ascending qProper.ascending pProper qProper pMerged qMerged

end ZoneDiagram.CutList

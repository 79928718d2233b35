import ZoneDiagram.Proofs.CutList.Intervals

/-!
# Merging, stretching and refining cut lists

None of the three changes the item at a value: merging drops cuts between equal items, stretching
extends the last piece, and refining pairs the items of two lists.
-/

namespace ZoneDiagram.CutList

variable {α β : Type} {p : Piece α} {ps : CutList α} {qs : CutList β} {d : ℚ}
  {lower lo : Option Bound}

/-! ## Merging -/

section Merge

variable [BEq α]

theorem merge_cons (p : Piece α) (ps : CutList α) :
    merge (p :: ps) = consMerged p (merge ps) := rfl

theorem mem_of_mem_consMerged {q : Piece α} (h : q ∈ consMerged p ps) : q ∈ p :: ps := by
  cases ps with
  | nil => exact h
  | cons r ps =>
    rw [consMerged] at h
    split at h
    · exact List.mem_cons_of_mem p h
    · exact h

theorem mem_of_mem_merge (h : p ∈ merge ps) : p ∈ ps := by
  induction ps with
  | nil => exact h
  | cons q ps ih =>
    rcases List.mem_cons.1 (mem_of_mem_consMerged h) with rfl | h
    · exact List.mem_cons_self
    · exact List.mem_cons_of_mem q (ih h)

theorem mem_consMerged_of_mem (h : p ∈ ps) (q : Piece α) : p ∈ consMerged q ps := by
  cases ps with
  | nil => cases h
  | cons r ps =>
    rw [consMerged]
    split
    · exact h
    · exact List.mem_cons_of_mem q h

theorem ascending_consMerged (h : Ascending lower (p :: ps)) :
    Ascending lower (consMerged p ps) := by
  cases ps with
  | nil => exact h
  | cons q ps =>
    rw [consMerged]
    split
    · exact h.of_cons
    · exact h

theorem ascending_merge (h : Ascending lower ps) : Ascending lower (merge ps) := by
  induction ps generalizing lower with
  | nil => exact h
  | cons p ps ih => exact ascending_consMerged ⟨h.1, h.2.1, ih h.2.2⟩

theorem proper_merge (h : Proper ps) : Proper (merge ps) := by
  induction ps with
  | nil => cases h
  | cons p ps ih =>
    cases ps with
    | nil => exact h
    | cons q ps =>
      have rest := ih h.2
      have asc := ascending_merge h.ascending_tail
      rw [merge_cons]
      generalize merge (q :: ps) = rs at rest asc
      cases rs with
      | nil => cases rest
      | cons r rs =>
        rw [consMerged]
        split
        · exact rest
        · exact ⟨asc.1 p.upper rfl, rest⟩

variable [LawfulBEq α]

theorem consMerged_of_eq {q : Piece α} (h : p.item = q.item) :
    consMerged p (q :: ps) = q :: ps := if_pos (beq_iff_eq.2 h)

theorem consMerged_of_ne {q : Piece α} (h : p.item ≠ q.item) :
    consMerged p (q :: ps) = p :: q :: ps := if_neg fun eq => h (beq_iff_eq.1 eq)

/-- Merging drops no item. -/
theorem exists_mem_merge (h : p ∈ ps) : ∃ q ∈ merge ps, q.item = p.item := by
  induction ps with
  | nil => cases h
  | cons r ps ih =>
    rw [merge_cons]
    rcases List.mem_cons.1 h with rfl | h
    · cases merge ps with
      | nil => exact ⟨p, List.mem_singleton_self p, rfl⟩
      | cons q qs =>
        by_cases eq : p.item = q.item
        · exact ⟨q, by rw [consMerged_of_eq eq]; exact List.mem_cons_self, eq.symm⟩
        · exact ⟨p, by rw [consMerged_of_ne eq]; exact List.mem_cons_self, rfl⟩
    · obtain ⟨q, hq, eq⟩ := ih h
      exact ⟨q, mem_consMerged_of_mem hq r, eq⟩

theorem merged_consMerged (p : Piece α) {pieces : CutList α}
    (h : Merged pieces) : Merged (consMerged p pieces) := by
  cases pieces with
  | nil => exact trivial
  | cons q ps =>
    rw [consMerged]
    split
    · exact h
    next ne => exact ⟨fun eq => ne (beq_iff_eq.2 eq), h⟩

theorem merged_merge : ∀ pieces : CutList α, Merged (merge pieces)
  | [] => trivial
  | p :: ps => merged_consMerged p (merged_merge ps)

theorem itemAt?_consMerged (lower : Option Bound) (h : Ascending lower (p :: ps)) :
    itemAt? d (consMerged p ps) = itemAt? d (p :: ps) := by
  cases ps with
  | nil => rfl
  | cons q ps =>
    by_cases eq : p.item = q.item
    · rw [consMerged_of_eq eq]
      by_cases hp : p.upper.Holds d
      · have hq : q.upper.Holds d := hp.of_le (le_of_lt (h.2.2.1 p.upper rfl)) h.2.2.2.1
        rw [itemAt?_cons_of_holds hp, itemAt?_cons_of_holds hq, eq]
      · rw [itemAt?_cons_of_not_holds hp]
    · rw [consMerged_of_ne eq]

theorem itemAt?_merge (h : Ascending lower ps) : itemAt? d (merge ps) = itemAt? d ps := by
  induction ps generalizing lower with
  | nil => rfl
  | cons p ps ih =>
    rw [merge_cons, itemAt?_consMerged lower ⟨h.1, h.2.1, ascending_merge h.2.2⟩]
    by_cases hp : p.upper.Holds d
    · rw [itemAt?_cons_of_holds hp, itemAt?_cons_of_holds hp]
    · rw [itemAt?_cons_of_not_holds hp, itemAt?_cons_of_not_holds hp, ih h.2.2]

/-- An interval after merging contains one from before with the same item. -/
theorem exists_interval_of_mem_merge (h : Ascending lower ps)
    (hp : (lo, p) ∈ intervals lower (merge ps)) :
    ∃ lo' q, (lo', q) ∈ intervals lower ps ∧ q.item = p.item ∧
      ∀ d, Between lo' q.upper d → Between lo p.upper d := by
  induction ps generalizing lower with
  | nil => cases hp
  | cons q ps ih =>
    have first : (lower, q) ∈ intervals lower (q :: ps) := List.mem_cons_self
    have later (hp : (lo, p) ∈ intervals (some q.upper) (merge ps)) :
        ∃ lo' r, (lo', r) ∈ intervals lower (q :: ps) ∧ r.item = p.item ∧
          ∀ d, Between lo' r.upper d → Between lo p.upper d := by
      obtain ⟨lo', r, hr, rest⟩ := ih h.2.2 hp
      exact ⟨lo', r, List.mem_cons_of_mem _ hr, rest⟩
    have asc := ascending_merge h.2.2
    rw [merge_cons] at hp
    generalize merge ps = rs at hp later asc
    cases rs with
    | nil =>
      obtain ⟨rfl, rfl⟩ := Prod.mk.inj (List.mem_singleton.1 hp)
      exact ⟨lo, p, first, rfl, fun _ hd => hd⟩
    | cons r rs =>
      -- The first interval grows over the next one if both have the same item.
      by_cases eq : q.item = r.item
      · rw [consMerged_of_eq eq] at hp
        rcases List.mem_cons.1 hp with head | hp
        · obtain ⟨rfl, rfl⟩ := Prod.mk.inj head
          exact ⟨lo, q, first, eq, fun _ hd =>
            hd.of_le (le_of_lt (asc.1 q.upper rfl)) asc.2.1⟩
        · exact later (List.mem_cons_of_mem _ hp)
      · rw [consMerged_of_ne eq] at hp
        rcases List.mem_cons.1 hp with head | hp
        · obtain ⟨rfl, rfl⟩ := Prod.mk.inj head
          exact ⟨lo, p, first, rfl, fun _ hd => hd⟩
        · exact later hp

theorem merge_of_merged (h : Merged ps) : merge ps = ps := by
  induction ps with
  | nil => rfl
  | cons p ps ih =>
    cases ps with
    | nil => rfl
    | cons q ps => rw [merge_cons, ih h.2, consMerged_of_ne h.1]

end Merge

theorem merge_mapItems [BEq α] [LawfulBEq α] [BEq β] [LawfulBEq β] {f : α → β}
    (inj : ∀ p ∈ ps, ∀ q ∈ ps, f p.item = f q.item → p.item = q.item) :
    merge (mapItems f ps) = mapItems f (merge ps) := by
  induction ps with
  | nil => rfl
  | cons p ps ih =>
    have tail := ih fun q hq r hr => inj q (List.mem_cons_of_mem p hq) r (List.mem_cons_of_mem p hr)
    change consMerged ⟨f p.item, p.upper⟩ (merge (mapItems f ps)) = mapItems f (merge (p :: ps))
    rw [tail, merge_cons]
    cases eq : merge ps with
    | nil => rfl
    | cons q qs =>
      have hq : q ∈ p :: ps := List.mem_cons_of_mem p (mem_of_mem_merge (eq ▸ List.mem_cons_self))
      by_cases same : p.item = q.item
      · rw [consMerged_of_eq same]
        exact consMerged_of_eq (congrArg f same)
      · rw [consMerged_of_ne same]
        exact consMerged_of_ne fun h => same (inj p List.mem_cons_self q hq h)

theorem merged_mapItems {f : α → β} (h : Merged ps)
    (inj : ∀ p ∈ ps, ∀ q ∈ ps, f p.item = f q.item → p.item = q.item) :
    Merged (mapItems f ps) := by
  induction ps with
  | nil => trivial
  | cons p ps ih =>
    cases ps with
    | nil => trivial
    | cons q ps =>
      refine ⟨fun eq => h.1 (inj p (by simp) q (by simp) eq), ih h.2 fun r hr s hs => ?_⟩
      exact inj r (List.mem_cons_of_mem p hr) s (List.mem_cons_of_mem p hs)

/-! ## Stretching -/

theorem stretch_cons_cons (p q : Piece α) (ps : CutList α) :
    stretch (p :: q :: ps) = p :: stretch (q :: ps) := rfl

theorem itemAt?_stretch {a : α} (h : itemAt? d ps = some a) : itemAt? d (stretch ps) = some a := by
  induction ps with
  | nil => cases h
  | cons p ps ih =>
    cases ps with
    | nil =>
      by_cases hp : p.upper.Holds d
      · rw [itemAt?_cons_of_holds hp] at h
        rw [← h]
        exact if_pos (Bound.holds_infinity d)
      · rw [itemAt?_cons_of_not_holds hp] at h
        cases h
    | cons q ps =>
      rw [stretch_cons_cons]
      by_cases hp : p.upper.Holds d
      · rw [itemAt?_cons_of_holds hp] at h ⊢
        exact h
      · rw [itemAt?_cons_of_not_holds hp] at h ⊢
        exact ih h

/-- An interval after stretching contains the one from before. -/
theorem exists_interval_of_mem_stretch (h : Ascending lower ps)
    (hp : (lo, p) ∈ intervals lower (stretch ps)) :
    ∃ q, (lo, q) ∈ intervals lower ps ∧ q.item = p.item ∧
      ∀ d, Between lo q.upper d → Between lo p.upper d := by
  induction ps generalizing lower with
  | nil => cases hp
  | cons q ps ih =>
    cases ps with
    | nil =>
      obtain ⟨rfl, rfl⟩ := Prod.mk.inj (List.mem_singleton.1 hp)
      exact ⟨q, List.mem_cons_self, rfl, fun _ hd => hd.of_le h.2.1 le_rfl⟩
    | cons r ps =>
      rw [stretch_cons_cons] at hp
      rcases List.mem_cons.1 hp with eq | hp
      · obtain ⟨rfl, rfl⟩ := Prod.mk.inj eq
        exact ⟨p, List.mem_cons_self, rfl, fun _ hd => hd⟩
      · obtain ⟨s, hs, rest⟩ := ih h.2.2 hp
        exact ⟨s, List.mem_cons_of_mem _ hs, rest⟩

theorem mem_stretch (h : p ∈ stretch ps) :
    ∃ q ∈ ps, q.item = p.item ∧ (p.upper = q.upper ∨ p.upper = .infinity) := by
  induction ps with
  | nil => cases h
  | cons q ps ih =>
    cases ps with
    | nil =>
      obtain rfl := List.mem_singleton.1 h
      exact ⟨q, List.mem_cons_self, rfl, .inr rfl⟩
    | cons r ps =>
      rcases List.mem_cons.1 h with rfl | h
      · exact ⟨p, List.mem_cons_self, rfl, .inl rfl⟩
      · obtain ⟨s, hs, rest⟩ := ih h
        exact ⟨s, List.mem_cons_of_mem q hs, rest⟩

/-- Stretching drops no item. -/
theorem exists_mem_stretch (h : p ∈ ps) : ∃ q ∈ stretch ps, q.item = p.item := by
  induction ps with
  | nil => cases h
  | cons r ps ih =>
    cases ps with
    | nil =>
      obtain rfl := List.mem_singleton.1 h
      exact ⟨_, List.mem_cons_self, rfl⟩
    | cons s ps =>
      rcases List.mem_cons.1 h with rfl | h
      · exact ⟨p, List.mem_cons_self, rfl⟩
      · obtain ⟨q, hq, eq⟩ := ih h
        exact ⟨q, List.mem_cons_of_mem r hq, eq⟩

theorem proper_stretch (h : Ascending lower ps) (ne : ps ≠ []) : Proper (stretch ps) := by
  induction ps generalizing lower with
  | nil => exact absurd rfl ne
  | cons p ps ih =>
    cases ps with
    | nil => rfl
    | cons q ps =>
      rw [stretch_cons_cons]
      have rest := ih h.2.2 (List.cons_ne_nil q ps)
      cases ps with
      | nil => exact ⟨lt_of_lt_of_le (h.2.2.1 p.upper rfl) h.2.2.2.1, rest⟩
      | cons r ps => exact ⟨h.2.2.1 p.upper rfl, rest⟩

theorem stretch_of_proper (h : Proper ps) : stretch ps = ps := by
  induction ps with
  | nil => rfl
  | cons p ps ih =>
    cases ps with
    | nil =>
      obtain ⟨item, upper⟩ := p
      exact congrArg (fun b => [(⟨item, b⟩ : Piece α)]) (Eq.symm h)
    | cons q ps => rw [stretch_cons_cons, ih h.2]

theorem mapItems_stretch (f : α → β) (ps : CutList α) :
    mapItems f (stretch ps) = stretch (mapItems f ps) := by
  induction ps with
  | nil => rfl
  | cons p ps ih =>
    cases ps with
    | nil => rfl
    | cons q ps =>
      rw [stretch_cons_cons]
      exact congrArg _ ih

end ZoneDiagram.CutList

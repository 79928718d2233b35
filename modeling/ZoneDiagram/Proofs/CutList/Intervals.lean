import Mathlib.Data.List.Forall2
import ZoneDiagram.Proofs.Bound.Below
import ZoneDiagram.Valuation

/-!
# The intervals of a cut list

A piece lies between the bound of the piece before it, which fails on it, and its own bound, which
holds. In a proper cut list the bounds ascend, so `itemAt?` finds the item of the one piece that a
value lies in. Two cut lists with the same cuts and related items have related items at every
value.
-/

namespace ZoneDiagram

theorem Bound.Holds.of_le {a b : Bound} {d : ℚ} (ha : a.Holds d) (hab : a ≤ b)
    (hb : b ≤ .infinity) : b.Holds d :=
  mem_of_le (below_mono hb hab) ha

/-- The value breaks the lower bound, if there is one, and meets the upper bound. -/
def Between (lower : Option Bound) (upper : Bound) (d : ℚ) : Prop :=
  upper.Holds d ∧ ∀ b ∈ lower, ¬ b.Holds d

theorem Between.of_le {lower : Option Bound} {a b : Bound} {d : ℚ} (h : Between lower a d)
    (hab : a ≤ b) (hb : b ≤ .infinity) : Between lower b d :=
  ⟨h.1.of_le hab hb, h.2⟩

namespace CutList

variable {α β : Type} {p : Piece α} {ps : CutList α} {qs : CutList β} {d : ℚ}
  {lower : Option Bound}

/-- Every piece with the bound below it. -/
def intervals : Option Bound → CutList α → List (Option Bound × Piece α)
  | _, [] => []
  | lower, p :: ps => (lower, p) :: intervals (some p.upper) ps

theorem mem_of_mem_intervals {c : Option Bound × Piece α} (h : c ∈ intervals lower ps) :
    c.2 ∈ ps := by
  induction ps generalizing lower with
  | nil => cases h
  | cons p ps ih =>
    rcases List.mem_cons.1 h with rfl | h
    · exact List.mem_cons_self
    · exact List.mem_cons_of_mem p (ih h)

theorem exists_interval_of_mem (lower : Option Bound) (h : p ∈ ps) :
    ∃ lo, (lo, p) ∈ intervals lower ps := by
  induction ps generalizing lower with
  | nil => cases h
  | cons q ps ih =>
    rcases List.mem_cons.1 h with rfl | h
    · exact ⟨lower, List.mem_cons_self⟩
    · obtain ⟨lo, hlo⟩ := ih (some q.upper) h
      exact ⟨lo, List.mem_cons_of_mem _ hlo⟩

theorem map_snd_intervals (lower : Option Bound) (ps : CutList α) :
    (intervals lower ps).map Prod.snd = ps := by
  induction ps generalizing lower with
  | nil => rfl
  | cons p ps ih => rw [intervals, List.map_cons, ih]

theorem mem_intervals_mapItems (f : α → β) {lo : Option Bound} (h : (lo, p) ∈ intervals lower ps) :
    (lo, ⟨f p.item, p.upper⟩) ∈ intervals lower (mapItems f ps) := by
  induction ps generalizing lower with
  | nil => cases h
  | cons q ps ih =>
    rcases List.mem_cons.1 h with eq | h
    · cases eq
      exact List.mem_cons_self
    · exact List.mem_cons_of_mem _ (ih h)

theorem mapItems_congr {f g : α → β} (h : ∀ p ∈ ps, f p.item = g p.item) :
    mapItems f ps = mapItems g ps := List.map_congr_left fun p hp => by rw [h p hp]

theorem mapItems_eq_self {f : α → α} (h : ∀ p ∈ ps, f p.item = p.item) : mapItems f ps = ps :=
  (List.map_congr_left fun p hp => by rw [h p hp]; rfl).trans (List.map_id ps)

theorem getLast?_mapItems (f : α → β) (ps : CutList α) :
    (mapItems f ps).getLast? = ps.getLast?.map fun p => ⟨f p.item, p.upper⟩ := List.getLast?_map

theorem eq_of_mapItems_eq {f : α → β} {ps' : CutList α}
    (inj : ∀ p ∈ ps, ∀ q ∈ ps', f p.item = f q.item → p.item = q.item)
    (h : mapItems f ps = mapItems f ps') : ps = ps' := by
  induction ps generalizing ps' with
  | nil => exact (List.map_eq_nil_iff.1 h.symm).symm
  | cons p ps ih =>
    cases ps' with
    | nil => cases h
    | cons q ps' =>
      obtain ⟨head, tail⟩ := List.cons.inj h
      obtain ⟨item, upper⟩ := Piece.mk.inj head
      have rest := ih (fun r hr s hs =>
        inj r (List.mem_cons_of_mem p hr) s (List.mem_cons_of_mem q hs)) tail
      have item := inj p List.mem_cons_self q List.mem_cons_self item
      obtain ⟨a, u⟩ := p
      obtain ⟨b, w⟩ := q
      cases item
      cases upper
      exact congrArg _ rest

theorem intervals_mapItems (f : α → β) (lower : Option Bound) (ps : CutList α) :
    intervals lower (mapItems f ps) =
      (intervals lower ps).map fun c => (c.1, ⟨f c.2.item, c.2.upper⟩) := by
  induction ps generalizing lower with
  | nil => rfl
  | cons p ps ih => exact congrArg _ (ih (some p.upper))

/-! ## Ascending bounds -/

/-- The bounds increase from a lower bound on, and none is past the missing constraint. -/
def Ascending : Option Bound → CutList α → Prop
  | _, [] => True
  | lower, p :: ps =>
    (∀ b ∈ lower, b < p.upper) ∧ p.upper ≤ .infinity ∧ Ascending (some p.upper) ps

theorem Ascending.weaken {lower' : Option Bound} (h : Ascending lower ps)
    (le : ∀ b ∈ lower', ∃ c ∈ lower, b ≤ c) : Ascending lower' ps := by
  cases ps with
  | nil => trivial
  | cons p ps =>
    refine ⟨fun b hb => ?_, h.2⟩
    obtain ⟨c, hc, hbc⟩ := le b hb
    exact lt_of_le_of_lt hbc (h.1 c hc)

theorem Ascending.of_cons (h : Ascending lower (p :: ps)) : Ascending lower ps :=
  h.2.2.weaken fun b hb => ⟨p.upper, rfl, le_of_lt (h.1 b hb)⟩

theorem proper_cons (h : Proper ps) (hp : Ascending (some p.upper) ps) : Proper (p :: ps) := by
  cases ps with
  | nil => cases h
  | cons q ps => exact ⟨hp.1 _ rfl, h⟩

theorem Proper.ne_nil (h : Proper ps) : ps ≠ [] := by
  rintro rfl
  exact h

theorem Proper.ascending (h : Proper ps) : Ascending none ps := by
  induction ps with
  | nil => trivial
  | cons p ps ih =>
    cases ps with
    | nil => exact ⟨nofun, le_of_eq h, trivial⟩
    | cons q ps =>
      have rest := ih h.2
      refine ⟨nofun, (le_of_lt h.1).trans rest.2.1, ?_, rest.2⟩
      rintro b ⟨⟩
      exact h.1

theorem Proper.ascending_tail (h : Proper (p :: ps)) : Ascending (some p.upper) ps :=
  h.ascending.2.2

/-- A piece before the last one ends where some constraint is. -/
theorem Proper.upper_eq_infinity_iff (h : Proper (p :: ps)) : p.upper = .infinity ↔ ps = [] := by
  cases ps with
  | nil => exact iff_of_true h rfl
  | cons q ps =>
    refine iff_of_false (fun eq => ?_) (by simp)
    exact absurd (eq ▸ h.1) (not_lt.2 h.ascending_tail.2.1)

theorem Proper.tail (h : Proper (p :: ps)) (more : p.upper ≠ .infinity) : Proper ps := by
  cases ps with
  | nil => exact absurd h more
  | cons q ps => exact h.2

theorem Proper.exists_itemAt? (h : Proper ps) (d : ℚ) : ∃ a, itemAt? d ps = some a := by
  induction ps with
  | nil => cases h
  | cons p ps ih =>
    by_cases hp : p.upper.Holds d
    · exact ⟨p.item, if_pos hp⟩
    · cases ps with
      | nil => exact absurd (h ▸ Bound.holds_infinity d) hp
      | cons q ps =>
        obtain ⟨a, ha⟩ := ih h.2
        exact ⟨a, (if_neg hp).trans ha⟩

/-! ## The item at a value -/

theorem itemAt?_cons_of_holds (h : p.upper.Holds d) : itemAt? d (p :: ps) = some p.item := if_pos h

theorem itemAt?_cons_of_not_holds (h : ¬ p.upper.Holds d) : itemAt? d (p :: ps) = itemAt? d ps :=
  if_neg h

/-- A value is in the interval of the item that is found at it. -/
theorem exists_interval_of_itemAt? {a : α} (lower : Option Bound) (h : itemAt? d ps = some a)
    (hl : ∀ b ∈ lower, ¬ b.Holds d) :
    ∃ lo p, (lo, p) ∈ intervals lower ps ∧ p.item = a ∧ Between lo p.upper d := by
  induction ps generalizing lower with
  | nil => cases h
  | cons p ps ih =>
    by_cases hp : p.upper.Holds d
    · rw [itemAt?_cons_of_holds hp] at h
      exact ⟨lower, p, List.mem_cons_self, Option.some.inj h, hp, hl⟩
    · rw [itemAt?_cons_of_not_holds hp] at h
      obtain ⟨lo, q, hq, item, between⟩ := ih (some p.upper) h fun b hb => by
        cases hb
        exact hp
      exact ⟨lo, q, List.mem_cons_of_mem _ hq, item, between⟩

/-- A value in an interval breaks the bounds before it. -/
theorem not_holds_of_between {b : Bound} {lo : Option Bound} (hd : Between lo p.upper d)
    (h : Ascending (some b) ps) (hp : (lo, p) ∈ intervals (some b) ps) : ¬ b.Holds d := by
  intro hb
  induction ps generalizing b with
  | nil => cases hp
  | cons q ps ih =>
    rcases List.mem_cons.1 hp with eq | hp
    · obtain ⟨rfl, rfl⟩ := Prod.mk.inj eq
      exact hd.2 b rfl hb
    · exact ih h.2.2 hp (hb.of_le (le_of_lt (h.1 b rfl)) h.2.1)

/-- No interval begins at the end of the line. -/
theorem Ascending.isInfinity_eq_false (h : Ascending lower ps) {lo : Option Bound}
    (hp : (lo, p) ∈ intervals lower ps) : ∀ b ∈ lo, b.isInfinity = false := by
  induction ps generalizing lower with
  | nil => cases hp
  | cons q ps ih =>
    rcases List.mem_cons.1 hp with eq | hp
    · obtain ⟨rfl, rfl⟩ := Prod.mk.inj eq
      intro b hb
      exact Bound.isInfinity_eq_false_iff.2 (ne_of_lt ((h.1 b hb).trans_le h.2.1))
    · exact ih h.2.2 hp

/-- The item that is found at a value is the one on its interval. -/
theorem itemAt?_of_between (h : Ascending lower ps) {lo : Option Bound}
    (hp : (lo, p) ∈ intervals lower ps) (hd : Between lo p.upper d) :
    itemAt? d ps = some p.item := by
  induction ps generalizing lower with
  | nil => cases hp
  | cons q ps ih =>
    rcases List.mem_cons.1 hp with eq | hp
    · obtain ⟨rfl, rfl⟩ := Prod.mk.inj eq
      exact itemAt?_cons_of_holds hd.1
    · rw [itemAt?_cons_of_not_holds (not_holds_of_between hd h.2.2 hp)]
      exact ih h.2.2 hp

/-- Only one interval contains a value. -/
theorem eq_of_between (h : Ascending lower ps) {c c' : Option Bound × Piece α}
    (hc : c ∈ intervals lower ps) (hc' : c' ∈ intervals lower ps) (hd : Between c.1 c.2.upper d)
    (hd' : Between c'.1 c'.2.upper d) : c = c' := by
  induction ps generalizing lower with
  | nil => cases hc
  | cons q ps ih =>
    rcases List.mem_cons.1 hc with eq | hc <;> rcases List.mem_cons.1 hc' with eq' | hc'
    · exact eq.trans eq'.symm
    · subst eq
      exact absurd hd.1 (not_holds_of_between hd' h.2.2 hc')
    · subst eq'
      exact absurd hd'.1 (not_holds_of_between hd h.2.2 hc)
    · exact ih h.2.2 hc hc'

/-- The intervals of a proper list divide the line. -/
theorem Proper.existsUnique_interval (h : Proper ps) (d : ℚ) :
    ∃! c, c ∈ intervals none ps ∧ Between c.1 c.2.upper d := by
  obtain ⟨a, ha⟩ := h.exists_itemAt? d
  obtain ⟨lo, p, hp, -, between⟩ := exists_interval_of_itemAt? none ha nofun
  refine ⟨(lo, p), ⟨hp, between⟩, ?_⟩
  intro c hc
  exact eq_of_between h.ascending hc.1 hp hc.2 between

/-! ## The same cuts with other items -/

/-- The pieces have the same bound and related items. -/
def SameCut (R : α → β → Prop) (p : Piece α) (q : Piece β) : Prop :=
  p.upper = q.upper ∧ R p.item q.item

/-- The lists have the same cuts and related items. -/
abbrev SameCuts (R : α → β → Prop) : CutList α → CutList β → Prop := List.Forall₂ (SameCut R)

variable {R : α → β → Prop}

theorem sameCuts_mapItems (f : α → β) (ps : CutList α) :
    SameCuts (fun a b => b = f a) ps (mapItems f ps) := by
  induction ps with
  | nil => exact .nil
  | cons p ps ih => exact .cons ⟨rfl, rfl⟩ ih

theorem exists_sameCuts (h : ∀ p ∈ ps, ∃ b, R p.item b) : ∃ qs, SameCuts R ps qs := by
  induction ps with
  | nil => exact ⟨[], .nil⟩
  | cons p ps ih =>
    obtain ⟨b, hb⟩ := h p List.mem_cons_self
    obtain ⟨qs, hqs⟩ := ih fun q hq => h q (List.mem_cons_of_mem p hq)
    exact ⟨⟨b, p.upper⟩ :: qs, .cons ⟨rfl, hb⟩ hqs⟩

theorem SameCuts.imp_of_mem {R' : α → β → Prop} (h : SameCuts R ps qs)
    (himp : ∀ p ∈ ps, ∀ b, R p.item b → R' p.item b) : SameCuts R' ps qs := by
  induction h with
  | nil => exact .nil
  | @cons p q ps qs head _ ih =>
    exact .cons ⟨head.1, himp p List.mem_cons_self _ head.2⟩
      (ih fun r hr => himp r (List.mem_cons_of_mem p hr))

theorem SameCuts.exists_mem (h : SameCuts R ps qs) {q : Piece β} (hq : q ∈ qs) :
    ∃ p ∈ ps, SameCut R p q := by
  induction h with
  | nil => cases hq
  | @cons p r ps qs head _ ih =>
    rcases List.mem_cons.1 hq with rfl | hq
    · exact ⟨p, List.mem_cons_self, head⟩
    · obtain ⟨p', hp, same⟩ := ih hq
      exact ⟨p', List.mem_cons_of_mem p hp, same⟩

theorem SameCuts.ascending (h : SameCuts R ps qs) (hps : Ascending lower ps) :
    Ascending lower qs := by
  induction h generalizing lower with
  | nil => trivial
  | cons head _ ih =>
    obtain ⟨lt, le, rest⟩ := hps
    rw [head.1] at lt le rest
    exact ⟨lt, le, ih rest⟩

theorem SameCuts.proper (h : SameCuts R ps qs) (hps : Proper ps) : Proper qs := by
  induction h with
  | nil => exact hps
  | cons head tail ih =>
    cases tail with
    | nil => exact head.1.symm.trans hps
    | cons next rest => exact ⟨by rw [← head.1, ← next.1]; exact hps.1, ih hps.2⟩

theorem SameCuts.itemAt? (h : SameCuts R ps qs) {a : α} (ha : itemAt? d ps = some a) :
    ∃ b, CutList.itemAt? d qs = some b ∧ R a b := by
  induction h with
  | nil => cases ha
  | @cons p q ps qs head _ ih =>
    by_cases hp : p.upper.Holds d
    · rw [itemAt?_cons_of_holds hp] at ha
      cases ha
      exact ⟨q.item, itemAt?_cons_of_holds (head.1 ▸ hp), head.2⟩
    · rw [itemAt?_cons_of_not_holds hp] at ha
      rw [itemAt?_cons_of_not_holds (head.1 ▸ hp)]
      exact ih ha

/-- Every interval of the second list is one of the first. -/
theorem SameCuts.exists_interval (h : SameCuts R ps qs) {lo : Option Bound} {q : Piece β}
    (hq : (lo, q) ∈ intervals lower qs) :
    ∃ p, (lo, p) ∈ intervals lower ps ∧ SameCut R p q := by
  induction h generalizing lower with
  | nil => cases hq
  | @cons p r ps qs head _ ih =>
    rcases List.mem_cons.1 hq with eq | hq
    · obtain ⟨rfl, rfl⟩ := Prod.mk.inj eq
      exact ⟨p, List.mem_cons_self, head⟩
    · rw [← head.1] at hq
      obtain ⟨p, hp, same⟩ := ih hq
      exact ⟨p, List.mem_cons_of_mem _ hp, same⟩

theorem SameCuts.comp {γ : Type} {S : β → γ → Prop} {rs : CutList γ} (h : SameCuts R ps qs)
    (h' : SameCuts S qs rs) : SameCuts (fun a c => ∃ b, R a b ∧ S b c) ps rs := by
  induction h generalizing rs with
  | nil =>
    cases h'
    exact .nil
  | cons head _ ih =>
    cases h' with
    | cons head' tail => exact .cons ⟨head.1.trans head'.1, _, head.2, head'.2⟩ (ih tail)

theorem SameCuts.mapItems_eq {f : β → α} (h : SameCuts (fun a b => f b = a) ps qs) :
    CutList.mapItems f qs = ps := by
  induction h with
  | nil => rfl
  | @cons p q ps qs head _ ih =>
    obtain ⟨item, upper⟩ := p
    obtain ⟨rfl, rfl⟩ := head
    exact congrArg _ ih

theorem sameCuts_of_mapItems_eq {γ : Type} {f : α → γ} {g : β → γ}
    (h : mapItems f ps = mapItems g qs) : SameCuts (fun a b => f a = g b) ps qs := by
  induction ps generalizing qs with
  | nil =>
    obtain rfl : qs = [] := List.map_eq_nil_iff.1 h.symm
    exact .nil
  | cons p ps ih =>
    cases qs with
    | nil => cases h
    | cons q qs =>
      obtain ⟨head, tail⟩ := List.cons.inj h
      obtain ⟨item, upper⟩ := Piece.mk.inj head
      exact .cons ⟨upper, item⟩ (ih tail)

/-- Where an item is related to one only, the cuts determine the list. -/
theorem SameCuts.unique {qs' : CutList β} (h : SameCuts R ps qs) (h' : SameCuts R ps qs')
    (hR : ∀ p ∈ ps, ∀ b b', R p.item b → R p.item b' → b = b') : qs = qs' := by
  induction h generalizing qs' with
  | nil =>
    cases h'
    rfl
  | @cons p q ps qs head _ ih =>
    cases h' with
    | @cons _ q' _ qs' head' tail' =>
      have item := hR p List.mem_cons_self q.item q'.item head.2 head'.2
      have upper := head.1.symm.trans head'.1
      rw [ih tail' fun r hr => hR r (List.mem_cons_of_mem p hr)]
      cases q
      cases q'
      cases item
      cases upper
      rfl

theorem SameCuts.swap (h : SameCuts R ps qs) : SameCuts (fun b a => R a b) qs ps := by
  induction h with
  | nil => exact .nil
  | cons head _ ih => exact .cons ⟨head.1.symm, head.2⟩ ih

end CutList

end ZoneDiagram

import ZoneDiagram.Manager.Build
import ZoneDiagram.Proofs.Dbm.Closed
import ZoneDiagram.Proofs.Diagram.Reduce

/-!
# The tree of a zone

The diagram of a zone is a path with a decision at every cut (`Diagram.pathThrough`). The cuts of a
tight matrix are entries of it that constrain something, and the two of a pair leave room between
them. So every decision on the path is a proper one.
-/

namespace ZoneDiagram

open CutList

variable {K : Int} {d implied : Dbm}

namespace Manager

variable {c : Cut} {pairs : List (Nat × Nat)} {i j : Nat} {b b' : Bound}

/-! ## Cuts -/

/-- The bounds of the cut constrain something, and leave room between them. -/
structure Cut.Consistent (c : Cut) : Prop where
  lower_lt : ∀ b ∈ c.lower, b.complement < .infinity
  upper_lt : ∀ b ∈ c.upper, b < .infinity
  lt : ∀ a ∈ c.lower, ∀ b ∈ c.upper, a.complement < b

/-- The constants of the cut have at most the magnitude `K`. -/
structure Cut.Small (K : Int) (c : Cut) : Prop where
  lower : ∀ b ∈ c.lower, b.complement.Within K
  upper : ∀ b ∈ c.upper, b.Within K

theorem eq_of_needed? {b b' implied : Bound} (h : needed? b implied = some b') :
    b' = b ∧ b' ≠ .infinity := by
  unfold needed? at h
  split at h
  next => cases h
  next constrains =>
    cases h
    exact ⟨rfl, fun top => constrains (by rw [Bound.isInfinity_iff.2 top, Bool.true_or])⟩

/-- A cut takes its bounds from the two entries of a pair. -/
theorem exists_pair_of_mem_cutsAt (h : c ∈ cutsAt d implied pairs) : ∃ p ∈ pairs,
    c.level = ClockPair.triangle p.1 + p.2 ∧ (∀ b ∈ c.lower, b = d.entry p.2 p.1 ∧ b ≠ .infinity) ∧
      ∀ b ∈ c.upper, b = d.entry p.1 p.2 ∧ b ≠ .infinity := by
  induction pairs generalizing implied with
  | nil => cases h
  | cons p pairs ih =>
    obtain ⟨i, j⟩ := p
    unfold cutsAt at h
    dsimp only at h
    split at h
    next =>
      obtain ⟨p, hp, bounds⟩ := ih h
      exact ⟨p, List.mem_cons_of_mem _ hp, bounds⟩
    next =>
      rcases List.mem_cons.1 h with rfl | h
      · exact ⟨(i, j), List.mem_cons_self, rfl, fun _ hb => eq_of_needed? hb,
          fun _ hb => eq_of_needed? hb⟩
      · obtain ⟨p, hp, bounds⟩ := ih h
        exact ⟨p, List.mem_cons_of_mem _ hp, bounds⟩

theorem mem_pairsBelow {n : Nat} {p : Nat × Nat} : p ∈ pairsBelow n ↔ p.2 < p.1 ∧ p.1 < n := by
  simp only [pairsBelow, List.mem_flatMap, List.mem_map, List.mem_range]
  constructor
  · rintro ⟨i, hi, j, hj, rfl⟩
    exact ⟨hj, hi⟩
  · rintro ⟨hj, hi⟩
    exact ⟨p.1, hi, p.2, hj, rfl⟩

/-- The constants of the cuts are those of the entries. -/
theorem small_of_mem_cuts (within : ∀ i < d.dim, ∀ j < d.dim, (d.entry i j).Within K)
    (hc : c ∈ cuts d) : c.Small K := by
  obtain ⟨⟨i, j⟩, hp, -, lower, upper⟩ := exists_pair_of_mem_cutsAt hc
  obtain ⟨lt, hi⟩ := mem_pairsBelow.1 hp
  have hj : j < d.dim := lt.trans hi
  constructor
  · intro b hb
    obtain ⟨rfl, finite⟩ := lower b hb
    exact Bound.within_complement (within j hj i hi) finite
  · intro b hb
    obtain ⟨rfl, -⟩ := upper b hb
    exact within i hi j hj

/-- A cut between finite bounds that leave room between them is consistent. -/
theorem Cut.consistent_of_within (fits : K ≤ Bound.maxValue)
    (lower : ∀ a ∈ c.lower, a.Within K ∧ a ≠ .infinity)
    (upper : ∀ b ∈ c.upper, b.Within K ∧ b ≠ .infinity)
    (sat : ∀ a ∈ c.lower, ∀ b ∈ c.upper, .zero ≤ a + b) : c.Consistent ∧ c.Small K := by
  have small : c.Small K :=
    ⟨fun a ha => Bound.within_complement (lower a ha).1 (lower a ha).2, fun b hb => (upper b hb).1⟩
  refine ⟨⟨fun a ha => ?_, fun b hb => ?_, fun a ha b hb => ?_⟩, small⟩
  · exact lt_of_le_of_ne ((small.lower a ha).le_infinity fits)
      (Bound.complement_ne_infinity (lower a ha).1 fits (lower a ha).2)
  · exact lt_of_le_of_ne ((small.upper b hb).le_infinity fits) (upper b hb).2
  · exact Bound.complement_lt (sat a ha b hb) (lower a ha).2 (upper b hb).2

/-- **The cuts of a tight matrix are consistent.** -/
theorem consistent_of_tight (h : d.Tight) (hc : c ∈ cuts d) : c.Consistent := by
  obtain ⟨⟨i, j⟩, hp, -, lower, upper⟩ := exists_pair_of_mem_cutsAt hc
  obtain ⟨lt, hi⟩ := mem_pairsBelow.1 hp
  have hj : j < d.dim := lt.trans hi
  refine (Cut.consistent_of_within le_rfl (fun a ha => ?_) (fun b hb => ?_)
    fun a ha b hb => ?_).1
  · obtain ⟨rfl, finite⟩ := lower a ha
    exact ⟨h.within j hj i hi, finite⟩
  · obtain ⟨rfl, finite⟩ := upper b hb
    exact ⟨h.within i hi j hj, finite⟩
  · obtain ⟨rfl, finite⟩ := lower a ha
    obtain ⟨rfl, -⟩ := upper b hb
    exact h.zero_le_add hj hi finite

/-- The cuts of a settled matrix are consistent, with the constants of its entries. -/
theorem consistent_of_mem_cuts (h : d.Settled K) (room : Dbm.Room d.dim K) (hc : c ∈ cuts d) :
    c.Consistent ∧ c.Small (d.dim * K - K) :=
  ⟨consistent_of_tight (h.tight room) hc,
    small_of_mem_cuts (fun _ hi _ hj => h.within room.nonneg hi hj) hc⟩

/-! ## The cut of a pair -/

theorem needed?_infinity (b : Bound) : needed? b .infinity = finite? b := by
  unfold needed? finite?
  cases top : b.isInfinity with
  | true => rfl
  | false =>
    have ne : (Bound.infinity == b) = false :=
      beq_eq_false_iff_ne.2 (Bound.isInfinity_eq_false_iff.1 top).symm
    rw [ne, Bool.or_false]

theorem finite?_eq_none_iff : finite? b = none ↔ b = .infinity := by
  rw [finite?, ← Bound.isInfinity_iff]
  split <;> simp [*]

theorem eq_of_mem_finite? {a : Bound} (h : a ∈ finite? b) : a = b ∧ a ≠ .infinity := by
  rw [← needed?_infinity] at h
  exact eq_of_needed? h

/-- The cut at a pair of clocks, between two bounds on their difference and its opposite. -/
def pairCut (i j : Nat) (b b' : Bound) : Cut :=
  ⟨ClockPair.triangle i + j, finite? b', finite? b⟩

theorem consistent_pairCut (hb : b.Within Bound.maxValue) (hb' : b'.Within Bound.maxValue)
    (sat : .zero ≤ b + b') :
    (pairCut i j b b').Consistent ∧ (pairCut i j b b').Small Bound.maxValue := by
  refine Cut.consistent_of_within le_rfl (fun a ha => ?_) (fun a ha => ?_) fun a ha c hc => ?_
  · obtain ⟨rfl, finite⟩ := eq_of_mem_finite? ha
    exact ⟨hb', finite⟩
  · obtain ⟨rfl, finite⟩ := eq_of_mem_finite? ha
    exact ⟨hb, finite⟩
  · obtain ⟨rfl, -⟩ := eq_of_mem_finite? ha
    obtain ⟨rfl, -⟩ := eq_of_mem_finite? hc
    rwa [Bound.bound_add_comm]

end Manager

namespace Diagram

open Manager

variable {inside : Diagram} {lower upper : Option Bound} {c : Cut} {cs : List Cut}

/-! ## Paths -/

/-- The edges that lead to `inside` between two bounds, and to the empty federation elsewhere. -/
def band (inside : Diagram) (lower upper : Option Bound) : CutList Diagram :=
  let below := match lower with
    | none => []
    | some lower => [⟨leaf false, lower.complement⟩]
  let rest := match upper with
    | none => [⟨inside, .infinity⟩]
    | some upper => [⟨inside, upper⟩, ⟨leaf false, .infinity⟩]
  below ++ rest

/-- The path through some cuts, to the full federation. -/
def pathThrough : List Cut → Diagram
  | [] => leaf true
  | c :: cs => make c.level (band (pathThrough cs) c.lower c.upper)

/-- Every decision on the path has cuts that increase up to the end of the line. -/
def Passable : List Cut → Prop
  | [] => True
  | c :: cs => Passable cs ∧ Proper (merge (band (pathThrough cs) c.lower c.upper))

theorem proper_band (h : c.Consistent) : Proper (band inside c.lower c.upper) := by
  obtain ⟨level, lower, upper⟩ := c
  cases lower with
  | none =>
    cases upper with
    | none => exact rfl
    | some b => exact ⟨h.upper_lt b rfl, rfl⟩
  | some a =>
    cases upper with
    | none => exact ⟨h.lower_lt a rfl, rfl⟩
    | some b => exact ⟨h.lt a rfl b rfl, h.upper_lt b rfl, rfl⟩

theorem passable_of_consistent (h : ∀ c ∈ cs, c.Consistent) : Passable cs := by
  induction cs with
  | nil => trivial
  | cons c cs ih =>
    exact ⟨ih fun c hc => h c (List.mem_cons_of_mem _ hc),
      proper_merge (proper_band (h c List.mem_cons_self))⟩

theorem inside_mem_band (inside : Diagram) (lower upper : Option Bound) :
    ⟨inside, upper.getD .infinity⟩ ∈ band inside lower upper := by
  cases lower <;> cases upper <;> simp [band]

theorem mem_band {p : Piece Diagram} (h : p ∈ band inside lower upper) :
    (p.item = inside ∨ p.item = leaf false) ∧
      (p.upper = .infinity ∨ (∃ b ∈ lower, p.upper = b.complement) ∨ p.upper ∈ upper) := by
  unfold band at h
  cases lower <;> cases upper <;> simp at h <;> grind

/-- A path through cuts on ascending levels lies below every level above them. -/
theorem lt_level_pathThrough {l : Nat} (ascending : (cs.map Cut.level).Pairwise (· < ·))
    (lt : ∀ c ∈ cs, c.level < ClockPair.terminalLevel) (hl : l < ClockPair.terminalLevel)
    (above : ∀ c ∈ cs, l < c.level) : l < (pathThrough cs).level := by
  induction cs generalizing l with
  | nil => exact hl
  | cons c cs ih =>
    rw [List.map_cons, List.pairwise_cons] at ascending
    have inside := lt c List.mem_cons_self
    have rest : c.level < (pathThrough cs).level :=
      ih ascending.2 (fun c hc => lt c (List.mem_cons_of_mem _ hc)) inside
        fun c' hc' => ascending.1 _ (List.mem_map_of_mem hc')
    refine (above c List.mem_cons_self).trans_le (le_level_make fun p hp => ?_)
    rcases (mem_band hp).1 with eq | eq <;> rw [eq]
    exacts [rest.le, inside.le]

theorem small_pathThrough (h : ∀ c ∈ cs, c.Small K) : Small K (pathThrough cs) := by
  induction cs with
  | nil => exact .leaf true
  | cons c cs ih =>
    have rest := ih fun c hc => h c (List.mem_cons_of_mem _ hc)
    have own := h c List.mem_cons_self
    refine .make (fun _ p hp => ?_) fun p hp => ?_
    · rcases (mem_band (mem_of_mem_merge hp)).2 with eq | ⟨b, hb, eq⟩ | hb
      · exact eq ▸ Bound.within_infinity K
      · exact eq ▸ own.lower b hb
      · exact own.upper _ hb
    · rcases (mem_band hp).1 with eq | eq <;> rw [eq]
      exacts [rest, .leaf false]

end Diagram

end ZoneDiagram

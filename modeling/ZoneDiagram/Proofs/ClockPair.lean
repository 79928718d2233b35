import Mathlib.Tactic.Ring
import ZoneDiagram.ClockPair.Level
import ZoneDiagram.Manager.Basic

/-!
# Levels have pairs

Every level below the number of pairs is the level of one pair, and the search finds it from any
starting guess whose triangle can be computed: stepping down ends at a triangle within the level,
and stepping up ends at the last one. The two loops are relations (`Descends`, `Climbs`) that hold
only of runs that end, and the functions follow them (`descend_eq_ok`, `climb_eq_ok`).
-/

namespace ZoneDiagram.ClockPair

variable {level i j clocks guess : Nat} {pair : ClockPair}

/-! ## Triangles -/

theorem triangle_succ (i : Nat) : triangle (i + 1) = triangle i + i := by
  cases i with
  | zero => rfl
  | succ i =>
    have : (i + 1 + 1) * (i + 1 + 1 - 1) = (i + 1) * (i + 1 - 1) + (i + 1) * 2 := by
      simp only [Nat.add_sub_cancel]
      ring
    rw [triangle, triangle, this, Nat.add_mul_div_right _ _ (by omega)]

theorem triangle_le_triangle (h : i ≤ j) : triangle i ≤ triangle j := by
  induction h with
  | refl => exact Nat.le_refl _
  | step _ ih => exact ih.trans (triangle_succ _ ▸ Nat.le_add_right _ _)

theorem lt_of_triangle_lt (h : triangle i < triangle j) : i < j :=
  Nat.lt_of_not_le fun le => Nat.not_lt.2 (triangle_le_triangle le) h

theorem le_triangle_succ (i : Nat) : i ≤ triangle (i + 1) := by
  rw [triangle_succ]
  omega

theorem level_lt_count (h : pair.i < clocks) : pair.level < count clocks := by
  have next := triangle_le_triangle h
  have := pair.lt
  rw [triangle_succ] at next
  unfold level count
  omega

/-- The product of a clock and the one before it can be computed in 32 bits. -/
structure ProductFits (i : Nat) : Prop where
  pos : 0 < i
  lt : i * (i - 1) < 4294967296

theorem ProductFits.mono (h : ProductFits j) (pos : 0 < i) (le : i ≤ j) : ProductFits i where
  pos := pos
  lt := Nat.lt_of_le_of_lt (Nat.mul_le_mul le (Nat.sub_le_sub_right le 1)) h.lt

/-- The products that are needed for some number of clocks fit. -/
theorem productFits_of_le_maxClocks (pos : 0 < clocks) (hc : clocks ≤ Manager.maxClocks) :
    ProductFits clocks :=
  ProductFits.mono (j := Manager.maxClocks) ⟨by decide, by decide⟩ pos hc

theorem triangle?_eq_ok (h : ProductFits i) : triangle? level i = .ok (triangle i) :=
  if_pos h.lt

/-! ## The order of the levels -/

/-- Pairs with an earlier first clock have earlier levels. -/
theorem level_lt_level_of_lt {p q : ClockPair} (h : p.i < q.i) : p.level < q.level :=
  Nat.lt_of_lt_of_le (level_lt_count h) (Nat.le_add_right _ _)

/-- A pair is given by its level. -/
theorem level_injective {p q : ClockPair} (h : p.level = q.level) : p = q := by
  rcases Nat.lt_trichotomy p.i q.i with less | same | more
  · exact absurd h (Nat.ne_of_lt (level_lt_level_of_lt less))
  · obtain ⟨i, j, lt⟩ := p
    obtain ⟨k, l, lt'⟩ := q
    obtain rfl : i = k := same
    obtain rfl : j = l := Nat.add_left_cancel h
    rfl
  · exact absurd h (Nat.ne_of_gt (level_lt_level_of_lt more))

/-! ## The search

Each loop is a relation between the clock where it starts and the clock where it ends. Where the
relation holds, the loop ends after finitely many steps, and every product on the way can be
computed. -/

/-- From one clock, stepping down while its triangle exceeds the level ends at another. -/
inductive Descends (level : Nat) : Nat → Nat → Prop
  | stop {i : Nat} (fits : ProductFits i) (within : triangle i ≤ level) : Descends level i i
  | step {i j : Nat} (fits : ProductFits (i + 1)) (past : level < triangle (i + 1))
      (rest : Descends level i j) : Descends level (i + 1) j

/-- From one clock, stepping up while the next triangle is within the level ends at another. -/
inductive Climbs (level : Nat) : Nat → Nat → Prop
  | stop {i : Nat} (fits : ProductFits (i + 1)) (past : level < triangle (i + 1)) : Climbs level i i
  | step {i j : Nat} (fits : ProductFits (i + 1)) (within : triangle (i + 1) ≤ level)
      (rest : Climbs level (i + 1) j) : Climbs level i j

theorem exists_descends (level : Nat) (h : ProductFits i) : ∃ j, Descends level i j := by
  induction i with
  | zero => exact absurd h.pos (Nat.lt_irrefl 0)
  | succ i ih =>
    by_cases past : level < triangle (i + 1)
    · have first : triangle 1 < triangle (i + 1) := Nat.lt_of_le_of_lt (Nat.zero_le level) past
      have pos : 0 < i := Nat.lt_of_succ_lt_succ (lt_of_triangle_lt first)
      obtain ⟨j, rest⟩ := ih (h.mono pos (Nat.le_succ i))
      exact ⟨j, .step h past rest⟩
    · exact ⟨i + 1, .stop h (Nat.le_of_not_lt past)⟩

theorem Descends.within (h : Descends level i j) : triangle j ≤ level := by
  induction h with
  | stop _ within => exact within
  | step _ _ _ ih => exact ih

theorem Descends.descend_eq_ok (h : Descends level i j) : descend level i = .ok j := by
  induction h with
  | @stop i fits within =>
    cases i with
    | zero => rfl
    | succ i =>
      rw [descend, triangle?_eq_ok fits]
      exact if_neg (Nat.not_lt.2 within)
  | step fits past _ ih =>
    rw [descend, triangle?_eq_ok fits]
    exact (if_pos past).trans ih

/-- On a level that has a pair of existing clocks the loop ends, since it stays among these. -/
theorem exists_climbs (hc : clocks ≤ Manager.maxClocks) (hl : level < count clocks)
    (hi : triangle i ≤ level) : ∃ j, Climbs level i j := by
  -- each step goes to a clock that exists, so the distance to their number shrinks
  induction left : clocks - i generalizing i with
  | zero =>
    have below : i < clocks := lt_of_triangle_lt (Nat.lt_of_le_of_lt hi hl)
    omega
  | succ left ih =>
    have fits : ProductFits (i + 1) :=
      productFits_of_le_maxClocks (Nat.succ_pos i) (by omega)
    by_cases within : triangle (i + 1) ≤ level
    · obtain ⟨j, rest⟩ := ih within (by omega)
      exact ⟨j, .step fits within rest⟩
    · exact ⟨i, .stop fits (Nat.lt_of_not_le within)⟩

theorem Climbs.within (h : Climbs level i j) (hi : triangle i ≤ level) : triangle j ≤ level := by
  induction h with
  | stop => exact hi
  | step _ within _ ih => exact ih within

theorem Climbs.past (h : Climbs level i j) : level < triangle (j + 1) := by
  induction h with
  | stop _ past => exact past
  | step _ _ _ ih => exact ih

/-- As many steps as there are levels are enough, since no level is below its first clock. -/
theorem Climbs.climb_eq_ok {steps : Nat} (h : Climbs level i j) (enough : level < i + steps) :
    climb level steps i = .ok j := by
  induction h generalizing steps with
  | stop fits past =>
    cases steps with
    | zero => rfl
    | succ steps =>
      rw [climb, triangle?_eq_ok fits]
      exact if_neg (Nat.not_le.2 past)
  | @step i j fits within _ ih =>
    cases steps with
    | zero =>
      -- without steps left the clock is past the level, and so is its triangle
      have := le_triangle_succ i
      omega
    | succ steps =>
      rw [climb, triangle?_eq_ok fits]
      exact (if_pos within).trans (ih (by omega))

/-- The search from a guess ends at a pair: both loops end, and the second clock is what remains of
the level. -/
structure FoundFrom (pair : ClockPair) (guess level : Nat) : Prop where
  loops : ∃ i, Descends level guess i ∧ Climbs level i pair.i
  fits : ProductFits pair.i
  remains : pair.j = level - triangle pair.i

theorem FoundFrom.ofLevelFrom_eq_ok (h : pair.FoundFrom guess level) :
    ofLevelFrom guess level = .ok pair := by
  obtain ⟨i, down, up⟩ := h.loops
  rw [ofLevelFrom, down.descend_eq_ok]
  change (climb level (level + 1) i >>= fun i => of? i (level - triangle i)) = _
  rw [up.climb_eq_ok (by omega)]
  obtain ⟨i, j, lt⟩ := pair
  obtain rfl : j = level - triangle i := h.remains
  exact dif_pos lt

/-- **From any guess the search ends at the pair of the level.** -/
theorem exists_foundFrom (hc : clocks ≤ Manager.maxClocks) (hl : level < count clocks)
    (hg : ProductFits guess) :
    ∃ pair : ClockPair, pair.FoundFrom guess level ∧ pair.i < clocks ∧ pair.level = level := by
  obtain ⟨i, down⟩ := exists_descends level hg
  obtain ⟨j, up⟩ := exists_climbs hc hl down.within
  have within := up.within down.within
  have past := up.past
  rw [triangle_succ] at past
  have below : j < clocks := lt_of_triangle_lt (Nat.lt_of_le_of_lt within hl)
  have lt : level - triangle j < j := by omega
  have fits : ProductFits j := productFits_of_le_maxClocks (by omega) (by omega)
  exact ⟨⟨j, level - triangle j, lt⟩, ⟨⟨i, down, up⟩, fits, rfl⟩, below,
    Nat.add_sub_cancel' within⟩

theorem squareRoot_mul_self_le (n bits root : Nat) (h : root * root ≤ n) :
    squareRoot n bits root * squareRoot n bits root ≤ n := by
  induction bits generalizing root with
  | zero => exact h
  | succ bits ih =>
    rw [squareRoot]
    apply ih
    split
    next le => exact le
    next => exact h

theorem count_lt_terminalLevel (hc : clocks ≤ Manager.maxClocks) :
    count clocks < terminalLevel :=
  Nat.lt_of_le_of_lt (triangle_le_triangle hc) (by decide)

/-- The search can start from the square root. -/
theorem productFits_squareRoot (hc : clocks ≤ Manager.maxClocks) (hl : level < count clocks) :
    ProductFits (max 1 (squareRoot (2 * level) 17 0)) := by
  rcases Nat.le_total 1 (squareRoot (2 * level) 17 0) with le | le
  · rw [Nat.max_eq_right le]
    refine ⟨le, ?_⟩
    have most : count clocks ≤ 2147385345 := triangle_le_triangle hc
    calc _ ≤ squareRoot (2 * level) 17 0 * squareRoot (2 * level) 17 0 :=
          Nat.mul_le_mul_left _ (Nat.sub_le _ 1)
      _ ≤ 2 * level := squareRoot_mul_self_le (2 * level) 17 0 (Nat.zero_le _)
      _ < 4294967296 := by omega
  · rw [Nat.max_eq_left le]
    exact ⟨by decide, by decide⟩

/-- **Every level below the number of pairs is the level of a pair of clocks that exist.** -/
theorem ofLevel_eq_ok (hc : clocks ≤ Manager.maxClocks) (hl : level < count clocks) :
    ∃ pair, ofLevel level = .ok pair ∧ pair.i < clocks ∧ pair.level = level := by
  have past := count_lt_terminalLevel hc
  obtain ⟨pair, found, rest⟩ := exists_foundFrom hc hl (productFits_squareRoot hc hl)
  rw [ofLevel, if_neg (by omega)]
  exact ⟨pair, found.ofLevelFrom_eq_ok, rest⟩

/-- The level of a pair of clocks that exist leads back to the pair. -/
theorem ofLevel_level (hc : clocks ≤ Manager.maxClocks) (pair : ClockPair) (h : pair.i < clocks) :
    ofLevel pair.level = .ok pair := by
  obtain ⟨found, eq, -, level⟩ := ofLevel_eq_ok hc (level_lt_count h)
  rw [eq, level_injective level]

end ZoneDiagram.ClockPair

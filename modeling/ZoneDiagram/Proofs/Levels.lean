import Mathlib.Data.Prod.Lex
import Mathlib.Data.Set.Function
import ZoneDiagram.Proofs.ClockPair

/-!
# Levels number the pairs of clocks in order

**Theorem (`levels_in_order`).** For every number of clocks that a manager can have, the levels of
the pairs of existing clocks are the numbers below the number of pairs, each of one pair, and they
ascend with the lexicographic order of the pairs. The pair of a level is found again, and from
whatever first clock between 1 and 65535 the search starts: both of its loops end, every product
on the way fits into 32 bits, and the search ends at the pair of the level (`FoundFrom`).

A pair with an earlier first clock has its level below the triangle of the later one, so the order
is that of the triangles first (`level_lt_level_of_lt`).
-/

namespace ZoneDiagram.ClockPair

variable {clocks guess : Nat}

/-- The levels ascend with the lexicographic order of the pairs. -/
theorem level_lt_level_iff (p q : ClockPair) :
    p.level < q.level ↔ toLex (p.i, p.j) < toLex (q.i, q.j) := by
  rw [Prod.Lex.toLex_lt_toLex]
  rcases Nat.lt_trichotomy p.i q.i with less | same | more
  · exact iff_of_true (level_lt_level_of_lt less) (.inl less)
  · simp only [level, same, Nat.lt_irrefl, Nat.add_lt_add_iff_left, false_or, true_and]
  · exact iff_of_false (Nat.lt_asymm (level_lt_level_of_lt more)) (by dsimp only; omega)

/-- The pairs of existing clocks and the levels below their number correspond. -/
theorem bijOn_level (hc : clocks ≤ Manager.maxClocks) :
    Set.BijOn level {pair | pair.i < clocks} (Set.Iio (count clocks)) := by
  refine ⟨fun pair below => level_lt_count below, fun p _ q _ => level_injective, fun l hl => ?_⟩
  obtain ⟨pair, -, below, level⟩ := ofLevel_eq_ok hc hl
  exact ⟨pair, below, level⟩

/-- From any guess the search on the level of a pair ends at the pair. -/
theorem foundFrom_level {pair : ClockPair} (hc : clocks ≤ Manager.maxClocks) (h : pair.i < clocks)
    (hg : ProductFits guess) : pair.FoundFrom guess pair.level := by
  obtain ⟨found, foundFrom, -, level⟩ := exists_foundFrom hc (level_lt_count h) hg
  rwa [level_injective level] at foundFrom

/-- **The pairs of existing clocks are numbered by their levels, in order**, and every guess of the
first clock leads from a level back to its pair. -/
theorem levels_in_order (hc : clocks ≤ Manager.maxClocks) :
    Set.BijOn level {pair | pair.i < clocks} (Set.Iio (count clocks)) ∧
    (∀ p q : ClockPair, p.level < q.level ↔ toLex (p.i, p.j) < toLex (q.i, q.j)) ∧
    ∀ pair : ClockPair, pair.i < clocks → ofLevel pair.level = .ok pair ∧
      ∀ guess, 1 ≤ guess → guess ≤ 65535 → pair.FoundFrom guess pair.level ∧
        ofLevelFrom guess pair.level = .ok pair := by
  refine ⟨bijOn_level hc, level_lt_level_iff, fun pair h =>
    ⟨ofLevel_level hc pair h, fun guess pos le => ?_⟩⟩
  have found := foundFrom_level hc h (productFits_of_le_maxClocks pos le)
  exact ⟨found, found.ofLevelFrom_eq_ok⟩

/-- The last pair of the most clocks is found from below and from above. -/
theorem levels_in_order_most : 65535 ≤ Manager.maxClocks ∧
    Set.BijOn level {pair | pair.i < 65535} (Set.Iio 2147385345) ∧
    ofLevel 2147385344 = .ok ⟨65534, 65533, by decide⟩ ∧
    FoundFrom ⟨65534, 65533, by decide⟩ 1 2147385344 ∧
    ofLevelFrom 65535 2147385344 = .ok ⟨65534, 65533, by decide⟩ := by
  have most : 65535 ≤ Manager.maxClocks := le_rfl
  obtain ⟨numbered, -, found⟩ := levels_in_order most
  obtain ⟨again, search⟩ := found ⟨65534, 65533, by decide⟩ (by decide)
  exact ⟨most, numbered, again, (search 1 (by decide) (by decide)).1,
    (search 65535 (by decide) (by decide)).2⟩

end ZoneDiagram.ClockPair

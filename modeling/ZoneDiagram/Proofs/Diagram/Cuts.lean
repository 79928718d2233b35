import ZoneDiagram.Proofs.Dbm.Block
import ZoneDiagram.Proofs.Diagram.Zone

/-!
# What the tree of a zone means

The path through some cuts is true of the differences that meet all of them
(`eval_pathThrough_iff`). The cuts of a settled matrix leave out what the cuts above them imply:
this is the zone of a matrix that was closed after every cut (`Outer`). So the path is true exactly
of the valuations of the matrix (`eval_cuts_iff`).

Clocks that are not constrained have no cuts (`cuts_extended`).
-/

namespace ZoneDiagram

open CutList

variable {K L : Int} {d implied : Dbm} {i j n : Nat} {v : Valuation} {c : Manager.Cut}
  {cs : List Manager.Cut} {pairs : List (Nat × Nat)}

namespace Manager

/-- The difference lies between the bounds of the cut. -/
def Cut.Meets (c : Cut) (x : ℚ) : Prop := (∀ b ∈ c.lower, b.Holds (-x)) ∧ ∀ b ∈ c.upper, b.Holds x

end Manager

/-! ## Paths -/

namespace Diagram

open Manager

/-- Between the bounds of a cut the decision has the truth of what is inside, and elsewhere none. -/
theorem eval_band_iff {inside : Diagram} {a : Assignment} (h : c.Consistent) (small : c.Small K)
    (hK : K ≤ Bound.maxValue) :
    eval a (make c.level (band inside c.lower c.upper)) = true ↔
      c.Meets (a c.level) ∧ eval a inside = true := by
  have outside (b : Bound) (hb : b ∈ c.lower) :
      b.complement.Holds (a c.level) ↔ ¬ b.Holds (-a c.level) := by
    have := Bound.holds_complement_iff (small.lower b hb) hK (ne_of_lt (h.lower_lt b hb)) (a c.level)
    rw [Bound.complement_complement] at this
    rw [this, not_not]
  have top := Bound.holds_infinity (a c.level)
  rw [eval_make a c.level (proper_band h), eval_node]
  obtain ⟨level, lower, upper⟩ := c
  cases lower with
  | none =>
    cases upper with
    | none => simp [band, itemAt?, top, Cut.Meets]
    | some b =>
      by_cases hb : b.Holds (a level) <;> simp [band, itemAt?, top, Cut.Meets, hb, eval, fold]
  | some b' =>
    have left := outside b' rfl
    by_cases below : b'.complement.Holds (a level)
    · have broken : ¬ b'.Holds (-a level) := left.1 below
      cases upper <;> simp [band, itemAt?, Cut.Meets, below, broken, eval, fold]
    · have holds : b'.Holds (-a level) := not_not.1 (below ∘ left.2)
      cases upper with
      | none => simp [band, itemAt?, top, Cut.Meets, below, holds]
      | some b =>
        by_cases hb : b.Holds (a level) <;>
          simp [band, itemAt?, top, Cut.Meets, below, holds, hb, eval, fold]

/-- **A path is true of the differences that meet all its cuts.** -/
theorem eval_pathThrough_iff {a : Assignment} (h : ∀ c ∈ cs, c.Consistent ∧ c.Small K)
    (hK : K ≤ Bound.maxValue) :
    eval a (pathThrough cs) = true ↔ ∀ c ∈ cs, c.Meets (a c.level) := by
  induction cs with
  | nil => simp [pathThrough, eval, fold]
  | cons c cs ih =>
    obtain ⟨⟨consistent, small⟩, rest⟩ := List.forall_mem_cons.1 h
    rw [pathThrough, eval_band_iff consistent small hK, ih rest, List.forall_mem_cons]

end Diagram

/-! ## What the cuts imply -/

namespace Manager

/-- A settled matrix of the same dimension with a larger zone, to which the entries of an inhabited
matrix can be added as constraints. -/
structure Outer (L : Int) (d implied : Dbm) : Prop where
  settled : implied.Settled L
  room : Dbm.Room implied.dim L
  dim : implied.dim = d.dim
  within : ∀ i < d.dim, ∀ j < d.dim, (d.entry i j).Within L
  inhabited : ∃ v, d.Holds v
  holds : ∀ v, d.Holds v → implied.Holds v

theorem Outer.addable (h : Outer L d implied) (hi : i < d.dim) (hj : j < d.dim) (ne : i ≠ j) :
    Dbm.Addable L implied i j (d.entry i j) where
  settled := h.settled
  room := h.room
  left := h.dim ▸ hi
  right := h.dim ▸ hj
  ne := ne
  within := h.within i hi j hj
  sat := by
    obtain ⟨v, hv⟩ := h.inhabited
    have back := h.holds v hv j (h.dim ▸ hj) i (h.dim ▸ hi)
    rw [← neg_sub] at back
    exact Bound.zero_le_add_of_holds (hv i hi j hj) back

/-- One more entry. -/
theorem Outer.constrain (h : Outer L d implied) (hi : i < d.dim) (hj : j < d.dim) (ne : i ≠ j) :
    Outer L d (implied.constrain i j (d.entry i j)).1 := by
  have add := h.addable hi hj ne
  have dim := Dbm.Addable.dim_constrain implied i j (d.entry i j)
  refine ⟨add.settled_constrain, dim ▸ h.room, dim.trans h.dim, h.within, h.inhabited,
    fun v hv => ?_⟩
  exact (add.holds_constrain_iff v).2 ⟨h.holds v hv, hv i hi j hj⟩

/-- The matrix after the cut at a pair. -/
def afterCut (d implied : Dbm) (i j : Nat) : Dbm :=
  ((implied.constrain i j (d.entry i j)).1.constrain j i (d.entry j i)).1

theorem Outer.afterCut (h : Outer L d implied) (hi : i < d.dim) (hj : j < d.dim) (ne : i ≠ j) :
    Outer L d (afterCut d implied i j) := (h.constrain hi hj ne).constrain hj hi ne.symm

theorem Outer.holds_afterCut_iff (h : Outer L d implied) (hi : i < d.dim) (hj : j < d.dim)
    (ne : i ≠ j) (v : Valuation) : (Manager.afterCut d implied i j).Holds v ↔ implied.Holds v ∧
      (d.entry i j).Holds (v i - v j) ∧ (d.entry j i).Holds (v j - v i) := by
  rw [Manager.afterCut, ((h.constrain hi hj ne).addable hj hi ne.symm).holds_constrain_iff,
    (h.addable hi hj ne).holds_constrain_iff, and_assoc]

theorem outer_unconstrained (room : Dbm.Room d.dim L)
    (within : ∀ i < d.dim, ∀ j < d.dim, (d.entry i j).Within L) (inhabited : ∃ v, d.Holds v) :
    Outer L d (.unconstrained d.dim d.dim_pos) where
  settled := Dbm.settled_unconstrained d.dim_pos
  room := room
  dim := rfl
  within := within
  inhabited := inhabited
  holds v _ := Dbm.holds_unconstrained d.dim_pos v

/-! ## The cuts of a matrix -/

/-- A bound holds if it is needed and then holds, or if it is implied. -/
theorem holds_of_needed? {b implied : Bound} {x : ℚ} (h : ∀ b' ∈ needed? b implied, b'.Holds x)
    (hx : implied.Holds x) : b.Holds x := by
  unfold needed? at h
  split at h
  next skip =>
    rcases Bool.or_eq_true_iff.1 skip with top | same
    · rw [Bound.isInfinity_iff.1 top]
      exact Bound.holds_infinity x
    · rwa [← beq_iff_eq.1 same]
  next => exact h b rfl

/-- The cuts at the first pair and the cuts at the others: a pair whose bounds are not needed has
none. -/
theorem cutsAt_cons (d implied : Dbm) (i j : Nat) (pairs : List (Nat × Nat)) :
    cutsAt d implied ((i, j) :: pairs) =
      if needed? (d.entry j i) (implied.entry j i) = none ∧
          needed? (d.entry i j) (implied.entry i j) = none then cutsAt d implied pairs
      else ⟨ClockPair.triangle i + j, needed? (d.entry j i) (implied.entry j i),
        needed? (d.entry i j) (implied.entry i j)⟩ :: cutsAt d (afterCut d implied i j) pairs := by
  rw [cutsAt]
  cases needed? (d.entry j i) (implied.entry j i) <;>
    cases needed? (d.entry i j) (implied.entry i j) <;> simp [afterCut]

/-- The cut is met by the differences of a valuation. -/
def Cut.Holds (c : Cut) (v : Valuation) : Prop := c.Meets (v.differences c.level)

theorem differences_level {n : Nat} (few : n ≤ maxClocks) (hi : i < n) (lt : j < i)
    (v : Valuation) : v.differences (ClockPair.triangle i + j) = v i - v j := by
  have pair : ClockPair.ofLevel (ClockPair.triangle i + j) = .ok ⟨i, j, lt⟩ :=
    ClockPair.ofLevel_level few ⟨i, j, lt⟩ hi
  exact Diagram.differences_of_ofLevel pair v

/-- A valuation that meets the cuts at some pairs has the differences that the matrix allows
there. -/
theorem Outer.holds_of_cuts (h : Outer L d implied) (few : d.dim ≤ maxClocks)
    (inside : ∀ p ∈ pairs, p.2 < p.1 ∧ p.1 < d.dim) (hv : implied.Holds v)
    (cuts : ∀ c ∈ cutsAt d implied pairs, c.Holds v) : ∀ p ∈ pairs,
      (d.entry p.1 p.2).Holds (v p.1 - v p.2) ∧ (d.entry p.2 p.1).Holds (v p.2 - v p.1) := by
  induction pairs generalizing implied with
  | nil => simp
  | cons p pairs ih =>
    obtain ⟨i, j⟩ := p
    obtain ⟨⟨lt, hi⟩, rest⟩ := List.forall_mem_cons.1 inside
    dsimp only at lt hi
    have hj : j < d.dim := lt.trans hi
    have hi' : i < implied.dim := h.dim ▸ hi
    have hj' : j < implied.dim := h.dim ▸ hj
    have impliedU := hv i hi' j hj'
    have impliedL := hv j hj' i hi'
    rw [cutsAt_cons] at cuts
    rw [List.forall_mem_cons]
    split at cuts
    -- No cut is needed where the bounds follow from what is implied.
    next skip =>
      refine ⟨⟨holds_of_needed? (by simp [skip.2]) impliedU,
        holds_of_needed? (by simp [skip.1]) impliedL⟩, ih h rest hv cuts⟩
    next =>
      obtain ⟨⟨lower, upper⟩, others⟩ := List.forall_mem_cons.1 cuts
      rw [differences_level few hi lt] at lower upper
      rw [neg_sub] at lower
      have both : (d.entry i j).Holds (v i - v j) ∧ (d.entry j i).Holds (v j - v i) :=
        ⟨holds_of_needed? upper impliedU, holds_of_needed? lower impliedL⟩
      have ne : i ≠ j := (ne_of_lt lt).symm
      exact ⟨both, ih (h.afterCut hi hj ne) rest
        ((h.holds_afterCut_iff hi hj ne v).2 ⟨hv, both⟩) others⟩

/-- The cuts of a settled matrix are met exactly by its valuations. -/
theorem holds_cuts_iff (h : d.Settled K) (room : Dbm.Room d.dim L)
    (within : ∀ i < d.dim, ∀ j < d.dim, (d.entry i j).Within L) (few : d.dim ≤ maxClocks) :
    (∀ c ∈ cuts d, c.Holds v) ↔ d.Holds v := by
  have outer := outer_unconstrained room within h.exists_holds
  constructor
  · intro all i hi j hj
    have pairs := outer.holds_of_cuts few (fun p hp => mem_pairsBelow.1 hp)
      (Dbm.holds_unconstrained d.dim_pos v) all
    rcases Nat.lt_trichotomy i j with lt | rfl | lt
    · exact (pairs (j, i) (mem_pairsBelow.2 ⟨lt, hj⟩)).2
    · rw [sub_self, h.diagonal i hi]
      decide
    · exact (pairs (i, j) (mem_pairsBelow.2 ⟨lt, hi⟩)).1
  · intro hv c hc
    obtain ⟨⟨i, j⟩, hp, level, lower, upper⟩ := exists_pair_of_mem_cutsAt hc
    obtain ⟨lt, hi⟩ := mem_pairsBelow.1 hp
    have hj : j < d.dim := lt.trans hi
    rw [Cut.Holds, level, differences_level few hi lt]
    refine ⟨fun b hb => ?_, fun b hb => ?_⟩
    · rw [(lower b hb).1, neg_sub]
      exact hv j hj i hi
    · rw [(upper b hb).1]
      exact hv i hi j hj

/-- Pairs that are not constrained have no cuts, before other pairs. -/
theorem cutsAt_free_append {free : List (Nat × Nat)}
    (h : ∀ p ∈ free, d.entry p.1 p.2 = .infinity ∧ d.entry p.2 p.1 = .infinity) (implied : Dbm)
    (pairs : List (Nat × Nat)) : cutsAt d implied (free ++ pairs) = cutsAt d implied pairs := by
  have none (implied : Bound) : needed? .infinity implied = none := rfl
  induction free with
  | nil => rfl
  | cons p free ih =>
    obtain ⟨⟨upper, lower⟩, rest⟩ := List.forall_mem_cons.1 h
    rw [List.cons_append, cutsAt_cons, upper, lower, none, none, if_pos ⟨rfl, rfl⟩]
    exact ih rest

/-- Nor have they cuts after other pairs. -/
theorem cutsAt_append_free {free : List (Nat × Nat)}
    (h : ∀ p ∈ free, d.entry p.1 p.2 = .infinity ∧ d.entry p.2 p.1 = .infinity) (implied : Dbm)
    (pairs : List (Nat × Nat)) : cutsAt d implied (pairs ++ free) = cutsAt d implied pairs := by
  induction pairs generalizing implied with
  | nil =>
    have before := cutsAt_free_append h implied []
    rwa [List.append_nil] at before
  | cons p pairs ih => rw [List.cons_append, cutsAt_cons, cutsAt_cons, ih, ih]

theorem Outer.afterCut_extended (h : Outer L d implied) {n_pos : 0 < n} (room : Dbm.Room n L)
    (le : d.dim ≤ n) (hi : i < d.dim) (hj : j < d.dim) (ne : i ≠ j) :
    Manager.afterCut (d.extended n n_pos) (implied.extended n n_pos) i j =
      (Manager.afterCut d implied i j).extended n n_pos := by
  have entry {i j : Nat} (hi : i < d.dim) (hj : j < d.dim) :
      (d.extended n n_pos).entry i j = d.entry i j := by
    rw [Dbm.entry_extended (hi.trans_le le) (hj.trans_le le), if_pos ⟨hi, hj⟩]
  have next := h.constrain hi hj ne
  rw [Manager.afterCut, Manager.afterCut, entry hi hj, entry hj hi,
    (h.addable hi hj ne).constrain_extended room (h.dim.trans_le le),
    (next.addable hj hi ne.symm).constrain_extended room (next.dim.trans_le le)]

theorem Outer.cutsAt_extended (h : Outer L d implied) {n_pos : 0 < n} (room : Dbm.Room n L)
    (le : d.dim ≤ n) (inside : ∀ p ∈ pairs, p.2 < p.1 ∧ p.1 < d.dim) :
    cutsAt (d.extended n n_pos) (implied.extended n n_pos) pairs = cutsAt d implied pairs := by
  induction pairs generalizing implied with
  | nil => rfl
  | cons p pairs ih =>
    obtain ⟨i, j⟩ := p
    obtain ⟨⟨lt, hi⟩, rest⟩ := List.forall_mem_cons.1 inside
    dsimp only at lt hi
    have hj : j < d.dim := lt.trans hi
    have entry {o : Dbm} (dim : o.dim = d.dim) {i j : Nat} (hi : i < d.dim) (hj : j < d.dim) :
        (o.extended n n_pos).entry i j = o.entry i j := by
      rw [Dbm.entry_extended (hi.trans_le le) (hj.trans_le le), dim, if_pos ⟨hi, hj⟩]
    have ne : i ≠ j := (ne_of_lt lt).symm
    rw [cutsAt_cons, cutsAt_cons, entry rfl hi hj, entry rfl hj hi, entry h.dim hi hj,
      entry h.dim hj hi, h.afterCut_extended room le hi hj ne, ih h rest,
      ih (h.afterCut hi hj ne) rest]

/-- **Clocks that are not constrained have no cuts.** -/
theorem cuts_extended {n_pos : 0 < n} (h : d.Settled K) (room : Dbm.Room n L)
    (within : ∀ i < d.dim, ∀ j < d.dim, (d.entry i j).Within L) (le : d.dim ≤ n) :
    cuts (d.extended n n_pos) = cuts d := by
  have outer := outer_unconstrained (room.mono le) within h.exists_holds
  -- The pairs among more clocks begin with those there were, and the others have a new clock.
  have free : ∃ free, pairsBelow n = pairsBelow d.dim ++ free ∧
      ∀ p ∈ free, p.2 < p.1 ∧ p.1 < n ∧ d.dim ≤ p.1 := by
    refine ⟨(List.range' d.dim (n - d.dim)).flatMap fun i => (List.range i).map fun j => (i, j),
      ?_, fun p hp => ?_⟩
    · have range : List.range n = List.range d.dim ++ List.range' d.dim (n - d.dim) := by
        have := List.range'_append_1 (s := 0) (m := d.dim) (n := n - d.dim)
        rw [Nat.zero_add, Nat.add_sub_cancel' le] at this
        rw [List.range_eq_range', List.range_eq_range', this]
      rw [pairsBelow, range, List.flatMap_append]
      rfl
    · simp only [List.mem_flatMap, List.mem_map, List.mem_range, List.mem_range'_1] at hp
      obtain ⟨i, ⟨ge, lt⟩, j, hj, rfl⟩ := hp
      exact ⟨hj, by omega, ge⟩
  obtain ⟨free, split, outside⟩ := free
  have top (p : Nat × Nat) (hp : p ∈ free) : (d.extended n n_pos).entry p.1 p.2 = .infinity ∧
      (d.extended n n_pos).entry p.2 p.1 = .infinity := by
    obtain ⟨lt, hi, ge⟩ := outside p hp
    rw [Dbm.entry_extended hi (lt.trans hi), Dbm.entry_extended (lt.trans hi) hi]
    constructor <;> rw [if_neg (by omega), if_neg (by omega)]
  rw [cuts, cuts]
  show cutsAt _ (Dbm.unconstrained n n_pos) (pairsBelow n) = _
  rw [split, cutsAt_append_free top, ← Dbm.unconstrained_extended d.dim_pos]
  exact outer.cutsAt_extended room le fun p hp => mem_pairsBelow.1 hp

end Manager

namespace Diagram

open Manager

/-- **The tree of a settled zone is true exactly of its valuations**, if there is room for sums of
its entries. -/
theorem eval_cuts_iff (h : d.Settled K) (room : Dbm.Room d.dim K) (wide : Dbm.Room d.dim L)
    (within : ∀ i < d.dim, ∀ j < d.dim, (d.entry i j).Within L) (few : d.dim ≤ maxClocks)
    (v : Valuation) : eval v.differences (pathThrough (cuts d)) = true ↔ d.Holds v := by
  have fits := wide.le_maxValue d.dim_pos
  have spec (c : Cut) (hc : c ∈ cuts d) : c.Consistent ∧ c.Small L :=
    ⟨(consistent_of_mem_cuts h room hc).1, small_of_mem_cuts within hc⟩
  rw [eval_pathThrough_iff spec fits]
  exact holds_cuts_iff h wide within few

end Diagram

end ZoneDiagram

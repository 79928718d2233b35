import ZoneDiagram.Proofs.Closure

/-!
# Comparing zones

**Theorem (`Small.comparison_exact`).** With constants up to `constantLimit`, two matrices are found
to be equal exactly if the same valuations meet them, whether they are closed or not. After closing
both, one is found to include the other exactly if all valuations of the other one meet it.

Both tests compare entries. They are complete because the entries of a closed matrix are the
tightest bounds on its valuations: where an entry is greater, some valuation lies between the two
bounds. A matrix without valuations has no such entries, since closing leaves it half-finished, but
closing also leaves a mark on it (`not_holds_of_isEmpty`).
-/

namespace ZoneDiagram.Dbm

variable {K : Int} {a b m o : Dbm} {v : Valuation}

theorem checkSameDim_eq_ok (dim : m.dim = o.dim) : m.checkSameDim o = .ok () := if_pos dim

/-! ## Closures -/

/-- No clock differs from itself, so a matrix with a negative entry for that has no valuations. -/
theorem not_holds_of_isEmpty (h : m.isEmpty = true) : ¬m.Holds v := by
  intro hv
  rw [← Bool.not_eq_false, isEmpty_eq_false_iff] at h
  push Not at h
  obtain ⟨i, hi, negative⟩ := h
  have self : (m.entry i i).Holds 0 := by simpa using hv i hi i hi
  have below : (m.entry i i).below < 0 :=
    Bound.below_zero ▸ Bound.below_strictMono (by decide) negative
  exact absurd (Bound.zero_le_iff_mem.2 self) (not_le.2 below)

/-- A zone that closing finds inhabited has a valuation. -/
theorem Small.exists_holds_of_close (h : m.Small K) (room : Room m.dim K)
    (inhabited : m.close.2 = true) : ∃ v, m.Holds v := by
  obtain ⟨settled, same⟩ := h.settled_close room inhabited
  obtain ⟨v, hv⟩ := settled.exists_holds
  exact ⟨v, (same v).1 hv⟩

/-- A closure without a mark is settled. -/
theorem Small.settled_of_not_marked (h : m.Small K) (room : Room m.dim K)
    (unmarked : ¬m.close.1.isEmpty = true) : m.close.1.Settled K := by
  cases inhabited : m.close.2 with
  | true => exact (h.settled_close room inhabited).1
  | false => exact absurd (isEmpty_closeAlong inhabited) unmarked

/-! ## The same zone -/

/-- Two closures are compared by their entries, unless one of them is empty. -/
theorem canonicalEq_eq_ok (dim : a.dim = b.dim) : a.canonicalEq b =
    .ok (if a.close.2 && b.close.2 then a.close.1 == b.close.1 else a.close.2 == b.close.2) := by
  rw [canonicalEq, checkSameDim_eq_ok dim]
  rcases a.close with ⟨a', _ | _⟩ <;> rcases b.close with ⟨b', _ | _⟩ <;> rfl

/-- Inhabited zones have the same closure exactly if they have the same valuations. -/
theorem Small.close_eq_close_iff (ha : a.Small K) (hb : b.Small K) (room : Room a.dim K)
    (dim : a.dim = b.dim) (fst : a.close.2 = true) (snd : b.close.2 = true) :
    a.close.1 = b.close.1 ↔ ∀ v, a.Holds v ↔ b.Holds v := by
  have roomB : Room b.dim K := dim ▸ room
  obtain ⟨settledA, sameA⟩ := ha.settled_close room fst
  obtain ⟨settledB, sameB⟩ := hb.settled_close roomB snd
  have dimA := dim_close a
  have dimB := dim_close b
  constructor
  · intro eq v
    rw [← sameA v, ← sameB v, eq]
  · intro same
    refine settledA.eq_of_holds_iff settledB (dimA ▸ room) (dimB ▸ roomB)
      (dimA.trans (dim.trans dimB.symm)) fun v => ?_
    rw [sameA v, sameB v, same v]

/-- The test for equality is exact, also for empty zones. -/
theorem Small.canonicalEq_exact (ha : a.Small K) (hb : b.Small K) (room : Room a.dim K)
    (dim : a.dim = b.dim) : ∃ same, a.canonicalEq b = .ok same ∧
      (same = true ↔ ∀ v, a.Holds v ↔ b.Holds v) := by
  have roomB : Room b.dim K := dim ▸ room
  have emptyA := ha.close_eq_false_iff room
  have emptyB := hb.close_eq_false_iff roomB
  refine ⟨_, canonicalEq_eq_ok dim, ?_⟩
  cases fst : a.close.2 <;> cases snd : b.close.2
  case true.true =>
    rw [← ha.close_eq_close_iff hb room dim fst snd]
    simp
  case false.false =>
    exact iff_of_true rfl fun v => iff_of_false (emptyA.1 fst v) (emptyB.1 snd v)
  case true.false =>
    -- Only the first zone has a valuation.
    obtain ⟨v, hv⟩ := ha.exists_holds_of_close room fst
    exact iff_of_false Bool.noConfusion fun same => emptyB.1 snd v ((same v).1 hv)
  case false.true =>
    obtain ⟨v, hv⟩ := hb.exists_holds_of_close roomB snd
    exact iff_of_false Bool.noConfusion fun same => emptyA.1 fst v ((same v).2 hv)

/-! ## Inclusion -/

/-- A settled matrix lies inside of another matrix exactly if its entries do. -/
theorem Settled.holds_imp_iff (h : o.Settled K) (room : Room o.dim K) (dim : m.dim = o.dim)
    (diagonal : ∀ i < m.dim, .zero ≤ m.entry i i)
    (le_infinity : ∀ i < m.dim, ∀ j < m.dim, m.entry i j ≤ .infinity) :
    (∀ v, o.Holds v → m.Holds v) ↔ ∀ i < m.dim, ∀ j < m.dim, o.entry i j ≤ m.entry i j := by
  constructor
  · intro inside i hi j hj
    by_cases eq : i = j
    · subst eq
      rw [h.diagonal i (dim ▸ hi)]
      exact diagonal i hi
    · exact h.entry_le room (dim ▸ hi) (dim ▸ hj) eq fun v hv => inside v hv i hi j hj
  · intro le v hv i hi j hj
    have holds : v i - v j ∈ (o.entry i j).below := hv i (dim ▸ hi) j (dim ▸ hj)
    exact Bound.mem_of_le (Bound.below_mono (le_infinity i hi j hj) (le i hi j hj)) holds

/-- Entries are compared, unless one of the matrices is marked. -/
theorem includes_eq_ok (dim : m.dim = o.dim) : m.includes o = .ok (o.isEmpty || (!m.isEmpty &&
    decide (∀ i < m.dim, ∀ j < m.dim, o.entry i j ≤ m.entry i j))) := by
  have entries : (List.range m.dim).all (fun i => (List.range m.dim).all fun j =>
      decide (o.entry i j ≤ m.entry i j)) =
      decide (∀ i < m.dim, ∀ j < m.dim, o.entry i j ≤ m.entry i j) := by
    rw [Bool.eq_iff_iff]
    simp
  rw [includes, checkSameDim_eq_ok dim, entries]
  cases o.isEmpty <;> cases m.isEmpty <;> rfl

/-- A closure is found inside of another one exactly if its zone is. -/
theorem Small.includes_close (ha : a.Small K) (hb : b.Small K) (room : Room a.dim K)
    (dim : a.dim = b.dim) : ∃ inside, a.close.1.includes b.close.1 = .ok inside ∧
      (inside = true ↔ ∀ v, b.close.1.Holds v → a.close.1.Holds v) := by
  have dimA : a.close.1.dim = a.dim := dim_close a
  have dims : a.close.1.dim = b.close.1.dim := dimA.trans (dim.trans (dim_close b).symm)
  have roomA : Room a.close.1.dim K := dimA ▸ room
  refine ⟨_, includes_eq_ok dims, ?_⟩
  by_cases emptyB : b.close.1.isEmpty = true
  · rw [emptyB, Bool.true_or]
    exact iff_of_true rfl fun v hv => absurd hv (not_holds_of_isEmpty emptyB)
  have settledB := hb.settled_of_not_marked (dim ▸ room) emptyB
  by_cases emptyA : a.close.1.isEmpty = true
  · -- The second zone has a valuation, and the first one has none.
    obtain ⟨v, hv⟩ := settledB.exists_holds
    rw [Bool.eq_false_iff.2 emptyB, emptyA]
    exact iff_of_false Bool.noConfusion fun inside => not_holds_of_isEmpty emptyA (inside v hv)
  · have settledA := ha.settled_of_not_marked room emptyA
    rw [settledB.holds_imp_iff (dims ▸ roomA) dims
      (fun i hi => (settledA.diagonal i hi).ge) fun i hi j hj => settledA.le_infinity roomA hi hj]
    simp [Bool.eq_false_iff.2 emptyB, Bool.eq_false_iff.2 emptyA]

/-! ## Comparison -/

/-- **Comparing zones is exact.** -/
theorem Small.comparison_exact (ha : a.Small a.constantLimit) (hb : b.Small b.constantLimit)
    (dim : a.dim = b.dim) :
    (∃ same, a.canonicalEq b = .ok same ∧ (same = true ↔ ∀ v, a.Holds v ↔ b.Holds v)) ∧
      ∃ inside, a.close.1.includes b.close.1 = .ok inside ∧
        (inside = true ↔ ∀ v, b.close.1.Holds v → a.close.1.Holds v) := by
  have limit : b.constantLimit = a.constantLimit := by rw [constantLimit, constantLimit, dim]
  rw [limit] at hb
  have room := a.room_constantLimit
  exact ⟨ha.canonicalEq_exact hb room dim, ha.includes_close hb room dim⟩

/-- The zone of all valuations of two clocks. -/
def plane : Dbm := .unconstrained 2 Nat.two_pos

/-- The kite and its hull are one zone. The gap is empty, so the plane includes it. -/
theorem comparison_exact_kite :
    (kite.Small kite.constantLimit ∧ gap.Small gap.constantLimit ∧
      plane.Small plane.constantLimit) ∧
    (kite.canonicalEq hull = .ok true ∧ ∀ v, kite.Holds v ↔ hull.Holds v) ∧
    (gap.canonicalEq plane = .ok false ∧ ¬∀ v, gap.Holds v ↔ plane.Holds v) ∧
    (plane.close.1.includes gap.close.1 = .ok true ∧
      ∀ v, gap.close.1.Holds v → plane.close.1.Holds v) ∧
    gap.close.1.includes plane.close.1 = .ok false ∧
      ¬∀ v, plane.close.1.Holds v → gap.close.1.Holds v := by
  have kiteSmall : kite.Small kite.constantLimit := small_ofFn _ (by decide) (by decide)
  have gapSmall : gap.Small gap.constantLimit := small_ofFn _ (by decide) (by decide)
  have planeSmall : plane.Small plane.constantLimit :=
    small_ofFn (f := fun i j => if i = j then .zero else .infinity) _ (by decide) (by decide)
  obtain ⟨⟨same, run, equal⟩, -⟩ := kiteSmall.comparison_exact small_hull rfl
  obtain ⟨⟨same', run', equal'⟩, inside, run₁, smaller⟩ := gapSmall.comparison_exact planeSmall rfl
  obtain ⟨-, inside', run₂, larger⟩ := planeSmall.comparison_exact gapSmall rfl
  obtain rfl : same = true := Except.ok.inj (run.symm.trans (by decide +kernel))
  obtain rfl : same' = false := Except.ok.inj (run'.symm.trans (by decide +kernel))
  obtain rfl : inside = false := Except.ok.inj (run₁.symm.trans (by decide +kernel))
  obtain rfl : inside' = true := Except.ok.inj (run₂.symm.trans (by decide +kernel))
  exact ⟨⟨kiteSmall, gapSmall, planeSmall⟩, ⟨run, equal.1 rfl⟩,
    ⟨run', fun both => Bool.noConfusion (equal'.2 both)⟩, ⟨run₂, larger.1 rfl⟩, run₁,
    fun both => Bool.noConfusion (smaller.2 both)⟩

end ZoneDiagram.Dbm

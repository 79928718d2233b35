import ZoneDiagram.Proofs.Dbm.Settled

/-!
# Closing closed matrices

If no detour of a matrix is shorter than the direct way, then closing it changes nothing
(`close_eq_self`). A settled matrix is such a one, so it passes for closed and for inhabited, and no
sum of its constants is clamped (`Settled.tight`).
-/

namespace ZoneDiagram.Dbm

variable {K : Int} {m : Dbm} {first : Bound} {i k : Nat} {ds : List (Nat × Nat)}

theorem isClosed_iff : m.isClosed = true ↔ ∀ k < m.dim, ∀ i < m.dim,
    m.entry i k = .infinity ∨ ∀ j < m.dim, m.entry i j ≤ m.entry i k + m.entry k j := by
  simp [isClosed, Bound.isInfinity_iff]

theorem isEmpty_eq_false_iff : m.isEmpty = false ↔ ∀ i < m.dim, .zero ≤ m.entry i i := by
  simp [isEmpty]

theorem relaxRow_eq_self (h : ∀ j < m.dim, m.entry i j ≤ first + m.entry k j) :
    m.relaxRow first k i = m :=
  tightenAlong_eq_self fun j hj => h j (List.mem_range.1 hj)

theorem closeAlong_eq_self (closed : m.isClosed = true)
    (nonempty : m.isEmpty = false) (inside : ∀ d ∈ ds, d.1 < m.dim ∧ d.2 < m.dim) :
    closeAlong ds m = (m, true) := by
  induction ds with
  | nil => rfl
  | cons d ds ih =>
    obtain ⟨hk, hi⟩ := inside d List.mem_cons_self
    have rest := ih fun d' hd' => inside d' (List.mem_cons_of_mem d hd')
    unfold closeAlong
    dsimp only
    split
    next => exact rest
    next finite =>
      have detours := (isClosed_iff.1 closed _ hk _ hi).resolve_left
        fun top => finite (Bound.isInfinity_iff.2 top)
      rw [relaxRow_eq_self detours, if_neg (not_lt.2 (isEmpty_eq_false_iff.1 nonempty _ hi))]
      exact rest

theorem mem_detours {n : Nat} {d : Nat × Nat} : d ∈ detours n ↔ d.1 < n ∧ d.2 < n := by
  simp only [detours, List.mem_flatMap, List.mem_map, List.mem_range]
  constructor
  · rintro ⟨k, hk, i, hi, rfl⟩
    exact ⟨hk, hi⟩
  · rintro ⟨hk, hi⟩
    exact ⟨d.1, hk, d.2, hi, rfl⟩

/-- **A closed matrix is its own closure.** -/
theorem close_eq_self (closed : m.isClosed = true) (nonempty : m.isEmpty = false) :
    m.close = (m, true) := closeAlong_eq_self closed nonempty fun _ => mem_detours.1

/-! ## Marked matrices -/

theorem isEmpty_markEmpty (m : Dbm) : m.markEmpty.isEmpty = true := by
  rw [← Bool.not_eq_false, isEmpty_eq_false_iff]
  intro nonneg
  have marked := nonneg 0 m.dim_pos
  rw [markEmpty, entry_setEntry m.dim_pos m.dim_pos m.dim_pos, if_pos ⟨rfl, rfl⟩] at marked
  exact absurd marked (by decide)

/-- Closing that stops early leaves a mark. -/
theorem isEmpty_closeAlong (stopped : (closeAlong ds m).2 = false) :
    (closeAlong ds m).1.isEmpty = true := by
  induction ds generalizing m with
  | nil => cases stopped
  | cons d ds ih =>
    unfold closeAlong at stopped ⊢
    dsimp only at stopped ⊢
    split_ifs at stopped ⊢
    · exact ih stopped
    · exact isEmpty_markEmpty _
    · exact ih stopped

/-! ## Tight matrices -/

/-- The matrix is closed and inhabited, and its constants fit the encoding. That is what closing
gives if no sum is clamped. -/
structure Tight (m : Dbm) : Prop where
  isClosed : m.isClosed = true
  isEmpty_eq_false : m.isEmpty = false
  within : ∀ i < m.dim, ∀ j < m.dim, (m.entry i j).Within Bound.maxValue

theorem Tight.close_eq_self (h : m.Tight) : m.close = (m, true) :=
  Dbm.close_eq_self h.isClosed h.isEmpty_eq_false

/-- The entries of a pair leave room between them. -/
theorem Tight.zero_le_add (h : m.Tight) {i j : Nat} (hi : i < m.dim) (hj : j < m.dim)
    (finite : m.entry i j ≠ .infinity) : .zero ≤ m.entry i j + m.entry j i :=
  calc .zero ≤ m.entry i i := isEmpty_eq_false_iff.1 h.isEmpty_eq_false i hi
    _ ≤ m.entry i j + m.entry j i :=
      (isClosed_iff.1 h.isClosed j hj i hi).resolve_left finite i hi

/-! ## Settled matrices -/

theorem Settled.isClosed (h : m.Settled K) (room : Room m.dim K) : m.isClosed = true := by
  refine isClosed_iff.2 fun k hk i hi => .inr fun j hj => ?_
  have nonneg := room.nonneg
  have small := room.small
  have total := room.total_nonneg
  have left := h.within nonneg hi hk
  have right := h.within nonneg hk hj
  have fits : m.dim * K - K + (m.dim * K - K) ≤ Bound.maxValue := by linarith
  have sum := (Bound.within_add left right fits).le_infinity fits
  rw [← Bound.below_le_iff (h.le_infinity room hi hj) sum, Bound.below_add left right fits]
  exact h.closed.triangle i hi k hk j hj

/-- No sum of the constants of a settled matrix is clamped. -/
theorem Settled.tight (h : m.Settled K) (room : Room m.dim K) : m.Tight where
  isClosed := h.isClosed room
  isEmpty_eq_false := h.isEmpty_eq_false
  within i hi j hj := by
    have nonneg := room.nonneg
    have small := room.small
    have total := room.total_nonneg
    exact (h.within nonneg hi hj).mono (by linarith)

theorem Settled.close_eq_self (h : m.Settled K) (room : Room m.dim K) : m.close = (m, true) :=
  (h.tight room).close_eq_self

theorem Settled.isValid (h : m.Settled K) (room : Room m.dim K) : m.isValid = true := by
  rw [Dbm.isValid, h.isEmpty_eq_false, h.close_eq_self room]
  rfl

/-- The entries of a pair leave room between them. -/
theorem Settled.zero_le_add (h : m.Settled K) {i j : Nat} (hi : i < m.dim) (hj : j < m.dim) :
    .zero ≤ m.entry i j + m.entry j i := by
  rw [Bound.zero_le_add_iff, ← h.closed.self i hi]
  exact h.closed.triangle i hi j hj i hi

end ZoneDiagram.Dbm

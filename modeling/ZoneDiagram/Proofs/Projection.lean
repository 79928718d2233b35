import ZoneDiagram.Proofs.Closure

/-!
# Projecting a zone

**Theorem (`Small.projected_exact`).** The top left block of a closed matrix with constants up to
`constantLimit` is the zone seen on the first clocks: it is closed and inhabited again, and a
valuation meets it exactly if other values of the remaining clocks make it meet the whole matrix.

A block of a closed matrix is closed because fewer detours are left. The values for the remaining
clocks are found one clock after the other (`Settled.holds_projected_iff`): what the entries ask of
the next value is an interval, and by closedness its ends are far enough apart.
-/

namespace ZoneDiagram.Dbm

variable {K : Int} {m : Dbm} {dim : Nat}

theorem projected?_eq_ok (dim_pos : 0 < dim) (le : dim ≤ m.dim) :
    m.projected? dim = .ok (m.projected dim dim_pos) := dif_pos ⟨dim_pos, le⟩

/-- The detours in the block are detours in the matrix. -/
theorem isClosed_projected (dim_pos : 0 < dim) (closed : m.isClosed = true) (le : dim ≤ m.dim) :
    (m.projected dim dim_pos).isClosed = true := by
  rw [isClosed_iff] at closed ⊢
  intro k (hk : k < dim) i (hi : i < dim)
  rw [entry_projected hi hk]
  refine (closed k (hk.trans_le le) i (hi.trans_le le)).imp_right fun detours j (hj : j < dim) => ?_
  rw [entry_projected hi hj, entry_projected hk hj]
  exact detours j (hj.trans_le le)

theorem Small.projected (h : m.Small K) (dim_pos : 0 < dim) (le : dim ≤ m.dim) :
    (m.projected dim dim_pos).Small K :=
  small_ofFn dim_pos (fun i hi => h.zeros i (hi.trans_le le)) fun i hi j hj =>
    h.within i (hi.trans_le le) j (hj.trans_le le)

/-- **Projection is existential quantification** over the clocks that are dropped. -/
theorem Small.projected_exact (h : m.Small m.constantLimit) (closed : m.isClosed = true)
    (dim_pos : 0 < dim) (le : dim ≤ m.dim) : ∃ block, m.projected? dim = .ok block ∧
      block.dim = dim ∧ block.isClosed = true ∧ block.isValid = true ∧
      ∀ v, block.Holds v ↔ ∃ w, (∀ i < dim, w i = v i) ∧ m.Holds w := by
  have room := m.room_constantLimit
  have settled := settled_of_isClosed closed room h.zeros h.within
  have blockClosed := isClosed_projected dim_pos closed le
  have small := h.projected dim_pos le
  have blockRoom : Room (m.projected dim dim_pos).dim m.constantLimit := room.mono le
  have blockSettled := settled_of_isClosed blockClosed blockRoom small.zeros small.within
  exact ⟨_, projected?_eq_ok dim_pos le, rfl, blockClosed, blockSettled.isValid blockRoom,
    fun v => settled.holds_projected_iff le⟩

/-- Seen on its first two clocks, the hull is the interval from one to four. -/
theorem projected_exact_hull : (hull.Small hull.constantLimit ∧ hull.isClosed = true) ∧
    ∃ block, hull.projected? 2 = .ok block ∧ block.rows = [[.zero, .weak (-1)], [.weak 4, .zero]] ∧
      block.dim = 2 ∧ block.isClosed = true ∧ block.isValid = true ∧
      ∀ v, block.Holds v ↔ ∃ w, (∀ i < 2, w i = v i) ∧ hull.Holds w := by
  have le : 2 ≤ hull.dim := by decide
  obtain ⟨block, run, rest⟩ := small_hull.projected_exact isClosed_hull Nat.two_pos le
  have rows : (hull.projected? 2).map rows = .ok [[.zero, .weak (-1)], [.weak 4, .zero]] := by decide +kernel
  rw [run] at rows
  exact ⟨⟨small_hull, isClosed_hull⟩, block, run, Except.ok.inj rows, rest⟩

end ZoneDiagram.Dbm

import ZoneDiagram.Bound

/-!
# Difference bound matrices

A matrix over the clocks `x_0 … x_{n-1}` describes one convex zone. Its entry `(i, j)` bounds the
difference `x_i - x_j`; the clock `x_0` is the reference clock and always there. The entries lie in
one array, row after row, and its length is part of the type.

An entry is found in the array by `i * n + j`. The operations that check their position check it
against the array, so a column past the end of one row names an entry of a later row.
-/

namespace ZoneDiagram

/-- A square matrix of bounds on clock differences, with at least the reference clock. -/
structure Dbm where
  dim : Nat
  entries : Array Bound
  dim_pos : 0 < dim
  size_entries : entries.size = dim * dim
  deriving DecidableEq

namespace Dbm

/-- Matrices are ordered by dimension, then entry by entry. -/
instance : Ord Dbm := ⟨compareLex (compareOn dim) (compareOn entries)⟩

instance : Std.TransOrd Dbm :=
  inferInstanceAs (Std.TransCmp (compareLex (compareOn dim) (compareOn entries)))

instance : Std.LawfulEqOrd Dbm where
  eq_of_compare {m o} h := by
    obtain ⟨hd, he⟩ := Ordering.then_eq_eq.1 h
    have hd : m.dim = o.dim := Std.LawfulEqOrd.eq_of_compare hd
    have he : m.entries = o.entries := Std.LawfulEqOrd.eq_of_compare he
    obtain ⟨_, _, _, _⟩ := m
    obtain ⟨_, _, _, _⟩ := o
    obtain rfl := hd
    obtain rfl := he
    rfl

/-! ## Entries -/

/-- The entry `(i, j)`, meant for clocks of the matrix. -/
def entry (m : Dbm) (i j : Nat) : Bound := m.entries.getD (i * m.dim + j) .infinity

/-- The matrix with the entry `(i, j)` replaced. -/
def setEntry (m : Dbm) (i j : Nat) (b : Bound) : Dbm :=
  { m with
    entries := m.entries.setIfInBounds (i * m.dim + j) b
    size_entries := by rw [Array.size_setIfInBounds, m.size_entries] }

/-- The position `(i, j)` lies inside the array. -/
def inRange (m : Dbm) (i j : Nat) : Bool := decide (i * m.dim + j < m.dim * m.dim)

/-- The entry at a position that is checked. -/
def get? (m : Dbm) (i j : Nat) : Except Error Bound :=
  if m.inRange i j then .ok (m.entry i j) else .error .indexOutOfBounds

/-- Replace the entry at a position that is checked. -/
def set? (m : Dbm) (i j : Nat) (b : Bound) : Except Error Dbm :=
  if m.inRange i j then .ok (m.setEntry i j b) else .error .indexOutOfBounds

/-! ## Building matrices -/

/-- The matrix whose entries are given by a function. -/
def ofFn (dim : Nat) (dim_pos : 0 < dim) (f : Nat → Nat → Bound) : Dbm where
  dim := dim
  entries := (Array.range (dim * dim)).map fun k => f (k / dim) (k % dim)
  dim_pos := dim_pos
  size_entries := by rw [Array.size_map, Array.size_range]

/-- The zone of all valuations: nothing is constrained but the diagonal. -/
def unconstrained (dim : Nat) (dim_pos : 0 < dim) : Dbm :=
  ofFn dim dim_pos fun i j => if i = j then .zero else .infinity

/-- The zone where no clock is below the reference clock. -/
def nonNegative (dim : Nat) (dim_pos : 0 < dim) : Dbm :=
  ofFn dim dim_pos fun i j => if i = j ∨ i = 0 then .zero else .infinity

/-- A dimension with at least the reference clock. -/
def checkDim (dim : Nat) : Except Error { n : Nat // 0 < n } :=
  if h : 0 < dim then .ok ⟨dim, h⟩ else .error .noReferenceClock

/-- The zone of all valuations, for a dimension that is checked. -/
def unconstrained? (dim : Nat) : Except Error Dbm := do
  let ⟨n, n_pos⟩ ← checkDim dim
  return unconstrained n n_pos

/-- The zone where no clock is below the reference clock, for a dimension that is checked. -/
def nonNegative? (dim : Nat) : Except Error Dbm := do
  let ⟨n, n_pos⟩ ← checkDim dim
  return nonNegative n n_pos

/-- The zone seen on its first clocks: the top left block of the matrix. -/
def projected (m : Dbm) (dim : Nat) (dim_pos : 0 < dim) : Dbm := ofFn dim dim_pos m.entry

/-- The zone seen on its first clocks, of which there must be between one and all. -/
def projected? (m : Dbm) (dim : Nat) : Except Error Dbm :=
  if h : 0 < dim ∧ dim ≤ m.dim then .ok (m.projected dim h.1)
  else .error (.badProjection m.dim dim)

/-- The same constraints among more clocks, the further ones unconstrained. -/
def extended (m : Dbm) (dim : Nat) (dim_pos : 0 < dim) : Dbm :=
  ofFn dim dim_pos fun i j =>
    if i < m.dim ∧ j < m.dim then m.entry i j else if i = j then .zero else .infinity

/-! ## Emptiness marks -/

/-- Some diagonal entry is negative. Conclusive on closed matrices only. -/
def isEmpty (m : Dbm) : Bool := (List.range m.dim).any fun i => m.entry i i < .zero

/-- The matrix with its first diagonal entry made negative. -/
def markEmpty (m : Dbm) : Dbm := m.setEntry 0 0 .negative

/-- The entries row by row. -/
def rows (m : Dbm) : List (List Bound) :=
  (List.range m.dim).map fun i => (List.range m.dim).map (m.entry i)

/-! ## Small laws -/

@[simp] theorem dim_setEntry (m : Dbm) (i j : Nat) (b : Bound) : (m.setEntry i j b).dim = m.dim :=
  rfl

theorem position_lt {n i j : Nat} (hi : i < n) (hj : j < n) : i * n + j < n * n :=
  calc i * n + j < i * n + n := by omega
    _ = (i + 1) * n := by rw [Nat.add_mul, Nat.one_mul]
    _ ≤ n * n := Nat.mul_le_mul_right n hi

theorem position_div {n i j : Nat} (hj : j < n) : (i * n + j) / n = i := by
  rw [Nat.mul_comm, Nat.mul_add_div (by omega), Nat.div_eq_of_lt hj, Nat.add_zero]

theorem position_mod {n i j : Nat} (hj : j < n) : (i * n + j) % n = j := by
  rw [Nat.mul_comm, Nat.mul_add_mod, Nat.mod_eq_of_lt hj]

theorem position_inj {n i j k l : Nat} (hj : j < n) (hl : l < n) :
    i * n + j = k * n + l ↔ i = k ∧ j = l := by
  constructor
  · intro h
    exact ⟨by rw [← position_div (i := i) hj, h, position_div hl],
      by rw [← position_mod (i := i) hj, h, position_mod hl]⟩
  · rintro ⟨rfl, rfl⟩
    rfl

theorem entry_ofFn {dim : Nat} {dim_pos : 0 < dim} {f : Nat → Nat → Bound} {i j : Nat}
    (hi : i < dim) (hj : j < dim) : (ofFn dim dim_pos f).entry i j = f i j := by
  simp [entry, ofFn, position_lt hi hj, position_div hj, position_mod hj]

theorem entry_unconstrained {dim : Nat} {dim_pos : 0 < dim} {i j : Nat} (hi : i < dim)
    (hj : j < dim) : (unconstrained dim dim_pos).entry i j = if i = j then .zero else .infinity :=
  entry_ofFn hi hj

theorem entry_setEntry {m : Dbm} {i j k l : Nat} {b : Bound} (hi : i < m.dim) (hj : j < m.dim)
    (hl : l < m.dim) : (m.setEntry i j b).entry k l = if k = i ∧ l = j then b else m.entry k l := by
  have lt : i * m.dim + j < m.entries.size := m.size_entries ▸ position_lt hi hj
  simp only [entry, setEntry, Array.getD_eq_getD_getElem?, Array.getElem?_setIfInBounds]
  by_cases h : k = i ∧ l = j
  · obtain ⟨rfl, rfl⟩ := h
    simp [lt]
  · have ne : i * m.dim + j ≠ k * m.dim + l := fun eq =>
      h ⟨((position_inj hj hl).1 eq).1.symm, ((position_inj hj hl).1 eq).2.symm⟩
    simp [ne, h]

end Dbm

end ZoneDiagram

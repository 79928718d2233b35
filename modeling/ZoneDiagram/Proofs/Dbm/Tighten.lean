import ZoneDiagram.Dbm.Closure
import ZoneDiagram.Proofs.Bound.Below

/-!
# Entries after tightening

What the loops of an incremental closure leave in a matrix, entry by entry. The loops work in
place: they read the row of the second clock of the new constraint while they change the matrix.
That row is never changed, because a detour through the constraint and back is no negative cycle.
So every entry ends as the minimum of itself and one detour, both as they were before
(`entry_relaxThrough`).
-/

namespace ZoneDiagram.Dbm

variable {m : Dbm} {i j k l : Nat} {b : Bound}

@[simp] theorem dim_tighten (m : Dbm) (i j : Nat) (b : Bound) : (m.tighten i j b).dim = m.dim := by
  unfold tighten
  split <;> rfl

theorem entry_tighten (hi : i < m.dim) (hj : j < m.dim) (hl : l < m.dim) :
    (m.tighten i j b).entry k l = if k = i ∧ l = j then min (m.entry i j) b else m.entry k l := by
  unfold tighten
  split
  next lt =>
    rw [entry_setEntry hi hj hl, min_eq_right (le_of_lt lt)]
  next ge =>
    rw [min_eq_left (not_lt.1 ge)]
    split
    next eq => rw [eq.1, eq.2]
    · rfl

theorem dim_foldl {α : Type} {f : Dbm → α → Dbm} (h : ∀ m a, (f m a).dim = m.dim) (as : List α)
    (m : Dbm) : (as.foldl f m).dim = m.dim := by
  induction as generalizing m with
  | nil => rfl
  | cons a as ih => exact (ih _).trans (h m a)

theorem dim_close (m : Dbm) : m.close.1.dim = m.dim := by
  have row (m : Dbm) (first : Bound) (k i : Nat) : (m.relaxRow first k i).dim = m.dim :=
    dim_foldl (fun _ _ => dim_tighten ..) _ m
  have along (ds : List (Nat × Nat)) (m : Dbm) : (closeAlong ds m).1.dim = m.dim := by
    induction ds generalizing m with
    | nil => rfl
    | cons d ds ih =>
      unfold closeAlong
      dsimp only
      split_ifs
      · exact ih m
      · exact (dim_setEntry ..).trans (row ..)
      · exact (ih _).trans (row ..)
  exact along _ m

/-! ## One row -/

/-- Tighten entries of row `k` by detours that end along row `j`. -/
def tightenAlong (m : Dbm) (k j : Nat) (via : Bound) (ls : List Nat) : Dbm :=
  ls.foldl (fun m l => m.tighten k l (via + m.entry j l)) m

@[simp] theorem dim_tightenAlong (k j : Nat) (via : Bound) (ls : List Nat) (m : Dbm) :
    (m.tightenAlong k j via ls).dim = m.dim := dim_foldl (fun _ _ => dim_tighten ..) ls m

theorem entry_tightenAlong {via : Bound} (hk : k < m.dim) (hj : j < m.dim) (hkj : k ≠ j)
    {ls : List Nat} (hls : ∀ l ∈ ls, l < m.dim) {r : Nat} (hl : l < m.dim) :
    (m.tightenAlong k j via ls).entry r l =
      if r = k ∧ l ∈ ls then min (m.entry k l) (via + m.entry j l) else m.entry r l := by
  induction ls generalizing m with
  | nil => simp [tightenAlong]
  | cons l₀ ls ih =>
    have hl₀ : l₀ < m.dim := hls l₀ List.mem_cons_self
    let m₁ := m.tighten k l₀ (via + m.entry j l₀)
    have hdim : m₁.dim = m.dim := dim_tighten ..
    have row (r l : Nat) (hl : l < m.dim) : m₁.entry r l =
        if r = k ∧ l = l₀ then min (m.entry k l₀) (via + m.entry j l₀) else m.entry r l :=
      entry_tighten hk hl₀ hl
    -- Row `j` is read, and it is not the row that changes.
    have hrow : m₁.entry j l = m.entry j l := by
      rw [row j l hl, if_neg fun h => hkj h.1.symm]
    change (m₁.tightenAlong k j via ls).entry r l = _
    rw [ih (by rwa [hdim]) (by rwa [hdim])
      (fun l h => by rw [hdim]; exact hls l (List.mem_cons_of_mem _ h)) (by rwa [hdim]), hrow,
      row k l hl, row r l hl]
    by_cases hr : r = k
    · by_cases hl₀ : l = l₀
      · subst hl₀
        simp [hr]
      · simp [hr, hl₀]
    · simp [hr]

theorem tightenAlong_eq_self {via : Bound} {ls : List Nat}
    (h : ∀ l ∈ ls, m.entry k l ≤ via + m.entry j l) : m.tightenAlong k j via ls = m := by
  induction ls with
  | nil => rfl
  | cons l ls ih =>
    have stable : m.tighten k l (via + m.entry j l) = m :=
      if_neg (not_lt.2 (h l List.mem_cons_self))
    change (m.tighten k l (via + m.entry j l)).tightenAlong k j via ls = m
    rw [stable]
    exact ih fun l hl => h l (List.mem_cons_of_mem _ hl)

theorem relaxRowThrough_eq (i j : Nat) (b : Bound) (m : Dbm) (k : Nat) :
    relaxRowThrough i j b m k =
      if (m.entry k i).isInfinity then m
      else m.tightenAlong k j (m.entry k i + b) (List.range m.dim) := rfl

@[simp] theorem dim_relaxRowThrough (i j : Nat) (b : Bound) (m : Dbm) (k : Nat) :
    (relaxRowThrough i j b m k).dim = m.dim := by
  rw [relaxRowThrough_eq]
  split
  · rfl
  · exact dim_tightenAlong ..

/-- All entries are at most the missing constraint, and going through the constraint and back does
not tighten the row of its second clock. -/
structure Relaxable (i j : Nat) (b : Bound) (m : Dbm) : Prop where
  left : i < m.dim
  right : j < m.dim
  le_infinity : ∀ k < m.dim, ∀ l < m.dim, m.entry k l ≤ .infinity
  stable : ∀ l < m.dim, m.entry j l ≤ m.entry j i + b + m.entry j l

theorem entry_relaxRowThrough (h : Relaxable i j b m) (hk : k < m.dim) (hl : l < m.dim)
    {r : Nat} :
    (relaxRowThrough i j b m k).entry r l =
      if r = k then min (m.entry k l) (m.entry k i + b + m.entry j l) else m.entry r l := by
  rw [relaxRowThrough_eq]
  split
  next top =>
    split
    next eq =>
      rw [Bound.isInfinity_iff.1 top, Bound.infinity_add, Bound.infinity_add, eq]
      exact (min_eq_left (h.le_infinity k hk l hl)).symm
    · rfl
  · by_cases hkj : k = j
    · subst hkj
      rw [tightenAlong_eq_self fun l hl => h.stable l (List.mem_range.1 hl)]
      split
      next eq => rw [eq, min_eq_left (h.stable l hl)]
      · rfl
    · rw [entry_tightenAlong hk h.right hkj (fun l hl => List.mem_range.1 hl) hl]
      simp only [List.mem_range, hl, and_true]

theorem Relaxable.relaxRowThrough (h : Relaxable i j b m) (hk : k < m.dim) :
    Relaxable i j b (relaxRowThrough i j b m k) ∧
      ∀ l < m.dim, (Dbm.relaxRowThrough i j b m k).entry j l = m.entry j l := by
  have row (l : Nat) (hl : l < m.dim) :
      (Dbm.relaxRowThrough i j b m k).entry j l = m.entry j l := by
    rw [entry_relaxRowThrough h hk hl]
    split
    next eq => rw [← eq, min_eq_left (h.stable l hl)]
    · rfl
  refine ⟨⟨?_, ?_, fun r hr l hl => ?_, fun l hl => ?_⟩, row⟩ <;> rw [dim_relaxRowThrough] at *
  · exact h.left
  · exact h.right
  · rw [entry_relaxRowThrough h hk hl]
    split
    · exact (min_le_left _ _).trans (h.le_infinity k hk l hl)
    · exact h.le_infinity r hr l hl
  · rw [row l hl, row i h.left]
    exact h.stable l hl

/-! ## All rows -/

@[simp] theorem dim_relaxThrough (m : Dbm) (i j : Nat) (b : Bound) :
    (m.relaxThrough i j b).dim = m.dim := dim_foldl (dim_relaxRowThrough i j b) _ m

theorem entry_foldl_relaxRowThrough {ks : List Nat} (hnodup : ks.Nodup)
    (hks : ∀ k ∈ ks, k < m.dim) (h : Relaxable i j b m) {r : Nat} (hr : r < m.dim)
    (hl : l < m.dim) :
    (ks.foldl (relaxRowThrough i j b) m).entry r l =
      if r ∈ ks then min (m.entry r l) (m.entry r i + b + m.entry j l) else m.entry r l := by
  induction ks generalizing m with
  | nil => simp
  | cons k ks ih =>
    have hk : k < m.dim := hks k List.mem_cons_self
    obtain ⟨hnew, hrow⟩ := h.relaxRowThrough hk
    obtain ⟨hfresh, hnodup⟩ := List.nodup_cons.1 hnodup
    rw [List.foldl_cons, ih hnodup
      (fun k h => by rw [dim_relaxRowThrough]; exact hks k (List.mem_cons_of_mem _ h)) hnew
      (by rwa [dim_relaxRowThrough]) (by rwa [dim_relaxRowThrough]), hrow l hl,
      entry_relaxRowThrough h hk hl, entry_relaxRowThrough h hk h.left]
    by_cases hrk : r = k
    · subst hrk
      simp [hfresh]
    · simp [hrk]

/-- **All rows at once.** The matrix is tightened as if all detours were taken before. -/
theorem entry_relaxThrough (h : Relaxable i j b m) (hk : k < m.dim) (hl : l < m.dim) :
    (m.relaxThrough i j b).entry k l = min (m.entry k l) (m.entry k i + b + m.entry j l) := by
  rw [relaxThrough, entry_foldl_relaxRowThrough List.nodup_range
    (fun k hk => List.mem_range.1 hk) h hk hl, if_pos (List.mem_range.2 hk)]

end ZoneDiagram.Dbm

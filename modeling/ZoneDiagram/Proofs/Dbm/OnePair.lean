import ZoneDiagram.Proofs.Dbm.Closed

/-!
# Matrices that constrain one difference

A matrix with bounds on one difference and on its opposite, and no other constraints (`OnePair`),
is closed if the bounds leave room between them, and otherwise its closing finds that it is empty.

The constants of the two bounds may be as large as the encoding allows: no sums of more than two
entries are taken, and a clamped sum keeps its sign.
-/

namespace ZoneDiagram.Dbm

variable {m : Dbm} {b b' : Bound} {i j k n r : Nat} {ds : List (Nat × Nat)}

/-- The matrix bounds `x_i - x_j` by `b` and `x_j - x_i` by `b'`, and no other difference. -/
structure OnePair (m : Dbm) (i j : Nat) (b b' : Bound) : Prop where
  left : i < m.dim
  right : j < m.dim
  ne : i ≠ j
  entry_eq : ∀ k < m.dim, ∀ l < m.dim, m.entry k l =
    if k = i ∧ l = j then b else if k = j ∧ l = i then b' else if k = l then .zero else .infinity

/-! ## Such matrices -/

theorem onePair_unconstrained (n_pos : 0 < n) (hi : i < n) (hj : j < n) (ne : i ≠ j) :
    OnePair (unconstrained n n_pos) i j .infinity .infinity where
  left := hi
  right := hj
  ne := ne
  entry_eq k (hk : k < n) l (hl : l < n) := by
    rw [entry_unconstrained hk hl]
    split_ifs <;> first | rfl | omega

namespace OnePair

theorem symm (h : OnePair m i j b b') : OnePair m j i b' b where
  left := h.right
  right := h.left
  ne := h.ne.symm
  entry_eq k hk l hl := by
    have ne := h.ne
    rw [h.entry_eq k hk l hl]
    split_ifs <;> first | rfl | omega

theorem setEntry (h : OnePair m i j b b') (c : Bound) : OnePair (m.setEntry i j c) i j c b' where
  left := h.left
  right := h.right
  ne := h.ne
  entry_eq k hk l hl := by
    rw [entry_setEntry h.left h.right hl, h.entry_eq k hk l hl]
    split_ifs <;> rfl

theorem setOpposite (h : OnePair m i j b b') (c : Bound) : OnePair (m.setEntry j i c) i j b c :=
  (h.symm.setEntry c).symm

/-! ## Entries -/

theorem entry_left (h : OnePair m i j b b') : m.entry i j = b := by
  rw [h.entry_eq i h.left j h.right, if_pos ⟨rfl, rfl⟩]

theorem entry_right (h : OnePair m i j b b') : m.entry j i = b' := h.symm.entry_left

theorem entry_self (h : OnePair m i j b b') (hk : k < m.dim) : m.entry k k = .zero := by
  have ne := h.ne
  rw [h.entry_eq k hk k hk, if_neg (by omega), if_neg (by omega), if_pos rfl]

theorem entry_eq_infinity (h : OnePair m i j b b') (hk : k < m.dim) (hr : r < m.dim) (ne : k ≠ r)
    (left : ¬(k = i ∧ r = j)) (right : ¬(k = j ∧ r = i)) : m.entry k r = .infinity := by
  rw [h.entry_eq k hk r hr, if_neg left, if_neg right, if_neg ne]

theorem within {K : Int} (h : OnePair m i j b b') (hK : 0 ≤ K) (hb : b.Within K)
    (hb' : b'.Within K) (hk : k < m.dim) (hr : r < m.dim) : (m.entry k r).Within K := by
  rw [h.entry_eq k hk r hr]
  split_ifs
  exacts [hb, hb', Bound.within_zero hK, Bound.within_infinity K]

/-! ## Detours -/

/-- No detour over the same clock is shorter. -/
theorem entry_le_zero_add (h : OnePair m i j b b') (hb : b.Within Bound.maxValue)
    (hb' : b'.Within Bound.maxValue) (hk : k < m.dim) (hr : r < m.dim) :
    m.entry k r ≤ m.entry k k + m.entry k r := by
  have within := h.within (by decide) hb hb' hk hr
  rw [h.entry_self hk, Bound.bound_add_comm, Bound.bound_add_zero within le_rfl]

/-- A detour over the other clock of the pair is not shorter if the bounds leave room. -/
theorem entry_le_through (h : OnePair m i j b b') (hb : b.Within Bound.maxValue)
    (sat : .zero ≤ b + b') (hr : r < m.dim) : m.entry i r ≤ m.entry i j + m.entry j r := by
  rw [h.entry_left]
  by_cases same : r = i
  · rwa [same, h.entry_right, h.entry_self h.left]
  by_cases other : r = j
  · rw [other, h.entry_left, h.entry_self h.right, Bound.bound_add_zero hb le_rfl]
  · rw [h.entry_eq_infinity h.right hr (Ne.symm other) (by simp [other]) (by simp [same]),
      h.entry_eq_infinity h.left hr (Ne.symm same) (by simp [other]) (by simp [same]),
      Bound.add_infinity]

/-- **If the bounds leave room between them, then the matrix is closed.** -/
theorem isClosed (h : OnePair m i j b b') (hb : b.Within Bound.maxValue)
    (hb' : b'.Within Bound.maxValue) (sat : .zero ≤ b + b') : m.isClosed = true := by
  refine isClosed_iff.2 fun k hk r hr => ?_
  by_cases same : r = k
  · subst same
    exact .inr fun l hl => h.entry_le_zero_add hb hb' hr hl
  by_cases left : r = i ∧ k = j
  · obtain ⟨rfl, rfl⟩ := left
    exact .inr fun l hl => h.entry_le_through hb sat hl
  by_cases right : r = j ∧ k = i
  · obtain ⟨rfl, rfl⟩ := right
    exact .inr fun l hl => h.symm.entry_le_through hb' (Bound.bound_add_comm b b' ▸ sat) hl
  · exact .inl (h.entry_eq_infinity hr hk same left right)

theorem close_eq_self (h : OnePair m i j b b') (hb : b.Within Bound.maxValue)
    (hb' : b'.Within Bound.maxValue) (sat : .zero ≤ b + b') : m.close = (m, true) := by
  refine Dbm.close_eq_self (h.isClosed hb hb' sat) (isEmpty_eq_false_iff.2 fun k hk => ?_)
  rw [h.entry_self hk]

end OnePair

/-! ## A negative cycle -/

/-- The loop over the detours stops with a mark if one of them has a negative cycle and those
before it change nothing. -/
theorem closeAlong_eq_false (idle : ∀ d ∈ ds, m.entry d.2 d.1 = .infinity ∨
      m.relaxRow (m.entry d.2 d.1) d.1 d.2 = m ∨
      (m.relaxRow (m.entry d.2 d.1) d.1 d.2).entry d.2 d.2 < .zero)
    (cycle : ∃ d ∈ ds, m.entry d.2 d.1 ≠ .infinity ∧
      (m.relaxRow (m.entry d.2 d.1) d.1 d.2).entry d.2 d.2 < .zero) :
    (closeAlong ds m).2 = false := by
  induction ds with
  | nil => simp at cycle
  | cons d ds ih =>
    obtain ⟨now, later⟩ := List.forall_mem_cons.1 idle
    rw [List.exists_mem_cons_iff] at cycle
    unfold closeAlong
    dsimp only
    split_ifs with top negative
    · rw [Bound.isInfinity_iff] at top
      exact ih later (cycle.resolve_left fun found => found.1 top)
    · rfl
    · have same := (now.resolve_left fun top' => top (Bound.isInfinity_iff.2 top')).resolve_right
        negative
      rw [same]
      exact ih later (cycle.resolve_left fun found => negative found.2)

namespace OnePair

/-- The detour over the other clock of the pair makes the diagonal negative. -/
theorem entry_relaxRow_lt (h : OnePair m i j b b') (broken : b + b' < .zero) :
    (m.relaxRow (m.entry i j) j i).entry i i < .zero := by
  have inside : ∀ l ∈ List.range m.dim, l < m.dim := fun l hl => List.mem_range.1 hl
  have entry : (m.relaxRow (m.entry i j) j i).entry i i =
      min (m.entry i i) (m.entry i j + m.entry j i) :=
    (entry_tightenAlong h.left h.right h.ne inside h.left).trans
      (if_pos ⟨rfl, List.mem_range.2 h.left⟩)
  rw [entry, h.entry_left, h.entry_right]
  exact (min_le_right _ _).trans_lt broken

/-- **If the bounds leave no room, then closing finds the matrix empty.** -/
theorem close_eq_false (h : OnePair m i j b b') (hb : b.Within Bound.maxValue)
    (hb' : b'.Within Bound.maxValue) (broken : b + b' < .zero) : m.close.2 = false := by
  have finite : b ≠ .infinity := Bound.ne_infinity_of_add_lt broken
  refine closeAlong_eq_false (fun ⟨k, r⟩ hd => ?_)
    ⟨(j, i), mem_detours.2 ⟨h.right, h.left⟩, h.entry_left ▸ finite, h.entry_relaxRow_lt broken⟩
  obtain ⟨hk, hr⟩ := mem_detours.1 hd
  dsimp only at hk hr ⊢
  by_cases same : r = k
  · subst same
    exact .inr (.inl (relaxRow_eq_self fun l hl => h.entry_le_zero_add hb hb' hr hl))
  by_cases left : r = i ∧ k = j
  · obtain ⟨rfl, rfl⟩ := left
    exact .inr (.inr (h.entry_relaxRow_lt broken))
  by_cases right : r = j ∧ k = i
  · obtain ⟨rfl, rfl⟩ := right
    exact .inr (.inr (h.symm.entry_relaxRow_lt (Bound.bound_add_comm b b' ▸ broken)))
  · exact .inl (h.entry_eq_infinity hr hk same left right)

end OnePair

end ZoneDiagram.Dbm

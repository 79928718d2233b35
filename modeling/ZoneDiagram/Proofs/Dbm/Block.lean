import ZoneDiagram.Proofs.Dbm.Closed
import ZoneDiagram.Proofs.Dbm.Extension

/-!
# More clocks and fewer clocks

A settled matrix stays settled among more clocks, where it has the same valuations
(`Settled.extended`), and so does its block on its first clocks. A valuation meets the block
exactly if it extends to one of the whole matrix (`Settled.holds_projected_iff`).

The entries of a settled matrix are the tightest bounds on its valuations. So settled matrices with
the same valuations are equal (`Settled.eq_of_holds_iff`).
-/

namespace ZoneDiagram.Dbm

variable {K L : Int} {m o : Dbm} {n : Nat} {n_pos : 0 < n} {i j : Nat} {v : Valuation}

theorem Room.mono {k n : Nat} (room : Room n K) (le : k ≤ n) : Room k K where
  nonneg := room.nonneg
  small := by
    have : (k : Int) * K ≤ n * K := mul_le_mul_of_nonneg_right (Int.ofNat_le.2 le) room.nonneg
    linarith [room.small]

/-- Matrices are equal if their entries are. -/
theorem ext_entry (dim : m.dim = o.dim)
    (entries : ∀ i < m.dim, ∀ j < m.dim, m.entry i j = o.entry i j) : m = o := by
  obtain ⟨n, as, n_pos, sizeA⟩ := m
  obtain ⟨n', bs, n_pos', sizeB⟩ := o
  obtain rfl : n = n' := dim
  have same : as = bs := by
    refine Array.ext (sizeA.trans sizeB.symm) fun p hp hp' => ?_
    have lt : p < n * n := sizeA ▸ hp
    have split : p / n * n + p % n = p := by
      rw [Nat.mul_comm]
      exact Nat.div_add_mod p n
    have entry := entries (p / n) (Nat.div_lt_of_lt_mul lt) (p % n) (Nat.mod_lt p n_pos)
    simpa [Dbm.entry, split, Array.getD, hp, hp'] using entry
  subst same
  rfl

/-! ## Matrices that are closed by the test -/

/-- A matrix with small constants that passes for closed is settled. -/
theorem settled_of_isClosed (closed : m.isClosed = true) (room : Room m.dim K)
    (zeros : ∀ i < m.dim, m.entry i i = .zero)
    (within : ∀ i < m.dim, ∀ j < m.dim, (m.entry i j).Within K) : m.Settled K := by
  have nonneg := room.nonneg
  have small := room.small
  have one_le : (1 : Int) ≤ m.dim := Int.ofNat_le.2 m.dim_pos
  have fits : K + K ≤ Bound.maxValue := by nlinarith
  refine settled_of_closed zeros ⟨fun i hi => weight_self (zeros i hi), fun i hi k hk j hj => ?_⟩
    fun i hi j hj _ => within i hi j hj
  have left := within i hi k hk
  have right := within k hk j hj
  rw [weight, weight, weight, ← Bound.below_add left right fits]
  rcases isClosed_iff.1 closed k hk i hi with top | detours
  · rw [top, Bound.infinity_add, Bound.below_infinity]
    exact le_top
  · exact Bound.below_mono ((Bound.within_add left right fits).le_infinity fits) (detours j hj)

/-! ## The tightest bounds -/

/-- A difference that an entry holds of is reached by some valuation, or passed. -/
theorem Settled.exists_le_difference (h : m.Settled K) (hi : i < m.dim) (hj : j < m.dim)
    (ne : i ≠ j) {x : ℚ} (hx : x ∈ m.weight i j) : ∃ v, m.Holds v ∧ x ≤ v i - v j := by
  -- Some difference is allowed by both entries of the pair; the larger of the two is taken.
  obtain ⟨y, hy, z, hz, sum⟩ : (0 : ℚ) ∈ m.weight i j + m.weight j i :=
    Bound.zero_le_iff_mem.1 ((Bound.zero_le_add_iff _ _).1 (h.zero_le_add hi hj))
  have sum : y + z = 0 := sum
  have upper : max x y ∈ m.weight i j := by
    rcases max_choice x y with eq | eq <;> rw [eq]
    exacts [hx, hy]
  have lower : -max x y ∈ m.weight j i :=
    (m.weight j i).lower (by linarith [le_max_right x y]) hz
  obtain ⟨v, hv, eq⟩ := h.exists_difference hi hj ne upper lower
  exact ⟨v, hv, eq ▸ le_max_left x y⟩

/-- A bound below the entry is broken by some valuation. -/
theorem Settled.exists_not_holds_of_lt {b : Bound} (h : m.Settled K) (room : Room m.dim K)
    (hi : i < m.dim) (hj : j < m.dim) (ne : i ≠ j) (lt : b < m.entry i j) :
    ∃ v, m.Holds v ∧ ¬b.Holds (v i - v j) := by
  obtain ⟨x, hx, broken⟩ := Bound.exists_holds_of_lt (h.le_infinity room hi hj) lt
  obtain ⟨v, hv, le⟩ := h.exists_le_difference hi hj ne hx
  exact ⟨v, hv, fun holds => broken (holds.mono le)⟩

/-- A bound that holds of all valuations of a settled matrix is no tighter than the entry. -/
theorem Settled.entry_le {b : Bound} (h : m.Settled K) (room : Room m.dim K) (hi : i < m.dim)
    (hj : j < m.dim) (ne : i ≠ j) (implied : ∀ v, m.Holds v → b.Holds (v i - v j)) :
    m.entry i j ≤ b := by
  by_contra lt
  obtain ⟨v, hv, broken⟩ := h.exists_not_holds_of_lt room hi hj ne (not_le.1 lt)
  exact broken (implied v hv)

/-- **Settled matrices with the same valuations are equal.** -/
theorem Settled.eq_of_holds_iff (hm : m.Settled K) (ho : o.Settled L) (roomK : Room m.dim K)
    (roomL : Room o.dim L) (dim : m.dim = o.dim) (same : ∀ v, m.Holds v ↔ o.Holds v) : m = o := by
  refine ext_entry dim fun i hi j hj => ?_
  have hi' := dim ▸ hi
  have hj' := dim ▸ hj
  by_cases ne : i = j
  · subst ne
    rw [hm.diagonal i hi, ho.diagonal i hi']
  · refine le_antisymm ?_ ?_
    · exact hm.entry_le roomK hi hj ne fun v hv => (same v).1 hv i hi' j hj'
    · exact ho.entry_le roomL hi' hj' ne fun v hv => (same v).2 hv i hi j hj

/-! ## Among more clocks -/

theorem entry_extended (hi : i < n) (hj : j < n) : (m.extended n n_pos).entry i j =
    if i < m.dim ∧ j < m.dim then m.entry i j else if i = j then .zero else .infinity :=
  entry_ofFn hi hj

theorem weight_extended (hi : i < n) (hj : j < n) : (m.extended n n_pos).weight i j =
    if i < m.dim ∧ j < m.dim then m.weight i j else if i = j then 0 else ⊤ := by
  rw [weight, entry_extended hi hj]
  split
  · rfl
  split
  · exact Bound.below_zero
  · exact Bound.below_infinity

/-- The further clocks are not constrained. -/
theorem holds_extended_iff (le : m.dim ≤ n) :
    (m.extended n n_pos).Holds v ↔ m.Holds v := by
  constructor
  · intro hv i hi j hj
    have := hv i (hi.trans_le le) j (hj.trans_le le)
    rwa [entry_extended (hi.trans_le le) (hj.trans_le le), if_pos ⟨hi, hj⟩] at this
  · intro hv i (hi : i < n) j (hj : j < n)
    rw [entry_extended hi hj]
    by_cases block : i < m.dim ∧ j < m.dim
    · rw [if_pos block]
      exact hv i block.1 j block.2
    · rw [if_neg block]
      split
      next eq =>
        rw [eq, sub_self, ← Bound.mem_below, Bound.below_zero]
        exact Bound.zero_le_iff_mem.1 le_rfl
      · exact Bound.holds_infinity _

theorem closed_extended (h : Closed m.dim m.weight) : Closed n (m.extended n n_pos).weight where
  self i hi := by
    rw [weight_extended hi hi, if_pos rfl]
    split
    next block => exact h.self i block.1
    · rfl
  triangle i hi k hk j hj := by
    have any (b : Bound) : (⊤ : LowerSet ℚ) ≤ ⊤ + b.below := (Bound.top_add_below b).ge
    by_cases hik : i < m.dim ∧ k < m.dim
    · by_cases hj' : j < m.dim
      · rw [weight_extended hi hj, weight_extended hi hk, weight_extended hk hj, if_pos hik,
          if_pos ⟨hik.1, hj'⟩, if_pos ⟨hik.2, hj'⟩]
        exact h.triangle i hik.1 k hik.2 j hj'
      · have far : ¬ (k < m.dim ∧ j < m.dim) := fun block => hj' block.2
        have ne : k ≠ j := fun eq => hj' (eq ▸ hik.2)
        rw [weight_extended hk hj, if_neg far, if_neg ne, add_comm]
        exact le_top.trans (any _)
    · by_cases eq : i = k
      · subst eq
        rw [weight_extended hi hk, if_neg hik, if_pos rfl, zero_add]
      · rw [weight_extended hi hk, if_neg hik, if_neg eq]
        exact le_top.trans (any _)

theorem Settled.extended (h : m.Settled K) (le : m.dim ≤ n) : (m.extended n n_pos).Settled K := by
  have zeros : ∀ i < n, (m.extended n n_pos).entry i i = .zero := by
    intro i hi
    rw [entry_extended hi hi, if_pos rfl]
    split
    next block => exact h.diagonal i block.1
    · rfl
  refine ⟨zeros, closed_extended h.closed, fun i (hi : i < n) j (hj : j < n) => ?_⟩
  by_cases block : i < m.dim ∧ j < m.dim
  · obtain ⟨S, hS, within⟩ := h.spread i block.1 j block.2
    rw [entry_extended hi hj, if_pos block]
    refine ⟨S, ⟨fun w hw => (hS.lt w hw).trans_le le, hS.first, hS.last, fun w hw => ?_⟩, within⟩
    have hw' := hS.lt w hw
    have hwn : w < n := hw'.trans_le le
    change (m.extended n n_pos).weight i w + (m.extended n n_pos).weight w j ≤
      (m.extended n n_pos).weight i j
    rw [weight_extended hi hwn, weight_extended hwn hj, weight_extended hi hj,
      if_pos ⟨block.1, hw'⟩, if_pos ⟨hw', block.2⟩, if_pos block]
    exact hS.split w hw
  · refine ⟨_, splitsAt_of_within zeros hi hj fun ne => ?_⟩
    rw [entry_extended hi hj, if_neg block, if_neg ne]
    exact Bound.within_infinity K

/-- A constraint on clocks of the block is added to the block. -/
theorem Addable.constrain_extended {b : Bound} (h : Addable K m i j b) (room : Room n K)
    (le : m.dim ≤ n) : ((m.extended n n_pos).constrain i j b).1 =
      (m.constrain i j b).1.extended n n_pos := by
  have add : Addable K (m.extended n n_pos) i j b := {
    settled := h.settled.extended le
    room := room
    left := h.left.trans_le le
    right := h.right.trans_le le
    ne := h.ne
    within := h.within
    sat := by
      rw [entry_extended (h.right.trans_le le) (h.left.trans_le le), if_pos ⟨h.right, h.left⟩]
      exact h.sat }
  have dim := dim_constrain (m.extended n n_pos) i j b
  have le' : (m.constrain i j b).1.dim ≤ n := (dim_constrain m i j b).trans_le le
  refine add.settled_constrain.eq_of_holds_iff (h.settled_constrain.extended le') (dim ▸ room) room
    dim fun v => ?_
  rw [add.holds_constrain_iff, holds_extended_iff le, holds_extended_iff le',
    h.holds_constrain_iff]

theorem unconstrained_extended (i_pos : 0 < i) :
    (unconstrained i i_pos).extended n n_pos = unconstrained n n_pos := by
  refine ext_entry rfl fun k (hk : k < n) l (hl : l < n) => ?_
  rw [entry_extended hk hl, entry_unconstrained hk hl]
  split
  next block => exact entry_unconstrained block.1 block.2
  · rfl

/-! ## On the first clocks -/

theorem entry_projected (hi : i < n) (hj : j < n) : (m.projected n n_pos).entry i j = m.entry i j :=
  entry_ofFn hi hj

theorem weight_projected (n_pos : 0 < n) (hi : i < n) (hj : j < n) :
    (m.projected n n_pos).weight i j = m.weight i j := congrArg Bound.below (entry_projected hi hj)

theorem Settled.projected (h : m.Settled K) (hK : 0 ≤ K) (le : n ≤ m.dim) :
    (m.projected n n_pos).Settled (m.dim * K) := by
  have inside {i : Nat} (hi : i < n) : i < m.dim := hi.trans_le le
  refine settled_of_closed (fun i (hi : i < n) => ?_) ⟨fun i (hi : i < n) => ?_, ?_⟩
    fun i (hi : i < n) j (hj : j < n) _ => ?_
  · rw [entry_projected hi hi]
    exact h.diagonal i (inside hi)
  · rw [weight_projected n_pos hi hi]
    exact h.closed.self i (inside hi)
  · intro i (hi : i < n) k (hk : k < n) j (hj : j < n)
    rw [weight_projected n_pos hi hj, weight_projected n_pos hi hk, weight_projected n_pos hk hj]
    exact h.closed.triangle i (inside hi) k (inside hk) j (inside hj)
  · rw [entry_projected hi hj]
    exact (h.within hK (inside hi) (inside hj)).mono (by linarith)

/-- **A valuation meets the block exactly if it extends to one of the whole matrix.** -/
theorem Settled.holds_projected_iff (h : m.Settled K) (le : n ≤ m.dim) :
    (m.projected n n_pos).Holds v ↔ ∃ w, (∀ i < n, w i = v i) ∧ m.Holds w := by
  constructor
  · intro hv
    have meets : Meets m.weight (Finset.range n) v := by
      intro i hi j hj
      rw [Finset.mem_range] at hi hj
      rw [← weight_projected n_pos hi hj]
      exact hv i hi j hj
    have inside : ∀ i ∈ Finset.range n, i < m.dim := fun i hi =>
      (Finset.mem_range.1 hi).trans_le le
    obtain ⟨w, hw, agree⟩ := h.closed.exists_extension inside meets
    exact ⟨w, fun i hi => agree i (Finset.mem_range.2 hi), holds_of_meets hw⟩
  · rintro ⟨w, agree, hw⟩ i (hi : i < n) j (hj : j < n)
    rw [entry_projected hi hj, ← agree i hi, ← agree j hj]
    exact hw i (hi.trans_le le) j (hj.trans_le le)

/-- The block of a matrix that was extended is the matrix. -/
theorem projected_extended (le : m.dim ≤ n) :
    (m.extended n n_pos).projected m.dim m.dim_pos = m := by
  refine ext_entry rfl fun i (hi : i < m.dim) j (hj : j < m.dim) => ?_
  rw [entry_projected hi hj, entry_extended (hi.trans_le le) (hj.trans_le le), if_pos ⟨hi, hj⟩]

end ZoneDiagram.Dbm

import Mathlib.Data.Finset.Card
import ZoneDiagram.Dbm.Cut
import ZoneDiagram.Proofs.Dbm.Detour
import ZoneDiagram.Proofs.Dbm.Tighten

/-!
# Settled matrices

The contexts of a reduction: closed matrices of inhabited zones whose constants stay small
(`Dbm.Settled K`). The constants of the constraints have at most the magnitude `K`, and those of
the entries, which are sums along ways that meet no clock twice, at most `n` times as much. So no
sum on the way is clamped, and adding one more constraint with a small constant gives a settled
matrix again, with exactly the valuations that meet the constraint (`Settled.constrain`).
-/

namespace ZoneDiagram.Dbm

/-- The differences that the entry `(i, j)` holds of. -/
def weight (m : Dbm) (i j : Nat) : LowerSet ℚ := (m.entry i j).below

/-- The matrix is closed, no clock is below itself, and every entry splits along clocks so few
that its constant is small. -/
structure Settled (K : Int) (m : Dbm) : Prop where
  diagonal : ∀ i < m.dim, m.entry i i = .zero
  closed : Closed m.dim m.weight
  spread : ∀ i < m.dim, ∀ j < m.dim, ∃ S, SplitsAt m.dim m.weight S i j ∧
    (m.entry i j).Within ((S.card - 1) * K)

/-- Constants of magnitude `K` between `n` clocks add up without clamping. -/
structure Room (n : Nat) (K : Int) : Prop where
  nonneg : 0 ≤ K
  small : 2 * (n * K) ≤ Bound.maxValue

variable {K : Int} {m : Dbm} {i j k l : Nat} {b : Bound} {v : Valuation}

theorem Room.total_nonneg {n : Nat} (room : Room n K) : 0 ≤ n * K :=
  mul_nonneg (Int.natCast_nonneg n) room.nonneg

theorem Room.le_maxValue {n : Nat} (room : Room n K) (n_pos : 0 < n) : K ≤ Bound.maxValue := by
  have := room.nonneg
  have := room.small
  have : (1 : Int) ≤ n := Int.ofNat_le.2 n_pos
  nlinarith

theorem card_le_of_splitsAt {n : Nat} {d : Nat → Nat → LowerSet ℚ} {S : Finset Nat}
    (h : SplitsAt n d S i j) : S.card ≤ n := by
  have sub : S ⊆ Finset.range n := fun w hw => Finset.mem_range.2 (h.lt w hw)
  simpa using Finset.card_le_card sub

theorem within_of_splitsAt {n : Nat} {d : Nat → Nat → LowerSet ℚ} {S : Finset Nat}
    (hS : SplitsAt n d S i j) (hK : 0 ≤ K) (within : b.Within ((S.card - 1) * K)) :
    b.Within (n * K - K) := by
  refine within.mono ?_
  have : (S.card : Int) ≤ n := Int.ofNat_le.2 (card_le_of_splitsAt hS)
  nlinarith

theorem Settled.within (h : m.Settled K) (hK : 0 ≤ K) (hi : i < m.dim) (hj : j < m.dim) :
    (m.entry i j).Within (m.dim * K - K) := by
  obtain ⟨S, hS, within⟩ := h.spread i hi j hj
  exact within_of_splitsAt hS hK within

theorem Settled.le_infinity (h : m.Settled K) (room : Room m.dim K) (hi : i < m.dim)
    (hj : j < m.dim) : m.entry i j ≤ .infinity := by
  have := room.nonneg
  have := room.total_nonneg
  have := room.small
  exact (h.within room.nonneg hi hj).le_infinity (by linarith)

theorem Settled.isEmpty_eq_false (h : m.Settled K) : m.isEmpty = false := by
  rw [isEmpty, List.any_eq_false]
  intro i hi
  rw [h.diagonal i (List.mem_range.1 hi)]
  decide

/-! ## Matrices of constraints -/

theorem weight_self (hi : m.entry i i = .zero) : m.weight i i = 0 := by
  rw [weight, hi, Bound.below_zero]

/-- A single constraint splits at its two clocks. -/
theorem splitsAt_of_within (zeros : ∀ i < m.dim, m.entry i i = .zero) (hi : i < m.dim)
    (hj : j < m.dim) (within : i ≠ j → (m.entry i j).Within K) :
    SplitsAt m.dim m.weight {i, j} i j ∧
      (m.entry i j).Within ((({i, j} : Finset Nat).card - 1) * K) := by
  refine ⟨splitsAt_pair (fun i hi => weight_self (zeros i hi)) hi hj, ?_⟩
  by_cases eq : i = j
  · subst eq
    rw [zeros i hi]
    exact Bound.within_zero (by simp)
  · rw [Finset.card_pair eq]
    exact (within eq).mono (by simp)

/-- A closed matrix of small constants is settled. -/
theorem settled_of_closed (zeros : ∀ i < m.dim, m.entry i i = .zero) (closed : Closed m.dim m.weight)
    (within : ∀ i < m.dim, ∀ j < m.dim, i ≠ j → (m.entry i j).Within K) : m.Settled K :=
  ⟨zeros, closed, fun i hi j hj => ⟨_, splitsAt_of_within zeros hi hj (within i hi j hj)⟩⟩

theorem settled_unconstrained {n : Nat} (n_pos : 0 < n) :
    (unconstrained n n_pos).Settled K := by
  have weight {i j : Nat} (hi : i < n) (hj : j < n) :
      (unconstrained n n_pos).weight i j = if i = j then 0 else ⊤ := by
    rw [Dbm.weight, entry_unconstrained hi hj]
    split
    · exact Bound.below_zero
    · exact Bound.below_infinity
  have closed : Closed n (unconstrained n n_pos).weight := by
    refine ⟨fun i hi => by rw [weight hi hi, if_pos rfl], fun i hi k hk j hj => ?_⟩
    rw [weight hi hk, weight hk hj]
    by_cases hik : i = k
    · rw [if_pos hik, zero_add, ← hik, weight hi hj]
    · have top : (⊤ : LowerSet ℚ) + (if k = j then 0 else ⊤) = ⊤ := by
        split
        · exact add_zero _
        · exact Bound.top_add (d := 0) trivial
      rw [if_neg hik, top]
      exact le_top
  refine settled_of_closed (fun i (hi : i < n) => ?_) closed
    fun i (hi : i < n) j (hj : j < n) ne => ?_
  · rw [entry_unconstrained hi hi, if_pos rfl]
  · rw [entry_unconstrained hi hj, if_neg ne]
    exact Bound.within_infinity K

/-- No valuation is excluded if nothing is constrained. -/
theorem holds_unconstrained {n : Nat} (n_pos : 0 < n) (v : Valuation) :
    (unconstrained n n_pos).Holds v := by
  intro i (hi : i < n) j (hj : j < n)
  rw [entry_unconstrained hi hj]
  split
  next eq =>
    rw [eq, sub_self]
    decide
  next => exact Bound.holds_infinity _

/-! ## One more constraint -/

/-- A constraint on two clocks of a settled matrix that some valuation of its zone meets. -/
structure Addable (K : Int) (m : Dbm) (i j : Nat) (b : Bound) : Prop where
  settled : m.Settled K
  room : Room m.dim K
  left : i < m.dim
  right : j < m.dim
  ne : i ≠ j
  within : b.Within K
  sat : .zero ≤ b + m.entry j i

namespace Addable

theorem within_through (h : Addable K m i j b) (hk : k < m.dim) (hl : l < m.dim) :
    (m.entry k i + b + m.entry j l).Within (m.dim * K + (m.dim * K - K)) ∧
      (m.entry k i + b + m.entry j l).below = m.weight k i + b.below + m.weight j l := by
  have nonneg := h.room.nonneg
  have total := h.room.total_nonneg
  have small := h.room.small
  have hki := h.settled.within nonneg hk h.left
  have hjl := h.settled.within nonneg h.right hl
  have first : (m.entry k i + b).Within (m.dim * K) := by
    simpa using Bound.within_add hki h.within (by linarith)
  refine ⟨Bound.within_add first hjl (by linarith), ?_⟩
  rw [Bound.below_add first hjl (by linarith), Bound.below_add hki h.within (by linarith)]
  rfl

theorem through_le_infinity (h : Addable K m i j b) (hk : k < m.dim) (hl : l < m.dim) :
    m.entry k i + b + m.entry j l ≤ .infinity := by
  have := h.room.nonneg
  have := h.room.small
  exact (h.within_through hk hl).1.le_infinity (by linarith)

theorem le_infinity (h : Addable K m i j b) : b ≤ .infinity :=
  h.within.le_infinity (h.room.le_maxValue m.dim_pos)

theorem zero_le_back (h : Addable K m i j b) : 0 ≤ b.below + m.weight j i :=
  (Bound.zero_le_add_iff b (m.entry j i)).1 h.sat

theorem entry_le_iff_through (h : Addable K m i j b) (hk : k < m.dim) (hl : l < m.dim) :
    m.entry k l ≤ m.entry k i + b + m.entry j l ↔
      m.weight k l ≤ m.weight k i + b.below + m.weight j l := by
  rw [← Bound.below_le_iff (h.settled.le_infinity h.room hk hl) (h.through_le_infinity hk hl),
    (h.within_through hk hl).2]
  rfl

/-- Going through the constraint and back does not tighten an entry. -/
theorem entry_le_through_back (h : Addable K m i j b) (hl : l < m.dim) :
    m.entry j l ≤ m.entry j i + b + m.entry j l := by
  rw [h.entry_le_iff_through h.right hl]
  have cycle := h.settled.closed.zero_le_cycle h.left h.right h.zero_le_back h.right
  rw [h.settled.closed.self j h.right, add_zero] at cycle
  calc m.weight j l = 0 + m.weight j l := (zero_add _).symm
    _ ≤ m.weight j i + b.below + m.weight j l := by gcongr

/-- The detour through an implied constraint is no shorter than the one through its entry. -/
theorem entry_le_through_implied (h : Addable K m i j b) (implied : m.entry i j ≤ b)
    (hk : k < m.dim) (hl : l < m.dim) : m.entry k l ≤ m.entry k i + b + m.entry j l := by
  rw [h.entry_le_iff_through hk hl]
  have implied : m.weight i j ≤ b.below := Bound.below_mono h.le_infinity implied
  have closed := h.settled.closed
  calc m.weight k l ≤ m.weight k i + m.weight i l := closed.triangle k hk i h.left l hl
    _ ≤ m.weight k i + (m.weight i j + m.weight j l) := by
      gcongr; exact closed.triangle i h.left j h.right l hl
    _ = m.weight k i + m.weight i j + m.weight j l := (add_assoc ..).symm
    _ ≤ m.weight k i + b.below + m.weight j l := by gcongr

theorem through_ends (h : Addable K m i j b) : m.entry i i + b + m.entry j j = b := by
  have eq : (m.entry i i + b + m.entry j j).below = b.below := by
    rw [(h.within_through h.left h.right).2, h.settled.closed.self i h.left,
      h.settled.closed.self j h.right, zero_add, add_zero]
  exact Bound.eq_of_below_eq (h.through_le_infinity h.left h.right) h.le_infinity eq

theorem relaxable (h : Addable K m i j b) (new : b < m.entry i j) :
    Relaxable i j b (m.setEntry i j b) := by
  have row {l : Nat} (hl : l < m.dim) : (m.setEntry i j b).entry j l = m.entry j l := by
    rw [entry_setEntry h.left h.right hl, if_neg fun e => h.ne e.1.symm]
  refine ⟨h.left, h.right, fun k hk l hl => ?_, fun l hl => ?_⟩
  · rw [entry_setEntry h.left h.right hl]
    split
    · exact (le_of_lt new).trans (h.settled.le_infinity h.room h.left h.right)
    · exact h.settled.le_infinity h.room hk hl
  · rw [row hl, row h.left]
    exact h.entry_le_through_back hl

/-- Every entry is compared with one detour through the constraint. -/
theorem entry_constrain (h : Addable K m i j b) (hk : k < m.dim) (hl : l < m.dim) :
    (m.constrain i j b).1.entry k l = min (m.entry k l) (m.entry k i + b + m.entry j l) := by
  rw [constrain, if_neg (by rw [h.settled.isEmpty_eq_false]; exact Bool.false_ne_true)]
  split
  next implied => exact (min_eq_left (h.entry_le_through_implied implied hk hl)).symm
  next new =>
    have new : b < m.entry i j := not_le.1 new
    have old {r s : Nat} (hs : s < m.dim) (ne : ¬ (r = i ∧ s = j)) :
        (m.setEntry i j b).entry r s = m.entry r s := by
      rw [entry_setEntry h.left h.right hs, if_neg ne]
    rw [if_neg (not_lt.2 h.sat), entry_relaxThrough (h.relaxable new) hk hl,
      old h.left fun e => h.ne e.2, old hl fun e => h.ne e.1.symm]
    by_cases eq : k = i ∧ l = j
    · obtain ⟨rfl, rfl⟩ := eq
      rw [entry_setEntry h.left h.right hl, if_pos ⟨rfl, rfl⟩, h.through_ends, min_self,
        min_eq_right (le_of_lt new)]
    · rw [old hl eq]

theorem dim_constrain (m : Dbm) (i j : Nat) (b : Bound) : (m.constrain i j b).1.dim = m.dim := by
  unfold constrain
  split
  · rfl
  split
  · rfl
  split
  · rfl
  · rw [dim_relaxThrough]
    rfl

theorem weight_constrain (h : Addable K m i j b) (hk : k < m.dim) (hl : l < m.dim) :
    (m.constrain i j b).1.weight k l = shortened m.weight i j b.below k l := by
  rw [weight, h.entry_constrain hk hl, shortened, ← (h.within_through hk hl).2]
  rcases le_total (m.entry k l) (m.entry k i + b + m.entry j l) with le | le
  · rw [min_eq_left le]
    exact (min_eq_left (Bound.below_mono (h.through_le_infinity hk hl) le)).symm
  · rw [min_eq_right le]
    exact (min_eq_right (Bound.below_mono (h.settled.le_infinity h.room hk hl) le)).symm

theorem closed_constrain (h : Addable K m i j b) :
    Closed m.dim (m.constrain i j b).1.weight := by
  have closed := h.settled.closed.shortened h.left h.right h.zero_le_back
  refine ⟨fun k hk => ?_, fun k hk w hw l hl => ?_⟩
  · rw [h.weight_constrain hk hk]
    exact closed.self k hk
  · rw [h.weight_constrain hk hl, h.weight_constrain hk hw, h.weight_constrain hw hl]
    exact closed.triangle k hk w hw l hl

theorem splitsAt_constrain (h : Addable K m i j b) {S : Finset Nat}
    (hS : SplitsAt m.dim (shortened m.weight i j b.below) S k l) :
    SplitsAt m.dim (m.constrain i j b).1.weight S k l :=
  hS.congr fun _ hr _ hs => h.weight_constrain hr hs

theorem settled_constrain (h : Addable K m i j b) : (m.constrain i j b).1.Settled K := by
  have dim := dim_constrain m i j b
  refine ⟨fun k hk => ?_, dim.symm ▸ h.closed_constrain, fun k hk l hl => ?_⟩ <;> rw [dim] at *
  · rw [h.entry_constrain hk hk, h.settled.diagonal k hk]
    refine min_eq_left ?_
    rw [← h.settled.diagonal k hk, h.entry_le_iff_through hk hk, h.settled.closed.self k hk]
    exact h.settled.closed.zero_le_cycle h.left h.right h.zero_le_back hk
  · obtain ⟨S, hS, hSw⟩ := h.settled.spread k hk l hl
    rw [h.entry_constrain hk hl]
    -- Either the old entry stays, or the way through the new constraint is shorter.
    rcases le_or_gt (m.entry k l) (m.entry k i + b + m.entry j l) with le | lt
    · rw [min_eq_left le]
      exact ⟨S, h.splitsAt_constrain
        (hS.shortened_of_le ((h.entry_le_iff_through hk hl).1 le)), hSw⟩
    · obtain ⟨T, hT, hTw⟩ := h.settled.spread k hk i h.left
      obtain ⟨U, hU, hUw⟩ := h.settled.spread j h.right l hl
      have shorter : m.weight k i + b.below + m.weight j l < m.weight k l := by
        rw [← not_le, ← h.entry_le_iff_through hk hl]
        exact not_le.2 lt
      have disjoint := h.settled.closed.disjoint_of_lt h.left h.right h.zero_le_back hk hl hT hU
        shorter
      have splits := hT.shortened_of_lt hU shorter
      rw [min_eq_right (le_of_lt lt)]
      refine ⟨T ∪ U, h.splitsAt_constrain splits, ?_⟩
      -- No clock is met twice, so the numbers of steps add up.
      have card : ((T ∪ U).card : Int) = T.card + U.card := by
        exact_mod_cast Finset.card_union_of_disjoint disjoint
      have total : ((T ∪ U).card : Int) * K ≤ m.dim * K :=
        mul_le_mul_of_nonneg_right (Int.ofNat_le.2 (card_le_of_splitsAt splits)) h.room.nonneg
      have hUK : 0 ≤ (U.card : Int) * K := mul_nonneg (Int.natCast_nonneg _) h.room.nonneg
      have nonneg := h.room.nonneg
      have small := h.room.small
      have all := h.room.total_nonneg
      rw [card, add_mul] at total
      have first : (m.entry k i + b).Within (T.card * K) :=
        (Bound.within_add hTw h.within (by linarith)).mono (by linarith)
      refine (Bound.within_add first hUw (by linarith)).mono (le_of_eq ?_)
      rw [card]
      ring

/-- **Adding a constraint keeps exactly the valuations that meet it.** -/
theorem holds_constrain_iff (h : Addable K m i j b) (v : Valuation) :
    (m.constrain i j b).1.Holds v ↔ m.Holds v ∧ b.Holds (v i - v j) := by
  unfold Holds
  rw [dim_constrain]
  simp only [← Bound.mem_below]
  change (∀ k < m.dim, ∀ l < m.dim, v k - v l ∈ (m.constrain i j b).1.weight k l) ↔
    (∀ k < m.dim, ∀ l < m.dim, v k - v l ∈ m.weight k l) ∧ v i - v j ∈ b.below
  constructor
  · intro hv
    refine ⟨fun k hk l hl => ?_, ?_⟩
    · have := hv k hk l hl
      rw [h.weight_constrain hk hl] at this
      exact Bound.mem_of_le (shortened_le ..) this
    · have := hv i h.left j h.right
      rw [h.weight_constrain h.left h.right] at this
      have := Bound.mem_of_le (min_le_right ..) this
      rwa [h.settled.closed.self i h.left, h.settled.closed.self j h.right, zero_add,
        add_zero] at this
  · rintro ⟨hv, hb⟩ k hk l hl
    rw [h.weight_constrain hk hl]
    have through : v k - v l ∈ m.weight k i + b.below + m.weight j l :=
      ⟨v k - v j, ⟨v k - v i, hv k hk i h.left, v i - v j, hb, sub_add_sub_cancel _ _ _⟩,
        v j - v l, hv j h.right l hl, sub_add_sub_cancel _ _ _⟩
    -- An entry is the old one or the way through the new constraint.
    rcases min_choice (m.weight k l) (m.weight k i + b.below + m.weight j l) with eq | eq <;>
      rw [shortened, eq]
    · exact hv k hk l hl
    · exact through

end Addable

end ZoneDiagram.Dbm

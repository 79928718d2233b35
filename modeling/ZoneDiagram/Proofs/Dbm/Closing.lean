import ZoneDiagram.Proofs.Dbm.Closed

/-!
# Closing any matrix

The full closure works in rounds. The round of a clock `k` compares every entry with the detour
over `k`; it neither changes row `k` nor column `k`, so all detours are taken as they were before
the round (`Halfway.entry_round`).

Before the round of clock `k`, no detour over an earlier clock is shorter than the direct way
(`Halfway`). Every entry splits along clocks of which all but its ends are earlier ones. If a
detour over `k` is really shorter, the clocks before `k` and those after it have only `k` in
common, unless there is a negative cycle. So constants stay as small as in a settled matrix, and
nothing is clamped before the first negative cycle is found.

**Theorem (`close_spec`).** Closing a matrix with small constants gives a settled matrix with the
same valuations, or finds that there are none.
-/

namespace ZoneDiagram

/-! ## Weights -/

section Weights

variable {W : Type} [AddCommMonoid W] [LinearOrder W] {k n : Nat} {d : Nat → Nat → W}
  {i j : Nat} {S T : Finset Nat}

/-- Among the first `n` clocks, a clock is at no distance from itself and no detour over one of the
first `k` clocks is shorter than the direct way. -/
structure ClosedBelow (k n : Nat) (d : Nat → Nat → W) : Prop where
  self : ∀ i < n, d i i = 0
  triangle : ∀ w < k, ∀ i < n, ∀ j < n, d i j ≤ d i w + d w j

/-- The clocks on a way are its ends and some of the first `k`. -/
def Inner (k : Nat) (S : Finset Nat) (i j : Nat) : Prop := ∀ w ∈ S, w < k ∨ w = i ∨ w = j

theorem ClosedBelow.closed (h : ClosedBelow n n d) : Closed n d where
  self := h.self
  triangle i hi w hw j hj := h.triangle w hw i hi j hj

theorem inner_pair (k i j : Nat) : Inner k {i, j} i j := by
  intro w hw
  right
  simpa using hw

theorem Inner.of_le (h : Inner k S i j) : Inner (k + 1) S i j := fun w hw =>
  (h w hw).imp_left Nat.lt_succ_of_lt

theorem Inner.union (hS : Inner k S i k) (hT : Inner k T k j) : Inner (k + 1) (S ∪ T) i j := by
  intro w hw
  rcases Finset.mem_union.1 hw with hw | hw
  · have := hS w hw
    omega
  · have := hT w hw
    omega

variable [IsOrderedAddMonoid W]

/-- The detours over one more clock, if no cycle through it is negative. -/
theorem ClosedBelow.shortened (h : ClosedBelow k n d) (hk : k < n)
    (cycle : ∀ i < n, 0 ≤ d i k + d k i) : ClosedBelow (k + 1) n (shortened d k k 0) where
  self i hi := by
    rw [ZoneDiagram.shortened, h.self i hi, add_zero]
    exact min_eq_left (cycle i hi)
  triangle w hw i hi j hj := by
    rcases Nat.lt_succ_iff_lt_or_eq.1 hw with hw | rfl
    · have hwn : w < n := hw.trans hk
      have via := h.triangle w hw
      simp only [ZoneDiagram.shortened, add_zero]
      rcases min_choice (d i w) (d i k + d k w) with hiw | hiw <;>
        rcases min_choice (d w j) (d w k + d k j) with hwj | hwj <;> rw [hiw, hwj]
      · exact (min_le_left _ _).trans (via i hi j hj)
      · refine (min_le_right _ _).trans ?_
        calc d i k + d k j ≤ d i w + d w k + d k j := by gcongr; exact via i hi k hk
          _ = d i w + (d w k + d k j) := add_assoc _ _ _
      · refine (min_le_right _ _).trans ?_
        calc d i k + d k j ≤ d i k + (d k w + d w j) := by gcongr; exact via k hk j hj
          _ = d i k + d k w + d w j := (add_assoc _ _ _).symm
      · refine (min_le_right _ _).trans ?_
        calc d i k + d k j = d i k + 0 + d k j := by rw [add_zero]
          _ ≤ d i k + (d w k + d k w) + d k j := by gcongr; exact cycle w hwn
          _ = d i k + d k w + (d w k + d k j) := by abel
    · simp only [ZoneDiagram.shortened, h.self w hk, add_zero, zero_add, min_self]
      exact min_le_right _ _

/-- A detour over the next clock that is shorter than the direct way meets no other clock twice. -/
theorem ClosedBelow.card_union (h : ClosedBelow k n d) (hk : k < n)
    (cycle : ∀ i < n, 0 ≤ d i k + d k i) (hi : i < n) (hj : j < n) (hS : SplitsAt n d S i k)
    (hT : SplitsAt n d T k j) (innerS : Inner k S i k) (innerT : Inner k T k j)
    (lt : d i k + d k j < d i j) : (S ∪ T).card + 1 = S.card + T.card := by
  have common : S ∩ T = {k} := by
    ext w
    rw [Finset.mem_inter, Finset.mem_singleton]
    constructor
    · rintro ⟨hwS, hwT⟩
      by_contra ne
      have hw := hS.lt w hwS
      -- One could leave out the cycle from `w` over `k` and back.
      have leave : d i w + d w j ≤ d i k + d k j := by
        calc d i w + d w j = d i w + 0 + d w j := by rw [add_zero]
          _ ≤ d i w + (d w k + d k w) + d w j := by gcongr; exact cycle w hw
          _ = (d i w + d w k) + (d k w + d w j) := by abel
          _ ≤ d i k + d k j := add_le_add (hS.split w hwS) (hT.split w hwT)
      refine absurd (leave.trans_lt lt) (not_lt.2 ?_)
      by_cases early : w < k
      · exact h.triangle w early i hi j hj
      · have left : w = i := by
          have := innerS w hwS
          omega
        rw [← left, h.self w hw, zero_add]
    · rintro rfl
      exact ⟨hS.last, hT.first⟩
  have := Finset.card_union_add_card_inter S T
  rwa [common, Finset.card_singleton] at this

end Weights

namespace Dbm

variable {K : Int} {m : Dbm} {i j k : Nat} {is : List Nat} {ds : List (Nat × Nat)}

/-! ## One round -/

/-- Column `k` is not changed by the round of clock `k`, and there is no negative cycle yet. -/
structure Pivot (k : Nat) (m : Dbm) : Prop extends Relaxable k k .zero m where
  center : m.entry k k = .zero
  unit : ∀ i < m.dim, m.entry i k + .zero = m.entry i k
  diagonal : ∀ i < m.dim, .zero ≤ m.entry i i

/-- The bound on the cycle from a clock over `k` and back. -/
def cycle (m : Dbm) (k i : Nat) : Bound := m.entry i k + m.entry k i

theorem Pivot.entry_row (h : Pivot k m) (hi : i < m.dim) (hj : j < m.dim) {r : Nat} :
    (relaxRowThrough k k .zero m i).entry r j =
      if r = i then min (m.entry i j) (m.entry i k + m.entry k j) else m.entry r j := by
  rw [entry_relaxRowThrough h.toRelaxable hi hj, h.unit i hi]

theorem Pivot.entry_column (h : Pivot k m) (hi : i < m.dim) (r : Nat) :
    (relaxRowThrough k k .zero m i).entry r k = m.entry r k := by
  rw [h.entry_row hi h.left, h.center, h.unit i hi, min_self]
  split
  next eq => rw [eq]
  next => rfl

theorem Pivot.cycle_row (h : Pivot k m) (hi : i < m.dim) {r : Nat} (hr : r < m.dim) :
    (relaxRowThrough k k .zero m i).cycle k r = m.cycle k r := by
  rw [cycle, h.entry_column hi, (h.toRelaxable.relaxRowThrough hi).2 r hr]
  rfl

/-- A row whose cycle is not negative leaves a pivot. -/
theorem Pivot.row (h : Pivot k m) (hi : i < m.dim) (nonneg : .zero ≤ m.cycle k i) :
    Pivot k (relaxRowThrough k k .zero m i) := by
  refine ⟨(h.toRelaxable.relaxRowThrough hi).1, (h.entry_column hi k).trans h.center,
    fun r hr => ?_, fun r hr => ?_⟩ <;> rw [dim_relaxRowThrough] at hr
  · rw [h.entry_column hi, h.unit r hr]
  · rw [h.entry_row hi hr]
    split
    next eq =>
      subst eq
      exact le_min (h.diagonal r hr) nonneg
    next => exact h.diagonal r hr

/-- The row of one detour clock: it is tightened, unless its cycle is negative. -/
theorem Pivot.closeAlong_cons (h : Pivot k m) (hi : i < m.dim) :
    closeAlong ((k, i) :: ds) m =
      if m.cycle k i < .zero then ((relaxRowThrough k k .zero m i).markEmpty, false)
      else closeAlong ds (relaxRowThrough k k .zero m i) := by
  have row : relaxRowThrough k k .zero m i = if (m.entry i k).isInfinity then m
      else m.relaxRow (m.entry i k) k i := by
    rw [relaxRowThrough_eq, h.unit i hi]
    rfl
  have diagonal := h.entry_row hi hi (r := i)
  rw [if_pos rfl] at diagonal
  rw [closeAlong]
  split
  -- A detour of infinite length changes nothing, and its cycle is not negative.
  next top =>
    have nonneg : ¬ m.cycle k i < .zero := by
      rw [cycle, Bound.isInfinity_iff.1 top, Bound.infinity_add]
      decide
    rw [if_neg nonneg, row, if_pos top]
  next finite =>
    rw [if_neg finite] at row
    have same : m.relaxRow (m.entry i k) k i = relaxRowThrough k k .zero m i := row.symm
    have negative : min (m.entry i i) (m.entry i k + m.entry k i) < .zero ↔
        m.cycle k i < .zero := by
      rw [min_lt_iff, or_iff_right (not_lt.2 (h.diagonal i hi))]
      rfl
    dsimp only
    rw [same, diagonal]
    simp only [negative]

/-- A whole round: the rows are tightened one after the other, unless a cycle is negative. -/
theorem Pivot.closeAlong_round (h : Pivot k m) (inside : ∀ i ∈ is, i < m.dim) :
    (∃ e, closeAlong (is.map (k, ·) ++ ds) m = (e, false) ∧ ∃ i ∈ is, m.cycle k i < .zero) ∨
      closeAlong (is.map (k, ·) ++ ds) m = closeAlong ds (is.foldl (relaxRowThrough k k .zero) m) ∧
        ∀ i ∈ is, .zero ≤ m.cycle k i := by
  induction is generalizing m with
  | nil => exact .inr ⟨rfl, by simp⟩
  | cons i is ih =>
    obtain ⟨hi, rest⟩ := List.forall_mem_cons.1 inside
    rw [List.map_cons, List.cons_append, h.closeAlong_cons hi]
    by_cases negative : m.cycle k i < .zero
    · rw [if_pos negative]
      exact .inl ⟨_, rfl, i, List.mem_cons_self, negative⟩
    · have pivot := h.row hi (not_lt.1 negative)
      have same {r : Nat} (hr : r ∈ is) := h.cycle_row hi (rest r hr)
      rw [if_neg negative]
      rcases ih pivot (by simpa using rest) with ⟨e, run, r, hr, lt⟩ | ⟨run, nonneg⟩
      · exact .inl ⟨e, run, r, List.mem_cons_of_mem i hr, same hr ▸ lt⟩
      · refine .inr ⟨run, List.forall_mem_cons.2 ⟨not_lt.1 negative, fun r hr => ?_⟩⟩
        exact same hr ▸ nonneg r hr

/-! ## Halfway -/

/-- The matrix before the round of clock `k`: every detour over an earlier clock is taken. -/
structure Halfway (K : Int) (k : Nat) (m : Dbm) : Prop where
  room : Room m.dim K
  diagonal : ∀ i < m.dim, m.entry i i = .zero
  closed : ClosedBelow k m.dim m.weight
  spread : ∀ i < m.dim, ∀ j < m.dim, ∃ S, SplitsAt m.dim m.weight S i j ∧ Inner k S i j ∧
    (m.entry i j).Within ((S.card - 1) * K)

/-- After the last round the matrix is settled. -/
theorem Halfway.settled (h : Halfway K m.dim m) : m.Settled K where
  diagonal := h.diagonal
  closed := h.closed.closed
  spread i hi j hj := by
    obtain ⟨S, hS, -, within⟩ := h.spread i hi j hj
    exact ⟨S, hS, within⟩

/-- Before the first round every entry is a constraint. -/
theorem halfway_zero (room : Room m.dim K) (zeros : ∀ i < m.dim, m.entry i i = .zero)
    (within : ∀ i < m.dim, ∀ j < m.dim, (m.entry i j).Within K) : Halfway K 0 m where
  room := room
  diagonal := zeros
  closed := ⟨fun i hi => weight_self (zeros i hi), by simp⟩
  spread i hi j hj := by
    obtain ⟨splits, small⟩ := splitsAt_of_within zeros hi hj fun _ => within i hi j hj
    exact ⟨_, splits, inner_pair 0 i j, small⟩

namespace Halfway

theorem within (h : Halfway K k m) (hi : i < m.dim) (hj : j < m.dim) :
    (m.entry i j).Within (m.dim * K - K) := by
  obtain ⟨S, hS, -, within⟩ := h.spread i hi j hj
  exact within_of_splitsAt hS h.room.nonneg within

theorem le_infinity (h : Halfway K k m) (hi : i < m.dim) (hj : j < m.dim) :
    m.entry i j ≤ .infinity := by
  have := h.room.nonneg
  have := h.room.total_nonneg
  have := h.room.small
  exact (h.within hi hj).le_infinity (by linarith)

/-- The sum along a detour is not clamped. -/
theorem within_through (h : Halfway K k m) (hk : k < m.dim) (hi : i < m.dim) (hj : j < m.dim) :
    m.entry i k + m.entry k j ≤ .infinity ∧
      (m.entry i k + m.entry k j).below = m.weight i k + m.weight k j := by
  have nonneg := h.room.nonneg
  have small := h.room.small
  have fits : m.dim * K - K + (m.dim * K - K) ≤ Bound.maxValue := by linarith
  have left := h.within hi hk
  have right := h.within hk hj
  exact ⟨(Bound.within_add left right fits).le_infinity fits, Bound.below_add left right fits⟩

theorem pivot (h : Halfway K k m) (hk : k < m.dim) : Pivot k m where
  left := hk
  right := hk
  le_infinity i hi j hj := h.le_infinity hi hj
  stable j hj := by
    have nonneg := h.room.nonneg
    have small := h.room.small
    rw [h.diagonal k hk, Bound.bound_add_zero (Bound.within_zero le_rfl) (by decide), Bound.bound_add_comm,
      Bound.bound_add_zero (h.within hk hj) (by linarith [h.room.total_nonneg])]
  center := h.diagonal k hk
  unit i hi := by
    have nonneg := h.room.nonneg
    have small := h.room.small
    exact Bound.bound_add_zero (h.within hi hk) (by linarith [h.room.total_nonneg])
  diagonal i hi := (h.diagonal i hi).ge

/-- The matrix after the round of clock `k`: every entry is compared with one detour. -/
theorem entry_round (h : Halfway K k m) (hk : k < m.dim) (hi : i < m.dim) (hj : j < m.dim) :
    (m.relaxThrough k k .zero).entry i j = min (m.entry i j) (m.entry i k + m.entry k j) := by
  have pivot := h.pivot hk
  rw [entry_relaxThrough pivot.toRelaxable hi hj, pivot.unit i hi]

theorem weight_round (h : Halfway K k m) (hk : k < m.dim) (hi : i < m.dim) (hj : j < m.dim) :
    (m.relaxThrough k k .zero).weight i j = shortened m.weight k k 0 i j := by
  obtain ⟨top, below⟩ := h.within_through hk hi hj
  rw [weight, h.entry_round hk hi hj, shortened, add_zero, ← below]
  rcases le_total (m.entry i j) (m.entry i k + m.entry k j) with le | le
  · rw [min_eq_left le]
    exact (min_eq_left (Bound.below_mono top le)).symm
  · rw [min_eq_right le]
    exact (min_eq_right (Bound.below_mono (h.le_infinity hi hj) le)).symm

/-- A shorter detour over clock `k` splits at the clocks of both its halves. -/
theorem spread_through (h : Halfway K k m) (hk : k < m.dim) (hi : i < m.dim) (hj : j < m.dim)
    (cycle : ∀ i < m.dim, 0 ≤ m.weight i k + m.weight k i)
    (shorter : m.weight i k + m.weight k j < m.weight i j) :
    ∃ S, SplitsAt m.dim (shortened m.weight k k 0) S i j ∧ Inner (k + 1) S i j ∧
      (m.entry i k + m.entry k j).Within ((S.card - 1) * K) := by
  obtain ⟨S, hS, innerS, withinS⟩ := h.spread i hi k hk
  obtain ⟨T, hT, innerT, withinT⟩ := h.spread k hk j hj
  have card := h.closed.card_union hk cycle hi hj hS hT innerS innerT shorter
  have union := hS.shortened_of_lt hT (b := 0) (by rwa [add_zero])
  refine ⟨S ∪ T, union, innerS.union innerT, ?_⟩
  -- Only clock `k` is met twice, so the numbers of steps add up.
  have total : ((S ∪ T).card : Int) - 1 = (S.card - 1) + (T.card - 1) := by omega
  have few : ((S ∪ T).card : Int) ≤ m.dim := Int.ofNat_le.2 (card_le_of_splitsAt union)
  have small := h.room.small
  have all := h.room.total_nonneg
  have fits : ((S ∪ T).card - 1) * K ≤ m.dim * K :=
    mul_le_mul_of_nonneg_right (by omega) h.room.nonneg
  rw [total, add_mul] at fits ⊢
  exact Bound.within_add withinS withinT (by linarith)

/-- **A round without negative cycle prepares the next one.** -/
theorem round (h : Halfway K k m) (hk : k < m.dim)
    (nonneg : ∀ i < m.dim, .zero ≤ m.cycle k i) :
    Halfway K (k + 1) (m.relaxThrough k k .zero) := by
  have cycle : ∀ i < m.dim, 0 ≤ m.weight i k + m.weight k i := fun i hi =>
    (Bound.zero_le_add_iff _ _).1 (nonneg i hi)
  have closed := h.closed.shortened hk cycle
  have splits {i j : Nat} {S : Finset Nat} (hi : i < m.dim) (hj : j < m.dim)
      (hS : SplitsAt m.dim (shortened m.weight k k 0) S i j) :
      SplitsAt m.dim (m.relaxThrough k k .zero).weight S i j :=
    hS.congr fun r hr s hs => h.weight_round hk hr hs
  refine ⟨?_, fun i hi => ?_, ⟨fun i hi => ?_, fun w hw i hi j hj => ?_⟩, fun i hi j hj => ?_⟩ <;>
    rw [dim_relaxThrough] at *
  · exact h.room
  · rw [h.entry_round hk hi hi, h.diagonal i hi]
    exact min_eq_left (nonneg i hi)
  · rw [h.weight_round hk hi hi]
    exact closed.self i hi
  · have hw' : w < m.dim := by omega
    rw [h.weight_round hk hi hj, h.weight_round hk hi hw', h.weight_round hk hw' hj]
    exact closed.triangle w hw i hi j hj
  · obtain ⟨top, below⟩ := h.within_through hk hi hj
    have le_iff : m.entry i j ≤ m.entry i k + m.entry k j ↔
        m.weight i j ≤ m.weight i k + m.weight k j := by
      rw [← Bound.below_le_iff (h.le_infinity hi hj) top, below]
      rfl
    rw [h.entry_round hk hi hj]
    -- Either the old entry stays, and with it its clocks, or the way through `k` is shorter.
    rcases le_or_gt (m.entry i j) (m.entry i k + m.entry k j) with le | lt
    · obtain ⟨S, hS, inner, within⟩ := h.spread i hi j hj
      rw [min_eq_left le]
      refine ⟨S, splits hi hj (hS.shortened_of_le ?_), inner.of_le, within⟩
      rw [add_zero]
      exact le_iff.1 le
    · have shorter : m.weight i k + m.weight k j < m.weight i j := by
        rw [← not_le, ← le_iff]
        exact not_le.2 lt
      obtain ⟨S, hS, inner, within⟩ := h.spread_through hk hi hj cycle shorter
      rw [min_eq_right (le_of_lt lt)]
      exact ⟨S, splits hi hj hS, inner, within⟩

theorem holds_round_iff (h : Halfway K k m) (hk : k < m.dim) (v : Valuation) :
    (m.relaxThrough k k .zero).Holds v ↔ m.Holds v := by
  unfold Holds
  rw [dim_relaxThrough]
  simp only [← Bound.mem_below]
  change (∀ i < m.dim, ∀ j < m.dim, v i - v j ∈ (m.relaxThrough k k .zero).weight i j) ↔
    ∀ i < m.dim, ∀ j < m.dim, v i - v j ∈ m.weight i j
  constructor <;> intro hv i hi j hj
  · have := hv i hi j hj
    rw [h.weight_round hk hi hj] at this
    exact Bound.mem_of_le (shortened_le ..) this
  · have through : v i - v j ∈ m.weight i k + 0 + m.weight k j := by
      rw [add_zero]
      exact ⟨v i - v k, hv i hi k hk, v k - v j, hv k hk j hj, sub_add_sub_cancel _ _ _⟩
    rw [h.weight_round hk hi hj]
    rcases min_choice (m.weight i j) (m.weight i k + 0 + m.weight k j) with eq | eq <;>
      rw [shortened, eq]
    · exact hv i hi j hj
    · exact through

end Halfway

/-! ## All rounds -/

/-- No valuation meets a matrix with a negative cycle. -/
theorem not_holds_of_cycle_lt {v : Valuation} (hi : i < m.dim) (hk : k < m.dim)
    (negative : m.cycle k i < .zero) : ¬ m.Holds v := by
  intro hv
  have back := hv k hk i hi
  rw [← neg_sub] at back
  exact absurd (Bound.zero_le_add_of_holds (hv i hi k hk) back) (not_le.2 negative)

/-- What closing a matrix gives: a settled matrix with the same valuations, or none are left. -/
def Closes (K : Int) (m : Dbm) : Dbm × Bool → Prop
  | (c, true) => c.dim = m.dim ∧ c.Settled K ∧ ∀ v, c.Holds v ↔ m.Holds v
  | (_, false) => ∀ v, ¬ m.Holds v

theorem Closes.of_same {m' : Dbm} {r : Dbm × Bool} (h : Closes K m' r) (dim : m'.dim = m.dim)
    (same : ∀ v, m'.Holds v ↔ m.Holds v) : Closes K m r := by
  rcases r with ⟨c, _ | _⟩
  · exact fun v hv => h v ((same v).2 hv)
  · exact ⟨h.1.trans dim, h.2.1, fun v => (h.2.2 v).trans (same v)⟩

/-- The rounds from clock `k` on. -/
theorem Halfway.closes {c : Nat} (h : Halfway K k m) (rest : k + c = m.dim) :
    Closes K m (closeAlong ((List.range' k c).flatMap fun k => (List.range m.dim).map (k, ·)) m) := by
  induction c generalizing k m with
  | zero => exact ⟨rfl, (rest ▸ h : Halfway K m.dim m).settled, fun v => Iff.rfl⟩
  | succ c ih =>
    have hk : k < m.dim := by omega
    have inside : ∀ i ∈ List.range m.dim, i < m.dim := fun i => List.mem_range.1
    rw [List.range'_succ, List.flatMap_cons]
    rcases (h.pivot hk).closeAlong_round inside with ⟨e, run, i, hi, negative⟩ | ⟨run, nonneg⟩
    · rw [run]
      exact fun v => not_holds_of_cycle_lt (inside i hi) hk negative
    · have next := h.round hk fun i hi => nonneg i (List.mem_range.2 hi)
      have closes := ih next (by rw [dim_relaxThrough]; omega)
      rw [dim_relaxThrough] at closes
      rw [run]
      exact closes.of_same (dim_relaxThrough ..) (h.holds_round_iff hk)

/-- **Closing a matrix with small constants gives a settled matrix with the same valuations, or
finds that there are none.** -/
theorem close_spec (room : Room m.dim K) (zeros : ∀ i < m.dim, m.entry i i = .zero)
    (within : ∀ i < m.dim, ∀ j < m.dim, (m.entry i j).Within K) : Closes K m m.close := by
  have closes := (halfway_zero room zeros within).closes (Nat.zero_add _)
  rwa [← List.range_eq_range'] at closes

/-! ## The constraints of two matrices -/

/-- The diagonal is zero, and the constants have at most the magnitude `K`. -/
structure Small (K : Int) (m : Dbm) : Prop where
  zeros : ∀ i < m.dim, m.entry i i = .zero
  within : ∀ i < m.dim, ∀ j < m.dim, (m.entry i j).Within K

theorem Small.mono {L : Int} (h : Small K m) (le : K ≤ L) : Small L m :=
  ⟨h.zeros, fun i hi j hj => (h.within i hi j hj).mono le⟩

variable {o : Dbm}

theorem entry_meet (hi : i < m.dim) (hj : j < m.dim) :
    (m.meet o).entry i j = min (m.entry i j) (o.entry i j) := entry_ofFn hi hj

theorem Small.meet (hm : Small K m) (ho : Small K o) (dim : m.dim = o.dim) :
    Small K (m.meet o) where
  zeros i (hi : i < m.dim) := by
    rw [entry_meet hi hi, hm.zeros i hi, ho.zeros i (dim ▸ hi), min_self]
  within i (hi : i < m.dim) j (hj : j < m.dim) := by
    rw [entry_meet hi hj]
    rcases min_choice (m.entry i j) (o.entry i j) with eq | eq <;> rw [eq]
    exacts [hm.within i hi j hj, ho.within i (dim ▸ hi) j (dim ▸ hj)]

/-- A valuation meets both constraints of every entry if it meets both matrices. -/
theorem Small.holds_meet_iff (hm : Small K m) (ho : Small K o) (dim : m.dim = o.dim)
    (hK : K ≤ Bound.maxValue) (v : Valuation) : (m.meet o).Holds v ↔ m.Holds v ∧ o.Holds v := by
  have entry {i j : Nat} (hi : i < m.dim) (hj : j < m.dim) :
      ((m.meet o).entry i j).Holds (v i - v j) ↔
        (m.entry i j).Holds (v i - v j) ∧ (o.entry i j).Holds (v i - v j) := by
    rw [entry_meet hi hj]
    exact Bound.holds_min_iff ((hm.within i hi j hj).le_infinity hK)
      ((ho.within i (dim ▸ hi) j (dim ▸ hj)).le_infinity hK)
  constructor
  · intro hv
    exact ⟨fun i hi j hj => ((entry hi hj).1 (hv i hi j hj)).1,
      fun i hi j hj => ((entry (dim ▸ hi) (dim ▸ hj)).1 (hv i (dim ▸ hi) j (dim ▸ hj))).2⟩
  · rintro ⟨left, right⟩ i hi j hj
    exact (entry hi hj).2 ⟨left i hi j hj, right i (dim ▸ hi) j (dim ▸ hj)⟩

end Dbm

end ZoneDiagram

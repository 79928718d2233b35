import ZoneDiagram.Proofs.Dbm.Block
import ZoneDiagram.Proofs.Dbm.Closing

/-!
# The canonical form of a matrix

**Theorem (`Small.close_canonical`).** With constants up to `constantLimit`, closing a matrix
reports an empty zone exactly if there is no valuation, and leaves a matrix that is marked empty
then. Otherwise it leaves the canonical form: a closed matrix with the same valuations, on which no
entry off the diagonal can be replaced by a smaller bound without losing a valuation.

**Theorem (`Small.constrain_eq_close`).** Adding a constraint to a closed matrix in quadratic time
gives the same answer, and the same matrix, as tightening the entry and closing again.

Both follow from what a closed matrix says of its valuations. Two closed matrices with the same
valuations are equal, so it does not matter in which order the detours are visited.
-/

namespace ZoneDiagram.Dbm

variable {K : Int} {m c : Dbm} {i j : Nat} {b : Bound} {v : Valuation}

/-- Constants up to this magnitude add up along all clocks without clamping. -/
def constantLimit (m : Dbm) : Int := Bound.maxValue / (4 * m.dim)

theorem room_constantLimit (m : Dbm) : Room m.dim m.constantLimit where
  nonneg := Int.ediv_nonneg (by decide) (by positivity)
  small := by
    have nonneg : 0 ≤ m.constantLimit := Int.ediv_nonneg (by decide) (by positivity)
    have total : 0 ≤ m.dim * m.constantLimit := mul_nonneg (Int.natCast_nonneg _) nonneg
    have fits : m.constantLimit * (4 * m.dim) ≤ Bound.maxValue :=
      Int.ediv_mul_le _ (by have := m.dim_pos; positivity)
    linarith

theorem small_ofFn {n : Nat} {f : Nat → Nat → Bound} (n_pos : 0 < n)
    (zeros : ∀ i < n, f i i = .zero) (within : ∀ i < n, ∀ j < n, (f i j).Within K) :
    (ofFn n n_pos f).Small K where
  zeros i (hi : i < n) := by
    rw [entry_ofFn hi hi, zeros i hi]
  within i (hi : i < n) j (hj : j < n) := by
    rw [entry_ofFn hi hj]
    exact within i hi j hj

/-! ## Full closure -/

/-- The second matrix is closed, has the same valuations, and its entries are the tightest bounds
that they allow. -/
structure CanonicalForm (m c : Dbm) : Prop where
  dim : c.dim = m.dim
  diagonal : ∀ i < c.dim, c.entry i i = .zero
  closed : c.isClosed = true
  same : ∀ v, c.Holds v ↔ m.Holds v
  tightest : ∀ i < c.dim, ∀ j < c.dim, i ≠ j → ∀ b < c.entry i j,
    ∃ v, m.Holds v ∧ ¬b.Holds (v i - v j)
  unbounded : ∀ i < c.dim, ∀ j < c.dim, c.entry i j = .infinity →
    ∀ x : ℚ, ∃ v, m.Holds v ∧ x < v i - v j
  stable : c.close = (c, true)

/-- A settled matrix is the canonical form of every matrix with its valuations. -/
theorem Settled.canonicalForm (h : c.Settled K) (room : Room c.dim K) (dim : c.dim = m.dim)
    (same : ∀ v, c.Holds v ↔ m.Holds v) : CanonicalForm m c where
  dim := dim
  diagonal := h.diagonal
  closed := h.isClosed room
  same := same
  tightest i hi j hj ne b lt := by
    obtain ⟨v, hv, broken⟩ := h.exists_not_holds_of_lt room hi hj ne lt
    exact ⟨v, (same v).1 hv, broken⟩
  unbounded i hi j hj top x := by
    have ne : i ≠ j := by
      rintro rfl
      rw [h.diagonal i hi] at top
      cases top
    have allowed : x + 1 ∈ c.weight i j := by
      rw [weight, top]
      exact Bound.holds_infinity (x + 1)
    obtain ⟨v, hv, le⟩ := h.exists_le_difference hi hj ne allowed
    exact ⟨v, (same v).1 hv, by linarith⟩
  stable := h.close_eq_self room

/-- Closing stops exactly if there is no valuation. -/
theorem Small.close_eq_false_iff (h : m.Small K) (room : Room m.dim K) :
    m.close.2 = false ↔ ∀ v, ¬m.Holds v := by
  have closes := close_spec room h.zeros h.within
  revert closes
  rcases m.close with ⟨c, _ | _⟩
  · intro empty
    exact iff_of_true rfl empty
  · rintro ⟨-, settled, same⟩
    obtain ⟨v, hv⟩ := settled.exists_holds
    exact iff_of_false Bool.noConfusion fun none => none v ((same v).1 hv)

/-- Closing that does not stop gives a settled matrix with the same valuations. -/
theorem Small.settled_close (h : m.Small K) (room : Room m.dim K) (inhabited : m.close.2 = true) :
    m.close.1.Settled K ∧ ∀ v, m.close.1.Holds v ↔ m.Holds v := by
  have closes := close_spec room h.zeros h.within
  revert inhabited closes
  rcases m.close with ⟨c, _ | _⟩
  · exact fun stopped => nomatch stopped
  · exact fun _ closes => closes.2

/-- **Closing computes the tightest matrix**, or finds that the zone is empty. -/
theorem Small.close_canonical (h : m.Small m.constantLimit) :
    (m.close.2 = false ↔ ∀ v, ¬m.Holds v) ∧
      (m.close.2 = true → CanonicalForm m m.close.1) ∧
      (m.close.2 = false → m.close.1.isEmpty = true) := by
  have room := m.room_constantLimit
  refine ⟨h.close_eq_false_iff room, fun inhabited => ?_, isEmpty_closeAlong⟩
  obtain ⟨settled, same⟩ := h.settled_close room inhabited
  have dim := dim_close m
  exact settled.canonicalForm (dim ▸ room) dim same

/-- The bounds of `1 ≤ x₁ - x₀ ≤ 4`, `0 ≤ x₂ - x₀ ≤ 3` and `x₁ - x₂ ≤ 2`. -/
def kiteBound : Nat → Nat → Bound
  | 0, 1 => .weak (-1)
  | 0, 2 => .zero
  | 1, 0 => .weak 4
  | 1, 2 => .weak 2
  | 2, 0 => .weak 3
  | i, j => if i = j then .zero else .infinity

/-- A matrix that is not closed: `x₂ - x₁ ≤ 2` is implied, but not an entry. -/
def kite : Dbm := .ofFn 3 (Nat.succ_pos 2) kiteBound

/-- The canonical form of the kite. -/
def hull : Dbm := .ofFn 3 (Nat.succ_pos 2) fun i j => if i = 2 ∧ j = 1 then .weak 2 else kiteBound i j

/-- The bounds of `2 ≤ x₁ - x₀ < 2`. -/
def gapBound : Nat → Nat → Bound
  | 0, 1 => .weak (-2)
  | 1, 0 => .strict 2
  | _, _ => .zero

/-- A matrix with a negative cycle. -/
def gap : Dbm := .ofFn 2 (Nat.succ_pos 1) gapBound

/-- The kite is closed, and the gap is found to be empty. -/
theorem close_canonical_kite : (kite.Small kite.constantLimit ∧ kite.close.1 = hull ∧
      CanonicalForm kite kite.close.1) ∧
    (gap.Small gap.constantLimit ∧ gap.close.2 = false ∧ (∀ v, ¬gap.Holds v) ∧
      gap.close.1.isEmpty = true) := by
  have kiteSmall : kite.Small kite.constantLimit := small_ofFn _ (by decide) (by decide)
  have gapSmall : gap.Small gap.constantLimit := small_ofFn _ (by decide) (by decide)
  have closed : kite.close = (hull, true) := by decide +kernel
  have stopped : gap.close.2 = false := by decide +kernel
  obtain ⟨-, canonical, -⟩ := kiteSmall.close_canonical
  obtain ⟨empty, -, marked⟩ := gapSmall.close_canonical
  exact ⟨⟨kiteSmall, congrArg Prod.fst closed, canonical (congrArg Prod.snd closed)⟩, gapSmall,
    stopped, empty.1 stopped, marked stopped⟩

/-- With `M` the greatest constant, the bounds of `x₀ - x₁ < -M`, `x₁ - x₂ < M` and
`x₂ - x₀ < M`. -/
def spiralBound : Nat → Nat → Bound
  | 0, 1 => .strict (-Bound.maxValue)
  | 1, 2 | 2, 0 => .strict Bound.maxValue
  | i, j => if i = j then .zero else .infinity

/-- A matrix with constants beyond the limit. Closing it clamps a sum. -/
def spiral : Dbm := .ofFn 3 (Nat.succ_pos 2) spiralBound

example : spiral.close.2 = true ∧ spiral.close.1.isClosed = false := by decide +kernel

/-! ## One more constraint -/

/-- The matrix with one entry replaced by a bound, if the bound is smaller. -/
def narrowed (m : Dbm) (i j : Nat) (b : Bound) : Dbm := m.setEntry i j (min b (m.entry i j))

theorem entry_narrowed (hi : i < m.dim) (hj : j < m.dim) {k l : Nat} (hl : l < m.dim) :
    (m.narrowed i j b).entry k l = if k = i ∧ l = j then min b (m.entry i j) else m.entry k l :=
  entry_setEntry hi hj hl

theorem Small.narrowed (h : m.Small K) (hi : i < m.dim) (hj : j < m.dim) (ne : i ≠ j)
    (within : b.Within K) : (m.narrowed i j b).Small K where
  zeros k (hk : k < m.dim) := by
    rw [entry_narrowed hi hj hk, if_neg fun eq => ne (eq.1.symm.trans eq.2)]
    exact h.zeros k hk
  within k (hk : k < m.dim) l (hl : l < m.dim) := by
    rw [entry_narrowed hi hj hl]
    split
    · rcases min_choice b (m.entry i j) with eq | eq <;> rw [eq]
      exacts [within, h.within i hi j hj]
    · exact h.within k hk l hl

/-- The narrowed matrix has the valuations that meet the bound. -/
theorem Small.holds_narrowed_iff (h : m.Small K) (hK : K ≤ Bound.maxValue) (hi : i < m.dim)
    (hj : j < m.dim) (within : b.Within K) :
    (m.narrowed i j b).Holds v ↔ m.Holds v ∧ b.Holds (v i - v j) := by
  have both : (min b (m.entry i j)).Holds (v i - v j) ↔
      b.Holds (v i - v j) ∧ (m.entry i j).Holds (v i - v j) :=
    Bound.holds_min_iff (within.le_infinity hK) ((h.within i hi j hj).le_infinity hK)
  have entry {k l : Nat} (hl : l < m.dim) : (m.narrowed i j b).entry k l =
      if k = i ∧ l = j then min b (m.entry i j) else m.entry k l := entry_narrowed hi hj hl
  -- Only one entry is narrowed, and it demands the new bound and the old one.
  constructor
  · intro hv
    have new := hv i hi j hj
    rw [entry hj, if_pos ⟨rfl, rfl⟩, both] at new
    refine ⟨fun k hk l hl => ?_, new.1⟩
    by_cases eq : k = i ∧ l = j
    · rw [eq.1, eq.2]
      exact new.2
    · have old := hv k hk l hl
      rwa [entry hl, if_neg eq] at old
  · rintro ⟨hv, hb⟩ k hk l hl
    rw [entry hl]
    split
    next eq =>
      rw [eq.1, eq.2, both]
      exact ⟨hb, hv i hi j hj⟩
    next => exact hv k hk l hl

/-- The checks of positions pass inside of the matrix. -/
theorem constrain?_eq_ok (hi : i < m.dim) (hj : j < m.dim) :
    m.constrain? i j b = .ok (m.constrain i j b) := by
  have get {k l : Nat} (hk : k < m.dim) (hl : l < m.dim) : m.get? k l = .ok (m.entry k l) :=
    if_pos (decide_eq_true (position_lt hk hl))
  unfold constrain?
  rw [get hi hj, get hj hi]
  by_cases empty : m.isEmpty = true
  · rw [constrain, if_pos empty, if_pos empty]
    rfl
  · rw [if_neg empty]
    change (if m.entry i j ≤ b then Except.ok (m, true) else Except.ok (m.constrain i j b)) = _
    split
    next implied => rw [constrain, if_neg empty, if_pos implied]
    next => rfl

/-- A constraint on a settled matrix is refused exactly if it leaves no room for the opposite
entry. -/
theorem Settled.constrain_eq_true_iff (h : m.Settled K) (hi : i < m.dim) (hj : j < m.dim)
    (le : b ≤ .infinity) : (m.constrain i j b).2 = true ↔ .zero ≤ b + m.entry j i := by
  rw [constrain, if_neg (by rw [h.isEmpty_eq_false]; exact Bool.false_ne_true)]
  split
  next implied =>
    refine iff_of_true rfl ?_
    have room := h.zero_le_add hi hj
    rw [Bound.zero_le_add_iff] at room ⊢
    refine room.trans ?_
    gcongr
    exact Bound.below_mono le implied
  next =>
    split
    next negative => exact iff_of_false Bool.noConfusion (not_le.2 negative)
    next nonneg => exact iff_of_true rfl (not_lt.1 nonneg)

/-- No valuation meets a bound that leaves no room for the opposite entry. -/
theorem Small.not_holds_narrowed (h : m.Small K) (hK : K ≤ Bound.maxValue) (hi : i < m.dim)
    (hj : j < m.dim) (within : b.Within K) (tight : ¬Bound.zero ≤ b + m.entry j i) :
    ¬(m.narrowed i j b).Holds v := by
  rw [h.holds_narrowed_iff hK hi hj within]
  rintro ⟨hv, hb⟩
  have back := hv j hj i hi
  rw [← neg_sub] at back
  exact tight (Bound.zero_le_add_of_holds hb back)

/-- A bound that leaves room is added as closing the narrowed matrix does. -/
theorem Addable.close_narrowed (add : Addable K m i j b) (small : m.Small K) :
    (m.narrowed i j b).close = ((m.constrain i j b).1, true) := by
  have narrowed := small.narrowed add.left add.right add.ne add.within
  have holds (v : Valuation) : (m.constrain i j b).1.Holds v ↔ (m.narrowed i j b).Holds v :=
    (add.holds_constrain_iff v).trans (small.holds_narrowed_iff
      (add.room.le_maxValue m.dim_pos) add.left add.right add.within).symm
  have inhabited : (m.narrowed i j b).close.2 = true := by
    obtain ⟨v, hv⟩ := add.settled_constrain.exists_holds
    rw [← Bool.not_eq_false, narrowed.close_eq_false_iff add.room]
    exact fun none => none v ((holds v).1 hv)
  obtain ⟨settled, same⟩ := narrowed.settled_close add.room inhabited
  have dim : (m.constrain i j b).1.dim = m.dim := Addable.dim_constrain ..
  have dim' : (m.narrowed i j b).close.1.dim = m.dim := dim_close _
  refine Prod.ext (settled.eq_of_holds_iff add.settled_constrain (dim' ▸ add.room)
    (dim ▸ add.room) (dim'.trans dim.symm) fun v => ?_) inhabited
  exact (same v).trans (holds v).symm

/-- **The incremental closure is the full closure** of the narrowed matrix. -/
theorem Small.constrain_eq_close (h : m.Small m.constantLimit) (closed : m.isClosed = true)
    (hi : i < m.dim) (hj : j < m.dim) (ne : i ≠ j) (within : b.Within m.constantLimit) :
    m.constrain? i j b = .ok (m.constrain i j b) ∧
      (m.constrain i j b).2 = (m.narrowed i j b).close.2 ∧
      ((m.constrain i j b).2 = true →
        (m.constrain i j b).1 = (m.narrowed i j b).close.1 ∧
        (m.constrain i j b).1.isClosed = true) := by
  have room := m.room_constantLimit
  have hK := room.le_maxValue m.dim_pos
  have settled := settled_of_isClosed closed room h.zeros h.within
  have accepted := settled.constrain_eq_true_iff hi hj (within.le_infinity hK)
  refine ⟨constrain?_eq_ok hi hj, ?_⟩
  by_cases sat : .zero ≤ b + m.entry j i
  · have add : Addable m.constantLimit m i j b := ⟨settled, room, hi, hj, ne, within, sat⟩
    have dim : (m.constrain i j b).1.dim = m.dim := Addable.dim_constrain ..
    rw [add.close_narrowed h]
    exact ⟨accepted.2 sat, fun _ => ⟨rfl, add.settled_constrain.isClosed (dim ▸ room)⟩⟩
  · have refused : (m.constrain i j b).2 = false := by
      rw [← Bool.not_eq_true, accepted]
      exact sat
    have empty : (m.narrowed i j b).close.2 = false :=
      ((h.narrowed hi hj ne within).close_eq_false_iff room).2 fun _ =>
        h.not_holds_narrowed hK hi hj within sat
    exact ⟨refused.trans empty.symm, fun taken => absurd (taken.symm.trans refused) nofun⟩

theorem small_hull : hull.Small hull.constantLimit := small_ofFn _ (by decide) (by decide)

theorem isClosed_hull : hull.isClosed = true := by decide +kernel

/-- One constraint on the hull leaves room, and one does not. -/
theorem constrain_eq_close_hull : (hull.Small hull.constantLimit ∧ hull.isClosed = true) ∧
    ((hull.constrain 2 1 (.strict 0)).2 = true ∧
      (hull.constrain 2 1 (.strict 0)).1 = (hull.narrowed 2 1 (.strict 0)).close.1 ∧
      (hull.constrain 2 1 (.strict 0)).1.isClosed = true) ∧
    ((hull.constrain 2 0 (.strict (-1))).2 = false ∧
      (hull.narrowed 2 0 (.strict (-1))).close.2 = false) := by
  have accepted : (hull.constrain 2 1 (.strict 0)).2 = true := by decide +kernel
  have refused : (hull.constrain 2 0 (.strict (-1))).2 = false := by decide +kernel
  obtain ⟨-, -, same⟩ := small_hull.constrain_eq_close isClosed_hull (by decide)
    (by decide) (by decide : (2 : Nat) ≠ 1) (by decide : (Bound.strict 0).Within hull.constantLimit)
  obtain ⟨-, answer, -⟩ := small_hull.constrain_eq_close isClosed_hull (by decide)
    (by decide) (by decide : (2 : Nat) ≠ 0) (by decide : (Bound.strict (-1)).Within hull.constantLimit)
  exact ⟨⟨small_hull, isClosed_hull⟩, ⟨accepted, same accepted⟩, refused,
    answer.symm.trans refused⟩

end ZoneDiagram.Dbm

import Mathlib.Algebra.Order.Ring.Rat
import Mathlib.Algebra.Order.UpperLower
import Mathlib.Tactic.Linarith
import Mathlib.Tactic.Ring
import ZoneDiagram.Valuation

/-!
# Bounds as sets of differences

A bound is read as the set of the differences that it holds of (`Bound.below`), a lower set of the
rationals. The order of bounds is inclusion, the weak bound of zero is the zero of the monoid of
lower sets, and the sum of two bounds is the Minkowski sum of their sets as long as their constants
add up within the encoding (`below_add_of_sumFits`). That the line is dense is used here, in the
sums, and nowhere else: all that is said of matrices rests on the ordered monoid of lower sets.

A sum that is clamped is no Minkowski sum, but its sign is still right (`zero_le_add_iff`).
-/

namespace ZoneDiagram

instance : LinearOrder Bound where
  le_refl a := Int.le_refl a.raw
  le_trans _ _ _ hab hbc := Int.le_trans hab hbc
  le_antisymm a b hab hba := by
    obtain ⟨x⟩ := a
    obtain ⟨y⟩ := b
    exact congrArg Bound.mk (Int.le_antisymm hab hba)
  le_total a b := Int.le_total a.raw b.raw
  lt_iff_le_not_ge a b := Int.lt_iff_le_and_not_ge
  min_def _ _ := rfl
  toDecidableLE := inferInstance
  toDecidableEq := inferInstance
  toDecidableLT := inferInstance
  compare_eq_compareOfLessAndEq a b := by
    obtain ⟨x⟩ := a
    obtain ⟨y⟩ := b
    change compare x y = if x < y then .lt else if Bound.mk x = Bound.mk y then .eq else .gt
    simp only [compare, compareOfLessAndEq, Bound.mk.injEq]

namespace Bound

/-! ## Sums of lower sets -/

instance : IsOrderedAddMonoid (LowerSet ℚ) where
  add_le_add_left s t h u := by
    rintro x ⟨d, hd, e, he, rfl⟩
    exact ⟨d, h hd, e, he, rfl⟩

theorem mem_of_le {s t : LowerSet ℚ} (h : s ≤ t) {x : ℚ} (hx : x ∈ s) : x ∈ t := h hx

theorem zero_le_iff_mem {s : LowerSet ℚ} : 0 ≤ s ↔ (0 : ℚ) ∈ s := by
  constructor
  · intro h
    exact h (Set.mem_Iic.2 le_rfl)
  · intro h x hx
    exact s.lower (Set.mem_Iic.1 hx) h

theorem Iic_add_Iic (a b : ℚ) : LowerSet.Iic a + LowerSet.Iic b = LowerSet.Iic (a + b) := by
  ext x
  constructor
  · rintro ⟨d, hd, e, he, rfl⟩
    exact add_le_add (Set.mem_Iic.1 hd) (Set.mem_Iic.1 he)
  · intro hx
    have : x ≤ a + b := hx
    exact ⟨x - b, Set.mem_Iic.2 (by linarith), b, Set.mem_Iic.2 le_rfl, sub_add_cancel x b⟩

theorem Iio_add_Iic (a b : ℚ) : LowerSet.Iio a + LowerSet.Iic b = LowerSet.Iio (a + b) := by
  ext x
  constructor
  · rintro ⟨d, hd, e, he, rfl⟩
    exact add_lt_add_of_lt_of_le (Set.mem_Iio.1 hd) (Set.mem_Iic.1 he)
  · intro hx
    have : x < a + b := hx
    exact ⟨x - b, Set.mem_Iio.2 (by linarith), b, Set.mem_Iic.2 le_rfl, sub_add_cancel x b⟩

theorem Iio_add_Iio (a b : ℚ) : LowerSet.Iio a + LowerSet.Iio b = LowerSet.Iio (a + b) := by
  ext x
  constructor
  · rintro ⟨d, hd, e, he, rfl⟩
    exact add_lt_add (Set.mem_Iio.1 hd) (Set.mem_Iio.1 he)
  · intro hx
    have : x < a + b := hx
    -- Both sides give up half of the distance.
    refine ⟨a - (a + b - x) / 2, Set.mem_Iio.2 (by linarith), b - (a + b - x) / 2,
      Set.mem_Iio.2 (by linarith), ?_⟩
    change a - (a + b - x) / 2 + (b - (a + b - x) / 2) = x
    ring

theorem top_add {s : LowerSet ℚ} {d : ℚ} (hd : d ∈ s) : ⊤ + s = ⊤ := by
  ext x
  exact ⟨fun _ => trivial, fun _ => ⟨x - d, trivial, d, hd, sub_add_cancel x d⟩⟩

/-! ## The set of a bound -/

theorem strict_or_weak (b : Bound) : (∃ c, b = strict c) ∨ ∃ c, b = weak c := by
  obtain ⟨raw⟩ := b
  simp only [strict, weak, mk.injEq]
  rcases Int.even_or_odd' raw with ⟨c, even | odd⟩
  · exact Or.inl ⟨c, even⟩
  · exact Or.inr ⟨c, odd⟩

theorem isInfinity_iff {b : Bound} : b.isInfinity = true ↔ b = infinity := beq_iff_eq

theorem isInfinity_eq_false_iff {b : Bound} : b.isInfinity = false ↔ b ≠ infinity := by
  rw [ne_eq, ← isInfinity_iff, Bool.not_eq_true]

theorem strict_ne_infinity (c : Int) : strict c ≠ infinity := by
  simp only [strict, infinity, greatestRaw, ne_eq, mk.injEq]
  omega

theorem weak_ne_infinity {c : Int} (hc : c ≤ maxValue) : weak c ≠ infinity := by
  simp only [weak, infinity, greatestRaw, maxValue, ne_eq, mk.injEq] at hc ⊢
  omega

theorem Holds.mono {b : Bound} {d e : ℚ} (h : b.Holds e) (hde : d ≤ e) : b.Holds d := by
  unfold Holds at h ⊢
  split
  · trivial
  next finite =>
    rw [if_neg finite] at h
    split
    next odd =>
      rw [if_pos odd] at h
      exact lt_of_le_of_lt hde h
    next even =>
      rw [if_neg even] at h
      exact le_trans hde h

/-- The differences that the bound holds of. -/
def below (b : Bound) : LowerSet ℚ where
  carrier := {d | b.Holds d}
  lower' _ _ hde h := Holds.mono h hde

theorem mem_below {b : Bound} {d : ℚ} : d ∈ b.below ↔ b.Holds d := Iff.rfl

theorem below_infinity : infinity.below = ⊤ := by
  ext d
  exact ⟨fun _ => trivial, fun _ => holds_infinity d⟩

theorem below_strict (c : Int) : (strict c).below = LowerSet.Iio (c : ℚ) := by
  ext d
  exact holds_strict_iff

theorem below_weak {c : Int} (hc : weak c ≠ infinity) : (weak c).below = LowerSet.Iic (c : ℚ) := by
  ext d
  change (weak c).Holds d ↔ d ≤ c
  have finite : (weak c).isInfinity = false := isInfinity_eq_false_iff.2 hc
  have odd : (weak c).isStrict = false := by
    simp only [isStrict, weak, beq_eq_false_iff_ne]
    omega
  simp [Holds, finite, odd]

theorem top_add_below (b : Bound) : ⊤ + b.below = ⊤ := by
  by_cases top : b = infinity
  · exact top_add (d := 0) (top ▸ holds_infinity 0)
  rcases strict_or_weak b with ⟨c, rfl⟩ | ⟨c, rfl⟩
  · rw [below_strict]
    exact top_add (Set.mem_Iio.2 (sub_one_lt (c : ℚ)))
  · rw [below_weak top]
    exact top_add (Set.mem_Iic.2 (le_refl (c : ℚ)))

theorem below_zero : zero.below = 0 := by
  rw [zero, below_weak (weak_ne_infinity (by decide)), Int.cast_zero]
  rfl

/-! ## Small constants -/

/-- The bound is no constraint, or its constant has at most the magnitude `K`. -/
def Within (K : Int) (b : Bound) : Prop := b ≠ infinity → -K ≤ b.value ∧ b.value ≤ K

instance (K : Int) (b : Bound) : Decidable (b.Within K) :=
  inferInstanceAs (Decidable (b ≠ infinity → -K ≤ b.value ∧ b.value ≤ K))

theorem Within.mono {K L : Int} {b : Bound} (h : b.Within K) (hKL : K ≤ L) : b.Within L :=
  fun finite => ⟨le_trans (neg_le_neg hKL) (h finite).1, le_trans (h finite).2 hKL⟩

theorem within_infinity (K : Int) : infinity.Within K := fun h => absurd rfl h

theorem within_zero {K : Int} (hK : 0 ≤ K) : zero.Within K := fun _ =>
  ⟨neg_nonpos.2 hK, hK⟩

theorem Within.le_infinity {K : Int} {b : Bound} (h : b.Within K) (hK : K ≤ maxValue) :
    b ≤ infinity := by
  by_cases finite : b = infinity
  · rw [finite]
  · have := (h finite).2
    change b.raw ≤ greatestRaw
    unfold value maxValue greatestRaw at *
    omega

/-! ## Order -/

theorem below_mono {a b : Bound} (hb : b ≤ infinity) (hab : a ≤ b) : a.below ≤ b.below := by
  by_cases top : b = infinity
  · rw [top, below_infinity]
    exact le_top
  have finite : a ≠ infinity := fun h => top (le_antisymm hb (h ▸ hab))
  have raw : a.raw ≤ b.raw := hab
  intro d hd
  rcases strict_or_weak a with ⟨c, rfl⟩ | ⟨c, rfl⟩ <;>
    rcases strict_or_weak b with ⟨e, rfl⟩ | ⟨e, rfl⟩ <;> simp only [strict, weak] at raw
  · rw [below_strict] at hd ⊢
    exact lt_of_lt_of_le (Set.mem_Iio.1 hd) (Int.cast_le.2 (by omega))
  · rw [below_strict] at hd
    rw [below_weak top]
    exact le_of_lt (lt_of_lt_of_le (Set.mem_Iio.1 hd) (Int.cast_le.2 (by omega)))
  · rw [below_weak finite] at hd
    rw [below_strict]
    exact lt_of_le_of_lt (Set.mem_Iic.1 hd) (Int.cast_lt.2 (by omega))
  · rw [below_weak finite] at hd
    rw [below_weak top]
    exact le_trans (Set.mem_Iic.1 hd) (Int.cast_le.2 (by omega))

/-- The smaller of two bounds holds if both do. -/
theorem holds_min_iff {a b : Bound} (ha : a ≤ infinity) (hb : b ≤ infinity) {d : ℚ} :
    (min a b).Holds d ↔ a.Holds d ∧ b.Holds d := by
  rcases le_total a b with le | le
  · rw [min_eq_left le]
    exact ⟨fun h => ⟨h, mem_of_le (below_mono hb le) h⟩, And.left⟩
  · rw [min_eq_right le]
    exact ⟨fun h => ⟨mem_of_le (below_mono ha le) h, h⟩, And.right⟩

/-- The larger of two bounds holds of a difference that breaks the smaller one: of the constant if
the smaller bound is strict, and halfway to the next constant if it is weak. -/
theorem exists_holds_of_lt {a b : Bound} (hb : b ≤ infinity) (hab : a < b) :
    ∃ d, b.Holds d ∧ ¬ a.Holds d := by
  have finite : a ≠ infinity := fun h => absurd hb (not_le.2 (h ▸ hab))
  have raw : a.raw < b.raw := hab
  simp only [← mem_below]
  rcases strict_or_weak a with ⟨c, rfl⟩ | ⟨c, rfl⟩
  · refine ⟨c, ?_, by rw [below_strict]; exact lt_irrefl (c : ℚ)⟩
    by_cases top : b = infinity
    · rw [top, below_infinity]
      trivial
    rcases strict_or_weak b with ⟨e, rfl⟩ | ⟨e, rfl⟩ <;> simp only [strict, weak] at raw
    · rw [below_strict]
      exact Set.mem_Iio.2 (Int.cast_lt.2 (by omega))
    · rw [below_weak top]
      exact Set.mem_Iic.2 (Int.cast_le.2 (by omega))
  · refine ⟨c + 1 / 2, ?_, ?_⟩
    · by_cases top : b = infinity
      · rw [top, below_infinity]
        trivial
      rcases strict_or_weak b with ⟨e, rfl⟩ | ⟨e, rfl⟩ <;> simp only [strict, weak] at raw
      · have : ((c + 1 : ℤ) : ℚ) ≤ e := Int.cast_le.2 (by omega)
        rw [below_strict]
        refine Set.mem_Iio.2 ?_
        push_cast at this
        linarith
      · have : ((c + 1 : ℤ) : ℚ) ≤ e := Int.cast_le.2 (by omega)
        rw [below_weak top]
        refine Set.mem_Iic.2 ?_
        push_cast at this
        linarith
    · rw [below_weak finite]
      intro h
      have : (c : ℚ) + 1 / 2 ≤ c := h
      linarith

/-- Every bound holds of some difference. -/
theorem exists_holds {b : Bound} (hb : b ≤ infinity) : ∃ d, b.Holds d := by
  obtain ⟨d, hd, -⟩ := exists_holds_of_lt (a := ⟨b.raw - 1⟩) hb (sub_one_lt b.raw)
  exact ⟨d, hd⟩

theorem below_strictMono {a b : Bound} (hb : b ≤ infinity) (hab : a < b) : a.below < b.below := by
  refine lt_of_le_of_ne (below_mono hb (le_of_lt hab)) fun eq => ?_
  obtain ⟨d, hbd, had⟩ := exists_holds_of_lt hb hab
  exact had (mem_below.1 (eq ▸ mem_below.2 hbd))

theorem below_le_iff {a b : Bound} (ha : a ≤ infinity) (hb : b ≤ infinity) :
    a.below ≤ b.below ↔ a ≤ b := by
  refine ⟨fun h => ?_, below_mono hb⟩
  by_contra lt
  exact absurd h (not_le.2 (below_strictMono ha (not_le.1 lt)))

/-- A bound is given by its differences. -/
theorem eq_of_below_eq {a b : Bound} (ha : a ≤ infinity) (hb : b ≤ infinity)
    (h : a.below = b.below) : a = b :=
  le_antisymm ((below_le_iff ha hb).1 h.le) ((below_le_iff hb ha).1 h.ge)

/-! ## Sums -/

theorem infinity_add (b : Bound) : infinity + b = infinity := rfl

theorem bound_add_comm (a b : Bound) : a + b = b + a := by
  change add a b = add b a
  unfold add
  rw [Bool.or_comm, Bool.and_comm, Int.add_comm]

theorem add_infinity (b : Bound) : b + infinity = infinity := by
  rw [bound_add_comm, infinity_add]

/-- A sum that is a conflict is one of two constraints. -/
theorem ne_infinity_of_add_lt {a b : Bound} (broken : a + b < zero) : a ≠ infinity := by
  rintro rfl
  rw [infinity_add] at broken
  exact absurd broken (by decide)

theorem isStrict_strict (c : Int) : (strict c).isStrict = true := by
  simp only [isStrict, strict, beq_iff_eq]
  omega

theorem isStrict_weak (c : Int) : (weak c).isStrict = false := by
  simp only [isStrict, weak, beq_eq_false_iff_ne]
  omega

theorem add_of_finite {a b : Bound} (ha : a ≠ infinity) (hb : b ≠ infinity) :
    a + b = ⟨clamp (a.raw + b.raw - if a.isStrict && b.isStrict then 0 else 1)⟩ := by
  change add a b = _
  rw [add, isInfinity_eq_false_iff.2 ha, isInfinity_eq_false_iff.2 hb]
  rfl

/-- The sum of two finite bounds before it is clamped. -/
def sum (a b : Bound) : Bound := ⟨a.raw + b.raw - if a.isStrict && b.isStrict then 0 else 1⟩

theorem sum_comm (a b : Bound) : sum a b = sum b a := by
  rw [sum, sum, Bool.and_comm, Int.add_comm]

theorem sum_strict_strict (c e : Int) : sum (strict c) (strict e) = strict (c + e) := by
  rw [sum, isStrict_strict, isStrict_strict]
  simp only [strict, Bool.and_self, if_true, mk.injEq]
  omega

theorem sum_strict_weak (c e : Int) : sum (strict c) (weak e) = strict (c + e) := by
  rw [sum, isStrict_strict, isStrict_weak]
  simp only [strict, weak, Bool.and_false, Bool.false_eq_true, if_false, mk.injEq]
  omega

theorem sum_weak_weak (c e : Int) : sum (weak c) (weak e) = weak (c + e) := by
  rw [sum, isStrict_weak, isStrict_weak]
  simp only [weak, Bool.and_self, Bool.false_eq_true, if_false, mk.injEq]
  omega

theorem value_sum (a b : Bound) : (sum a b).value = a.value + b.value := by
  rcases strict_or_weak a with ⟨c, rfl⟩ | ⟨c, rfl⟩ <;>
    rcases strict_or_weak b with ⟨e, rfl⟩ | ⟨e, rfl⟩
  · rw [sum_strict_strict, value_strict, value_strict, value_strict]
  · rw [sum_strict_weak, value_strict, value_strict, value_weak]
  · rw [sum_comm, sum_strict_weak, value_strict, value_strict, value_weak, add_comm]
  · rw [sum_weak_weak, value_weak, value_weak, value_weak]

/-- Before it is clamped, a sum of bounds is the Minkowski sum of their sets. -/
theorem below_sum {a b : Bound} (fa : a ≠ infinity) (fb : b ≠ infinity)
    (finite : sum a b ≠ infinity) : (sum a b).below = a.below + b.below := by
  rcases strict_or_weak a with ⟨c, rfl⟩ | ⟨c, rfl⟩ <;>
    rcases strict_or_weak b with ⟨e, rfl⟩ | ⟨e, rfl⟩
  · rw [sum_strict_strict, below_strict, below_strict, below_strict, Iio_add_Iio, Int.cast_add]
  · rw [sum_strict_weak, below_strict, below_strict, below_weak fb, Iio_add_Iic, Int.cast_add]
  · rw [sum_comm, sum_strict_weak, below_strict, below_strict, below_weak fa,
      add_comm (LowerSet.Iic _), Iio_add_Iic, Int.cast_add]
  · rw [sum_weak_weak] at finite ⊢
    rw [below_weak finite, below_weak fa, below_weak fb, Iic_add_Iic, Int.cast_add]

/-- The constants of two bounds add up within the encoding. -/
def SumFits (a b : Bound) : Prop :=
  a = infinity ∨ b = infinity ∨ -maxValue ≤ a.value + b.value ∧ a.value + b.value ≤ maxValue

instance (a b : Bound) : Decidable (SumFits a b) :=
  inferInstanceAs (Decidable (a = infinity ∨ b = infinity ∨ _ ∧ _))

theorem sumFits_of_within {K L : Int} {a b : Bound} (ha : a.Within K) (hb : b.Within L)
    (small : K + L ≤ maxValue) : SumFits a b := by
  by_cases fa : a = infinity
  · exact .inl fa
  by_cases fb : b = infinity
  · exact .inr (.inl fb)
  have ha := ha fa
  have hb := hb fb
  exact .inr (.inr (by omega))

/-- A sum within the encoding is not clamped. -/
theorem add_eq_sum {a b : Bound} (fa : a ≠ infinity) (fb : b ≠ infinity) (fits : SumFits a b) :
    a + b = sum a b ∧ (a + b).Within maxValue ∧ a + b ≠ infinity := by
  have range := (fits.resolve_left fa).resolve_left fb
  rw [← value_sum] at range
  have exact : a + b = sum a b := by
    have raw : clamp (sum a b).raw = (sum a b).raw := by
      unfold value maxValue at range
      unfold clamp leastRaw greatestRaw
      omega
    rw [add_of_finite fa fb]
    exact congrArg mk raw
  rw [exact]
  refine ⟨rfl, fun _ => range, fun top => ?_⟩
  rw [top] at range
  exact absurd range.2 (by decide)

/-- **A sum within the encoding is the Minkowski sum of the sets.** -/
theorem below_add_of_sumFits {a b : Bound} (fits : SumFits a b) :
    (a + b).below = a.below + b.below := by
  by_cases fa : a = infinity
  · rw [fa, infinity_add, below_infinity, top_add_below]
  by_cases fb : b = infinity
  · rw [fb, add_infinity, below_infinity, add_comm, top_add_below]
  obtain ⟨exact, -, finite⟩ := add_eq_sum fa fb fits
  rw [exact] at finite ⊢
  exact below_sum fa fb finite

/-- Small constants add up without clamping. -/
theorem within_add {K L : Int} {a b : Bound} (ha : a.Within K) (hb : b.Within L)
    (small : K + L ≤ maxValue) : (a + b).Within (K + L) := by
  by_cases fa : a = infinity
  · rw [fa, infinity_add]
    exact within_infinity _
  by_cases fb : b = infinity
  · rw [fb, add_infinity]
    exact within_infinity _
  have fits := sumFits_of_within ha hb small
  have ha := ha fa
  have hb := hb fb
  intro _
  rw [(add_eq_sum fa fb fits).1, value_sum]
  omega

/-- The sum of two bounds with small constants is the Minkowski sum of their sets. -/
theorem below_add {K L : Int} {a b : Bound} (ha : a.Within K) (hb : b.Within L)
    (small : K + L ≤ maxValue) : (a + b).below = a.below + b.below :=
  below_add_of_sumFits (sumFits_of_within ha hb small)

/-- The weak bound of zero adds nothing. -/
theorem bound_add_zero {K : Int} {b : Bound} (hb : b.Within K) (hK : K ≤ maxValue) :
    b + zero = b := by
  have small : K + 0 ≤ maxValue := by linarith
  have sum := (within_add hb (within_zero le_rfl) small).le_infinity small
  refine eq_of_below_eq sum (hb.le_infinity hK) ?_
  rw [below_add hb (within_zero le_rfl) small, below_zero, add_zero]

theorem one_le_clamp {r : Int} : 1 ≤ clamp r ↔ 1 ≤ r := by
  unfold clamp leastRaw greatestRaw
  omega

/-- A clamped sum has the sign of the sum, so its sign tells whether some difference meets the
first bound and its opposite the second. -/
theorem zero_le_add_iff (a b : Bound) : zero ≤ a + b ↔ 0 ≤ a.below + b.below := by
  by_cases fa : a = infinity
  · rw [fa, infinity_add, below_infinity, top_add_below]
    exact iff_of_true (by decide) le_top
  by_cases fb : b = infinity
  · rw [fb, add_infinity, below_infinity, add_comm, top_add_below]
    exact iff_of_true (by decide) le_top
  rw [add_of_finite fa fb, zero_le_iff_mem]
  refine one_le_clamp.trans ?_
  rcases strict_or_weak a with ⟨c, rfl⟩ | ⟨c, rfl⟩ <;>
    rcases strict_or_weak b with ⟨e, rfl⟩ | ⟨e, rfl⟩
  · rw [isStrict_strict, isStrict_strict, below_strict, below_strict, Iio_add_Iio,
      LowerSet.mem_Iio_iff, ← Int.cast_add, Int.cast_pos]
    simp only [strict, Bool.and_self, if_true]
    omega
  · rw [isStrict_strict, isStrict_weak, below_strict, below_weak fb, Iio_add_Iic,
      LowerSet.mem_Iio_iff, ← Int.cast_add, Int.cast_pos]
    simp only [strict, weak, Bool.and_false, Bool.false_eq_true, if_false]
    omega
  · rw [isStrict_weak, isStrict_strict, below_strict, below_weak fa, add_comm (LowerSet.Iic _),
      Iio_add_Iic, LowerSet.mem_Iio_iff, ← Int.cast_add, Int.cast_pos]
    simp only [strict, weak, Bool.false_and, Bool.false_eq_true, if_false]
    omega
  · rw [isStrict_weak, isStrict_weak, below_weak fa, below_weak fb, Iic_add_Iic,
      LowerSet.mem_Iic_iff, ← Int.cast_add, Int.cast_nonneg_iff]
    simp only [weak, Bool.and_self, Bool.false_eq_true, if_false]
    omega

theorem zero_le_add_of_holds {a b : Bound} {d : ℚ} (ha : a.Holds d) (hb : b.Holds (-d)) :
    zero ≤ a + b :=
  (zero_le_add_iff a b).2 (zero_le_iff_mem.2 ⟨d, ha, -d, hb, add_neg_cancel d⟩)

/-- Bounds on a difference and on its opposite leave room if some difference meets both. -/
theorem zero_le_add_iff_exists {a b : Bound} :
    zero ≤ a + b ↔ ∃ d : ℚ, a.Holds d ∧ b.Holds (-d) := by
  constructor
  · intro sat
    obtain ⟨d, hd, e, he, sum⟩ := zero_le_iff_mem.1 ((zero_le_add_iff a b).1 sat)
    obtain rfl : e = -d := eq_neg_of_add_eq_zero_right sum
    exact ⟨d, hd, he⟩
  · rintro ⟨d, ha, hb⟩
    exact zero_le_add_of_holds ha hb

theorem within_strict {K c : Int} (h : |c| ≤ K) : (strict c).Within K := fun _ => by
  rw [value_strict]
  exact abs_le.1 h

theorem within_weak {K c : Int} (h : |c| ≤ K) : (weak c).Within K := fun _ => by
  rw [value_weak]
  exact abs_le.1 h

/-! ## Complements -/

theorem complement_strict (c : Int) : (strict c).complement = weak (-c) := by
  simp only [complement, strict, weak, mk.injEq]
  omega

theorem complement_weak (c : Int) : (weak c).complement = strict (-c) := by
  simp only [complement, strict, weak, mk.injEq]
  omega

theorem within_complement {K : Int} {b : Bound} (hb : b.Within K) (finite : b ≠ infinity) :
    b.complement.Within K := by
  have hb := hb finite
  intro _
  rcases strict_or_weak b with ⟨c, rfl⟩ | ⟨c, rfl⟩
  · rw [complement_strict, value_weak]
    rw [value_strict] at hb
    omega
  · rw [complement_weak, value_strict]
    rw [value_weak] at hb
    omega

theorem complement_ne_infinity {K : Int} {b : Bound} (hb : b.Within K) (hK : K ≤ maxValue)
    (finite : b ≠ infinity) : b.complement ≠ infinity := by
  have hb := hb finite
  rcases strict_or_weak b with ⟨c, rfl⟩ | ⟨c, rfl⟩
  · rw [complement_strict]
    rw [value_strict] at hb
    exact weak_ne_infinity (by omega)
  · rw [complement_weak]
    exact strict_ne_infinity _

/-- The complement holds of the opposites of the differences that break the bound. -/
theorem holds_complement_iff {K : Int} {b : Bound} (hb : b.Within K) (hK : K ≤ maxValue)
    (finite : b ≠ infinity) (d : ℚ) : b.complement.Holds (-d) ↔ ¬ b.Holds d := by
  have top := complement_ne_infinity hb hK finite
  rw [← mem_below, ← mem_below]
  rcases strict_or_weak b with ⟨c, rfl⟩ | ⟨c, rfl⟩
  · rw [complement_strict] at top ⊢
    rw [below_weak top, below_strict, LowerSet.mem_Iic_iff, LowerSet.mem_Iio_iff, Int.cast_neg,
      neg_le_neg_iff, not_lt]
  · rw [complement_weak, below_strict, below_weak finite, LowerSet.mem_Iic_iff,
      LowerSet.mem_Iio_iff, Int.cast_neg, neg_lt_neg_iff, not_le]

/-- Of two cuts in a row, the lower one fails and the upper one holds of some difference. -/
theorem zero_le_add_complement {a b : Bound} (hab : a < b) : zero ≤ b + a.complement := by
  by_cases fb : b = infinity
  · rw [fb, infinity_add]
    decide
  by_cases fc : a.complement = infinity
  · rw [fc, add_infinity]
    decide
  have raw : a.raw < b.raw := hab
  rw [add_of_finite fb fc]
  refine one_le_clamp.2 ?_
  change 1 ≤ b.raw + (1 - a.raw) - _
  split <;> omega

/-- If some difference meets a bound and its opposite meets another, then the bounds leave room
between them. -/
theorem complement_lt {a b : Bound} (sat : zero ≤ a + b) (fa : a ≠ infinity) (fb : b ≠ infinity) :
    a.complement < b := by
  rw [add_of_finite fa fb] at sat
  have sum := one_le_clamp.1 sat
  change 1 - a.raw < b.raw
  split at sum
  next strict =>
    simp only [isStrict, Bool.and_eq_true, beq_iff_eq] at strict
    omega
  next => omega

end Bound

end ZoneDiagram

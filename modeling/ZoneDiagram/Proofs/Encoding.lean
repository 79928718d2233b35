import ZoneDiagram.Proofs.Bound.Below

/-!
# The packed encoding of bounds is faithful

**Theorem (`encoding_faithful`).** A bound of the encoding is no constraint, or it is strict or weak
with its constant. The order of the packed integers is inclusion of the sets of differences. The
complement of a finite bound holds of the opposites of the differences that break it. A sum whose
constant stays within the encoding is the least bound that holds of all sums of differences
(`LeastOfSums`). So sums that stay within the encoding do not depend on the order in which they are
taken, and they grow with their parts.

Each of these is a fact about lower sets of the rationals that is read back through the order:
addition of lower sets is associative and monotone, and a bound is given by its set
(`below_le_iff`, `eq_of_below_eq`).
-/

namespace ZoneDiagram.Bound

variable {a b c s : Bound}

/-- The least bound that holds of the sums of differences that meet two bounds. -/
structure LeastOfSums (a b s : Bound) : Prop where
  holds : ∀ d e, a.Holds d → b.Holds e → s.Holds (d + e)
  least : ∀ c < s, ∃ d e, a.Holds d ∧ b.Holds e ∧ ¬c.Holds (d + e)

/-- The bound says of a difference what its constant and its strictness say. -/
inductive Decodes (b : Bound) : Prop
  | infinity (h : b = .infinity) (all : ∀ d, b.Holds d)
  | strict (h : b = .strict b.value) (below : ∀ d, b.Holds d ↔ d < b.value)
  | weak (h : b = .weak b.value) (below : ∀ d, b.Holds d ↔ d ≤ b.value)

theorem Within.decodes (h : b.Within maxValue) : Decodes b := by
  by_cases top : b = .infinity
  · exact .infinity top fun d => top ▸ holds_infinity d
  have range := h top
  rcases strict_or_weak b with ⟨c, rfl⟩ | ⟨c, rfl⟩
  · rw [value_strict] at range
    exact .strict (by rw [value_strict]) fun d => by rw [value_strict, holds_strict_iff]
  · rw [value_weak] at range
    exact .weak (by rw [value_weak]) fun d => by rw [value_weak, holds_weak_iff range.2]

/-- The sum of two bounds of the encoding is one as well, if its constant is. -/
theorem SumFits.within (h : SumFits a b) : (a + b).Within maxValue := by
  by_cases fa : a = .infinity
  · rw [fa, infinity_add]
    exact within_infinity _
  by_cases fb : b = .infinity
  · rw [fb, add_infinity]
    exact within_infinity _
  exact (add_eq_sum fa fb h).2.1

theorem SumFits.le_infinity (h : SumFits a b) : a + b ≤ .infinity :=
  h.within.le_infinity le_rfl

/-- A sum within the encoding is exact. -/
theorem SumFits.leastOfSums (h : SumFits a b) : LeastOfSums a b (a + b) where
  holds d e ha hb := by
    have both : d + e ∈ a.below + b.below := ⟨d, ha, e, hb, rfl⟩
    rwa [← below_add_of_sumFits h] at both
  least c lt := by
    obtain ⟨x, meets, breaks⟩ := exists_holds_of_lt h.le_infinity lt
    rw [← mem_below, below_add_of_sumFits h] at meets
    obtain ⟨d, ha, e, hb, rfl⟩ := meets
    exact ⟨d, e, ha, hb, breaks⟩

theorem SumFits.assoc (left : SumFits a b) (right : SumFits b c) (first : SumFits (a + b) c)
    (second : SumFits a (b + c)) : a + b + c = a + (b + c) := by
  refine eq_of_below_eq first.le_infinity second.le_infinity ?_
  rw [below_add_of_sumFits first, below_add_of_sumFits second, below_add_of_sumFits left,
    below_add_of_sumFits right, add_assoc]

/-- **The encoding is faithful**: its order is inclusion, its complement is exact, and so are its
sums as long as their constants stay within it. -/
theorem encoding_faithful (ha : a.Within maxValue) (hb : b.Within maxValue) :
    Decodes a ∧
    (a ≤ b ↔ ∀ d, a.Holds d → b.Holds d) ∧
    (a ≠ .infinity → ∃ c, a.complement? = .ok c ∧ ∀ d, ¬a.Holds d ↔ c.Holds (-d)) ∧
    (SumFits a b → LeastOfSums a b (a + b)) ∧
    (∀ c, c.Within maxValue → SumFits a b → SumFits b c → SumFits (a + b) c →
      SumFits a (b + c) → a + b + c = a + (b + c)) ∧
    ∀ a' b', a'.Within maxValue → b'.Within maxValue → SumFits a b → SumFits a' b' →
      a ≤ a' → b ≤ b' → a + b ≤ a' + b' := by
  have top := ha.le_infinity le_rfl
  have top' := hb.le_infinity le_rfl
  refine ⟨ha.decodes, (below_le_iff top top').symm, fun finite => ⟨a.complement, ?_, fun d => ?_⟩,
    SumFits.leastOfSums, fun c _ left right first second => left.assoc right first second,
    fun a' b' ha' hb' fits fits' le le' => ?_⟩
  · exact if_neg (isInfinity_eq_false_iff.2 finite ▸ Bool.false_ne_true)
  · exact (holds_complement_iff ha le_rfl finite d).symm
  · rw [← below_le_iff fits.le_infinity fits'.le_infinity, below_add_of_sumFits fits,
      below_add_of_sumFits fits']
    exact add_le_add (below_mono (ha'.le_infinity le_rfl) le)
      (below_mono (hb'.le_infinity le_rfl) le')

/-- The tightest and the loosest constraint of the encoding. Their sum is `< 0`. -/
theorem encoding_faithful_extremes :
    ((strict (-maxValue)).Within maxValue ∧ (weak maxValue).Within maxValue ∧
      SumFits (strict (-maxValue)) (weak maxValue)) ∧
    (∀ d, (strict (-maxValue)).Holds d → (weak maxValue).Holds d) ∧
    (∀ d, ¬(strict (-maxValue)).Holds d ↔ (weak maxValue).Holds (-d)) ∧
    LeastOfSums (strict (-maxValue)) (weak maxValue) (strict 0) := by
  have tightest : (strict (-maxValue)).Within maxValue := by decide
  have loosest : (weak maxValue).Within maxValue := by decide
  have fits : SumFits (strict (-maxValue)) (weak maxValue) := by decide
  obtain ⟨-, order, complement, sum, -⟩ := encoding_faithful tightest loosest
  obtain ⟨c, eq, opposite⟩ := complement (strict_ne_infinity _)
  cases eq
  exact ⟨⟨tightest, loosest, fits⟩, order.1 (by decide), opposite, sum fits⟩

end ZoneDiagram.Bound

import Mathlib.Data.List.GetD
import ZoneDiagram.Proofs.Dbm.Around
import ZoneDiagram.Sample.Zone

/-!
# Random zones

**Theorem (`zone_spec`).** Whatever a source draws, and for every number of clocks and every range,
a random zone is returned. It is inhabited and passes for it, no clock of it is below the reference
clock, and the mark says whether it is smaller than the zone of all such valuations. It is closed if
sums of one constant for every clock fit the encoding.

The zone is drawn around a hidden valuation (`Hidden`). The valuation meets every constraint that is
drawn, and closing around it never stops, even where sums are clamped. But a clamped sum can be
smaller than a sum over more steps, and then the matrix that closing leaves is not closed
(`zone_steep`): the range is limited by itself, not together with the number of clocks.
-/

namespace ZoneDiagram.Sample

open Dbm (Around Small Room)

variable {σ α β : Type} {P : α → Prop} {Q : β → Prop}

/-! ## Whatever is drawn -/

/-- The result has a property, whatever the source draws. -/
def Draws (x : StateM σ α) (P : α → Prop) : Prop := ∀ s, P (x s).1

namespace Draws

theorem pure {a : α} (h : P a) : Draws (pure a : StateM σ α) P := fun _ => h

theorem bind {x : StateM σ α} {k : α → StateM σ β} (h : Draws x P)
    (rest : ∀ a, P a → Draws (k a) Q) : Draws (x >>= k) Q := fun s => rest _ (h s) _

theorem imp {P' : α → Prop} {x : StateM σ α} (h : Draws x P) (le : ∀ a, P a → P' a) :
    Draws x P' := fun s => le _ (h s)

/-- What is drawn may be anything. -/
theorem bind_any {x : StateM σ α} {k : α → StateM σ β} (rest : ∀ a, Draws (k a) Q) :
    Draws (x >>= k) Q := fun _ => rest _ _

theorem mapM {f : α → StateM σ β} {R : α → β → Prop} {as : List α}
    (step : ∀ a ∈ as, Draws (f a) (R a)) : Draws (as.mapM f) (List.Forall₂ R as) := by
  induction as with
  | nil => exact .pure .nil
  | cons a as ih =>
    obtain ⟨first, rest⟩ := List.forall_mem_cons.1 step
    rw [List.mapM_cons]
    exact first.bind fun b hb => (ih rest).bind fun bs hbs => .pure (.cons hb hbs)

theorem foldlM {f : β → α → StateM σ β} {as : List α} {b : β} (h : Q b)
    (step : ∀ b, Q b → ∀ a ∈ as, Draws (f b a) Q) : Draws (as.foldlM f b) Q := by
  induction as generalizing b with
  | nil => exact .pure h
  | cons a as ih =>
    rw [List.foldlM_cons]
    exact (step b h a List.mem_cons_self).bind fun b' hb' =>
      ih hb' fun b hb a' ha' => step b hb a' (List.mem_cons_of_mem a ha')

end Draws

/-! ## The hidden valuation -/

/-- The values drawn for the clocks: naturals up to the range, and zero for the reference clock. -/
structure Hidden (range : Nat) (values : List Int) : Prop where
  first : values.getD 0 0 = 0
  nonneg : ∀ i, 0 ≤ values.getD i 0
  le : ∀ i, values.getD i 0 ≤ range

/-- The values as a valuation. -/
def valuation (values : List Int) : Valuation := fun i => values.getD i 0

theorem Hidden.valuation_zero {range : Nat} {values : List Int} (h : Hidden range values) :
    valuation values 0 = 0 := by
  rw [valuation, h.first, Int.cast_zero]

theorem Hidden.valuation_nonneg {range : Nat} {values : List Int} (h : Hidden range values)
    (i : Nat) : 0 ≤ valuation values i := Int.cast_nonneg (h.nonneg i)

variable {src : Source σ} {range dim : Nat} {values : List Int} {m : Dbm} {i j : Nat}

/-- Every clock has a value of the hidden valuation. -/
theorem draws_valuation (src : Source σ) (dim range : Nat) :
    Draws (drawValuation src dim range) (Hidden range) := by
  let R (i : Nat) (x : Int) : Prop := (i = 0 → x = 0) ∧ 0 ≤ x ∧ x ≤ range
  have drawn : Draws (drawValuation src dim range) (List.Forall₂ R (List.range dim)) := by
    refine .mapM fun i _ => ?_
    split
    next => exact .pure ⟨fun _ => rfl, le_rfl, Int.natCast_nonneg range⟩
    next ne =>
      refine .bind_any fun x => .pure ⟨fun eq => absurd eq ne, Int.natCast_nonneg _, ?_⟩
      exact Int.ofNat_le.2 (Nat.le_of_lt_succ x.isLt)
  refine drawn.imp fun values h => ?_
  obtain ⟨length, each⟩ := List.forall₂_iff_get.1 h
  have value (i : Nat) : R i (values.getD i 0) := by
    rcases lt_or_ge i values.length with lt | ge
    · have drawn := each i (length ▸ lt) lt
      rw [List.getD_eq_getElem _ _ lt]
      simpa using drawn
    · rw [List.getD_eq_default _ _ ge]
      exact ⟨fun _ => rfl, le_rfl, Int.natCast_nonneg range⟩
  exact ⟨(value 0).1 rfl, fun i => (value i).2.1, fun i => (value i).2.2⟩

theorem Hidden.difference (h : Hidden range values) (i j : Nat) :
    |values.getD i 0 - values.getD j 0| ≤ range := by
  have := h.nonneg i
  have := h.nonneg j
  have := h.le i
  have := h.le j
  rw [abs_le]
  constructor <;> linarith

/-- The largest constant that is drawn: a difference of two clocks and the slack. -/
def largest (range : Nat) : Int := range + range / 2

/-- The range leaves the constants within the encoding. -/
theorem largest_le (small : (range : Int) ≤ maxRange) : largest range ≤ Bound.maxValue := by
  unfold largest maxRange Bound.maxValue at *
  omega

/-- A bound that is drawn holds of the difference. -/
theorem draws_bound {diff : Int} (small : (range : Int) ≤ maxRange) (le : |diff| ≤ range) :
    Draws (drawBound src range diff) fun b => b.Holds diff ∧ b.Within (largest range) := by
  obtain ⟨below, above⟩ := abs_le.1 le
  refine .bind_any fun slack => ?_
  dsimp only
  have few : slack.val ≤ range / 2 := Nat.le_of_lt_succ slack.isLt
  have within : |diff + slack.val| ≤ largest range := by
    rw [largest, abs_le]
    omega
  have fits : diff + slack.val ≤ Bound.maxValue := (abs_le.1 within).2.trans (largest_le small)
  split
  next none =>
    rw [none, Int.ofNat_zero, add_zero] at within fits
    exact .pure ⟨(Bound.holds_weak_iff fits).2 le_rfl, Bound.within_weak within⟩
  next some =>
    refine .bind_any fun weak => ?_
    split
    · refine .pure ⟨(Bound.holds_weak_iff fits).2 (Int.cast_le.2 ?_), Bound.within_weak within⟩
      omega
    · refine .pure ⟨Bound.holds_strict_iff.2 (Int.cast_lt.2 ?_), Bound.within_strict within⟩
      omega

/-! ## Constraints around the hidden valuation -/

/-- What drawing constraints keeps. -/
structure Drawn (range : Nat) (values : List Int) (o m : Dbm) : Prop
    extends Around (valuation values) o m where
  small : m.Small (largest range)

variable {o : Dbm} {K : Int} {b : Bound}

theorem small_tighten (h : m.Small K) (hi : i < m.dim) (hj : j < m.dim) (ne : i ≠ j)
    (within : b.Within K) : (m.tighten i j b).Small K where
  zeros k hk := by
    rw [Dbm.dim_tighten] at hk
    rw [Dbm.entry_tighten hi hj hk, if_neg fun eq => ne (eq.1.symm.trans eq.2)]
    exact h.zeros k hk
  within k hk l hl := by
    rw [Dbm.dim_tighten] at hk hl
    rw [Dbm.entry_tighten hi hj hl]
    split
    · rcases min_choice (m.entry i j) b with eq | eq <;> rw [eq]
      exacts [h.within i hi j hj, within]
    · exact h.within k hk l hl

/-- The zone of all valuations without a clock below the reference clock is a first matrix. -/
theorem Hidden.drawn_nonNegative (h : Hidden range values) (dim_pos : 0 < dim) :
    Drawn range values (.nonNegative dim dim_pos) (.nonNegative dim dim_pos) := by
  have entry {i j : Nat} (hi : i < dim) (hj : j < dim) :
      (Dbm.nonNegative dim dim_pos).entry i j = if i = j ∨ i = 0 then .zero else .infinity :=
    Dbm.entry_ofFn hi hj
  have room : 0 ≤ largest range := by
    unfold largest
    omega
  have holds : (Dbm.nonNegative dim dim_pos).Holds (valuation values) := by
    intro i hi j hj
    rw [entry hi hj]
    split
    next zero =>
      have le : valuation values i - valuation values j ≤ 0 := by
        rcases zero with rfl | rfl
        · exact (sub_self _).le
        · rw [h.valuation_zero, zero_sub]
          exact neg_nonpos.2 (h.valuation_nonneg j)
      exact (Bound.holds_weak_iff (by decide)).2 (by rwa [Int.cast_zero])
    next => exact Bound.holds_infinity _
  refine ⟨holds.around, fun i hi => ?_, fun i hi j hj => ?_⟩
  · rw [entry hi hi, if_pos (.inl rfl)]
  · rw [entry hi hj]
    split
    exacts [Bound.within_zero room, Bound.within_infinity _]

/-- One more constraint is drawn around the hidden valuation. -/
theorem Drawn.draws_entry (h : Drawn range values o m) (hidden : Hidden range values)
    (small : (range : Int) ≤ maxRange) (hi : i < o.dim) (hj : j < o.dim) :
    Draws (drawEntry src range values m i j) (Drawn range values o) := by
  unfold drawEntry
  split
  next => exact .pure h
  next ne =>
    refine .bind_any fun constrained => ?_
    split
    · refine (draws_bound small (hidden.difference i j)).bind fun b ⟨holds, within⟩ => .pure ?_
      rw [Int.cast_sub] at holds
      exact ⟨h.tighten hi hj holds, small_tighten h.small (h.dim ▸ hi) (h.dim ▸ hj) ne within⟩
    · exact .pure h

/-- All constraints are drawn around the hidden valuation. -/
theorem Drawn.draws_entries (h : Drawn range values o m) (hidden : Hidden range values)
    (small : (range : Int) ≤ maxRange) :
    Draws (drawEntries src range values m) (Drawn range values o) := by
  refine .foldlM h fun m' h' i hi => .foldlM h' fun m'' h'' j hj => ?_
  have hi : i < o.dim := h.dim ▸ List.mem_range.1 hi
  have hj : j < o.dim := h'.dim ▸ List.mem_range.1 hj
  exact h''.draws_entry hidden small hi hj

/-- A matrix is drawn around some hidden valuation. -/
theorem draws_matrix (src : Source σ) (dim_pos : 0 < dim) (small : (range : Int) ≤ maxRange) :
    Draws (drawMatrix src dim dim_pos range) fun m =>
      ∃ values, Hidden range values ∧ Drawn range values (.nonNegative dim dim_pos) m := by
  refine (draws_valuation src dim range).bind fun values hidden => ?_
  exact ((hidden.drawn_nonNegative dim_pos).draws_entries hidden small).imp fun m h =>
    ⟨values, hidden, h⟩

/-! ## Closing -/

theorem Hidden.near (h : Hidden range values) (small : (range : Int) ≤ maxRange) (n : Nat) :
    Dbm.Near n (valuation values) := by
  intro i _ j _
  have le : values.getD i 0 - values.getD j 0 ≤ Bound.maxValue := by
    have := (abs_le.1 (h.difference i j)).2
    unfold maxRange Bound.maxValue at *
    omega
  have := Int.cast_le (R := ℚ) |>.2 le
  rwa [Int.cast_sub] at this

/-- A matrix that is drawn passes for inhabited when it is closed, and after that. -/
theorem Drawn.close (h : Drawn range values o m) (near : Dbm.Near o.dim (valuation values)) :
    m.close.2 = true ∧ Around (valuation values) o m.close.1 :=
  h.closeAlong near fun _ hd => h.dim ▸ Dbm.mem_detours.1 hd

/-- Sums of constants along all clocks fit the encoding. -/
theorem room_largest {n : Nat} (sums : 3 * (n * (range : Int)) ≤ Bound.maxValue) :
    Room n (largest range) where
  nonneg := by
    unfold largest
    omega
  small := by
    have twice : 2 * largest range ≤ 3 * range := by
      unfold largest
      omega
    have all : n * (2 * largest range) ≤ n * (3 * (range : Int)) :=
      mul_le_mul_of_nonneg_left twice (Int.natCast_nonneg n)
    linarith

/-- With room for sums, what is closed is closed. -/
theorem Drawn.isClosed_close (h : Drawn range values o m)
    (near : Dbm.Near o.dim (valuation values))
    (sums : 3 * (o.dim * (range : Int)) ≤ Bound.maxValue) : m.close.1.isClosed = true := by
  have room := h.dim ▸ room_largest sums
  have settled := (h.small.settled_close room (h.close near).1).1
  exact settled.isClosed ((Dbm.dim_close m).symm ▸ room)

/-! ## The zone -/

/-- What is drawn is closed, and the mark is computed from it. -/
theorem zone_eq_ok {range : Int} {s : σ} (dim_pos : 0 < dim) (one_le : 1 ≤ range)
    (le : range ≤ maxRange)
    (inhabited : (drawMatrix src dim dim_pos range.toNat s).1.close.2 = true) :
    zone src dim range s = .ok (((drawMatrix src dim dim_pos range.toNat s).1.close.1,
      (drawMatrix src dim dim_pos range.toNat s).1.close.1 != .nonNegative dim dim_pos),
      (drawMatrix src dim dim_pos range.toNat s).2) := by
  have checkedDim : Dbm.checkDim dim = .ok ⟨dim, dim_pos⟩ := dif_pos dim_pos
  have checkedRange : checkRange range = .ok range.toNat := if_pos ⟨one_le, le⟩
  unfold zone
  rw [checkedDim, checkedRange]
  change (if (drawMatrix src dim dim_pos range.toNat s).1.close.2 then _ else _) = _
  rw [if_pos inhabited]
  rfl

/-- **Random zones are inhabited and without clocks below the reference clock**, and they are
closed if sums of constants fit the encoding. -/
theorem zone_spec (src : Source σ) (s : σ) {dim : Nat} {range : Int} (dim_pos : 0 < dim)
    (one_le : 1 ≤ range) (le : range ≤ maxRange) :
    ∃ m smaller s', zone src dim range s = .ok ((m, smaller), s') ∧ m.dim = dim ∧
      m.isValid = true ∧ (∃ v, m.Holds v) ∧
      (Dbm.nonNegative dim dim_pos).includes m = .ok true ∧
      (smaller = true ↔ m ≠ .nonNegative dim dim_pos) ∧
      (3 * (dim * range) ≤ Bound.maxValue → m.isClosed = true) := by
  have cast : (range.toNat : Int) = range := Int.toNat_of_nonneg (by omega)
  have small : (range.toNat : Int) ≤ maxRange := cast.symm ▸ le
  obtain ⟨values, hidden, drawn⟩ := draws_matrix src dim_pos small s
  obtain ⟨inhabited, around⟩ := drawn.close (hidden.near small dim)
  refine ⟨_, _, _, zone_eq_ok dim_pos one_le le inhabited, around.dim, ?_, ⟨_, around.holds⟩, ?_,
    bne_iff_ne, fun sums => ?_⟩
  · exact Dbm.isValid_of_holds around.holds (hidden.near small _)
  · have first := hidden.drawn_nonNegative dim_pos
    rw [Dbm.includes_eq_ok around.dim.symm, around.holds.isEmpty_eq_false,
      first.holds.isEmpty_eq_false, decide_eq_true around.le]
    rfl
  · exact drawn.isClosed_close (hidden.near small dim) (by rwa [cast])

/-- A zone of three clocks with constants up to ten. -/
theorem zone_spec_ten : (0 < 3 ∧ (1 : Int) ≤ 10 ∧ 10 ≤ maxRange) ∧
    ∃ m smaller s', zone Words.source 3 10 (.ofSeed [] 7) = .ok ((m, smaller), s') ∧
      m.isValid = true ∧ m.isClosed = true := by
  have dim_pos : 0 < 3 := by decide
  have one_le : (1 : Int) ≤ 10 := by decide
  have le : 10 ≤ maxRange := by decide
  obtain ⟨m, smaller, s', run, -, valid, -, -, -, closed⟩ :=
    zone_spec Words.source (.ofSeed [] 7) dim_pos one_le le
  exact ⟨⟨dim_pos, one_le, le⟩, m, smaller, s', run, valid, closed (by decide)⟩

/-! ## A steep chain -/

/-- Words for nine clocks and the largest range. The hidden valuation has `x₁` and `x₈` at the end
of the range and the others at zero. The chain `x₁, x₂, …, x₇, x₀` has the largest slack at every
step, and `x₀ - x₈` has none. -/
def steepWords : List UInt64 :=
  [4294967280, 0, 0, 0, 0, 0, 0, 4294967280] ++
    (List.range 9).flatMap fun i => ((List.range 9).filter (i ≠ ·)).flatMap fun j =>
      if 0 < i ∧ i < 8 ∧ j = (i + 1) % 8 then [0, 4294967264, 0]
      else if i = 0 ∧ j = 8 then [0, 0] else [0x8000000000000000]

/-- The bound on `x₁ - x₀` is a sum along the whole chain and is clamped. So the detour over `x₀` is
shorter than the bound on `x₁ - x₈`, which is a sum that fits the encoding. -/
theorem zone_steep : ∃ m s', zone Words.source 9 maxRange (.ofSeed steepWords 0) =
    .ok ((m, true), s') ∧ m.entry 1 0 + m.entry 0 8 < m.entry 1 8 ∧ m.isClosed = false := by
  have evaluated : ∃ r ∈ (zone Words.source 9 maxRange (.ofSeed steepWords 0)).toOption,
      r.1.2 = true ∧ r.1.1.entry 1 0 + r.1.1.entry 0 8 < r.1.1.entry 1 8 ∧
        r.1.1.isClosed = false := by
    decide +kernel
  obtain ⟨⟨⟨m, smaller⟩, s'⟩, drawn, rfl, shorter, notClosed⟩ := evaluated
  refine ⟨m, s', ?_, shorter, notClosed⟩
  cases run : zone Words.source 9 maxRange (.ofSeed steepWords 0) with
  | ok r =>
    rw [run] at drawn
    exact congrArg Except.ok (Option.some.inj drawn)
  | error e =>
    rw [run] at drawn
    cases drawn

end ZoneDiagram.Sample

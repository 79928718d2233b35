import ZoneDiagram.Dbm.Feasible
import ZoneDiagram.Proofs.CutList.Intervals
import ZoneDiagram.Proofs.Dbm.Extension

/-!
# Settled matrices cut at a pair

A settled matrix admits an interval exactly if one of its valuations has the difference of the pair
in it, and what is left of the matrix is settled and has exactly these valuations
(`Cuttable.holds_restricted_iff`, `Cuttable.admits_iff`).

The pieces that meet the zone stand side by side. So the first run of admitted pieces misses no
valuation of the zone (`exists_piece_of_holds`).
-/

namespace ZoneDiagram.Dbm

open CutList

variable {K : Int} {m : Dbm} {pair : ClockPair} {lower : Option Bound} {upper : Bound}
  {v : Valuation}

theorem admits_eq_true_iff : m.admits pair lower upper = true ↔
    (upper = .infinity ∨ .zero ≤ upper + m.entry pair.j pair.i) ∧
      ∀ b ∈ lower, .zero ≤ b.complement + m.entry pair.i pair.j := by
  cases lower <;> simp [admits, Bound.isInfinity_iff]

/-- An interval with small constants for the difference of two clocks of a settled matrix. -/
structure Cuttable (K : Int) (m : Dbm) (pair : ClockPair) (lower : Option Bound) (upper : Bound) :
    Prop where
  settled : m.Settled K
  room : Room m.dim K
  inside : pair.i < m.dim
  within : upper.Within K
  within_lower : ∀ b ∈ lower, b.Within K
  lt : ∀ b ∈ lower, b < upper

namespace Cuttable

theorem inside' (h : Cuttable K m pair lower upper) : pair.j < m.dim := pair.lt.trans h.inside

theorem le_maxValue (h : Cuttable K m pair lower upper) : K ≤ Bound.maxValue :=
  h.room.le_maxValue m.dim_pos

theorem lower_ne_infinity (h : Cuttable K m pair lower upper) {b : Bound} (hb : b ∈ lower) :
    b ≠ .infinity :=
  ne_of_lt (lt_of_lt_of_le (h.lt b hb) (h.within.le_infinity h.le_maxValue))

/-- The matrix after the upper bound of the interval. -/
theorem addable_upper (h : Cuttable K m pair lower upper) (ha : m.admits pair lower upper)
    (finite : upper ≠ .infinity) : Addable K m pair.i pair.j upper where
  settled := h.settled
  room := h.room
  left := h.inside
  right := h.inside'
  ne := (ne_of_lt pair.lt).symm
  within := h.within
  sat := (admits_eq_true_iff.1 ha).1.resolve_left finite

/-- The lower bound of the interval after the upper one. -/
theorem addable_lower {b : Bound} (h : Cuttable K m pair (some b) upper)
    (ha : m.admits pair (some b) upper) (finite : upper ≠ .infinity) :
    Addable K (m.constrain pair.i pair.j upper).1 pair.j pair.i b.complement := by
  have add := h.addable_upper ha finite
  have dim := Addable.dim_constrain m pair.i pair.j upper
  exact {
    settled := add.settled_constrain
    room := dim ▸ h.room
    left := dim ▸ h.inside'
    right := dim ▸ h.inside
    ne := ne_of_lt pair.lt
    within := Bound.within_complement (h.within_lower b rfl) (h.lower_ne_infinity rfl)
    sat := by
      rw [add.entry_constrain h.inside h.inside', add.through_ends]
      rcases min_choice (m.entry pair.i pair.j) upper with eq | eq <;> rw [eq]
      · exact (admits_eq_true_iff.1 ha).2 b rfl
      · rw [Bound.bound_add_comm]
        exact Bound.zero_le_add_complement (h.lt b rfl) }

theorem addable_lower_only {b : Bound} (h : Cuttable K m pair (some b) upper)
    (ha : m.admits pair (some b) upper) : Addable K m pair.j pair.i b.complement where
  settled := h.settled
  room := h.room
  left := h.inside'
  right := h.inside
  ne := ne_of_lt pair.lt
  within := Bound.within_complement (h.within_lower b rfl) (h.lower_ne_infinity rfl)
  sat := (admits_eq_true_iff.1 ha).2 b rfl

/-- What is left on an admitted interval: a settled matrix of the same dimension, with exactly the
valuations that have the difference in the interval. -/
theorem restricted_spec (h : Cuttable K m pair lower upper) (ha : m.admits pair lower upper) :
    (m.restricted pair lower upper).dim = m.dim ∧ (m.restricted pair lower upper).Settled K ∧
      ∀ v, (m.restricted pair lower upper).Holds v ↔
        m.Holds v ∧ Between lower upper (v pair.i - v pair.j) := by
  have complement {b : Bound} (hb : b ∈ lower) (v : Valuation) :
      b.complement.Holds (v pair.j - v pair.i) ↔ ¬ b.Holds (v pair.i - v pair.j) := by
    rw [← neg_sub, Bound.holds_complement_iff (h.within_lower b hb) h.le_maxValue
      (h.lower_ne_infinity hb)]
  unfold restricted Between
  -- An infinite or missing bound adds no constraint, so none, one or two are added.
  by_cases inf : upper = .infinity
  · rw [if_pos (Bound.isInfinity_iff.2 inf)]
    have all (v : Valuation) : upper.Holds (v pair.i - v pair.j) := inf ▸ Bound.holds_infinity _
    cases lower with
    | none => exact ⟨rfl, h.settled, fun v => by simp [all v]⟩
    | some b =>
      have add := h.addable_lower_only ha
      refine ⟨Addable.dim_constrain .., add.settled_constrain, fun v => ?_⟩
      rw [add.holds_constrain_iff, complement rfl]
      simp [all v]
  · rw [if_neg (fun eq => inf (Bound.isInfinity_iff.1 eq))]
    have addU := h.addable_upper ha inf
    cases lower with
    | none =>
      refine ⟨Addable.dim_constrain .., addU.settled_constrain, fun v => ?_⟩
      rw [addU.holds_constrain_iff]
      simp
    | some b =>
      have addL := h.addable_lower ha inf
      refine ⟨?_, addL.settled_constrain, fun v => ?_⟩
      · rw [Addable.dim_constrain, Addable.dim_constrain]
      · rw [addL.holds_constrain_iff, addU.holds_constrain_iff, complement rfl]
        simp [and_assoc]

theorem holds_restricted_iff (h : Cuttable K m pair lower upper) (ha : m.admits pair lower upper) :
    (m.restricted pair lower upper).Holds v ↔
      m.Holds v ∧ Between lower upper (v pair.i - v pair.j) :=
  (h.restricted_spec ha).2.2 v

theorem admits_of_holds (h : Cuttable K m pair lower upper) (hv : m.Holds v)
    (hd : Between lower upper (v pair.i - v pair.j)) : m.admits pair lower upper := by
  have back := hv pair.j h.inside' pair.i h.inside
  rw [← neg_sub] at back
  refine admits_eq_true_iff.2 ⟨.inr (Bound.zero_le_add_of_holds hd.1 back), fun b hb => ?_⟩
  have fails : b.complement.Holds (-(v pair.i - v pair.j)) :=
    (Bound.holds_complement_iff (h.within_lower b hb) h.le_maxValue (h.lower_ne_infinity hb)
      _).2 (hd.2 b hb)
  refine Bound.zero_le_add_of_holds fails ?_
  rw [neg_neg]
  exact hv pair.i h.inside pair.j h.inside'

/-- **An interval is admitted exactly if some valuation of the zone lies in it.** -/
theorem admits_iff (h : Cuttable K m pair lower upper) :
    m.admits pair lower upper ↔ ∃ v, m.Holds v ∧ Between lower upper (v pair.i - v pair.j) := by
  constructor
  · intro ha
    obtain ⟨v, hv⟩ := (h.restricted_spec ha).2.1.exists_holds
    exact ⟨v, (h.holds_restricted_iff ha).1 hv⟩
  · rintro ⟨v, hv, hd⟩
    exact h.admits_of_holds hv hd

end Cuttable

/-! ## Cut lists -/

variable {α : Type} {p q : Piece α} {ps : CutList α} {r : Piece (α × Dbm)} {lo : Option Bound}
  {a : α}

/-- A cut list with small constants for the difference of two clocks of a settled matrix. -/
structure Divides (K : Int) (m : Dbm) (pair : ClockPair) (lower : Option Bound) (ps : CutList α) :
    Prop where
  settled : m.Settled K
  room : Room m.dim K
  inside : pair.i < m.dim
  ascending : Ascending lower ps
  within : ∀ p ∈ ps, p.upper.Within K
  within_lower : ∀ b ∈ lower, b.Within K

theorem Divides.head (h : Divides K m pair lower (p :: ps)) : Cuttable K m pair lower p.upper where
  settled := h.settled
  room := h.room
  inside := h.inside
  within := h.within p List.mem_cons_self
  within_lower := h.within_lower
  lt := h.ascending.1

theorem Divides.tail (h : Divides K m pair lower (p :: ps)) :
    Divides K m pair (some p.upper) ps where
  settled := h.settled
  room := h.room
  inside := h.inside
  ascending := h.ascending.2.2
  within q hq := h.within q (List.mem_cons_of_mem p hq)
  within_lower b hb := by
    cases hb
    exact h.within p List.mem_cons_self

theorem Divides.cuttable (h : Divides K m pair lower ps) (hp : (lo, p) ∈ intervals lower ps) :
    Cuttable K m pair lo p.upper := by
  induction ps generalizing lower with
  | nil => cases hp
  | cons q ps ih =>
    rcases List.mem_cons.1 hp with eq | hp
    · obtain ⟨rfl, rfl⟩ := Prod.mk.inj eq
      exact h.head
    · exact ih h.tail hp

/-- A piece with what is left of the zone on its interval. -/
def cutPiece (m : Dbm) (pair : ClockPair) (c : Option Bound × Piece α) : Piece (α × Dbm) :=
  ⟨(c.2.item, m.restricted pair c.1 c.2.upper), c.2.upper⟩

/-- The feasible pieces are the wanted ones that the zone admits, with what is left of the zone. -/
theorem feasible_eq (wanted : α → Bool) (lower : Option Bound) (ps : CutList α) :
    m.feasible pair wanted lower ps = ((intervals lower ps).filter fun c =>
      wanted c.2.item && m.admits pair c.1 c.2.upper).map (m.cutPiece pair) := by
  induction ps generalizing lower with
  | nil => rfl
  | cons p ps ih =>
    rw [feasible, intervals, List.filter_cons, ih]
    split <;> rfl

theorem mem_feasible_iff {wanted : α → Bool} : r ∈ m.feasible pair wanted lower ps ↔
    ∃ c ∈ intervals lower ps, wanted c.2.item = true ∧ m.admits pair c.1 c.2.upper = true ∧
      r = m.cutPiece pair c := by
  simp only [feasible_eq, List.mem_map, List.mem_filter, Bool.and_eq_true, and_assoc, @eq_comm _ r]

theorem feasible_of_all_admitted (lower : Option Bound)
    (h : ∀ c ∈ intervals lower ps, m.admits pair c.1 c.2.upper) :
    m.feasible pair (fun _ => true) lower ps = (intervals lower ps).map (m.cutPiece pair) := by
  rw [feasible_eq, List.filter_eq_self.2 fun c hc => by simpa using h c hc]

/-- What is left on a feasible piece are valuations of the zone that select its item. -/
theorem Divides.holds_of_mem_feasible {wanted : α → Bool} (h : Divides K m pair none ps)
    (hr : r ∈ m.feasible pair wanted none ps) (hv : r.item.2.Holds v) :
    m.Holds v ∧ itemAt? (v pair.i - v pair.j) ps = some r.item.1 := by
  obtain ⟨c, hc, -, admitted, rfl⟩ := mem_feasible_iff.1 hr
  obtain ⟨inside, between⟩ := ((h.cuttable hc).holds_restricted_iff admitted).1 hv
  exact ⟨inside, itemAt?_of_between h.ascending hc between⟩

/-- Every valuation of the zone that selects a wanted item is left on a feasible piece. -/
theorem Divides.exists_feasible_of_holds (h : Divides K m pair none ps) (wanted : α → Bool)
    (hv : m.Holds v) (item : itemAt? (v pair.i - v pair.j) ps = some a) (want : wanted a = true) :
    ∃ r ∈ m.feasible pair wanted none ps, r.item.1 = a ∧ r.item.2.Holds v := by
  obtain ⟨lo, p, hp, rfl, between⟩ := exists_interval_of_itemAt? none item nofun
  have cut := h.cuttable hp
  have admitted := cut.admits_of_holds hv between
  exact ⟨_, mem_feasible_iff.2 ⟨(lo, p), hp, want, admitted, rfl⟩, rfl,
    (cut.holds_restricted_iff admitted).2 ⟨hv, between⟩⟩

/-- What is left on two feasible pieces has no valuation in common. -/
theorem Divides.pairwise_feasible (h : Divides K m pair lower ps) (wanted : α → Bool) :
    (m.feasible pair wanted lower ps).Pairwise
      fun r s => ∀ v, ¬(r.item.2.Holds v ∧ s.item.2.Holds v) := by
  induction ps generalizing lower with
  | nil => exact .nil
  | cons p ps ih =>
    unfold feasible
    split
    next taken =>
      refine List.pairwise_cons.2 ⟨fun s hs v hv => ?_, ih h.tail⟩
      have admitted := (Bool.and_eq_true_iff.1 taken).2
      obtain ⟨c, hc, -, admitted', rfl⟩ := mem_feasible_iff.1 hs
      have upper := ((h.head.holds_restricted_iff admitted).1 hv.1).2.1
      have between := ((h.tail.cuttable hc).holds_restricted_iff admitted').1 hv.2
      exact not_holds_of_between between.2 h.ascending.2.2 hc upper
    next => exact ih h.tail

theorem admittedStart_cons_of_admits (h : m.admits pair lower p.upper) :
    m.admittedStart pair lower (p :: ps) =
      m.cutPiece pair (lower, p) :: m.admittedStart pair (some p.upper) ps := if_pos h

theorem feasibleRun_cons_of_admits (h : m.admits pair lower p.upper) :
    m.feasibleRun pair lower (p :: ps) =
      m.cutPiece pair (lower, p) :: m.admittedStart pair (some p.upper) ps :=
  (if_pos h).trans (admittedStart_cons_of_admits h)

theorem feasibleRun_cons_of_not_admits (h : ¬ m.admits pair lower p.upper) :
    m.feasibleRun pair lower (p :: ps) = m.feasibleRun pair (some p.upper) ps := if_neg h

theorem ascending_admittedStart (h : Ascending lower ps) :
    Ascending lower (m.admittedStart pair lower ps) := by
  induction ps generalizing lower with
  | nil => trivial
  | cons p ps ih =>
    by_cases ha : m.admits pair lower p.upper
    · rw [admittedStart_cons_of_admits ha]
      exact ⟨h.1, h.2.1, ih h.2.2⟩
    · rw [admittedStart, if_neg ha]
      trivial

theorem ascending_feasibleRun (m : Dbm) (pair : ClockPair) (h : Ascending lower ps) :
    Ascending none (m.feasibleRun pair lower ps) := by
  induction ps generalizing lower with
  | nil => trivial
  | cons p ps ih =>
    by_cases ha : m.admits pair lower p.upper
    · rw [feasibleRun_cons_of_admits ha]
      exact ⟨nofun, h.2.1, ascending_admittedStart h.2.2⟩
    · rw [feasibleRun_cons_of_not_admits ha]
      exact ih h.2.2

theorem exists_interval_of_mem_admittedStart
    (hr : (lo, r) ∈ intervals lower (m.admittedStart pair lower ps)) :
    ∃ p, (lo, p) ∈ intervals lower ps ∧ m.admits pair lo p.upper ∧
      r = m.cutPiece pair (lo, p) := by
  induction ps generalizing lower with
  | nil => cases hr
  | cons p ps ih =>
    by_cases ha : m.admits pair lower p.upper
    · rw [admittedStart_cons_of_admits ha] at hr
      rcases List.mem_cons.1 hr with eq | hr
      · obtain ⟨rfl, rfl⟩ := Prod.mk.inj eq
        exact ⟨p, List.mem_cons_self, ha, rfl⟩
      · obtain ⟨q, hq, rest⟩ := ih hr
        exact ⟨q, List.mem_cons_of_mem _ hq, rest⟩
    · rw [admittedStart, if_neg ha] at hr
      cases hr

/-- Every piece of the run is an admitted piece of the list; only the first may reach further
down. -/
theorem exists_interval_of_mem_feasibleRun {lo' : Option Bound}
    (hr : (lo', r) ∈ intervals none (m.feasibleRun pair lower ps)) :
    ∃ lo p, (lo, p) ∈ intervals lower ps ∧ m.admits pair lo p.upper ∧
      r = m.cutPiece pair (lo, p) ∧ ∀ b ∈ lo', b ∈ lo := by
  induction ps generalizing lower with
  | nil => cases hr
  | cons p ps ih =>
    by_cases ha : m.admits pair lower p.upper
    · rw [feasibleRun_cons_of_admits ha] at hr
      rcases List.mem_cons.1 hr with eq | hr
      · obtain ⟨rfl, rfl⟩ := Prod.mk.inj eq
        exact ⟨lower, p, List.mem_cons_self, ha, rfl, nofun⟩
      · obtain ⟨q, hq, admitted, eq⟩ := exists_interval_of_mem_admittedStart hr
        exact ⟨lo', q, List.mem_cons_of_mem _ hq, admitted, eq, fun _ hb => hb⟩
    · rw [feasibleRun_cons_of_not_admits ha] at hr
      obtain ⟨lo, q, hq, rest⟩ := ih hr
      exact ⟨lo, q, List.mem_cons_of_mem _ hq, rest⟩

theorem admittedStart_of_all_admitted
    (h : ∀ c ∈ intervals lower ps, m.admits pair c.1 c.2.upper) :
    m.admittedStart pair lower ps = (intervals lower ps).map (m.cutPiece pair) := by
  induction ps generalizing lower with
  | nil => rfl
  | cons p ps ih =>
    rw [admittedStart_cons_of_admits (h (lower, p) List.mem_cons_self),
      ih fun c hc => h c (List.mem_cons_of_mem _ hc)]
    rfl

theorem feasibleRun_of_all_admitted (m : Dbm) (pair : ClockPair) (lower : Option Bound)
    (h : ∀ c ∈ intervals lower ps, m.admits pair c.1 c.2.upper) :
    m.feasibleRun pair lower ps = (intervals lower ps).map (m.cutPiece pair) := by
  rw [← admittedStart_of_all_admitted h]
  cases ps with
  | nil => rfl
  | cons p ps => exact if_pos (h (lower, p) List.mem_cons_self)

/-- After an admitted piece the run goes on up to the piece of any valuation of the zone. -/
theorem exists_piece_of_admittedStart {b : Bound} (h : Divides K m pair (some b) ps)
    (reach : .zero ≤ b + m.entry pair.j pair.i) (hv : m.Holds v)
    (broken : ¬ b.Holds (v pair.i - v pair.j))
    (item : itemAt? (v pair.i - v pair.j) ps = some a) :
    ∃ sub, itemAt? (v pair.i - v pair.j) (m.admittedStart pair (some b) ps) = some (a, sub) ∧
      sub.Holds v := by
  induction ps generalizing b with
  | nil => cases item
  | cons p ps ih =>
    have lt : b < p.upper := h.ascending.1 b rfl
    have small := h.head.within_lower b rfl
    have fails : b.complement.Holds (-(v pair.i - v pair.j)) :=
      (Bound.holds_complement_iff small h.head.le_maxValue (h.head.lower_ne_infinity rfl) _).2
        broken
    have further : .zero ≤ p.upper + m.entry pair.j pair.i := by
      rw [Bound.zero_le_add_iff] at reach ⊢
      refine reach.trans ?_
      gcongr
      exact Bound.below_mono h.ascending.2.1 (le_of_lt lt)
    -- The upper side was reached before, and the valuation itself is beyond the lower side.
    have admitted : m.admits pair (some b) p.upper := by
      refine admits_eq_true_iff.2 ⟨.inr further, ?_⟩
      rintro b ⟨⟩
      refine Bound.zero_le_add_of_holds fails ?_
      rw [neg_neg]
      exact hv pair.i h.inside pair.j h.head.inside'
    rw [admittedStart_cons_of_admits admitted]
    by_cases hp : p.upper.Holds (v pair.i - v pair.j)
    · rw [itemAt?_cons_of_holds hp] at item
      cases item
      refine ⟨_, if_pos hp, (h.head.holds_restricted_iff admitted).2 ⟨hv, hp, ?_⟩⟩
      rintro b ⟨⟩
      exact broken
    · rw [itemAt?_cons_of_not_holds hp] at item
      obtain ⟨sub, found, holds⟩ := ih h.tail further hp item
      exact ⟨sub, (if_neg hp).trans found, holds⟩

/-- **The run has the item of every valuation of the zone, with a zone that holds of it.** -/
theorem exists_piece_of_holds (h : Divides K m pair lower ps) (hv : m.Holds v)
    (broken : ∀ b ∈ lower, ¬ b.Holds (v pair.i - v pair.j))
    (item : itemAt? (v pair.i - v pair.j) ps = some a) :
    ∃ sub, itemAt? (v pair.i - v pair.j) (m.feasibleRun pair lower ps) = some (a, sub) ∧
      sub.Holds v := by
  induction ps generalizing lower with
  | nil => cases item
  | cons p ps ih =>
    by_cases hp : p.upper.Holds (v pair.i - v pair.j)
    · have admitted := h.head.admits_of_holds hv ⟨hp, broken⟩
      rw [itemAt?_cons_of_holds hp] at item
      cases item
      rw [feasibleRun_cons_of_admits admitted]
      exact ⟨_, if_pos hp, (h.head.holds_restricted_iff admitted).2 ⟨hv, hp, broken⟩⟩
    · rw [itemAt?_cons_of_not_holds hp] at item
      have after : ∀ b ∈ some p.upper, ¬ b.Holds (v pair.i - v pair.j) := by
        rintro b ⟨⟩
        exact hp
      by_cases admitted : m.admits pair lower p.upper
      · have finite : p.upper ≠ .infinity := fun eq => hp (eq ▸ Bound.holds_infinity _)
        have reach := (admits_eq_true_iff.1 admitted).1.resolve_left finite
        obtain ⟨sub, found, holds⟩ := exists_piece_of_admittedStart h.tail reach hv hp item
        rw [feasibleRun_cons_of_admits admitted]
        exact ⟨sub, (if_neg hp).trans found, holds⟩
      · rw [feasibleRun_cons_of_not_admits admitted]
        exact ih h.tail after item

/-! ## All admitted pieces -/

/-- The pieces that the zone admits, each with the zone on its interval. -/
abbrev admitted (m : Dbm) (pair : ClockPair) : Option Bound → CutList α → CutList (α × Dbm) :=
  m.feasible pair fun _ => true

theorem admitted_cons_of_admits (h : m.admits pair lower p.upper) :
    m.admitted pair lower (p :: ps) =
      m.cutPiece pair (lower, p) :: m.admitted pair (some p.upper) ps := if_pos h

theorem admitted_cons_of_not_admits (h : ¬m.admits pair lower p.upper) :
    m.admitted pair lower (p :: ps) = m.admitted pair (some p.upper) ps := if_neg h

/-- After an admitted piece, the next one is admitted if any piece is. -/
theorem Divides.admits_next (h : Divides K m pair lower (p :: q :: ps))
    (first : m.admits pair lower p.upper)
    (more : m.admitted pair (some p.upper) (q :: ps) ≠ []) :
    m.admits pair (some p.upper) q.upper := by
  obtain ⟨r, hr⟩ := List.exists_mem_of_ne_nil _ more
  obtain ⟨c, hc, -, admitted, -⟩ := mem_feasible_iff.1 hr
  obtain ⟨v, hv, between⟩ := (h.tail.cuttable hc).admits_iff.1 admitted
  have finite : p.upper ≠ .infinity := h.tail.head.lower_ne_infinity rfl
  have reach := (admits_eq_true_iff.1 first).1.resolve_left finite
  obtain ⟨sub, found, -⟩ := exists_piece_of_admittedStart h.tail reach hv
    (not_holds_of_between between h.tail.ascending hc)
    (itemAt?_of_between h.tail.ascending hc between)
  by_contra refused
  rw [admittedStart, if_neg refused] at found
  cases found

/-- The first run of admitted pieces has all of them. -/
theorem Divides.feasibleRun_eq (h : Divides K m pair lower ps) :
    m.feasibleRun pair lower ps = m.admitted pair lower ps := by
  have start {lower : Option Bound} {p : Piece α} {ps : CutList α}
      (h : Divides K m pair lower (p :: ps)) (first : m.admits pair lower p.upper) :
      m.admittedStart pair (some p.upper) ps = m.admitted pair (some p.upper) ps := by
    induction ps generalizing lower p with
    | nil => rfl
    | cons q ps ih =>
      by_cases next : m.admits pair (some p.upper) q.upper
      · rw [admittedStart_cons_of_admits next, admitted_cons_of_admits next, ih h.tail next]
      · rw [admittedStart, if_neg next]
        by_contra more
        exact next (h.admits_next first (Ne.symm more))
  induction ps generalizing lower with
  | nil => rfl
  | cons p ps ih =>
    by_cases first : m.admits pair lower p.upper
    · rw [feasibleRun_cons_of_admits first, admitted_cons_of_admits first, start h first]
    · rw [feasibleRun_cons_of_not_admits first, admitted_cons_of_not_admits first, ih h.tail]

/-- **The admitted pieces stand side by side.** -/
theorem Divides.exists_run (h : Divides K m pair lower ps) : ∃ before run after,
    intervals lower ps = before ++ run ++ after ∧
      (∀ c ∈ before ++ after, ¬m.admits pair c.1 c.2.upper) ∧
      ∀ c ∈ run, m.admits pair c.1 c.2.upper := by
  induction ps generalizing lower with
  | nil => exact ⟨[], [], [], rfl, by simp, by simp⟩
  | cons p ps ih =>
    obtain ⟨before, run, after, parts, refused, admitted⟩ := ih h.tail
    by_cases first : m.admits pair lower p.upper
    · cases before with
      | nil => exact ⟨[], (lower, p) :: run, after, congrArg _ parts, refused,
          List.forall_mem_cons.2 ⟨first, admitted⟩⟩
      | cons c before =>
        -- The next piece is refused, so none of the further ones is admitted.
        refine ⟨[], [(lower, p)], intervals (some p.upper) ps, rfl, fun d hd more => ?_,
          by simp [first]⟩
        cases ps with
        | nil => cases hd
        | cons q ps =>
          obtain ⟨rfl, -⟩ := List.cons.inj parts
          refine refused _ List.mem_cons_self (h.admits_next first ?_)
          exact List.ne_nil_of_mem (mem_feasible_iff.2 ⟨d, hd, rfl, more, rfl⟩)
    · exact ⟨(lower, p) :: before, run, after, congrArg _ parts,
        List.forall_mem_cons.2 ⟨first, refused⟩, admitted⟩

end ZoneDiagram.Dbm

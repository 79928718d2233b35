import ZoneDiagram.Proofs.Closure
import ZoneDiagram.Proofs.Dbm.Feasible

/-!
# Feasible decisions

**Theorem (`Small.admits_exact`).** Let a closed matrix with constants up to `constantLimit` be cut
by a proper cut list with such constants. An interval is admitted exactly if some valuation has the
difference of the pair in it, and what is left of the matrix there is closed, inhabited and has
exactly these valuations. The admitted intervals are some of the list in a row, at least one. So a
pass that stops after the first run of them misses none.

Whether an interval is admitted is tested on each side for itself. This is enough because a zone is
convex: the differences of a pair that its valuations take are an interval as well, and two
intervals meet if each of them reaches over the lower end of the other one.
-/

namespace ZoneDiagram.Dbm

open CutList

variable {m r : Dbm} {pair : ClockPair} {lower : Option Bound} {upper : Bound} {K : Int}
  {α : Type} {pieces : CutList α}

/-- The second matrix is closed and inhabited, and its valuations are those of the first one that
have the difference of the pair in the interval. -/
structure CutOff (m : Dbm) (pair : ClockPair) (lower : Option Bound) (upper : Bound) (r : Dbm) :
    Prop where
  dim : r.dim = m.dim
  closed : r.isClosed = true
  inhabited : r.inhabited? = .ok r
  holds : ∀ v, r.Holds v ↔ m.Holds v ∧ Between lower upper (v pair.i - v pair.j)

/-- What is left of a settled matrix on an admitted interval. -/
theorem Cuttable.cutOff (h : Cuttable K m pair lower upper) (admitted : m.admits pair lower upper) :
    CutOff m pair lower upper (m.restricted pair lower upper) := by
  obtain ⟨dim, settled, holds⟩ := h.restricted_spec admitted
  refine ⟨dim, settled.isClosed (dim ▸ h.room), ?_, holds⟩
  rw [inhabited?, settled.isEmpty_eq_false]
  rfl

/-- The admitted intervals are in a row, and every pass over the pieces finds all of them. -/
structure AdmittedRun (m : Dbm) (pair : ClockPair) (pieces : CutList α)
    (before run after : List (Option Bound × Piece α)) : Prop where
  parts : intervals none pieces = before ++ run ++ after
  nonempty : run ≠ []
  admitted : ∀ c ∈ run, m.admits pair c.1 c.2.upper = true
  refused : ∀ c ∈ before ++ after, m.admits pair c.1 c.2.upper = false
  feasibleRun : m.feasibleRun pair none pieces = run.map (m.cutPiece pair)
  feasible : m.feasible pair (fun _ => true) none pieces = run.map (m.cutPiece pair)

/-- A pass over the pieces finds the admitted ones of a list that is split into runs. -/
theorem admitted_eq_map {before run after : List (Option Bound × Piece α)}
    (parts : intervals lower pieces = before ++ run ++ after)
    (refused : ∀ c ∈ before ++ after, ¬m.admits pair c.1 c.2.upper)
    (taken : ∀ c ∈ run, m.admits pair c.1 c.2.upper) :
    m.admitted pair lower pieces = run.map (m.cutPiece pair) := by
  obtain ⟨refusedBefore, refusedAfter⟩ := List.forall_mem_append.1 refused
  rw [admitted, feasible_eq, parts]
  simp only [Bool.true_and, List.filter_append]
  rw [List.filter_eq_nil_iff.2 refusedBefore, List.filter_eq_nil_iff.2 refusedAfter,
    List.filter_eq_self.2 taken, List.nil_append, List.append_nil]

/-- The admitted pieces of a proper cut list are in a row, at least one. -/
theorem Divides.exists_admittedRun (h : Divides K m pair none pieces) (proper : Proper pieces) :
    ∃ before run after, AdmittedRun m pair pieces before run after := by
  obtain ⟨before, run, after, parts, refused, admitted⟩ := h.exists_run
  have all := admitted_eq_map parts refused admitted
  refine ⟨before, run, after, parts, ?_, admitted,
    fun c hc => Bool.eq_false_iff.2 (refused c hc), h.feasibleRun_eq.trans all, all⟩
  rintro rfl
  -- Some valuation meets the matrix, and the cut list has an interval for it.
  obtain ⟨v, hv⟩ := h.settled.exists_holds
  obtain ⟨c, ⟨hc, between⟩, -⟩ := proper.existsUnique_interval (v pair.i - v pair.j)
  have member := hc
  rw [parts, List.append_nil] at member
  exact refused c member ((h.cuttable hc).admits_of_holds hv between)

/-- **Feasibility of an interval is exact, and the feasible intervals are in a row.** -/
theorem Small.admits_exact (h : m.Small m.constantLimit) (closed : m.isClosed = true)
    (inside : pair.i < m.dim) (proper : Proper pieces)
    (within : ∀ p ∈ pieces, p.upper.Within m.constantLimit) :
    (∀ c ∈ intervals none pieces,
      (m.admits pair c.1 c.2.upper = true ↔
        ∃ v, m.Holds v ∧ Between c.1 c.2.upper (v pair.i - v pair.j)) ∧
      (m.admits pair c.1 c.2.upper = true →
        CutOff m pair c.1 c.2.upper (m.restricted pair c.1 c.2.upper))) ∧
    ∃ before run after, AdmittedRun m pair pieces before run after := by
  have room := m.room_constantLimit
  have settled := settled_of_isClosed closed room h.zeros h.within
  have divides : Divides m.constantLimit m pair none pieces :=
    ⟨settled, room, inside, proper.ascending, within, nofun⟩
  refine ⟨fun c hc => ?_, divides.exists_admittedRun proper⟩
  have cut := divides.cuttable hc
  exact ⟨cut.admits_iff, cut.cutOff⟩

/-- The difference of the first clock to the reference clock. -/
def firstPair : ClockPair := ⟨1, 0, Nat.one_pos⟩

/-- The cuts `< 1`, `< 2`, `≤ 2` and `≤ 4`. -/
def slices : CutList Nat :=
  [⟨0, .strict 1⟩, ⟨1, .strict 2⟩, ⟨2, .weak 2⟩, ⟨3, .weak 4⟩, ⟨4, .infinity⟩]

/-- The hull is cut at `1 ≤ x₁ - x₀ ≤ 4`; between `< 2` and `≤ 2` lies a single difference. -/
theorem admits_exact_hull : (hull.Small hull.constantLimit ∧ hull.isClosed = true ∧
      Proper slices ∧ ∀ p ∈ slices, p.upper.Within hull.constantLimit) ∧
    (∃ v, hull.Holds v ∧ Between (some (.strict 2)) (.weak 2) (v 1 - v 0)) ∧
    CutOff hull firstPair (some (.strict 2)) (.weak 2)
      (hull.restricted firstPair (some (.strict 2)) (.weak 2)) ∧
    ∃ before run after, AdmittedRun hull firstPair slices before run after := by
  have proper : Proper slices := by decide
  have within : ∀ p ∈ slices, p.upper.Within hull.constantLimit := by decide
  obtain ⟨exact, found⟩ := small_hull.admits_exact isClosed_hull
    (by decide : firstPair.i < hull.dim) proper within
  obtain ⟨inhabited, cutOff⟩ := exact (some (.strict 2), ⟨2, .weak 2⟩) (by decide)
  have admitted : hull.admits firstPair (some (.strict 2)) (.weak 2) = true := by decide +kernel
  exact ⟨⟨small_hull, isClosed_hull, proper, within⟩, inhabited.1 admitted, cutOff admitted, found⟩

end ZoneDiagram.Dbm

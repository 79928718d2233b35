import ZoneDiagram.Proofs.Diagram.Cuts

/-!
# Every path through the cuts is taken

**Theorem (`Diagram.takesAll_cuts`).** Every path of the tree of a settled matrix is taken by a
valuation: the one that passes all cuts, and those that leave the tree at one side of a cut.

The invariant of the induction over the clock pairs is the matrix that the cuts above imply
(`Outer`): its valuations are exactly those that pass these cuts. A bound is only kept if it is
tighter than what this matrix allows (`Outer.lt_of_mem_needed?`), and then the matrix has a
valuation that breaks it (`Outer.exists_outside`). The sides of a cut are independent of each
other, because a path that leaves at one side only breaks one bound.
-/

namespace ZoneDiagram

open CutList

variable {K L : Int} {d implied ctx ctx' : Dbm} {i j : Nat} {c : Manager.Cut}
  {pairs : List (Nat × Nat)}

namespace Diagram

open Manager

variable {t inside : Diagram} {level : Nat} {edges : List (Piece Diagram)}
  {lower upper : Option Bound}

/-! ## Made decisions -/

theorem TakesAll.weaken (h : TakesAll t ctx) (sub : ∀ v, ctx.Holds v → ctx'.Holds v) :
    TakesAll t ctx' := by
  intro tests path
  obtain ⟨v, hv, passes⟩ := h tests path
  exact ⟨v, sub v hv, passes⟩

/-- A made decision takes all its paths if every edge takes the paths of its child. A merged edge
covers the intervals of the edges that it is made of. -/
theorem takesAll_make (ascending : Ascending none edges)
    (taken : ∀ lo p tests, (lo, p) ∈ intervals none edges → Path p.item tests →
      ∃ v, ctx.Holds v ∧ Between lo p.upper (v.differences level) ∧ ∀ t ∈ tests, t.Holds v) :
    TakesAll (make level edges) ctx := by
  refine takesAll_make_of_merged fun lo p tests hp path => ?_
  obtain ⟨lo', o, ho, item, wider⟩ := exists_interval_of_mem_merge ascending hp
  obtain ⟨v, hv, between, rest⟩ := taken lo' o tests ho (item ▸ path)
  exact ⟨v, hv, wider _ between, rest⟩

/-! ## Decisions at cuts -/

/-- The edges at a cut: to the inside between its bounds, and to the outside at each side. -/
theorem mem_intervals_band {e : Option Bound × Piece Diagram}
    (h : e ∈ intervals none (band inside lower upper)) :
    e = (lower.map Bound.complement, ⟨inside, upper.getD .infinity⟩) ∨
      (∃ b ∈ lower, e = (none, ⟨leaf false, b.complement⟩)) ∨
        ∃ b ∈ upper, e = (some b, ⟨leaf false, .infinity⟩) := by
  cases lower <;> cases upper <;> simp [band, intervals] at h ⊢ <;> tauto

theorem Path.eq_nil {b : Bool} {tests : List Test} (path : Path (Diagram.leaf b) tests) :
    tests = [] := by
  cases path
  rfl

/-- A decision at a cut takes all its paths if some valuations break its bounds, each of them at
one side, and the inside takes its paths with valuations that meet the cut. -/
theorem takesAll_band (consistent : c.Consistent) (small : c.Small K) (hK : K ≤ Bound.maxValue)
    (below : ∀ b ∈ c.lower, ∃ v, ctx.Holds v ∧ ¬b.Holds (-v.differences c.level))
    (above : ∀ b ∈ c.upper, ∃ v, ctx.Holds v ∧ ¬b.Holds (v.differences c.level))
    (rest : TakesAll inside ctx')
    (sub : ∀ v, ctx'.Holds v → ctx.Holds v ∧ c.Holds v) :
    TakesAll (make c.level (band inside c.lower c.upper)) ctx := by
  have complement (b : Bound) (hb : b ∈ c.lower) (x : ℚ) :
      b.complement.Holds x ↔ ¬b.Holds (-x) := by
    have := Bound.holds_complement_iff (small.lower b hb) hK (consistent.lower_lt b hb).ne x
    rw [Bound.complement_complement] at this
    rw [this, not_not]
  refine takesAll_make (proper_band consistent).ascending fun lo p tests hp path => ?_
  -- The path goes inside, or it ends on the piece below or the piece above.
  rcases mem_intervals_band hp with eq | ⟨b, hb, eq⟩ | ⟨b, hb, eq⟩ <;> cases eq
  · obtain ⟨v, hv, passes⟩ := rest tests path
    obtain ⟨holds, lowerMet, upperMet⟩ := sub v hv
    refine ⟨v, holds, ⟨?_, fun b hb => ?_⟩, passes⟩
    · cases upper : c.upper with
      | none => exact Bound.holds_infinity _
      | some b => exact upperMet b upper
    · obtain ⟨a, ha, rfl⟩ := Option.map_eq_some_iff.1 hb
      rw [complement a ha, not_not]
      exact lowerMet a ha
  · obtain ⟨v, hv, broken⟩ := below b hb
    exact ⟨v, hv, ⟨(complement b hb _).2 broken, nofun⟩, by simp [path.eq_nil]⟩
  · obtain ⟨v, hv, broken⟩ := above b hb
    refine ⟨v, hv, ⟨Bound.holds_infinity _, fun a ha => ?_⟩, by simp [path.eq_nil]⟩
    cases ha
    exact broken

end Diagram

/-! ## What is outside of a cut -/

namespace Manager

theorem ne_of_mem_needed? {b b' implied : Bound} (h : b' ∈ needed? b implied) : implied ≠ b := by
  rintro rfl
  simp [needed?] at h

/-- A bound that is kept is tighter than what the cuts above imply. -/
theorem Outer.lt_of_mem_needed? {b : Bound} (h : Outer L d implied) (settled : d.Settled K)
    (room : Dbm.Room d.dim K) (hi : i < d.dim) (hj : j < d.dim) (ne : i ≠ j)
    (hb : b ∈ needed? (d.entry i j) (implied.entry i j)) : d.entry i j < implied.entry i j := by
  have le := settled.entry_le room hi hj ne fun v hv => h.holds v hv i (h.dim ▸ hi) j (h.dim ▸ hj)
  exact lt_of_le_of_ne le (ne_of_mem_needed? hb).symm

/-- Some valuation that passes the cuts above breaks a bound that is kept. -/
theorem Outer.exists_outside {b : Bound} (h : Outer L d implied) (settled : d.Settled K)
    (room : Dbm.Room d.dim K) (hi : i < d.dim) (hj : j < d.dim) (ne : i ≠ j)
    (hb : b ∈ needed? (d.entry i j) (implied.entry i j)) :
    ∃ v, implied.Holds v ∧ ¬b.Holds (v i - v j) := by
  rw [(eq_of_needed? hb).1]
  exact h.settled.exists_not_holds_of_lt h.room (h.dim ▸ hi) (h.dim ▸ hj) ne
    (h.lt_of_mem_needed? settled room hi hj ne hb)

end Manager

namespace Diagram

open Manager

/-- All paths through the cuts at some pairs are taken by valuations that pass the cuts above. -/
theorem takesAll_cutsAt (outer : Outer L d implied) (settled : d.Settled K)
    (room : Dbm.Room d.dim K) (few : d.dim ≤ maxClocks)
    (inside : ∀ p ∈ pairs, p.2 < p.1 ∧ p.1 < d.dim)
    (spec : ∀ c ∈ cutsAt d implied pairs, c.Consistent ∧ c.Small L) :
    TakesAll (pathThrough (cutsAt d implied pairs)) implied := by
  induction pairs generalizing implied with
  | nil =>
    intro tests path
    obtain ⟨v, hv⟩ := outer.settled.exists_holds
    exact ⟨v, hv, by simp [path.eq_nil]⟩
  | cons p pairs ih =>
    obtain ⟨i, j⟩ := p
    obtain ⟨⟨lt, hi⟩, others⟩ := List.forall_mem_cons.1 inside
    dsimp only at lt hi
    have hj : j < d.dim := lt.trans hi
    have ne : i ≠ j := (ne_of_lt lt).symm
    have fits := outer.room.le_maxValue implied.dim_pos
    rw [cutsAt_cons] at spec ⊢
    split
    next skip =>
      rw [if_pos skip] at spec
      exact ih outer others spec
    next keep =>
      rw [if_neg keep] at spec
      obtain ⟨⟨consistent, small⟩, below⟩ := List.forall_mem_cons.1 spec
      have next := outer.afterCut hi hj ne
      -- A bound is only needed where some valuation that passes the cuts above breaks it.
      refine takesAll_band consistent small fits (fun b hb => ?_) (fun b hb => ?_)
        (ih next others below) fun v hv => ?_
      · simp only [differences_level few hi lt, neg_sub]
        exact outer.exists_outside settled room hj hi ne.symm hb
      · simp only [differences_level few hi lt]
        exact outer.exists_outside settled room hi hj ne hb
      · obtain ⟨holds, upper, lower⟩ := (outer.holds_afterCut_iff hi hj ne v).1 hv
        refine ⟨holds, fun b hb => ?_, fun b hb => ?_⟩ <;> rw [differences_level few hi lt]
        · rw [(eq_of_needed? hb).1, neg_sub]
          exact lower
        · rw [(eq_of_needed? hb).1]
          exact upper

/-- **Every path of the tree of a settled matrix is taken**, in a context without constraints. -/
theorem takesAll_cuts (settled : d.Settled K) (room : Dbm.Room d.dim K) (wide : Dbm.Room d.dim L)
    (within : ∀ i < d.dim, ∀ j < d.dim, (d.entry i j).Within L) (few : d.dim ≤ maxClocks)
    (all : ∀ v, ctx.Holds v) : TakesAll (pathThrough (cuts d)) ctx := by
  have outer := outer_unconstrained wide within settled.exists_holds
  have path := takesAll_cutsAt outer settled room few (fun p hp => mem_pairsBelow.1 hp) fun c hc =>
    ⟨(consistent_of_mem_cuts settled room hc).1, small_of_mem_cuts within hc⟩
  exact path.weaken fun v _ => all v

end Diagram

end ZoneDiagram

import ZoneDiagram.Proofs.Dbm.OnePair
import ZoneDiagram.Proofs.Diagram.Cuts
import ZoneDiagram.Proofs.Reduction

/-!
# The elementary diagrams are those of matrices with one constraint

**Theorem (`Reachable.builders_eq_ofDbm`).** Intervals, one-sided bounds and arbitrary bounds on the
difference of two distinct clocks, in either order, give the very diagrams of the matrices that have
these bounds as their only entries. Their federations are the valuations with such a difference, and
they are the constant without valuations exactly if no difference qualifies.

The constants may be as large as the encoding allows. So the matrix does not leave the room that
sums along paths need elsewhere, and its closing is followed step by step (`Dbm.OnePair`): it
changes nothing, or it finds the two bounds to be in conflict.
-/

namespace ZoneDiagram.Manager

open CutList

variable {m m' : Manager} {d : Dbm} {i j : Nat} {b b' : Bound} {f : Handle}

/-! ## The cut of a pair -/

/-- The finite part of a bound constrains as the bound does. -/
theorem holds_finite?_iff {x : ℚ} : (∀ a ∈ finite? b, a.Holds x) ↔ b.Holds x := by
  rw [← needed?_infinity]
  refine ⟨fun h => holds_of_needed? h (Bound.holds_infinity x), fun h a ha => ?_⟩
  rwa [(eq_of_needed? ha).1]

theorem meets_pairCut_iff {x : ℚ} : (pairCut i j b b').Meets x ↔ b.Holds x ∧ b'.Holds (-x) := by
  rw [Cut.Meets, and_comm]
  exact and_congr holds_finite?_iff holds_finite?_iff

/-! ## The cuts of the matrix -/

theorem nodup_pairsBelow (n : Nat) : (pairsBelow n).Nodup := by
  have levels : ((pairsBelow n).map fun p => ClockPair.triangle p.1 + p.2).Nodup := by
    rw [levels_pairsBelow]
    exact List.nodup_range
  exact levels.of_map

/-- A pair of clocks stands at one place among the pairs. -/
theorem exists_pairsBelow_split {p : Nat × Nat} {n : Nat} (hp : p ∈ pairsBelow n) :
    ∃ before after, pairsBelow n = before ++ p :: after ∧
      ∀ q ∈ before ++ after, q ∈ pairsBelow n ∧ q ≠ p := by
  obtain ⟨before, after, split⟩ := List.append_of_mem hp
  have nodup := nodup_pairsBelow n
  rw [split, List.nodup_middle, List.nodup_cons] at nodup
  refine ⟨before, after, split, fun q hq => ⟨?_, ?_⟩⟩
  · rw [split]
    exact List.perm_middle.mem_iff.2 (List.mem_cons_of_mem p hq)
  · rintro rfl
    exact nodup.1 hq

theorem entry_of_other_pair {p : Nat × Nat} (h : d.OnePair i j b b') (lt : j < i)
    (hp : p ∈ pairsBelow d.dim) (ne : p ≠ (i, j)) :
    d.entry p.1 p.2 = .infinity ∧ d.entry p.2 p.1 = .infinity := by
  obtain ⟨below, hk⟩ := mem_pairsBelow.1 hp
  have hl : p.2 < d.dim := below.trans hk
  have away : ¬(p.1 = i ∧ p.2 = j) := fun eq => ne (Prod.ext eq.1 eq.2)
  have apart : ¬(p.1 = j ∧ p.2 = i) := by omega
  exact ⟨h.entry_eq_infinity hk hl below.ne' away apart,
    h.entry_eq_infinity hl hk below.ne (fun eq => apart eq.symm) fun eq => away eq.symm⟩

/-- **A matrix that constrains one difference has its cut and no other.** -/
theorem cuts_onePair (h : d.OnePair i j b b') (lt : j < i) :
    cuts d = if b' = .infinity ∧ b = .infinity then [] else [pairCut i j b b'] := by
  have mem : (i, j) ∈ pairsBelow d.dim := mem_pairsBelow.2 ⟨lt, h.left⟩
  obtain ⟨before, after, split, others⟩ := exists_pairsBelow_split mem
  have free (p : Nat × Nat) (hp : p ∈ before ++ after) :=
    entry_of_other_pair h lt (others p hp).1 (others p hp).2
  have top {k l : Nat} (hk : k < d.dim) (hl : l < d.dim) (ne : k ≠ l) :
      (Dbm.unconstrained d.dim d.dim_pos).entry k l = .infinity := by
    rw [Dbm.entry_unconstrained hk hl, if_neg ne]
  rw [cuts, split, cutsAt_free_append fun p hp => free p (List.mem_append_left _ hp),
    ← List.singleton_append, cutsAt_append_free fun p hp => free p (List.mem_append_right _ hp),
    cutsAt_cons, h.entry_left, h.entry_right, top h.left h.right h.ne,
    top h.right h.left h.ne.symm, needed?_infinity, needed?_infinity]
  simp only [finite?_eq_none_iff]
  rfl

theorem eq_of_mem_cuts_onePair {c : Cut} (h : d.OnePair i j b b') (lt : j < i) (hc : c ∈ cuts d) :
    c = pairCut i j b b' := by
  rw [cuts_onePair h lt] at hc
  split_ifs at hc
  · cases hc
  · exact List.mem_singleton.1 hc

/-- The cuts are met by the valuations whose difference meets both bounds. -/
theorem holds_cuts_onePair_iff {v : Valuation} (h : d.OnePair i j b b') (lt : j < i)
    (few : d.dim ≤ maxClocks) :
    (∀ c ∈ cuts d, c.Holds v) ↔ b.Holds (v i - v j) ∧ b'.Holds (-(v i - v j)) := by
  have own : (pairCut i j b b').Holds v ↔ b.Holds (v i - v j) ∧ b'.Holds (-(v i - v j)) := by
    rw [Cut.Holds, meets_pairCut_iff, pairCut, differences_level few h.left lt]
  rw [cuts_onePair h lt]
  split_ifs with free
  · rw [free.1, free.2]
    simp [Bound.holds_infinity]
  · simpa using own

/-! ## The direct construction -/

theorem checkPair_later (hi : i < m.clocks) (lt : j < i) :
    m.checkPair i j = .ok (⟨i, j, lt⟩, false) := by
  rw [checkPair, checkClock, checkClock, if_pos hi, if_pos (lt.trans hi)]
  exact dif_pos lt

theorem checkPair_earlier (hi : i < m.clocks) (lt : j < i) :
    m.checkPair j i = .ok (⟨i, j, lt⟩, true) := by
  rw [checkPair, checkClock, checkClock, if_pos hi, if_pos (lt.trans hi)]
  exact (dif_neg (by omega)).trans (dif_pos lt)

/-- The bounds may be given for either order of the clocks. -/
theorem range_swap (hi : i < m.clocks) (hj : j < m.clocks) (ne : i ≠ j) (b b' : Bound) :
    range i j b b' m = range j i b' b m := by
  wlog lt : j < i generalizing i j b b'
  · exact (this hj hi ne.symm b' b (by omega)).symm
  rw [range, range, bind_of_ok (query_of_ok (checkPair_later hi lt)),
    bind_of_ok (query_of_ok (checkPair_earlier hi lt))]
  rfl

/-- For a later and an earlier clock, a path through the cut of the pair is made. -/
theorem range_eq_path (hi : i < m.clocks) (lt : j < i) (b b' : Bound) : range i j b b' m =
    if b + b' < .zero then .ok .zero m else pathThrough [pairCut i j b b'] m := by
  rw [range, bind_of_ok (query_of_ok (checkPair_later hi lt))]
  show (if (!b.isInfinity && !b'.isInfinity && decide (b + b' < .zero)) = true then
    (pure .zero : ManagerM Handle) else pathThrough [pairCut i j b b']) m = _
  simp only [conflict_eq, decide_eq_true_eq]
  split_ifs <;> rfl

/-- **The direct construction gives the diagram of the matrix.** -/
theorem range_eq_ofDbm (h : d.OnePair i j b b') (hi : i < m.clocks) (hj : j < m.clocks)
    (le : d.dim ≤ m.dim) (hb : b.Within Bound.maxValue) (hb' : b'.Within Bound.maxValue) :
    range i j b b' m = ofDbm d m := by
  wlog lt : j < i generalizing i j b b'
  · have ne := h.ne
    rw [range_swap hi hj ne]
    exact this h.symm hj hi hb' hb (by omega)
  rw [range_eq_path hi lt]
  split_ifs with broken
  · exact (ofDbm_eq_zero (Prod.ext rfl (h.close_eq_false hb hb' broken)) le).symm
  · rw [ofDbm_eq_path (h.close_eq_self hb hb' (not_lt.1 broken)) le, cuts_onePair h lt]
    split_ifs with free
    · -- The decision has one edge only, so its child takes its place.
      rw [free.1, free.2]
      rfl
    · rfl

/-! ## What the diagram means -/

/-- The diagram of the matrix, which is found again. Its federation is described by a property of
the difference of two clocks, and it is the constant without valuations if nothing has it. -/
structure IsBand (m : Manager) (zone : Dbm) (i j : Nat) (P : ℚ → Prop) (f : Handle) : Prop where
  live : m.Live f
  again : ofDbm zone m = .ok f m
  holds : ∀ v, m.Holds f v ↔ P (v i - v j)
  eq_zero_iff : f = .zero ↔ ∀ x, ¬P x

/-- The opposite difference has the opposite property. -/
theorem IsBand.symm {P Q : ℚ → Prop} (h : m.IsBand d i j P f) (opposite : ∀ x, P x ↔ Q (-x)) :
    m.IsBand d j i Q f where
  live := h.live
  again := h.again
  holds v := by rw [h.holds v, opposite, neg_sub]
  eq_zero_iff := by
    rw [h.eq_zero_iff, neg_surjective.forall]
    simp only [opposite, neg_neg]

/-- Bounds that leave room between them make the path through their cut. -/
theorem ofDbm_isBand_runs_of_sat (hm : m.Sound) (h : d.OnePair i j b b') (le : d.dim ≤ m.dim)
    (lt : j < i) (hb : b.Within Bound.maxValue) (hb' : b'.Within Bound.maxValue)
    (sat : .zero ≤ b + b') :
    Runs m (ofDbm d) (fun f m' => m'.IsBand d i j (fun x => b.Holds x ∧ b'.Holds (-x)) f)
      fun _ => False := by
  have close := h.close_eq_self hb hb' sat
  have spec (c : Cut) (hc : c ∈ cuts d) : c.Consistent ∧ c.Small Bound.maxValue := by
    obtain rfl := eq_of_mem_cuts_onePair h lt hc
    exact consistent_pairCut hb hb' sat
  have consistent (c : Cut) (hc : c ∈ cuts d) : c.Consistent := (spec c hc).1
  refine (ofDbm_runs_of_consistent hm close le consistent).imp
    (fun f m' grows ⟨live, tree⟩ => ?_) fun _ h => h
  have hm' := grows.sound.toNodes
  have dim : m'.dim = m.dim := grows.keeps.dim
  have holds (v : Valuation) : m'.Holds f v ↔ b.Holds (v i - v j) ∧ b'.Holds (-(v i - v j)) := by
    rw [Holds, hm'.eval_eq live, tree, Diagram.eval_pathThrough_iff spec le_rfl]
    exact holds_cuts_onePair_iff h lt (le.trans hm.toNodes.dim_le)
  obtain ⟨x, met⟩ := Bound.zero_le_add_iff_exists.1 sat
  refine ⟨live, ofDbm_eq_ok hm' close (dim ▸ le) consistent live tree, holds,
    iff_of_false ?_ fun none => none x met⟩
  rintro rfl
  refine m'.not_holds_zero (fun k => if k = i then x else 0) ((holds _).2 ?_)
  rwa [if_pos rfl, if_neg (ne_of_lt lt), sub_zero]

/-- **The matrix means what its bounds mean**, over the whole range of constants. -/
theorem ofDbm_isBand_runs (hm : m.Sound) (h : d.OnePair i j b b') (le : d.dim ≤ m.dim)
    (hb : b.Within Bound.maxValue) (hb' : b'.Within Bound.maxValue) :
    Runs m (ofDbm d) (fun f m' => m'.IsBand d i j (fun x => b.Holds x ∧ b'.Holds (-x)) f)
      fun _ => False := by
  wlog lt : j < i generalizing i j b b'
  · have ne := h.ne
    refine (this h.symm hb' hb (by omega)).imp (fun f m' _ band => ?_) fun _ h => h
    exact band.symm fun x => by rw [neg_neg, and_comm]
  by_cases sat : .zero ≤ b + b'
  · exact ofDbm_isBand_runs_of_sat hm h le lt hb hb' sat
  · have none (x : ℚ) : ¬(b.Holds x ∧ b'.Holds (-x)) := fun met =>
      sat (Bound.zero_le_add_iff_exists.2 ⟨x, met⟩)
    have run : ofDbm d m = .ok .zero m :=
      ofDbm_eq_zero (Prod.ext rfl (h.close_eq_false hb hb' (not_le.1 sat))) le
    exact .of_ok run (.refl hm)
      ⟨hm.live_zero, run, fun v => iff_of_false (m.not_holds_zero v) (none _),
        iff_of_true rfl none⟩

/-! ## Builders -/

/-- The builder gives the very diagram that the matrix has, and its federation is described by a
property of the difference of two clocks. -/
structure Builds (m : Manager) (x : ManagerM Handle) (zone : Dbm) (i j : Nat) (P : ℚ → Prop) :
    Prop where
  same : x m = ofDbm zone m
  gives : m.Gives x fun f m' => m'.IsBand zone i j P f

theorem Sound.builds {x : ManagerM Handle} {P : ℚ → Prop} (hm : m.Sound)
    (h : d.OnePair i j b b') (hi : i < m.clocks) (hj : j < m.clocks) (le : d.dim ≤ m.dim)
    (hb : b.Within Bound.maxValue) (hb' : b'.Within Bound.maxValue)
    (run : x m = range i j b b' m) (means : ∀ y, P y ↔ b.Holds y ∧ b'.Holds (-y)) :
    m.Builds x d i j P := by
  have same : x m = ofDbm d m := run.trans (range_eq_ofDbm h hi hj le hb hb')
  obtain rfl : P = fun y => b.Holds y ∧ b'.Holds (-y) := funext fun y => propext (means y)
  refine ⟨same, ?_⟩
  rw [Gives, same]
  exact (ofDbm_isBand_runs hm h le hb hb').gives hm

theorem checkValue_eq_ok {c : Int} (h : |c| ≤ Bound.maxValue) : Bound.checkValue c = .ok c :=
  if_pos (decide_eq_true (abs_le.1 h))

/-- A lower bound is a weak bound on the opposite difference. -/
theorem holds_weak_neg_iff {c : Int} (h : |c| ≤ Bound.maxValue) (x : ℚ) :
    (Bound.weak (-c)).Holds (-x) ↔ c ≤ x := by
  have := abs_le.1 h
  rw [Bound.holds_weak_iff (by omega), Int.cast_neg, neg_le_neg_iff]

section OnePair

variable {low up : Int} (hm : m.Sound) (pair : d.OnePair i j .infinity .infinity)
  (hi : i < m.clocks) (hj : j < m.clocks) (le : d.dim ≤ m.dim)

include hm pair hi hj le

theorem builds_interval (hl : |low| ≤ Bound.maxValue) (hu : |up| ≤ Bound.maxValue) :
    m.Builds (interval i j low up) ((d.setEntry i j (.strict up)).setEntry j i (.weak (-low))) i j
      fun x => low ≤ x ∧ x < up := by
  refine hm.builds ((pair.setEntry _).setOpposite _) hi hj le (Bound.within_strict hu)
    (within_weak_neg hl) ?_ fun x => ?_
  · rw [interval, checkValue_eq_ok hl, checkValue_eq_ok hu]
    rfl
  · rw [Bound.holds_strict_iff, holds_weak_neg_iff hl, and_comm]

theorem builds_lowerBound (hl : |low| ≤ Bound.maxValue) :
    m.Builds (lowerBound i j low) (d.setEntry j i (.weak (-low))) i j fun x => low ≤ x := by
  refine hm.builds (pair.setOpposite _) hi hj le (Bound.within_infinity _) (within_weak_neg hl) ?_
    fun x => ?_
  · rw [lowerBound, checkValue_eq_ok hl]
    rfl
  · rw [holds_weak_neg_iff hl]
    exact (and_iff_right (Bound.holds_infinity x)).symm

theorem builds_upperBound (hu : |up| ≤ Bound.maxValue) :
    m.Builds (upperBound i j up) (d.setEntry i j (.strict up)) i j fun x => x < up := by
  refine hm.builds (pair.setEntry _) hi hj le (Bound.within_strict hu) (Bound.within_infinity _) ?_
    fun x => ?_
  · rw [upperBound, checkValue_eq_ok hu]
    rfl
  · rw [Bound.holds_strict_iff]
    exact (and_iff_left (Bound.holds_infinity (-x))).symm

theorem builds_constraint (hb : b.Within Bound.maxValue) :
    m.Builds (constraint i j b) (d.setEntry i j b) i j b.Holds :=
  hm.builds (pair.setEntry b) hi hj le hb (Bound.within_infinity _) rfl fun x =>
    (and_iff_left (Bound.holds_infinity (-x))).symm

end OnePair

/-- **The elementary diagrams are those of matrices with one constraint**, over the whole range of
constants and for either order of the clocks. -/
theorem Reachable.builders_eq_ofDbm (h : m.Reachable) (hi : i < m.clocks) (hj : j < m.clocks)
    (ne : i ≠ j) :
    let free := Dbm.unconstrained m.clocks (Nat.zero_lt_of_lt hi)
    (∀ low up, |low| ≤ Bound.maxValue → |up| ≤ Bound.maxValue →
      m.Builds (interval i j low up) ((free.setEntry i j (.strict up)).setEntry j i (.weak (-low)))
        i j fun x => low ≤ x ∧ x < up) ∧
    (∀ low, |low| ≤ Bound.maxValue →
      m.Builds (lowerBound i j low) (free.setEntry j i (.weak (-low))) i j fun x => low ≤ x) ∧
    (∀ up, |up| ≤ Bound.maxValue →
      m.Builds (upperBound i j up) (free.setEntry i j (.strict up)) i j fun x => x < up) ∧
    ∀ b : Bound, b.Within Bound.maxValue →
      m.Builds (constraint i j b) (free.setEntry i j b) i j b.Holds := by
  intro free
  have hm := h.sound
  have pair : free.OnePair i j .infinity .infinity :=
    Dbm.onePair_unconstrained (Nat.zero_lt_of_lt hi) hi hj ne
  have le : free.dim ≤ m.dim := Nat.le_max_left m.clocks 1
  refine ⟨fun low up hl hu => ?_, fun low hl => ?_, fun up hu => ?_, fun b hb => ?_⟩
  · exact builds_interval hm pair hi hj le hl hu
  · exact builds_lowerBound hm pair hi hj le hl
  · exact builds_upperBound hm pair hi hj le hu
  · exact builds_constraint hm pair hi hj le hb

/-- The widest interval has values, also for an earlier and a later clock. The interval from the
greatest constant up to it has none. -/
theorem builders_eq_ofDbm_box : 1 < box.clocks ∧ 2 < box.clocks ∧
    (∃ f m', interval 1 2 (-Bound.maxValue) Bound.maxValue box = .ok f m' ∧ f ≠ .zero ∧
      ∀ v, m'.Holds f v ↔
        ((-Bound.maxValue : Int) : ℚ) ≤ v 1 - v 2 ∧ v 1 - v 2 < (Bound.maxValue : Int)) ∧
    ∃ m', interval 1 2 Bound.maxValue Bound.maxValue box = .ok .zero m' ∧
      ∀ d : ℚ, ¬((Bound.maxValue : Int) ≤ d ∧ d < (Bound.maxValue : Int)) := by
  have clocks : 1 < box.clocks ∧ 2 < box.clocks := by decide +kernel
  obtain ⟨intervals, -⟩ := reachable_box.builders_eq_ofDbm clocks.1 clocks.2 (by decide)
  obtain ⟨f, m', run, wide⟩ :=
    (intervals (-Bound.maxValue) Bound.maxValue (by decide) (by decide)).gives.of_isSome (by decide +kernel)
  obtain ⟨n, run', none⟩ :=
    (intervals Bound.maxValue Bound.maxValue (by decide) (by decide)).gives.of_result?
      (a := .zero) (by decide +kernel)
  refine ⟨clocks.1, clocks.2, ⟨f, m', run, fun eq => ?_, wide.holds⟩, n, run',
    none.eq_zero_iff.1 rfl⟩
  exact wide.eq_zero_iff.1 eq 0 (by norm_num [Bound.maxValue])

end ZoneDiagram.Manager

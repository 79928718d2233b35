import Mathlib.Data.List.Intervals
import ZoneDiagram.Dbm.Feasible
import ZoneDiagram.Manager.Build
import ZoneDiagram.Proofs.CutList.Intervals
import ZoneDiagram.Proofs.Dbm.Block

/-!
# The same zone among more clocks

A matrix among more clocks widens another one if it has the same entries between the clocks of the
other, and says nothing about the further ones (`Widens`). Constraints between clocks of the first
keep it so (`Widens.constrain`), and so does closing (`Widens.close`): the loops take more turns in
the wider matrix, but a detour over a further clock has no constraint on one of its steps.

So the narrow and the wide matrix are cut in the same way, and a zone has the same path in a diagram
over more clocks (`Widens.cuts_eq`). No bound on the constants is needed: also where sums are
clamped, both matrices are.
-/

namespace ZoneDiagram

/-! ## Lists of positions -/

theorem filter_range {c n : Nat} (le : c ≤ n) : (List.range n).filter (· < c) = List.range c := by
  rw [← List.Ico.zero_bot, List.Ico.filter_lt, min_eq_right le, List.Ico.zero_bot]

/-- Further turns of a loop that yield nothing may be left out. -/
theorem flatMap_range {α : Type} {g : Nat → List α} {c n : Nat} (le : c ≤ n)
    (further : ∀ k, c ≤ k → g k = []) : (List.range n).flatMap g = (List.range c).flatMap g := by
  induction n, le using Nat.le_induction with
  | base => rfl
  | succ k le ih => rw [List.range_succ, List.flatMap_append, ih]; simp [further k le]

/-- Loops keep a relation if the turns do that both take, and the further turns change nothing. -/
theorem foldl_range {α β : Type} {W : α → β → Prop} {f : α → Nat → α} {g : β → Nat → β}
    {c n : Nat} {a : α} {b : β} (le : c ≤ n) (h : W a b)
    (both : ∀ k < c, ∀ a b, W a b → W (f a k) (g b k))
    (further : ∀ k < n, c ≤ k → ∀ a b, W a b → g b k = b) :
    W ((List.range c).foldl f a) ((List.range n).foldl g b) := by
  induction n, le using Nat.le_induction with
  | base => exact List.foldl_rel h fun k hk a b => both k (List.mem_range.1 hk) a b
  | succ k le ih =>
    have before := ih fun l hl => further l (hl.trans k.lt_succ_self)
    rw [List.range_succ, List.foldl_append, List.foldl_cons, List.foldl_nil,
      further k k.lt_succ_self le _ _ before]
    exact before

namespace Dbm

variable {c n : Nat} {m m' : Dbm} {i j k : Nat} {b : Bound}

/-! ## More clocks -/

/-- The second matrix has the constraints of the first among more clocks, and no others. -/
structure Widens (c n : Nat) (m m' : Dbm) : Prop where
  le : c ≤ n
  dim : m.dim = c
  dim' : m'.dim = n
  inner : ∀ i < c, ∀ j < c, m'.entry i j = m.entry i j
  outer : ∀ i < n, ∀ j < n, ¬(i < c ∧ j < c) → m'.entry i j = if i = j then .zero else .infinity

theorem widens_unconstrained {k l : Nat} {k_pos : 0 < k} {l_pos : 0 < l} (le : c ≤ n)
    (hk : k = c) (hl : l = n) : Widens c n (unconstrained k k_pos) (unconstrained l l_pos) := by
  subst hk hl
  refine ⟨le, rfl, rfl, fun i hi j hj => ?_, fun i hi j hj _ => entry_unconstrained hi hj⟩
  rw [entry_unconstrained hi hj, entry_unconstrained (hi.trans_le le) (hj.trans_le le)]

/-- A matrix over few clocks among more clocks, and among more clocks again. -/
theorem widens_extended {k l : Nat} {k_pos : 0 < k} {l_pos : 0 < l} (le : c ≤ n)
    (inside : m.dim ≤ c) (hk : k = c) (hl : l = n) :
    Widens c n (m.extended k k_pos) (m.extended l l_pos) := by
  subst hk hl
  refine ⟨le, rfl, rfl, fun i hi j hj => ?_, fun i hi j hj far => ?_⟩
  · rw [entry_extended hi hj, entry_extended (hi.trans_le le) (hj.trans_le le)]
  · have beyond : ¬(i < m.dim ∧ j < m.dim) := fun near =>
      far ⟨near.1.trans_le inside, near.2.trans_le inside⟩
    rw [entry_extended hi hj, if_neg beyond]

/-- One matrix among more clocks belongs to each matrix, and to no other. -/
theorem biUnique_widens : Relator.BiUnique (Widens c n) := by
  refine ⟨fun m o m' h h' => ?_, fun m m' o' h h' => ?_⟩
  · refine ext_entry (h.dim.trans h'.dim.symm) fun i hi j hj => ?_
    rw [h.dim] at hi hj
    rw [← h.inner i hi j hj, h'.inner i hi j hj]
  · refine ext_entry (h.dim'.trans h'.dim'.symm) fun i hi j hj => ?_
    rw [h.dim'] at hi hj
    by_cases near : i < c ∧ j < c
    · rw [h.inner i near.1 j near.2, h'.inner i near.1 j near.2]
    · rw [h.outer i hi j hj near, h'.outer i hi j hj near]

theorem tighten_eq_self (le : m.entry i j ≤ b) : m.tighten i j b = m := if_neg (not_lt.2 le)

namespace Widens

variable (h : Widens c n m m')

include h

theorem pos : 0 < c := h.dim ▸ m.dim_pos

theorem right_infinity (hi : i < n) (hj : j < n) (far : c ≤ j) (ne : i ≠ j) :
    m'.entry i j = .infinity := by
  rw [h.outer i hi j hj fun near => absurd near.2 (not_lt.2 far), if_neg ne]

theorem left_infinity (hi : i < n) (hj : j < n) (far : c ≤ i) (ne : i ≠ j) :
    m'.entry i j = .infinity := by
  rw [h.outer i hi j hj fun near => absurd near.1 (not_lt.2 far), if_neg ne]

theorem diagonal (hi : i < n) (far : c ≤ i) : m'.entry i i = .zero := by
  rw [h.outer i hi i hi fun near => absurd near.1 (not_lt.2 far), if_pos rfl]

/-! ## Constraints -/

theorem setEntry (hi : i < c) (hj : j < c) (b : Bound) :
    Widens c n (m.setEntry i j b) (m'.setEntry i j b) := by
  obtain ⟨le, rfl, rfl, inner, outer⟩ := h
  have hi' := hi.trans_le le
  have hj' := hj.trans_le le
  refine ⟨le, rfl, rfl, fun k hk l hl => ?_, fun k hk l hl far => ?_⟩
  · rw [entry_setEntry hi hj hl, entry_setEntry hi' hj' (hl.trans_le le), inner k hk l hl]
  · rw [entry_setEntry hi' hj' hl, outer k hk l hl far, if_neg]
    rintro ⟨rfl, rfl⟩
    exact far ⟨hi, hj⟩

theorem markEmpty : Widens c n m.markEmpty m'.markEmpty := h.setEntry h.pos h.pos _

theorem tighten (hi : i < c) (hj : j < c) (b : Bound) :
    Widens c n (m.tighten i j b) (m'.tighten i j b) := by
  unfold Dbm.tighten
  rw [h.inner i hi j hj]
  split
  · exact h.setEntry hi hj b
  · exact h

theorem isEmpty_eq : m'.isEmpty = m.isEmpty := by
  have le := h.le
  rw [Bool.eq_iff_iff, ← not_iff_not, Bool.not_eq_true, Bool.not_eq_true, isEmpty_eq_false_iff,
    isEmpty_eq_false_iff, h.dim, h.dim']
  constructor
  · intro nonneg i hi
    rw [← h.inner i hi i hi]
    exact nonneg i (by omega)
  · intro nonneg i hi
    by_cases near : i < c
    · rw [h.inner i near i near]
      exact nonneg i near
    · rw [h.diagonal hi (not_lt.1 near)]

/-- A detour to a further clock has no constraint on its last step. -/
theorem relaxRow (hk : k < c) (hi : i < c) (first : Bound) :
    Widens c n (m.relaxRow first k i) (m'.relaxRow first k i) := by
  unfold Dbm.relaxRow
  rw [h.dim, h.dim']
  refine foldl_range h.le h (fun j hj a b w => ?_) fun j hj far a b w => ?_
  · rw [w.inner k hk j hj]
    exact w.tighten hi hj _
  · have le := h.le
    refine tighten_eq_self ?_
    rw [w.right_infinity (by omega) hj far (by omega),
      w.right_infinity (by omega) hj far (by omega), Bound.add_infinity]

theorem relaxRowThrough (hi : i < c) (hj : j < c) (hk : k < c) (b : Bound) :
    Widens c n (m.relaxRowThrough i j b k) (m'.relaxRowThrough i j b k) := by
  unfold Dbm.relaxRowThrough
  rw [h.inner k hk i hi]
  dsimp only
  split
  · exact h
  · exact h.relaxRow hj hk _

/-- A detour from a further clock has no constraint on its first step. -/
theorem relaxThrough (hi : i < c) (hj : j < c) (b : Bound) :
    Widens c n (m.relaxThrough i j b) (m'.relaxThrough i j b) := by
  unfold Dbm.relaxThrough
  rw [h.dim, h.dim']
  refine foldl_range h.le h (fun k hk a a' w => w.relaxRowThrough hi hj hk b)
    fun k hk far a a' w => ?_
  have le := h.le
  unfold Dbm.relaxRowThrough
  rw [w.left_infinity hk (by omega) far (by omega)]
  rfl

/-- **Constraints between clocks of both keep the further clocks unconstrained.** -/
theorem constrain (hi : i < c) (hj : j < c) (b : Bound) :
    Widens c n (m.constrain i j b).1 (m'.constrain i j b).1 := by
  unfold Dbm.constrain
  rw [h.isEmpty_eq, h.inner i hi j hj, h.inner j hj i hi]
  split
  · exact h
  split
  · exact h
  split
  · exact h.markEmpty
  · exact (h.setEntry hi hj b).relaxThrough hi hj b

/-! ## Closing -/

/-- A detour over a further clock is not taken, or it goes nowhere. -/
theorem closeAlong_cons_of_far {ds : List (Nat × Nat)} (hk : k < n) (hi : i < n)
    (far : ¬(k < c ∧ i < c)) : closeAlong ((k, i) :: ds) m' = closeAlong ds m' := by
  have away : c ≤ k ∨ c ≤ i := by omega
  rw [Dbm.closeAlong]
  by_cases eq : i = k
  · subst eq
    have far : c ≤ i := by omega
    have idle : m'.relaxRow .zero i i = m' := relaxRow_eq_self fun j hj => by
      rw [h.dim'] at hj
      by_cases eq : i = j
      · rw [← eq, h.diagonal hi far]
        decide
      · rw [h.left_infinity hi hj far eq, Bound.add_infinity]
    simp only [h.diagonal hi far, idle]
    rfl
  · have top : m'.entry i k = .infinity := by
      rcases away with far | far
      · exact h.right_infinity hi hk far eq
      · exact h.left_infinity hi hk far eq
    rw [top]
    rfl

omit h in
theorem closeAlong {ds : List (Nat × Nat)} (h : Widens c n m m')
    (inside : ∀ d ∈ ds, d.1 < n ∧ d.2 < n) :
    Widens c n (closeAlong (ds.filter fun d => d.1 < c ∧ d.2 < c) m).1 (closeAlong ds m').1 ∧
      (Dbm.closeAlong ds m').2 = (Dbm.closeAlong (ds.filter fun d => d.1 < c ∧ d.2 < c) m).2 := by
  induction ds generalizing m m' with
  | nil => exact ⟨h, rfl⟩
  | cons d ds ih =>
    obtain ⟨k, i⟩ := d
    obtain ⟨hk, hi⟩ := inside (k, i) List.mem_cons_self
    have rest {o o' : Dbm} (w : Widens c n o o') :=
      ih w fun d hd => inside d (List.mem_cons_of_mem _ hd)
    -- Only detours between old clocks are in both lists; the others change nothing.
    by_cases near : k < c ∧ i < c
    · rw [List.filter_cons_of_pos (by simpa using near)]
      unfold Dbm.closeAlong
      dsimp only
      rw [h.inner i near.2 k near.1]
      split
      · exact rest h
      · have row := h.relaxRow near.1 near.2 (m.entry i k)
        rw [row.inner i near.2 i near.2]
        split
        · exact ⟨row.markEmpty, rfl⟩
        · exact rest row
    · rw [List.filter_cons_of_neg (by simpa using near), h.closeAlong_cons_of_far hk hi near]
      exact rest h

theorem filter_detours : (detours n).filter (fun d => d.1 < c ∧ d.2 < c) = detours c := by
  have below := filter_range h.le
  unfold detours
  rw [List.filter_flatMap, flatMap_range h.le fun k far => ?_]
  · refine List.flatMap_congr fun k hk => ?_
    rw [List.filter_map, ← below]
    refine congrArg _ (List.filter_congr fun i _ => ?_)
    simp [List.mem_range.1 hk]
  · simp [not_lt.2 far]

/-- **Closing keeps the further clocks unconstrained**, and finds the same zones inhabited. -/
theorem close : Widens c n m.close.1 m'.close.1 ∧ m'.close.2 = m.close.2 := by
  unfold Dbm.close
  rw [h.dim, h.dim', ← h.filter_detours]
  exact h.closeAlong fun d => mem_detours.1

theorem isValid_eq : m'.isValid = m.isValid := by
  rw [Dbm.isValid, Dbm.isValid, h.isEmpty_eq, h.close.2]

theorem isClosed (closed : m.isClosed = true) : m'.isClosed = true := by
  have le := h.le
  rw [isClosed_iff, h.dim] at closed
  rw [isClosed_iff, h.dim']
  intro k hk i hi
  -- A further clock has no bounds, so detours over it are infinite.
  by_cases near : k < c ∧ i < c
  · obtain ⟨hk', hi'⟩ := near
    refine (closed k hk' i hi').imp (fun top => ?_) fun detours j hj => ?_
    · rw [h.inner i hi' k hk', top]
    · by_cases hj' : j < c
      · rw [h.inner i hi' j hj', h.inner i hi' k hk', h.inner k hk' j hj']
        exact detours j hj'
      · rw [h.right_infinity hk hj (not_lt.1 hj') (by omega),
          h.right_infinity hi hj (not_lt.1 hj') (by omega), Bound.add_infinity]
  · by_cases eq : i = k
    · subst eq
      refine .inr fun j hj => ?_
      have far : c ≤ i := by omega
      by_cases eq : i = j
      · rw [← eq, h.diagonal hi far]
        decide
      · rw [h.left_infinity hi hj far eq, Bound.add_infinity]
    · rw [h.outer i hi k hk (by omega), if_neg eq]
      exact .inl rfl

/-- The wide matrix seen on its first clocks. -/
theorem projected_eq {d : Nat} {d_pos : 0 < d} (le : d ≤ c) :
    m'.projected d d_pos = m.projected d d_pos := by
  refine ext_entry rfl fun i (hi : i < d) j (hj : j < d) => ?_
  rw [entry_projected hi hj, entry_projected hi hj, h.inner i (by omega) j (by omega)]

/-! ## Cutting -/

theorem inhabited? {sub : Dbm} (found : m.inhabited? = .ok sub) :
    ∃ sub', m'.inhabited? = .ok sub' ∧ Widens c n sub sub' := by
  unfold Dbm.inhabited? at found ⊢
  rw [h.isEmpty_eq]
  split at found
  · cases found
  next nonempty =>
    cases found
    exact ⟨m', if_neg nonempty, h⟩

section Cutting

variable {pair : ClockPair} (inside : pair.i < c)

include inside

theorem admits_eq (lower : Option Bound) (upper : Bound) :
    m'.admits pair lower upper = m.admits pair lower upper := by
  have lt := pair.lt
  unfold Dbm.admits
  rw [h.inner pair.i inside pair.j (by omega), h.inner pair.j (by omega) pair.i inside]

theorem restricted (lower : Option Bound) (upper : Bound) :
    Widens c n (m.restricted pair lower upper) (m'.restricted pair lower upper) := by
  have inside' : pair.j < c := pair.lt.trans inside
  have below : Widens c n (if upper.isInfinity then m else (m.constrain pair.i pair.j upper).1)
      (if upper.isInfinity then m' else (m'.constrain pair.i pair.j upper).1) := by
    split
    · exact h
    · exact h.constrain inside inside' upper
  unfold Dbm.restricted
  cases lower with
  | none => exact below
  | some lower => exact below.constrain inside' inside _

variable {α : Type}

theorem feasible (wanted : α → Bool) (lower : Option Bound) (pieces : CutList α) :
    CutList.SameCuts (fun p p' => p.1 = p'.1 ∧ Widens c n p.2 p'.2)
      (m.feasible pair wanted lower pieces) (m'.feasible pair wanted lower pieces) := by
  induction pieces generalizing lower with
  | nil => exact .nil
  | cons p ps ih =>
    unfold Dbm.feasible
    rw [h.admits_eq inside]
    split
    · exact .cons ⟨rfl, rfl, h.restricted inside lower p.upper⟩ (ih _)
    · exact ih _

theorem admittedStart (lower : Option Bound) (pieces : CutList α) :
    CutList.SameCuts (fun p p' => p.1 = p'.1 ∧ Widens c n p.2 p'.2)
      (m.admittedStart pair lower pieces) (m'.admittedStart pair lower pieces) := by
  induction pieces generalizing lower with
  | nil => exact .nil
  | cons p ps ih =>
    unfold Dbm.admittedStart
    rw [h.admits_eq inside]
    split
    · exact .cons ⟨rfl, rfl, h.restricted inside lower p.upper⟩ (ih _)
    · exact .nil

theorem feasibleRun (lower : Option Bound) (pieces : CutList α) :
    CutList.SameCuts (fun p p' => p.1 = p'.1 ∧ Widens c n p.2 p'.2)
      (m.feasibleRun pair lower pieces) (m'.feasibleRun pair lower pieces) := by
  induction pieces generalizing lower with
  | nil => exact .nil
  | cons p ps ih =>
    unfold Dbm.feasibleRun
    rw [h.admits_eq inside]
    split
    · exact h.admittedStart inside lower _
    · exact ih _

end Cutting

end Widens

/-! ## The path of a zone -/

open Manager

theorem filter_pairsBelow (le : c ≤ n) : (pairsBelow n).filter (·.1 < c) = pairsBelow c := by
  unfold pairsBelow
  rw [List.filter_flatMap, flatMap_range le fun k far => by simp [far]]
  refine List.flatMap_congr fun k hk => ?_
  simp [List.mem_range.1 hk]

/-- Pairs with a further clock need no cut. -/
theorem Widens.cutsAt_eq {o o' : Dbm} {pairs : List (Nat × Nat)} (h : Widens c n m m')
    (implied : Widens c n o o') (inside : ∀ p ∈ pairs, p.1 < n ∧ p.2 < p.1) :
    cutsAt m' o' pairs = cutsAt m o (pairs.filter (·.1 < c)) := by
  induction pairs generalizing o o' with
  | nil => rfl
  | cons p pairs ih =>
    obtain ⟨i, j⟩ := p
    obtain ⟨hi, lt⟩ := inside (i, j) List.mem_cons_self
    have rest {o o' : Dbm} (w : Widens c n o o') :=
      ih w fun q hq => inside q (List.mem_cons_of_mem _ hq)
    have lt : j < i := lt
    by_cases near : i < c
    · have near' : j < c := lt.trans near
      have next := (implied.constrain near near' (m.entry i j)).constrain near' near (m.entry j i)
      rw [List.filter_cons_of_pos (by simpa using near)]
      unfold cutsAt
      rw [h.inner i near j near', h.inner j near' i near, implied.inner i near j near',
        implied.inner j near' i near]
      dsimp only
      split
      · exact rest implied
      · rw [rest next]
    · have left := h.left_infinity hi (lt.trans hi) (not_lt.1 near) lt.ne'
      have right := h.right_infinity (lt.trans hi) hi (not_lt.1 near) lt.ne
      rw [List.filter_cons_of_neg (by simpa using near), cutsAt, left, right]
      exact rest implied

theorem Widens.cuts_eq (h : Widens c n m m') : cuts m' = cuts m := by
  obtain ⟨le, rfl, rfl, -, -⟩ := id h
  unfold cuts
  rw [← filter_pairsBelow le]
  refine h.cutsAt_eq (widens_unconstrained le rfl rfl) fun p hp => ?_
  simp only [pairsBelow, List.mem_flatMap, List.mem_map, List.mem_range] at hp
  obtain ⟨i, hi, j, hj, rfl⟩ := hp
  exact ⟨hi, hj⟩

end Dbm

end ZoneDiagram

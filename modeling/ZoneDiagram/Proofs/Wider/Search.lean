import ZoneDiagram.Manager.Contains
import ZoneDiagram.Manager.Extract
import ZoneDiagram.Proofs.Manager.Build
import ZoneDiagram.Proofs.Wider.Reduce

/-!
# The same searches among more clocks

Whether a zone lies in a diagram, and which zone is the first one, is found along the same edges
among more clocks (`wider_contains`, `wider_chooseZone`). Each search notes the visits that it has
made. The visits of the wider search are the wider ones of the narrow search, so the notes
correspond.

The zone that is found among more clocks is the wider one, with the same cuts. So it has the same
diagram, the same projections, and the same rest is left of the federation (`wider_extract`).
-/

namespace ZoneDiagram.Manager

variable {c n : Nat} {m : Manager} {level depth depth' : Nat} {f g : Handle} {ctx ctx' : Dbm}
  {v v' : Visit}

/-! ## Edges -/

/-- The pieces of a cut list with parts of two contexts, of which the second widens the first. -/
abbrev SamePieces {α : Type} (c n : Nat) : CutList (α × Dbm) → CutList (α × Dbm) → Prop :=
  CutList.SameCuts fun p p' => p.1 = p'.1 ∧ Dbm.Widens c n p.2 p'.2

theorem Leveled.branches (hm : Leveled c m) (hc : c ≤ maxClocks) (w : Dbm.Widens c n ctx ctx')
    (f : Handle) :
    results.Rel (m.branches f ctx) ((m.withClocks n).branches f ctx') (SamePieces c n) := by
  refine results.bind (results_same fun pair => hm.pair hc) ?_
  rintro pair _ ⟨rfl, inside⟩
  refine results.bind (results_same fun _ _ => trivial) ?_
  rintro edges _ ⟨rfl, -⟩
  exact results.pure (w.feasible inside (· != .zero) none edges)

/-! ## Containment -/

theorem results_allBranches
    {test test' : Handle → Dbm → StateT ContainsMemo (Except Error) Bool}
    {ps ps' : CutList (Handle × Dbm)} (same : SamePieces c n ps ps')
    (htest : ∀ f sub sub', Dbm.Widens c n sub sub' →
      results.Pass (SameEntries (VisitWidens c n)) (test f sub) (test' f sub') Eq) :
    results.Pass (SameEntries (VisitWidens c n)) (allBranches test ps) (allBranches test' ps')
      Eq := by
  induction same with
  | nil => exact results.pass_pure rfl
  | @cons p p' ps ps' head _ ih =>
    obtain ⟨-, item, w⟩ := head
    refine results.pass_bind (results.pass_lift fun _ => w.inhabited?) fun sub sub' w' => ?_
    rw [← item]
    refine results.pass_bind (htest p.item.1 sub sub' w') ?_
    rintro b _ rfl
    cases b with
    | true => exact ih
    | false => exact results.pass_pure rfl

theorem results_containsWithin (hm : Leveled c m) (hc : c ≤ maxClocks) (le : depth ≤ depth')
    (w : Dbm.Widens c n ctx ctx') :
    results.Pass (SameEntries (VisitWidens c n)) (m.containsWithin depth f ctx)
      ((m.withClocks n).containsWithin depth' f ctx') Eq := by
  induction depth generalizing depth' f ctx ctx' with
  | zero => exact results_pass_throw
  | succ depth ih =>
    obtain ⟨depth', rfl⟩ : ∃ k, depth' = k + 1 := ⟨depth' - 1, by omega⟩
    rw [containsWithin, containsWithin]
    by_cases one : f = .one
    · rw [if_pos one, if_pos one]
      exact results.pass_pure rfl
    by_cases zero : f = .zero
    · rw [if_neg one, if_neg one, if_pos zero, if_pos zero]
      exact results.pass_pure rfl
    rw [if_neg one, if_neg one, if_neg zero, if_neg zero]
    refine results.pass_get_bind fun memo memo' same => ?_
    -- Visits in the two contexts match one to one, so one memo knows what the other does.
    rw [same _ _ (visitWidens f w)]
    cases memo[(⟨f, ctx⟩ : Visit)]? with
    | some b => exact results.pass_pure rfl
    | none =>
      refine results.pass_bind (results.pass_lift (results_same fun pair => hm.pair hc)) ?_
      rintro pair _ ⟨rfl, inside⟩
      refine results.pass_bind (results.pass_lift (results_same fun _ _ => trivial)) ?_
      rintro edges _ ⟨rfl, -⟩
      refine results.pass_bind (results_allBranches (w.feasible inside _ none edges)
        fun g sub sub' w' => ih (Nat.le_of_succ_le_succ le) w') ?_
      rintro b _ rfl
      refine results.pass_bind (results.pass_modify fun s t same =>
        same.insert biUnique_visitWidens (visitWidens f w) b) fun _ _ _ => ?_
      exact results.pass_pure rfl

theorem Leveled.checkDim (hm : Leveled c m) (pos : 0 < c) (le : c ≤ n) (dim : Nat) :
    results.Rel (m.checkDim dim) ((m.withClocks n).checkDim dim) fun _ _ => dim ≤ c := by
  intro _ ok
  have inside := checkDim_eq_ok_iff.1 ok
  have dim' : (m.withClocks n).dim = n := max_eq_left (pos.trans_le le)
  rw [hm.dim_eq pos] at inside
  exact ⟨(), checkDim_eq_ok_iff.2 (by omega), inside⟩

/-- **A zone lies in the same diagrams among more clocks.** -/
theorem wider_contains (hm : Leveled c m) (hc : c ≤ maxClocks) (pos : 0 < c) (le : c ≤ n)
    (f : Handle) (zone : Dbm) :
    results.Rel (m.contains f zone) ((m.withClocks n).contains f zone) Eq := by
  refine results.bind (hm.checkDim pos le zone.dim) fun _ _ inside => ?_
  have dim' : (m.withClocks n).dim = n := max_eq_left (pos.trans_le le)
  rcases close : zone.close with ⟨closed, inhabited⟩
  cases inhabited with
  | false => exact results.pure rfl
  | true =>
    have within : closed.dim ≤ c := (dim_of_close_eq close).trans_le inside
    have w : Dbm.Widens c n (closed.extended m.dim m.dim_pos)
        (closed.extended (m.withClocks n).dim (m.withClocks n).dim_pos) :=
      Dbm.widens_extended le within (hm.dim_eq pos) dim'
    exact results.bind
      (results_containsWithin hm hc (hm.depth_le le) w ∅ ∅ sameEntries_empty)
      fun _ _ same => results.pure same.1

/-! ## The first zone -/

theorem results_firstBranch
    {search search' : Handle → Dbm → StateT DeadEnds (Except Error) (Option Dbm)}
    {ps ps' : CutList (Handle × Dbm)} (same : SamePieces c n ps ps')
    (hsearch : ∀ f sub sub', Dbm.Widens c n sub sub' →
      results.Pass (SameMembers (VisitWidens c n)) (search f sub) (search' f sub')
        (Option.Rel (Dbm.Widens c n))) :
    results.Pass (SameMembers (VisitWidens c n)) (firstBranch search ps) (firstBranch search' ps')
      (Option.Rel (Dbm.Widens c n)) := by
  induction same with
  | nil => exact results.pass_pure .none
  | @cons p p' ps ps' head _ ih =>
    obtain ⟨-, item, w⟩ := head
    refine results.pass_bind (results.pass_lift fun _ => w.inhabited?) fun sub sub' w' => ?_
    rw [← item]
    refine results.pass_bind (hsearch p.item.1 sub sub' w') fun zone zone' found => ?_
    cases found with
    | some found => exact results.pass_pure (.some found)
    | none => exact ih

theorem results_findZone (hm : Leveled c m) (hc : c ≤ maxClocks) (le : depth ≤ depth')
    (w : Dbm.Widens c n ctx ctx') :
    results.Pass (SameMembers (VisitWidens c n)) (m.findZone depth f ctx)
      ((m.withClocks n).findZone depth' f ctx') (Option.Rel (Dbm.Widens c n)) := by
  induction depth generalizing depth' f ctx ctx' with
  | zero => exact results_pass_throw
  | succ depth ih =>
    obtain ⟨depth', rfl⟩ : ∃ k, depth' = k + 1 := ⟨depth' - 1, by omega⟩
    rw [findZone, findZone]
    by_cases zero : f = .zero
    · rw [if_pos zero, if_pos zero]
      exact results.pass_pure .none
    by_cases one : f = .one
    · rw [if_neg zero, if_neg zero, if_pos one, if_pos one]
      exact results.pass_pure (.some w)
    rw [if_neg zero, if_neg zero, if_neg one, if_neg one]
    refine results.pass_get_bind fun dead dead' same => ?_
    rw [same _ _ (visitWidens f w)]
    by_cases known : dead.contains ⟨f, ctx⟩ = true
    · rw [if_pos known, if_pos known]
      exact results.pass_pure .none
    rw [if_neg known, if_neg known]
    refine results.pass_bind (results.pass_lift (hm.branches hc w f))
      fun ps ps' same => ?_
    refine results.pass_bind (results_firstBranch same
      fun g sub sub' w' => ih (Nat.le_of_succ_le_succ le) w') fun zone zone' found => ?_
    cases found with
    | some found => exact results.pass_pure (.some found)
    | none =>
      refine results.pass_bind (results.pass_modify fun s t same =>
        same.insert biUnique_visitWidens (visitWidens f w)) fun _ _ _ => ?_
      exact results.pass_pure .none

/-- **The first zone among more clocks is the same**, the further ones unconstrained. -/
theorem wider_chooseZone (hm : Leveled c m) (hc : c ≤ maxClocks) (pos : 0 < c) (le : c ≤ n)
    (f : Handle) :
    results.Rel (m.chooseZone f) ((m.withClocks n).chooseZone f) (Dbm.Widens c n) := by
  refine results.bind (results_findZone hm hc (hm.depth_le le) (hm.widens_openContext pos le) ∅ ∅
    sameMembers_empty) ?_
  rintro ⟨found, dead⟩ ⟨found', dead'⟩ ⟨same, -⟩
  cases same with
  | none => exact fun _ eq => by cases eq
  | @some zone zone' w =>
    dsimp only
    rw [w.isValid_eq]
    by_cases valid : zone.isValid = true
    · by_cases closed : zone.isClosed = true
      · rw [valid, closed, w.isClosed closed]
        exact results.pure w
      · rw [valid, Bool.eq_false_iff.2 closed]
        exact fun _ eq => by cases eq
    · rw [Bool.eq_false_iff.2 valid]
      exact fun _ eq => by cases eq

/-! ## Diagrams of matrices -/

/-- Matrices with the same cuts have the same diagram. -/
theorem wider_ofDbm {zone zone' : Dbm}
    (dim : ∀ m, Leveled c m → results.Rel (m.checkDim zone.dim)
      ((m.withClocks n).checkDim zone'.dim) fun _ _ => zone.dim ≤ c)
    (close : zone'.close.2 = zone.close.2) (cuts : cuts zone'.close.1 = cuts zone.close.1) :
    (wider c n).Rel (ofDbm zone) (ofDbm zone') Eq := by
  refine (wider c n).bind (wider_query dim) fun _ _ inside => ?_
  rcases close₁ : zone.close with ⟨closed, inhabited⟩
  rcases close₂ : zone'.close with ⟨closed', inhabited'⟩
  rw [close₁, close₂] at close cuts
  obtain rfl : inhabited' = inhabited := close
  cases inhabited' with
  | false => exact (wider c n).pure rfl
  | true =>
    dsimp only at cuts ⊢
    rw [cuts]
    refine wider_pathThrough fun cut hcut => .inr ?_
    refine ((cuts_ascending closed).2 cut hcut).trans_le (ClockPair.triangle_le_triangle ?_)
    exact (dim_of_close_eq close₁).trans_le inside

/-- **A zone over more clocks that does not constrain them has the same diagram.** -/
theorem wider_ofDbm_widens {zone zone' : Dbm} (w : Dbm.Widens c n zone zone') :
    (wider c n).Rel (ofDbm zone) (ofDbm zone') Eq := by
  refine wider_ofDbm (fun m hm _ _ => ⟨(), checkDim_eq_ok_iff.2 ?_, w.dim.le⟩) w.close.2
    w.close.1.cuts_eq
  rw [w.dim']
  exact le_max_left n 1

/-! ## Extraction -/

/-- **The same zone is extracted among more clocks**, and the same rest is left. -/
theorem wider_extract (hc : c ≤ maxClocks) (pos : 0 < c) (le : c ≤ n) (f : Handle) (dim : Nat) :
    (wider c n).Rel (extract f dim) (extract f dim) Eq := by
  have check (m) (hm : Leveled c m) : results.Rel (m.checkExtractDim dim)
      ((m.withClocks n).checkExtractDim dim) fun a b => a = b ∧ a.1 ≤ c := by
    have dim' : (m.withClocks n).dim = n := max_eq_left (pos.trans_le le)
    intro a ok
    unfold checkExtractDim at ok ⊢
    split at ok
    next inside =>
      cases ok
      rw [hm.dim_eq pos] at inside
      exact ⟨_, dif_pos ⟨inside.1, by omega⟩, rfl, inside.2⟩
    next => cases ok
  refine (wider c n).bind (wider_query check) ?_
  rintro ⟨dim, dim_pos⟩ _ ⟨rfl, inside⟩
  refine (wider c n).bind (wider_query fun m hm => wider_chooseZone hm hc pos le f)
    fun full full' w => ?_
  refine (wider c n).bind (wider_ofDbm_widens w) ?_
  rintro zone _ rfl
  refine (wider c n).bind (wider_applyReduce hc pos le) ?_
  rintro remainder _ rfl
  exact (wider c n).pure (by rw [w.projected_eq inside])

end ZoneDiagram.Manager

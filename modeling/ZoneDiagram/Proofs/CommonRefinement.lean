import ZoneDiagram.Proofs.Combination

/-!
# The common refinement of two diagrams

**Theorem (`Reachable.refine_exact`).** In every reachable manager, two live diagrams that are not
both constants are split into pieces on their top level, and no list of edges is read past its end.
The bounds of the pieces increase up to the infinite one and are those of the edges of both diagrams
as seen from that level (`SeenFrom`). The piece that contains a value carries the child of the edge
of each diagram that contains the value (`CommonRefinement`); a diagram that does not test the level
has one edge to itself.
-/

namespace ZoneDiagram

namespace CutList

variable {α β : Type} {ps : CutList α} {qs : CutList β} {rs : CutList (α × β)} {x : ℚ}

/-- The item on the interval that contains a value. -/
def Carries (ps : CutList α) (x : ℚ) (a : α) : Prop :=
  ∃ lower p, (lower, p) ∈ intervals none ps ∧ Between lower p.upper x ∧ p.item = a

/-- The pieces of two cut lists on their common intervals. -/
structure CommonRefinement (ps : CutList α) (qs : CutList β) (rs : CutList (α × β)) : Prop where
  increasing : (rs.map Piece.upper).Pairwise (· < ·)
  last : (rs.map Piece.upper).getLast? = some .infinity
  cuts : ∀ b, b ∈ rs.map Piece.upper ↔ b ∈ ps.map Piece.upper ∨ b ∈ qs.map Piece.upper
  covers : ∀ x, ∃! c, c ∈ intervals none rs ∧ Between c.1 c.2.upper x
  items : ∀ x lower r, (lower, r) ∈ intervals none rs → Between lower r.upper x →
    Carries ps x r.item.1 ∧ Carries qs x r.item.2

theorem carries_of_itemAt? {a : α} (found : itemAt? x ps = some a) : Carries ps x a := by
  obtain ⟨lower, p, mem, item, between⟩ := exists_interval_of_itemAt? none found nofun
  exact ⟨lower, p, mem, between, item⟩

/-- Past a bound, all bounds are larger. -/
theorem Ascending.forall_lt {b : Bound} (h : Ascending (some b) ps) : ∀ p ∈ ps, b < p.upper := by
  induction ps generalizing b with
  | nil => exact nofun
  | cons q ps ih =>
    intro p hp
    have first : b < q.upper := h.1 b rfl
    rcases List.mem_cons.1 hp with rfl | hp
    · exact first
    · exact first.trans (ih h.2.2 p hp)

theorem Proper.pairwise_upper (h : Proper ps) : (ps.map Piece.upper).Pairwise (· < ·) := by
  have sorted {lower : Option Bound} {ps : CutList α} (h : Ascending lower ps) :
      (ps.map Piece.upper).Pairwise (· < ·) := by
    induction ps generalizing lower with
    | nil => exact List.Pairwise.nil
    | cons p ps ih =>
      refine List.pairwise_cons.2 ⟨fun b hb => ?_, ih h.2.2⟩
      obtain ⟨q, hq, rfl⟩ := List.mem_map.1 hb
      exact h.2.2.forall_lt q hq
  exact sorted h.ascending

theorem Proper.getLast?_upper (h : Proper ps) :
    (ps.map Piece.upper).getLast? = some .infinity := by
  induction ps with
  | nil => cases h
  | cons p ps ih =>
    cases ps with
    | nil => exact congrArg some h
    | cons q ps => simpa using ih h.2

/-- Proper cut lists have a common refinement, and merging them finds it. -/
theorem refine_commonRefinement (hp : Proper ps) (hq : Proper qs) :
    ∃ rs, refine ps qs = .ok rs ∧ CommonRefinement ps qs rs := by
  obtain ⟨rs, ok, refines⟩ := refine_eq_ok hp hq
  refine ⟨rs, ok, refines.proper.pairwise_upper, refines.proper.getLast?_upper, fun b => ?_,
    refines.proper.existsUnique_interval, fun x lower r mem between => ?_⟩
  · simpa only [List.mem_map] using exists_upper_refine_iff hp hq ok b
  · obtain ⟨a, left⟩ := hp.exists_itemAt? x
    obtain ⟨b, right⟩ := hq.exists_itemAt? x
    have found := itemAt?_of_between refines.proper.ascending mem between
    have both : r.item = (a, b) := Option.some.inj (found.symm.trans (refines.itemAt? left right))
    rw [both]
    exact ⟨carries_of_itemAt? left, carries_of_itemAt? right⟩

end CutList

namespace Manager

open CutList

variable {m : Manager} {f g : Handle} {level : Nat}

/-- The edges of a diagram as seen from a level: its own if it tests that level, and one edge to
itself if it tests later levels only. -/
def SeenFrom (m : Manager) (level : Nat) (f : Handle) (es : CutList Handle) : Prop :=
  m.level f = .ok level ∧ m.edges f = .ok es ∨
    ∃ later, m.level f = .ok later ∧ level < later ∧ es = whole f

/-- What is seen of a diagram from a level that has a clock pair. -/
theorem Nodes.cofactors_seenFrom (hm : m.Nodes) (hf : m.Live f)
    (pair : level < ClockPair.count m.clocks) (le : level ≤ m.levelOf f) :
    ∃ es, m.cofactors f level = .ok es ∧ m.SeenFrom level f es ∧ Proper es := by
  have read : m.cofactors f level =
      if m.levelOf f = level then .ok (m.edgesOf f) else .ok (whole f) := by
    rw [cofactors, hm.level_eq_ok hf, hm.edges_eq_ok hf]
    rfl
  rw [read]
  split
  next eq =>
    have inner := hm.isTerminal_eq_false_of_levelOf (eq ▸ pair)
    exact ⟨_, rfl, .inl ⟨eq ▸ hm.level_eq_ok hf, hm.edges_eq_ok hf⟩, hm.proper_edgesOf hf inner⟩
  next ne =>
    exact ⟨_, rfl, .inr ⟨_, hm.level_eq_ok hf, lt_of_le_of_ne le (Ne.symm ne), rfl⟩, rfl⟩

/-- The top level of two diagrams has a clock pair, unless both are constants. -/
theorem Nodes.topLevel_lt (hm : m.Nodes) (hf : m.Live f) (hg : m.Live g)
    (decision : ¬(f.isTerminal = true ∧ g.isTerminal = true)) :
    min (m.levelOf f) (m.levelOf g) < ClockPair.count m.clocks := by
  cases fTerminal : f.isTerminal with
  | false => exact hm.min_levelOf_lt hf fTerminal g
  | true =>
    have gInner : g.isTerminal = false := Bool.eq_false_iff.2 fun gTerminal =>
      decision ⟨fTerminal, gTerminal⟩
    rw [min_comm]
    exact hm.min_levelOf_lt hg gInner f

/-- **Two diagrams are split on all their cuts on the top level**, and every piece carries the
children of the edges that it is a part of. -/
theorem Reachable.refine_exact (h : m.Reachable) (hf : m.Live f) (hg : m.Live g)
    (decision : ¬(f.isTerminal = true ∧ g.isTerminal = true)) :
    ∃ k l fs gs pieces, m.level f = .ok k ∧ m.level g = .ok l ∧
      m.SeenFrom (min k l) f fs ∧ m.SeenFrom (min k l) g gs ∧
      m.refine f g = .ok (min k l, pieces) ∧ CommonRefinement fs gs pieces := by
  have hm := h.sound.toNodes
  have pair := hm.topLevel_lt hf hg decision
  obtain ⟨fs, hfs, fSeen, fProper⟩ := hm.cofactors_seenFrom hf pair (min_le_left _ _)
  obtain ⟨gs, hgs, gSeen, gProper⟩ := hm.cofactors_seenFrom hg pair (min_le_right _ _)
  obtain ⟨pieces, ok, refines⟩ := refine_commonRefinement fProper gProper
  exact ⟨m.levelOf f, m.levelOf g, fs, gs, pieces, hm.level_eq_ok hf, hm.level_eq_ok hg, fSeen,
    gSeen, hm.refine_of_cofactors hf hg hfs hgs ok, refines⟩

/-- The bands `0 ≤ x₁ - x₀ < 2` and, after them, `1 ≤ x₁ - x₀ < 5`. -/
def overlap : Manager := (Action.interval 1 0 1 5).next bands

/-- The two bands that overlap have four cuts together. -/
theorem refine_exact_overlap : ∃ fs gs, overlap.SeenFrom 0 ⟨-2⟩ fs ∧ overlap.SeenFrom 0 ⟨-5⟩ gs ∧
    overlap.refine ⟨-2⟩ ⟨-5⟩ = .ok (0, [⟨(.zero, .zero), .strict 0⟩, ⟨(.one, .zero), .strict 1⟩,
      ⟨(.one, .one), .strict 2⟩, ⟨(.zero, .one), .strict 5⟩, ⟨(.zero, .zero), .infinity⟩]) ∧
    CommonRefinement fs gs [⟨(.zero, .zero), .strict 0⟩, ⟨(.one, .zero), .strict 1⟩,
      ⟨(.one, .one), .strict 2⟩, ⟨(.zero, .one), .strict 5⟩, ⟨(.zero, .zero), .infinity⟩] := by
  have live : ∀ f ∈ [⟨-2⟩, ⟨-5⟩], overlap.Live f := by decide +kernel
  have reachable : overlap.Reachable := reachable_bands.step (.interval 1 0 1 5) nofun
  have run : overlap.refine ⟨-2⟩ ⟨-5⟩ = .ok (0, [⟨(.zero, .zero), .strict 0⟩,
      ⟨(.one, .zero), .strict 1⟩, ⟨(.one, .one), .strict 2⟩, ⟨(.zero, .one), .strict 5⟩,
      ⟨(.zero, .zero), .infinity⟩]) := by decide +kernel
  obtain ⟨k, l, fs, gs, pieces, -, -, fSeen, gSeen, found, refines⟩ :=
    reachable.refine_exact (live ⟨-2⟩ (by simp)) (live ⟨-5⟩ (by simp)) (by decide)
  obtain ⟨level, rfl⟩ := Prod.mk.inj (Except.ok.inj (run.symm.trans found))
  rw [← level] at fSeen gSeen
  exact ⟨fs, gs, fSeen, gSeen, run, refines⟩

end Manager

end ZoneDiagram

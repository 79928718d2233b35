import ZoneDiagram.Proofs.Dbm.Widening
import ZoneDiagram.Proofs.Manager.ApplyReduce
import ZoneDiagram.Proofs.Wider.Basic

/-!
# The same reduction among more clocks

A reduction starts in the context without constraints, and more clocks make a wider context of it.
Every context on its way is then the wider one of the context that the narrow reduction has there.
So it admits the same pieces, and the node that is made of them is the same.

The memos of the two passes have no key in common. But wider contexts correspond one to one to the
narrow ones, so what one pass finds under a key, the other finds under the key that corresponds
(`wider_reduce`, `wider_applyReduce`).
-/

namespace ZoneDiagram.Manager

variable {c n : Nat} {α β σ τ : Type} {m : Manager} {level depth depth' : Nat}
  {op : Connective} {f g : Handle} {ctx ctx' : Dbm}

/-! ## Reducing -/

/-- A piece becomes the same edge in a wider context, if its child does. -/
theorem wider_reducePiece {S : σ → τ → Prop} {p p' : Piece (α × Dbm)}
    {child : α → Dbm → StateT σ ManagerM Handle} {child' : α → Dbm → StateT τ ManagerM Handle}
    (same : CutList.SameCut (fun q q' => q.1 = q'.1 ∧ Dbm.Widens c n q.2 q'.2) p p')
    (hchild : ∀ a sub sub', Dbm.Widens c n sub sub' →
      (wider c n).Pass S (child a sub) (child' a sub') Eq) :
    (wider c n).Pass S
      (do
        let sub ← (p.item.2.inhabited? : ManagerM Dbm)
        return (⟨← child p.item.1 sub, p.upper⟩ : Edge))
      (do
        let sub ← (p'.item.2.inhabited? : ManagerM Dbm)
        return (⟨← child' p'.item.1 sub, p'.upper⟩ : Edge)) Eq := by
  obtain ⟨upper, item, w⟩ := same
  refine (wider c n).pass_bind
    ((wider c n).pass_lift (wider_lift fun _ => w.inhabited?)) fun sub sub' w' => ?_
  rw [← upper, ← item]
  refine (wider c n).pass_bind (hchild p.item.1 sub sub' w') ?_
  rintro r _ rfl
  exact (wider c n).pass_pure rfl

/-- The pieces that a context admits make the same node in a wider context, if their children
give the same. -/
theorem wider_reducePieces {S : σ → τ → Prop}
    {child : α → Dbm → StateT σ ManagerM Handle} {child' : α → Dbm → StateT τ ManagerM Handle}
    (hc : c ≤ maxClocks) (hl : LevelIn c level) (w : Dbm.Widens c n ctx ctx') (pieces : CutList α)
    (hchild : ∀ a sub sub', Dbm.Widens c n sub sub' →
      (wider c n).Pass S (child a sub) (child' a sub') Eq) :
    (wider c n).Pass S (reducePieces level ctx pieces child)
      (reducePieces level ctx' pieces child') Eq := by
  refine (wider c n).pass_bind (R := fun p p' : ClockPair => p = p' ∧ p.i < c)
    ((wider c n).pass_lift (wider_lift (results_same fun _ => hl.lt_of_ofLevel hc))) ?_
  rintro pair _ ⟨rfl, inside⟩
  have run := w.feasibleRun inside none pieces
  dsimp only
  split
  · exact wider_pass_throw_bind
  next some =>
    have some' : ¬(ctx'.feasibleRun pair none pieces).isEmpty := by
      rwa [List.isEmpty_iff_length_eq_zero, ← run.length_eq, ← List.isEmpty_iff_length_eq_zero]
    rw [if_neg some']
    refine (wider c n).pass_bind (R := List.Forall₂ Eq)
      ((wider c n).pass_mapM run fun _ _ same => wider_reducePiece same hchild)
      fun edges edges' same => ?_
    rw [List.forall₂_eq_eq_eq] at same
    subst same
    exact (wider c n).pass_lift (wider_mkNode hl _)

/-- Visits to the same diagram, in contexts of which the second widens the first. -/
def VisitWidens (c n : Nat) (v v' : Visit) : Prop :=
  v.diagram = v'.diagram ∧ Dbm.Widens c n v.context v'.context

/-- Visits to the same diagrams, in contexts of which the second widens the first. -/
def PairVisitWidens (c n : Nat) (v v' : PairVisit) : Prop :=
  (v.left = v'.left ∧ v.right = v'.right) ∧ Dbm.Widens c n v.context v'.context

theorem visitWidens (f : Handle) {ctx ctx' : Dbm} (w : Dbm.Widens c n ctx ctx') :
    VisitWidens c n ⟨f, ctx⟩ ⟨f, ctx'⟩ := ⟨rfl, w⟩

theorem pairVisitWidens (f g : Handle) {ctx ctx' : Dbm} (w : Dbm.Widens c n ctx ctx') :
    PairVisitWidens c n ⟨f, g, ctx⟩ ⟨f, g, ctx'⟩ := ⟨⟨rfl, rfl⟩, w⟩

theorem biUnique_visitWidens : Relator.BiUnique (VisitWidens c n) := by
  constructor
  · rintro ⟨f, d⟩ ⟨f', d'⟩ ⟨g, o⟩ ⟨rfl, w⟩ ⟨rfl, w'⟩
    exact congrArg (Visit.mk _) (Dbm.biUnique_widens.1 w w')
  · rintro ⟨f, d⟩ ⟨g, o⟩ ⟨g', o'⟩ ⟨rfl, w⟩ ⟨rfl, w'⟩
    exact congrArg (Visit.mk _) (Dbm.biUnique_widens.2 w w')

theorem biUnique_pairVisitWidens : Relator.BiUnique (PairVisitWidens c n) := by
  constructor
  · rintro ⟨f, g, d⟩ ⟨f', g', d'⟩ ⟨h, k, o⟩ ⟨⟨rfl, rfl⟩, w⟩ ⟨⟨rfl, rfl⟩, w'⟩
    exact congrArg (PairVisit.mk _ _) (Dbm.biUnique_widens.1 w w')
  · rintro ⟨f, g, d⟩ ⟨h, k, o⟩ ⟨h', k', o'⟩ ⟨⟨rfl, rfl⟩, w⟩ ⟨⟨rfl, rfl⟩, w'⟩
    exact congrArg (PairVisit.mk _ _) (Dbm.biUnique_widens.2 w w')

/-- **A diagram reduces to the same handle in a wider context.** -/
theorem wider_reduceWithin {ctx ctx' : Dbm} (hc : c ≤ maxClocks) (le : depth ≤ depth')
    (w : Dbm.Widens c n ctx ctx') :
    (wider c n).Pass (SameEntries (VisitWidens c n)) (reduceWithin depth f ctx)
      (reduceWithin depth' f ctx') Eq := by
  -- The induction is on the smaller depth; the larger one is never used up first.
  induction depth generalizing depth' f ctx ctx' with
  | zero => exact wider_pass_throw
  | succ depth ih =>
    obtain ⟨depth', rfl⟩ : ∃ k, depth' = k + 1 := ⟨depth' - 1, by omega⟩
    have le := Nat.le_of_succ_le_succ le
    rw [reduceWithin, reduceWithin]
    by_cases terminal : f.isTerminal = true
    · rw [if_pos terminal, if_pos terminal]
      exact (wider c n).pass_pure rfl
    · rw [if_neg terminal, if_neg terminal]
      refine (wider c n).pass_get_bind fun memo memo' same => ?_
      rw [same _ _ (visitWidens f.regular w)]
      cases memo[(⟨f.regular, ctx⟩ : Visit)]? with
      | some r => exact (wider c n).pass_pure rfl
      | none =>
        refine (wider c n).pass_bind ((wider c n).pass_lift (wider_node f.regular)) ?_
        rintro node _ ⟨rfl, hl⟩
        refine (wider c n).pass_bind
          (wider_reducePieces hc hl w node.edges fun a sub sub' w' => ih le w') ?_
        rintro r _ rfl
        refine (wider c n).pass_bind ((wider c n).pass_modify fun s t same =>
          same.insert biUnique_visitWidens (visitWidens f.regular w) r) fun _ _ _ => ?_
        exact (wider c n).pass_pure rfl

theorem Leveled.dim_eq (hm : Leveled c m) (pos : 0 < c) : m.dim = c := by
  rw [dim, hm.clocks, max_eq_left pos]

theorem Leveled.widens_openContext (hm : Leveled c m) (pos : 0 < c) (le : c ≤ n) :
    Dbm.Widens c n m.openContext (m.withClocks n).openContext :=
  Dbm.widens_unconstrained le (hm.dim_eq pos) (max_eq_left (pos.trans_le le))

theorem wider_reducePass (hc : c ≤ maxClocks) (pos : 0 < c) (le : c ≤ n) :
    (wider c n).Rel (reducePass f) (reducePass f) Eq :=
  wider_get_bind fun _ hm => (wider c n).bind
    (wider_reduceWithin hc (hm.depth_le le) (hm.widens_openContext pos le) ∅ ∅ sameEntries_empty)
    fun _ _ same => (wider c n).pure same.1

/-- **A diagram reduces to the same handle among more clocks.** -/
theorem wider_reduce (hc : c ≤ maxClocks) (pos : 0 < c) (le : c ≤ n) :
    (wider c n).Rel (reduce f) (reduce f) Eq := by
  cases inner : f.isTerminal with
  | true =>
    rw [reduce_of_isTerminal inner]
    exact (wider c n).pure rfl
  | false =>
    rw [reduce_of_inner inner]
    exact wider_cached (wider_reducePass hc pos le)

/-! ## Combining and reducing -/

/-- Memos with the same results under keys in wider contexts. -/
structure SameMemo (c n : Nat) (memo memo' : ApplyMemo) : Prop where
  applied : SameEntries (PairVisitWidens c n) memo.applied memo'.applied
  reduced : SameEntries (VisitWidens c n) memo.reduced memo'.reduced

theorem wider_reduceIn {ctx ctx' : Dbm} (hc : c ≤ maxClocks) (le : depth ≤ depth')
    (w : Dbm.Widens c n ctx ctx') : (wider c n).Pass (SameMemo c n) (reduceIn depth f ctx)
      (reduceIn depth' f ctx') Eq := fun memo memo' same =>
  (wider c n).bind (wider_reduceWithin hc le w memo.reduced memo'.reduced same.reduced)
    fun _ _ related => (wider c n).pure ⟨related.1, same.applied, related.2⟩

theorem wider_applyReduceNode 
    {child child' : Handle × Handle → Dbm → StateT ApplyMemo ManagerM Handle}
    (hc : c ≤ maxClocks) (w : Dbm.Widens c n ctx ctx')
    (hchild : ∀ p sub sub', Dbm.Widens c n sub sub' →
      (wider c n).Pass (SameMemo c n) (child p sub) (child' p sub') Eq) :
    (wider c n).Pass (SameMemo c n) (applyReduceNode child f g ctx)
      (applyReduceNode child' f g ctx') Eq := by
  refine (wider c n).pass_get_bind fun memo memo' same => ?_
  rw [same.applied _ _ (pairVisitWidens f g w)]
  cases memo.applied[(⟨f, g, ctx⟩ : PairVisit)]? with
  | some r => exact (wider c n).pass_pure rfl
  | none =>
    refine (wider c n).pass_bind ((wider c n).pass_lift (wider_refine f g)) ?_
    rintro ⟨level, pieces⟩ _ ⟨rfl, hl⟩
    refine (wider c n).pass_bind (wider_reducePieces hc hl w pieces hchild) ?_
    rintro r _ rfl
    refine (wider c n).pass_bind ((wider c n).pass_modify fun s t same =>
      ⟨same.applied.insert biUnique_pairVisitWidens (pairVisitWidens f g w) r, same.reduced⟩)
      fun _ _ _ => ?_
    exact (wider c n).pass_pure rfl

theorem wider_applyReduceWithin {ctx ctx' : Dbm} {p : Handle × Handle} (hc : c ≤ maxClocks)
    (le : depth ≤ depth') (w : Dbm.Widens c n ctx ctx') :
    (wider c n).Pass (SameMemo c n) (applyReduceWithin op depth p ctx)
      (applyReduceWithin op depth' p ctx') Eq := by
  obtain ⟨f, g⟩ := p
  induction depth generalizing depth' f g ctx ctx' with
  | zero => exact wider_pass_throw
  | succ depth ih =>
    obtain ⟨depth', rfl⟩ : ∃ k, depth' = k + 1 := ⟨depth' - 1, by omega⟩
    cases shortcut : op.shortcut f g with
    | some u =>
      rw [applyReduceWithin_of_shortcut _ shortcut, applyReduceWithin_of_shortcut _ shortcut]
      exact wider_reduceIn hc le w
    | none =>
      have child (p : Handle × Handle) (sub sub' : Dbm) (w' : Dbm.Widens c n sub sub') :=
        ih (Nat.le_of_succ_le_succ le) w' p.1 p.2
      rw [applyReduceWithin_of_ordered _ shortcut rfl, applyReduceWithin_of_ordered _ shortcut rfl]
      exact wider_applyReduceNode hc w child

theorem wider_applyReducePass (hc : c ≤ maxClocks) (pos : 0 < c) (le : c ≤ n) :
    (wider c n).Rel (applyReducePass op f g) (applyReducePass op f g) Eq :=
  wider_get_bind fun _ hm => (wider c n).bind
    (wider_applyReduceWithin hc (hm.depth_le le) (hm.widens_openContext pos le) {} {}
      ⟨sameEntries_empty, sameEntries_empty⟩)
    fun _ _ same => (wider c n).pure same.1

/-- **Two diagrams are combined and reduced to the same handle among more clocks.** -/
theorem wider_applyReduce (hc : c ≤ maxClocks) (pos : 0 < c) (le : c ≤ n) :
    (wider c n).Rel (applyReduce op f g) (applyReduce op f g) Eq := by
  cases shortcut : op.shortcut f g with
  | some u =>
    rw [applyReduce_of_shortcut shortcut]
    exact wider_reduce hc pos le
  | none =>
    rw [applyReduce_of_ordered shortcut rfl]
    exact wider_cached (wider_applyReducePass hc pos le)

end ZoneDiagram.Manager

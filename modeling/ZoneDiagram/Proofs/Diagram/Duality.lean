import ZoneDiagram.Proofs.Diagram.Apply

/-!
# Complements of combined trees

Complementing the operands of a connective gives the complement of another connective: the laws of
De Morgan, and the sign rule of the exclusive or (`Connective.Turns`).

**Theorem (`ApplyReduces.turn`).** What combining two trees in a context and reducing the
combination gives, complemented, is what the other connective gives on the complemented operands.

Complementing keeps levels and cuts. So both recursions meet the same pieces in the same contexts,
and they end at the same places, because the shortcuts of the two connectives correspond. For the
exclusive or this needs that no canonical tree is its own complement: equal operands are found
first, and complementary ones next.
-/

namespace ZoneDiagram

/-! ## Connectives -/

namespace Connective

/-- With the operands complemented as the flags say, the second connective is the complement of the
first one. -/
inductive Turns : Connective → Connective → Bool → Bool → Prop
  | and : Turns and or true true
  | or : Turns or and true true
  | xor : Turns xor xor true false

variable {op op' : Connective} {a b : Bool}

theorem Turns.symm (h : Turns op op' a b) : Turns op' op a b := by
  cases h
  exacts [.or, .and, .xor]

theorem Turns.onBool_eq (h : Turns op op' a b) (x y : Bool) :
    op'.onBool (x ^^ a) (y ^^ b) = !op.onBool x y := by
  cases h <;> cases x <;> cases y <;> rfl

end Connective

namespace Diagram

open CutList

variable {clocks l depth : Nat} {op op' : Connective} {a b : Bool} {s t r : Diagram} {ctx : Dbm}

/-! ## Complements -/

/-- The complement, if the flag is set. -/
def negIf : Bool → Diagram → Diagram
  | true, t => t.neg
  | false, t => t

theorem level_negIf (b : Bool) (t : Diagram) : (t.negIf b).level = t.level := by
  cases b
  · rfl
  · exact level_neg t

theorem cofactors_neg (l : Nat) (t : Diagram) :
    t.neg.cofactors l = mapItems neg (t.cofactors l) := by
  cases t with
  | leaf b => rfl
  | node k edges =>
    rw [neg_node, cofactors_node, cofactors_node]
    split
    · rfl
    · exact congrArg whole (neg_node k edges).symm

theorem cofactors_negIf (b : Bool) (l : Nat) (t : Diagram) :
    (t.negIf b).cofactors l = mapItems (negIf b) (t.cofactors l) := by
  cases b
  · exact (mapItems_eq_self fun _ _ => rfl).symm
  · exact cofactors_neg l t

theorem refine_negIf (a b : Bool) (s t : Diagram) :
    refine (s.negIf a) (t.negIf b) =
      (refine s t).map (mapItems (Prod.map (negIf a) (negIf b))) := by
  rw [refine, refine, level_negIf, level_negIf, cofactors_negIf, cofactors_negIf, refine_mapItems]

/-- No canonical tree is its own complement. -/
theorem Canonical.ne_neg (ht : Canonical clocks t) : t ≠ t.neg := by
  intro same
  have flipped := eval_neg (fun _ => 0) t ht.proper
  rw [← same] at flipped
  exact absurd flipped.symm (Bool.not_ne_self _)

/-! ## Shortcuts -/

theorem neg_eq_leaf_iff : t.neg = leaf b ↔ t = leaf !b := by
  rw [← neg_injective.eq_iff, neg_neg]
  rfl

theorem shortcut_or_neg (s t : Diagram) :
    shortcut .or s.neg t.neg = (shortcut .and s t).map neg := by
  simp only [shortcut]
  grind [neg_injective.eq_iff, neg_eq_leaf_iff]

theorem shortcut_and_neg (s t : Diagram) :
    shortcut .and s.neg t.neg = (shortcut .or s t).map neg := by
  have back := shortcut_or_neg s.neg t.neg
  have twice : neg ∘ neg = id := funext neg_neg
  rw [neg_neg, neg_neg] at back
  rw [back, Option.map_map, twice, Option.map_id]
  rfl

theorem shortcut_xor_neg (hs : s ≠ s.neg) (t : Diagram) :
    shortcut .xor s.neg t = (shortcut .xor s t).map neg := by
  simp only [shortcut]
  grind [neg_neg, neg_eq_leaf_iff]

/-- The shortcuts of two connectives correspond. -/
theorem shortcut_turn (h : op.Turns op' a b) (hs : s ≠ s.neg) (t : Diagram) :
    shortcut op' (s.negIf a) (t.negIf b) = (shortcut op s t).map neg := by
  cases h with
  | and => exact shortcut_or_neg s t
  | or => exact shortcut_and_neg s t
  | xor => exact shortcut_xor_neg hs t

/-! ## Combining and reducing -/

/-- **The complement of a reduced combination is the reduced combination of the complements.** -/
theorem ApplyReduces.turn (turns : op.Turns op' a b) (few : clocks ≤ Manager.maxClocks)
    (hs : Canonical clocks s) (ht : Canonical clocks t) (h : ApplyReduces op s t ctx r) :
    ApplyReduces op' (s.negIf a) (t.negIf b) ctx r.neg := by
  obtain ⟨depth, h⟩ := h
  refine ⟨depth, ?_⟩
  induction depth generalizing s t ctx r with
  | zero => exact h
  | succ depth ih =>
    -- Both recursions end at the same places, and otherwise they meet the same pieces.
    have shortcuts := shortcut_turn turns hs.ne_neg t
    unfold ApplyReducesWithin at h ⊢
    split at h
    next u found =>
      rw [found] at shortcuts
      rw [shortcuts]
      exact reduce_neg h
    next none =>
      obtain ⟨ps, hps, node⟩ := h
      obtain ⟨_, ⟨⟩, splits⟩ := hps ▸ hs.refine_eq_ok few ht none
      rw [none] at shortcuts
      rw [shortcuts]
      refine ⟨mapItems (Prod.map (negIf a) (negIf b)) ps, by rw [refine_negIf, hps]; rfl, ?_⟩
      rw [nodeReduces_mapItems_iff, level_negIf, level_negIf]
      refine node.neg fun p hp sub u hu => ?_
      obtain ⟨left, right⟩ := splits.canonical p hp
      exact ih left right hu

end Diagram

end ZoneDiagram

import Mathlib.Logic.Function.Basic
import ZoneDiagram.Proofs.CutList.Unique
import ZoneDiagram.Proofs.Diagram.Basic

/-!
# Canonical trees are known by their truth

Give every level a value of its own, whether or not clocks could have such differences.

**Theorem (`eq_of_eval_eq`).** Canonical trees with the same truth under every assignment are equal.

A tree does not depend on the levels above its root, so the truth of a child is that of the decision
at any value on its interval. If two trees with the same truth start on different levels, all
children of the upper root have the truth of the other tree, so they are that tree, but the children
of a canonical decision differ. If they start on the same level, they have the same child at every
value, and a merged cut list is known by its items.
-/

namespace ZoneDiagram.Diagram

open CutList

variable {clocks l : Nat} {edges : List (Piece Diagram)} {s t : Diagram} {x : ℚ} {d : Assignment}

/-- A tree does not depend on a level above its root. -/
theorem eval_update (ht : Canonical clocks t) (lt : l < t.level) :
    eval (Function.update d l x) t = eval d t := by
  induction ht with
  | leaf b => rfl
  | @node level edges root _ ih =>
    have above : Function.update d l x level = d level :=
      Function.update_of_ne (Nat.ne_of_gt lt) x d
    obtain ⟨s, hs⟩ := root.proper.exists_itemAt? (d level)
    obtain ⟨lo, p, hp, rfl, -⟩ := exists_interval_of_itemAt? none hs nofun
    have mem := mem_of_mem_intervals hp
    rw [eval_node, eval_node, above, hs]
    exact ih p mem (lt.trans (root.below p mem))

/-- At a value of its level, a decision has the truth of the child there. -/
theorem eval_update_node (h : Canonical clocks (node l edges)) (hs : itemAt? x edges = some s) :
    eval (Function.update d l x) (node l edges) = eval d s := by
  obtain ⟨lo, p, hp, rfl, -⟩ := exists_interval_of_itemAt? none hs nofun
  have mem := mem_of_mem_intervals hp
  rw [eval_node, Function.update_self, hs]
  exact eval_update (h.child mem) (h.root.below p mem)

/-- The children of a decision with the truth of a tree on later levels have that truth too. -/
theorem eval_child_eq {p : Piece Diagram} (h : Canonical clocks (node l edges))
    (ht : Canonical clocks t) (lt : l < t.level) (same : ∀ d, eval d (node l edges) = eval d t)
    (hp : p ∈ edges) (d : Assignment) : eval d p.item = eval d t := by
  obtain ⟨x, hx⟩ := h.root.proper.exists_value hp
  calc eval d p.item = eval (Function.update d l x) (node l edges) := (eval_update_node h hx).symm
    _ = eval (Function.update d l x) t := same _
    _ = eval d t := eval_update ht lt

/-- No decision has the truth of a tree on later levels, if every child with that truth is the
tree. -/
theorem not_eval_eq_of_lt (h : Canonical clocks (node l edges)) (ht : Canonical clocks t)
    (lt : l < t.level) (unique : ∀ p ∈ edges, (∀ d, eval d p.item = eval d t) → p.item = t) :
    ¬∀ d, eval d (node l edges) = eval d t := by
  intro same
  obtain ⟨p, hp, ne⟩ := h.root.exists_child_ne t
  exact ne (unique p hp (eval_child_eq h ht lt same hp))

/-- Decisions on one level with the same truth have the same edges, if children with the same truth
are equal. -/
theorem edges_eq_of_eval_eq {edges' : List (Piece Diagram)} (h : Canonical clocks (node l edges))
    (h' : Canonical clocks (node l edges'))
    (unique : ∀ p ∈ edges, ∀ q ∈ edges', (∀ d, eval d p.item = eval d q.item) → p.item = q.item)
    (same : ∀ d, eval d (node l edges) = eval d (node l edges')) : edges = edges' := by
  refine eq_of_itemAt?_eq h.root.proper h'.root.proper h.root.merged h'.root.merged fun x => ?_
  obtain ⟨s, hs⟩ := h.root.proper.exists_itemAt? x
  obtain ⟨t, ht⟩ := h'.root.proper.exists_itemAt? x
  obtain ⟨_, p, hp, rfl, -⟩ := exists_interval_of_itemAt? none hs nofun
  obtain ⟨_, q, hq, rfl, -⟩ := exists_interval_of_itemAt? none ht nofun
  have item := unique p (mem_of_mem_intervals hp) q (mem_of_mem_intervals hq) fun d => by
    rw [← eval_update_node h hs, ← eval_update_node h' ht, same]
  rw [hs, ht, item]

/-- **Canonical trees with the same truth are equal.** -/
theorem eq_of_eval_eq (hs : Canonical clocks s) (ht : Canonical clocks t)
    (same : ∀ d, eval d s = eval d t) : s = t := by
  -- Either root may be above the other, so the induction is on both trees.
  induction hs generalizing t with
  | leaf a =>
    induction ht with
    | leaf b => exact congrArg leaf (same fun _ => 0)
    | @node l edges root children ih =>
      have canonical : Canonical clocks (node l edges) := .node root children
      refine absurd (fun d => (same d).symm)
        (not_eval_eq_of_lt canonical (.leaf a) canonical.lt_terminalLevel ?_)
      exact fun p hp same => (ih p hp fun d => (same d).symm).symm
  | @node l edges root children ih =>
    have upper : Canonical clocks (node l edges) := .node root children
    induction ht with
    | leaf b =>
      exact absurd same
        (not_eval_eq_of_lt upper (.leaf b) upper.lt_terminalLevel fun p hp => ih p hp (.leaf b))
    | @node l' edges' root' children' ih' =>
      have lower : Canonical clocks (node l' edges') := .node root' children'
      rcases lt_trichotomy l l' with lt | rfl | lt
      · exact absurd same (not_eval_eq_of_lt upper lower lt fun p hp => ih p hp lower)
      · rw [edges_eq_of_eval_eq upper lower (fun p hp q hq => ih p hp (children' q hq)) same]
      · refine absurd (fun d => (same d).symm) (not_eval_eq_of_lt lower upper lt ?_)
        exact fun q hq same => (ih' q hq fun d => (same d).symm).symm

end ZoneDiagram.Diagram

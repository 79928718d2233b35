import ZoneDiagram.Manager.Eval
import ZoneDiagram.Proofs.CutList.Merge

/-!
# Diagrams as trees

What a handle names once all sharing is undone and every complement is pushed down to the leaves.
Trees do not depend on a manager, so what is proved of them holds in every state.

A tree is canonical if every decision has two edges at least, over the whole line, no two
neighbours with the same child, and children that test later levels.
-/

namespace ZoneDiagram

open CutList

/-- A decision tree over clock differences. -/
inductive Diagram where
  | leaf (value : Bool)
  | node (level : Nat) (edges : List (Piece Diagram))

namespace Diagram

/-! ## Equality -/

mutual

/-- Equality of trees can be decided. -/
def decEq : (s t : Diagram) → Decidable (s = t)
  | leaf a, leaf b => decidable_of_iff (a = b) ⟨congrArg leaf, fun h => by injection h⟩
  | leaf _, node _ _ => isFalse nofun
  | node _ _, leaf _ => isFalse nofun
  | node k es, node l fs =>
    match Nat.decEq k l, decEqEdges es fs with
    | isTrue hl, isTrue he => isTrue (by rw [hl, he])
    | isFalse hl, _ => isFalse fun h => hl (by injection h)
    | _, isFalse he => isFalse fun h => he (by injection h)

/-- Equality of edges can be decided. -/
def decEqEdges : (es fs : List (Piece Diagram)) → Decidable (es = fs)
  | [], [] => isTrue rfl
  | [], _ :: _ => isFalse nofun
  | _ :: _, [] => isFalse nofun
  | ⟨s, a⟩ :: es, ⟨t, b⟩ :: fs =>
    match decEq s t, decEqEdges es fs, (inferInstance : Decidable (a = b)) with
    | isTrue hs, isTrue he, isTrue hb => isTrue (by rw [hs, he, hb])
    | isFalse hs, _, _ => isFalse fun h => hs (by injection h with h; injection h)
    | _, isFalse he, _ => isFalse fun h => he (by injection h)
    | _, _, isFalse hb => isFalse fun h => hb (by injection h with h; injection h)

end

instance : DecidableEq Diagram := decEq

/-! ## Recursion -/

section Fold

variable {β : Type} (onLeaf : Bool → β) (onNode : Nat → CutList β → β)

mutual

/-- Replace leaves and decisions by values. -/
def fold : Diagram → β
  | leaf b => onLeaf b
  | node level edges => onNode level (foldEdges edges)

/-- Replace the children on edges by values. -/
def foldEdges : List (Piece Diagram) → CutList β
  | [] => []
  | ⟨t, upper⟩ :: edges => ⟨fold t, upper⟩ :: foldEdges edges

end

theorem foldEdges_eq (edges : List (Piece Diagram)) :
    foldEdges onLeaf onNode edges = mapItems (fold onLeaf onNode) edges := by
  induction edges with
  | nil => rfl
  | cons p edges ih => exact congrArg (_ :: ·) ih

theorem fold_node (level : Nat) (edges : List (Piece Diagram)) :
    fold onLeaf onNode (node level edges) =
      onNode level (mapItems (fold onLeaf onNode) edges) :=
  congrArg (onNode level) (foldEdges_eq onLeaf onNode edges)

end Fold

/-- Induction on trees. -/
theorem induct {P : Diagram → Prop} (leaf : ∀ b, P (leaf b))
    (node : ∀ level edges, (∀ p ∈ edges, P p.item) → P (node level edges)) (t : Diagram) : P t :=
  Diagram.rec (motive_2 := fun edges => ∀ p ∈ edges, P p.item) (motive_3 := fun p => P p.item)
    leaf node (fun _ hp => nomatch hp) (fun _ _ hq hes => List.forall_mem_cons.2 ⟨hq, hes⟩)
    (fun _ _ ht => ht) t

/-- Every decision of the tree has a property. -/
inductive Everywhere (P : Nat → List (Piece Diagram) → Prop) : Diagram → Prop
  | leaf (b : Bool) : Everywhere P (leaf b)
  | node {level : Nat} {edges : List (Piece Diagram)} (root : P level edges)
      (children : ∀ p ∈ edges, Everywhere P p.item) : Everywhere P (node level edges)

variable {P : Nat → List (Piece Diagram) → Prop} {l : Nat} {edges : List (Piece Diagram)}
  {t : Diagram}

theorem Everywhere.root (h : Everywhere P (Diagram.node l edges)) : P l edges := by
  cases h with
  | node root _ => exact root

theorem Everywhere.child (h : Everywhere P (Diagram.node l edges)) {p : Piece Diagram}
    (hp : p ∈ edges) : Everywhere P p.item := by
  cases h with
  | node _ children => exact children p hp

/-! ## Complement, truth and level -/

/-- The complement: every leaf is flipped. -/
def neg : Diagram → Diagram := fold (fun b => leaf !b) node

/-- The truth under an assignment of differences. -/
def eval (d : Assignment) : Diagram → Bool :=
  fold id fun level edges => (itemAt? (d level) edges).getD false

/-- The level of the root; leaves are past all levels. -/
def level : Diagram → Nat
  | leaf _ => ClockPair.terminalLevel
  | node level _ => level

theorem neg_node (level : Nat) (edges : List (Piece Diagram)) :
    neg (node level edges) = node level (mapItems neg edges) := fold_node ..

theorem eval_node (d : Assignment) (level : Nat) (edges : List (Piece Diagram)) :
    eval d (node level edges) = ((itemAt? (d level) edges).map (eval d)).getD false := by
  rw [eval, fold_node, itemAt?_mapItems]

theorem neg_neg (t : Diagram) : neg (neg t) = t := by
  induction t using induct with
  | leaf b => exact congrArg leaf (Bool.not_not b)
  | node level edges ih =>
    have same : mapItems neg (mapItems neg edges) = edges := by
      rw [mapItems, mapItems, List.map_map]
      refine (List.map_congr_left fun p hp => ?_).trans (List.map_id edges)
      simp [ih p hp]
    rw [neg_node, neg_node, same]

theorem neg_injective : Function.Injective neg := fun s t h => by
  rw [← neg_neg s, h, neg_neg]

theorem level_neg (t : Diagram) : (neg t).level = t.level := by
  cases t with
  | leaf b => rfl
  | node level edges => rw [neg_node]; rfl

theorem eval_neg (d : Assignment) (t : Diagram)
    (h : Everywhere (fun _ edges => Proper edges) t) : eval d (neg t) = !eval d t := by
  induction h with
  | leaf b => rfl
  | @node level edges proper _ ih =>
    obtain ⟨s, hs⟩ := proper.exists_itemAt? (d level)
    obtain ⟨lo, p, hp, rfl, -⟩ := exists_interval_of_itemAt? none hs nofun
    rw [neg_node, eval_node, eval_node, itemAt?_mapItems, hs]
    exact ih p (mem_of_mem_intervals hp)

/-! ## Making decisions -/

/-- A decision with neighbours of the same child merged. A single edge is no decision. -/
def make (level : Nat) (edges : List (Piece Diagram)) : Diagram :=
  match merge edges with
  | [p] => p.item
  | edges => node level edges

/-- A made decision is its only child, or a decision with two merged edges at least. -/
theorem make_cases (level : Nat) (edges : List (Piece Diagram)) :
    (∃ p, merge edges = [p] ∧ make level edges = p.item) ∨
      (merge edges).length ≠ 1 ∧ make level edges = node level (merge edges) := by
  unfold make
  split
  next p eq => exact .inl ⟨p, eq, rfl⟩
  next es ne => exact .inr ⟨fun one => by
    obtain ⟨p, eq⟩ := List.length_eq_one_iff.1 one
    exact ne p eq, rfl⟩

theorem eval_make (d : Assignment) (level : Nat) (h : Proper edges) :
    eval d (make level edges) = eval d (node level edges) := by
  rw [eval_node, ← itemAt?_merge h.ascending]
  rcases make_cases level edges with ⟨p, eq, make⟩ | ⟨-, make⟩
  · have last : p.upper = .infinity := by
      have proper := proper_merge h
      rwa [eq] at proper
    rw [make, eq, itemAt?_cons_of_holds (last ▸ Bound.holds_infinity _)]
    rfl
  · rw [make, eval_node]

theorem neg_make (level : Nat) (edges : List (Piece Diagram)) :
    neg (make level edges) = make level (mapItems neg edges) := by
  unfold make
  rw [merge_mapItems fun p _ q _ eq => neg_injective eq]
  rcases merge edges with _ | ⟨p, _ | ⟨q, es⟩⟩
  · rfl
  · rfl
  · exact neg_node ..

theorem make_of_merged (two : 2 ≤ edges.length) (merged : Merged edges) :
    make l edges = node l edges := by
  unfold make
  rw [merge_of_merged merged]
  split
  next => simp at two
  next => rfl

theorem Everywhere.make (root : (merge edges).length ≠ 1 → P l (merge edges))
    (children : ∀ p ∈ edges, Everywhere P p.item) : Everywhere P (make l edges) := by
  have merged {p : Piece Diagram} (hp : p ∈ merge edges) : Everywhere P p.item :=
    children p (mem_of_mem_merge hp)
  rcases make_cases l edges with ⟨p, eq, make⟩ | ⟨one, make⟩
  · rw [make]
    exact merged (eq ▸ List.mem_singleton_self p)
  · rw [make]
    exact .node (root one) fun p hp => merged hp

theorem le_level_make (h : ∀ p ∈ edges, l ≤ p.item.level) :
    l ≤ (make l edges).level := by
  rcases make_cases l edges with ⟨p, eq, make⟩ | ⟨-, make⟩
  · rw [make]
    exact h p (mem_of_mem_merge (eq ▸ List.mem_singleton_self p))
  · rw [make]
    exact le_rfl

/-! ## Canonical trees -/

/-- A canonical decision about clocks that exist. -/
structure CanonicalNode (clocks level : Nat) (edges : List (Piece Diagram)) : Prop where
  two_le : 2 ≤ edges.length
  proper : Proper edges
  merged : Merged edges
  level_lt : level < ClockPair.count clocks
  below : ∀ p ∈ edges, level < p.item.level

/-- The first two children of a canonical decision differ, so no tree is all its children. -/
theorem CanonicalNode.exists_child_ne {clocks : Nat} (h : CanonicalNode clocks l edges)
    (t : Diagram) : ∃ p ∈ edges, p.item ≠ t := by
  rcases edges with _ | ⟨p, _ | ⟨q, rest⟩⟩
  · exact absurd h.two_le (by simp)
  · exact absurd h.two_le (by simp)
  · by_cases first : p.item = t
    · exact ⟨q, by simp, fun second => h.merged.1 (first.trans second.symm)⟩
    · exact ⟨p, by simp, first⟩

/-- Every decision is canonical. -/
abbrev Canonical (clocks : Nat) : Diagram → Prop := Everywhere (CanonicalNode clocks)

theorem Canonical.proper {clocks : Nat} (h : Canonical clocks t) :
    Everywhere (fun _ edges => Proper edges) t := by
  induction h with
  | leaf b => exact .leaf b
  | node root _ ih => exact .node root.proper ih

theorem Canonical.level_le {clocks : Nat} (h : Canonical clocks t) :
    t.level ≤ ClockPair.terminalLevel := by
  induction h with
  | leaf b => exact le_rfl
  | @node level edges root _ ih =>
    obtain ⟨p, hp⟩ := List.exists_mem_of_ne_nil edges root.proper.ne_nil
    exact (le_of_lt (root.below p hp)).trans (ih p hp)

/-- Decisions stand above all leaves. -/
theorem Canonical.lt_terminalLevel {clocks : Nat} (h : Canonical clocks (node l edges)) :
    l < ClockPair.terminalLevel := by
  obtain ⟨p, hp⟩ := List.exists_mem_of_ne_nil edges h.root.proper.ne_nil
  have child : Canonical clocks p.item := h.child hp
  exact (h.root.below p hp).trans_le child.level_le

/-- What is made of canonical trees below a level is canonical. -/
theorem Canonical.make {clocks : Nat} (lt : l < ClockPair.count clocks) (proper : Proper edges)
    (below : ∀ p ∈ edges, Canonical clocks p.item ∧ l < p.item.level) :
    Canonical clocks (make l edges) := by
  refine Everywhere.make (fun several => ?_) fun p hp => (below p hp).1
  have some := (proper_merge proper).ne_nil
  refine ⟨?_, proper_merge proper, merged_merge edges, lt, fun p hp =>
    (below p (mem_of_mem_merge hp)).2⟩
  have := List.length_pos_iff.2 some
  omega

theorem Canonical.neg {clocks : Nat} (h : Canonical clocks t) : Canonical clocks t.neg := by
  induction h with
  | leaf b => exact .leaf _
  | @node level edges root _ ih =>
    rw [neg_node]
    refine .node ⟨?_, (sameCuts_mapItems Diagram.neg edges).proper root.proper, ?_, root.level_lt,
      fun p hp => ?_⟩ fun p hp => ?_
    · rw [mapItems, List.length_map]
      exact root.two_le
    · exact merged_mapItems root.merged fun _ _ _ _ => fun eq => neg_injective eq
    · obtain ⟨o, ho, rfl⟩ := List.mem_map.1 hp
      rw [level_neg]
      exact root.below o ho
    · obtain ⟨o, ho, rfl⟩ := List.mem_map.1 hp
      exact ih o ho

/-! ## Paths -/

/-- The difference of a level lies in an interval. -/
structure Test where
  level : Nat
  lower : Option Bound
  upper : Bound

/-- The valuation passes the test. -/
def Test.Holds (c : Test) (v : Valuation) : Prop := Between c.lower c.upper (v.differences c.level)

/-- The tests on the way from the root to a leaf. -/
inductive Path : Diagram → List Test → Prop
  | leaf (b : Bool) : Path (leaf b) []
  | edge {level : Nat} {edges : List (Piece Diagram)} {lo : Option Bound} {p : Piece Diagram}
      {tests : List Test} (edge : (lo, p) ∈ intervals none edges) (rest : Path p.item tests) :
      Path (node level edges) (⟨level, lo, p.upper⟩ :: tests)

/-- A tree and its complement have the same paths. -/
theorem Path.neg {tests : List Test} (h : Path t tests) : Path t.neg tests := by
  induction h with
  | leaf b => exact .leaf _
  | @edge level edges lo p tests edge _ ih =>
    rw [neg_node]
    exact .edge (p := ⟨p.item.neg, p.upper⟩) (mem_intervals_mapItems Diagram.neg edge) ih

theorem exists_path (h : Everywhere (fun _ edges => Proper edges) t) : ∃ tests, Path t tests := by
  induction h with
  | leaf b => exact ⟨[], .leaf b⟩
  | @node level edges proper _ ih =>
    obtain ⟨p, hp⟩ := List.exists_mem_of_ne_nil edges proper.ne_nil
    obtain ⟨tests, path⟩ := ih p hp
    obtain ⟨lo, hlo⟩ := exists_interval_of_mem none hp
    exact ⟨_, .edge hlo path⟩

end Diagram

end ZoneDiagram

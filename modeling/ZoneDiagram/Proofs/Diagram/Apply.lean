import ZoneDiagram.Operation
import ZoneDiagram.Proofs.CutList.Refine
import ZoneDiagram.Proofs.Diagram.Reduce

/-!
# Combining and reducing trees

What one pass that combines two trees and reduces the combination can give (`ApplyReduces`). It
depends on the trees and on the context alone, and not on the order of the trees.
-/

namespace ZoneDiagram.Diagram

open CutList

/-- The edges of a tree as seen from a level: its own if it tests that level, and otherwise one
edge to itself. -/
def cofactors (t : Diagram) (l : Nat) : CutList Diagram :=
  match t with
  | leaf b => whole (leaf b)
  | node k edges => if k = l then edges else whole (node k edges)

theorem cofactors_node (k l : Nat) (edges : List (Piece Diagram)) :
    (node k edges).cofactors l = if k = l then edges else whole (node k edges) := rfl

/-- The children of two trees on the common intervals of their top level. -/
def refine (s t : Diagram) : Except Error (CutList (Diagram × Diagram)) :=
  CutList.refine (s.cofactors (min s.level t.level)) (t.cofactors (min s.level t.level))

/-- The combination, if it is a constant, an operand or the complement of an operand. -/
def shortcut (op : Connective) (s t : Diagram) : Option Diagram :=
  match op with
  | .and =>
    if s = leaf false ∨ t = leaf false ∨ s = t.neg then some (leaf false)
    else if s = leaf true ∨ s = t then some t
    else if t = leaf true then some s
    else none
  | .or =>
    if s = leaf true ∨ t = leaf true ∨ s = t.neg then some (leaf true)
    else if s = leaf false ∨ s = t then some t
    else if t = leaf false then some s
    else none
  | .xor =>
    if s = t then some (leaf false)
    else if s = t.neg then some (leaf true)
    else if s = leaf false then some t
    else if t = leaf false then some s
    else if s = leaf true then some t.neg
    else if t = leaf true then some s.neg
    else none

/-- Two trees are combined in a context and the combination is reduced, in so many levels. -/
def ApplyReducesWithin (op : Connective) : Nat → Diagram → Diagram → Dbm → Diagram → Prop
  | 0, _, _, _, _ => False
  | depth + 1, s, t, ctx, r =>
    match shortcut op s t with
    | some u => u.reduce ctx = .ok r
    | none => ∃ ps, refine s t = .ok ps ∧
      NodeReduces (fun c sub u => ApplyReducesWithin op depth c.1 c.2 sub u)
        (min s.level t.level) ps ctx r

/-- Two trees are combined in a context and the combination is reduced. -/
def ApplyReduces (op : Connective) (s t : Diagram) (ctx : Dbm) (r : Diagram) : Prop :=
  ∃ depth, ApplyReducesWithin op depth s t ctx r

variable {op : Connective} {s t r u : Diagram} {ctx : Dbm} {depth : Nat}

/-- Constants have shortcuts. -/
theorem exists_node_of_shortcut_eq_none (h : shortcut op s t = none) :
    ∃ level edges, s = node level edges := by
  cases s with
  | leaf b => cases op <;> cases b <;> grind [shortcut]
  | node level edges => exact ⟨level, edges, rfl⟩

/-- A shortcut is a constant, an operand or the complement of an operand. -/
theorem shortcut_cases (h : shortcut op s t = some u) :
    (∃ b, u = leaf b) ∨ (u = s ∨ u = s.neg) ∨ u = t ∨ u = t.neg := by
  cases op <;> simp only [shortcut] at h <;> split_ifs at h <;> cases h <;> simp

theorem Canonical.of_shortcut {clocks : Nat} (hs : Canonical clocks s) (ht : Canonical clocks t)
    (h : shortcut op s t = some u) : Canonical clocks u := by
  rcases shortcut_cases h with ⟨b, rfl⟩ | (rfl | rfl) | rfl | rfl
  exacts [.leaf b, hs, hs.neg, ht, ht.neg]

/-- A shortcut has the combined truth. -/
theorem eval_shortcut (d : Assignment) (hs : Everywhere (fun _ edges => Proper edges) s)
    (ht : Everywhere (fun _ edges => Proper edges) t) (h : shortcut op s t = some u) :
    eval d u = op.onBool (eval d s) (eval d t) := by
  have leaf (b : Bool) : eval d (leaf b) = b := rfl
  have left := eval_neg d s hs
  have right := eval_neg d t ht
  cases op <;> simp only [shortcut] at h <;> split_ifs at h with h₁ h₂ h₃ <;> cases h
  all_goals simp only [Connective.onBool]
  · rcases h₁ with rfl | rfl | rfl <;> simp [*]
  · rcases h₂ with rfl | rfl <;> simp [*]
  · simp [*]
  · rcases h₁ with rfl | rfl | rfl <;> simp [*]
  · rcases h₂ with rfl | rfl <;> simp [*]
  · simp [*]
  all_goals simp [*]

/-! ## Depth -/

theorem ApplyReducesWithin.succ (h : ApplyReducesWithin op depth s t ctx r) :
    ApplyReducesWithin op (depth + 1) s t ctx r := by
  induction depth generalizing s t ctx r with
  | zero => exact h.elim
  | succ depth ih =>
    unfold ApplyReducesWithin at h ⊢
    split at h
    next => exact h
    next =>
      obtain ⟨ps, hps, node⟩ := h
      exact ⟨ps, hps, node.imp fun _ _ _ _ => ih⟩

theorem ApplyReducesWithin.mono {depth' : Nat} (le : depth ≤ depth')
    (h : ApplyReducesWithin op depth s t ctx r) : ApplyReducesWithin op depth' s t ctx r := by
  induction le with
  | refl => exact h
  | step _ ih => exact ih.succ

theorem applyReduces_of_shortcut (h : shortcut op s t = some u) :
    ApplyReduces op s t ctx r ↔ u.reduce ctx = .ok r := by
  constructor
  · rintro ⟨_ | depth, hr⟩
    · exact hr.elim
    · rw [ApplyReducesWithin, h] at hr
      exact hr
  · intro hr
    refine ⟨1, ?_⟩
    rw [ApplyReducesWithin, h]
    exact hr

/-- Finitely many children reduce within a common depth. -/
theorem exists_depth {ps : CutList (Diagram × Diagram)} {level : Nat}
    (h : NodeReduces (fun c sub u => ApplyReduces op c.1 c.2 sub u) level ps ctx r) :
    ∃ depth, NodeReduces (fun c sub u => ApplyReducesWithin op depth c.1 c.2 sub u) level ps ctx
      r := by
  obtain ⟨pair, es, hpair, some, hes, rfl⟩ := h
  have common : ∃ depth, SameCuts (fun c s => c.2.isEmpty = false ∧
      ApplyReducesWithin op depth c.1.1 c.1.2 c.2 s) (ctx.feasibleRun pair none ps) es := by
    generalize ctx.feasibleRun pair none ps = run at hes
    clear some
    induction hes with
    | nil => exact ⟨0, .nil⟩
    | cons head _ ih =>
      obtain ⟨upper, nonempty, depth, hd⟩ := head
      obtain ⟨depth', rest⟩ := ih
      refine ⟨max depth depth', .cons ⟨upper, nonempty, hd.mono (Nat.le_max_left _ _)⟩ ?_⟩
      exact rest.imp_of_mem fun _ _ _ hs => ⟨hs.1, hs.2.mono (Nat.le_max_right _ _)⟩
  obtain ⟨depth, hes⟩ := common
  exact ⟨depth, pair, es, hpair, some, hes, rfl⟩

theorem applyReduces_iff (h : shortcut op s t = none) : ApplyReduces op s t ctx r ↔
    ∃ ps, refine s t = .ok ps ∧
      NodeReduces (fun c sub u => ApplyReduces op c.1 c.2 sub u) (min s.level t.level) ps
        ctx r := by
  constructor
  · rintro ⟨_ | depth, hr⟩
    · exact hr.elim
    · rw [ApplyReducesWithin, h] at hr
      obtain ⟨ps, hps, node⟩ := hr
      exact ⟨ps, hps, node.imp fun _ _ _ _ hs => ⟨depth, hs⟩⟩
  · rintro ⟨ps, hps, node⟩
    obtain ⟨depth, node⟩ := exists_depth node
    refine ⟨depth + 1, ?_⟩
    rw [ApplyReducesWithin, h]
    exact ⟨ps, hps, node⟩

/-- The trees and the context determine the result. -/
theorem ApplyReduces.unique {r' : Diagram} (h : ApplyReduces op s t ctx r)
    (h' : ApplyReduces op s t ctx r') : r = r' := by
  have within {depth s t ctx r r'} (h : ApplyReducesWithin op depth s t ctx r)
      (h' : ApplyReducesWithin op depth s t ctx r') : r = r' := by
    induction depth generalizing s t ctx r r' with
    | zero => exact h.elim
    | succ depth ih =>
      cases shortcut : shortcut op s t with
      | some u =>
        rw [ApplyReducesWithin, shortcut] at h h'
        exact Except.ok.inj (h.symm.trans h')
      | none =>
        rw [ApplyReducesWithin, shortcut] at h h'
        obtain ⟨ps, hps, node⟩ := h
        obtain ⟨ps', hps', node'⟩ := h'
        cases hps.symm.trans hps'
        exact node.unique node' fun p _ sub s s' => ih
  obtain ⟨depth, h⟩ := h
  obtain ⟨depth', h'⟩ := h'
  exact within (h.mono (Nat.le_max_left depth depth')) (h'.mono (Nat.le_max_right depth depth'))

/-! ## Order -/

theorem shortcut_comm (op : Connective) (s t : Diagram) : shortcut op s t = shortcut op t s := by
  have swap : s = t.neg ↔ t = s.neg :=
    ⟨fun h => by rw [h, neg_neg], fun h => by rw [h, neg_neg]⟩
  cases op <;> simp only [shortcut] <;> grind

theorem refine_comm (s t : Diagram) :
    refine t s = (refine s t).map (mapItems Prod.swap) := by
  rw [refine, refine, Nat.min_comm]
  exact refine_swap _ _

theorem ApplyReduces.comm (h : ApplyReduces op s t ctx r) : ApplyReduces op t s ctx r := by
  obtain ⟨depth, h⟩ := h
  refine ⟨depth, ?_⟩
  induction depth generalizing s t ctx r with
  | zero => exact h
  | succ depth ih =>
    unfold ApplyReducesWithin at h ⊢
    rw [shortcut_comm op t s]
    split at h
    next => exact h
    next =>
      obtain ⟨ps, hps, node⟩ := h
      refine ⟨mapItems Prod.swap ps, by rw [refine_comm, hps]; rfl, ?_⟩
      rw [nodeReduces_mapItems_iff, Nat.min_comm]
      exact node.imp fun _ _ _ _ => ih

/-! ## Levels -/

section Levels

variable {clocks : Nat} (few : clocks ≤ Manager.maxClocks)
include few

/-- The edges of a canonical tree as seen from a level lead below it. -/
theorem Canonical.cofactors {l : Nat} (ht : Canonical clocks t) (lt : l < ClockPair.count clocks)
    (le : l ≤ t.level) : Proper (t.cofactors l) ∧
      ∀ p ∈ t.cofactors l, Canonical clocks p.item ∧ l < p.item.level := by
  cases t with
  | leaf b =>
    refine ⟨rfl, fun p hp => ?_⟩
    rw [List.mem_singleton.1 hp]
    exact ⟨ht, lt.trans (ClockPair.count_lt_terminalLevel few)⟩
  | node k edges =>
    rw [cofactors_node]
    split
    next eq => exact ⟨ht.root.proper, fun p hp => ⟨ht.child hp, eq ▸ ht.root.below p hp⟩⟩
    next ne =>
      refine ⟨rfl, fun p hp => ?_⟩
      rw [List.mem_singleton.1 hp]
      exact ⟨ht, Nat.lt_of_le_of_ne le (Ne.symm ne)⟩

omit few in
/-- A shortcut reduces to a constant, or like an operand up to complement. -/
theorem level_le_of_shortcut (hs : Canonical clocks s) (ht : Canonical clocks t)
    (h : shortcut op s t = some u) (hr : u.reduce ctx = .ok r) :
    (∃ b, r = leaf b) ∨ s.level ≤ r.level ∨ t.level ≤ r.level := by
  have negated {t : Diagram} (ht : Canonical clocks t) (hr : t.neg.reduce ctx = .ok r) :
      t.level ≤ r.level := by
    have back := reduce_neg hr
    rw [neg_neg] at back
    exact (level_le_of_reduce ht back).trans_eq (level_neg r)
  have left : s.reduce ctx = .ok r → s.level ≤ r.level := level_le_of_reduce hs
  have right : t.reduce ctx = .ok r → t.level ≤ r.level := level_le_of_reduce ht
  have left' := negated hs
  have right' := negated ht
  have const (b : Bool) (h : (leaf b).reduce ctx = .ok r) : ∃ b, r = leaf b := by
    cases h
    exact ⟨b, rfl⟩
  cases op <;> simp only [shortcut] at h <;> grind

/-- The children of two canonical trees on the common intervals of their top level. -/
structure Splits (clocks : Nat) (s t : Diagram) (ps : CutList (Diagram × Diagram)) : Prop where
  left : Proper (s.cofactors (min s.level t.level))
  right : Proper (t.cofactors (min s.level t.level))
  refines : Refines (s.cofactors (min s.level t.level)) (t.cofactors (min s.level t.level)) ps
  canonical : ∀ p ∈ ps, Canonical clocks p.item.1 ∧ Canonical clocks p.item.2
  below : ∀ p ∈ ps, min s.level t.level < min p.item.1.level p.item.2.level
  level_lt : min s.level t.level < ClockPair.count clocks

/-- Canonical trees without a shortcut are split. -/
theorem Canonical.refine_eq_ok (hs : Canonical clocks s) (ht : Canonical clocks t)
    (none : shortcut op s t = none) : ∃ ps, refine s t = .ok ps ∧ Splits clocks s t ps := by
  obtain ⟨k, edges, rfl⟩ := exists_node_of_shortcut_eq_none none
  have lt := (Nat.min_le_left _ t.level).trans_lt hs.root.level_lt
  obtain ⟨sProper, left⟩ := hs.cofactors few lt (Nat.min_le_left _ _)
  obtain ⟨tProper, right⟩ := ht.cofactors few lt (Nat.min_le_right _ _)
  obtain ⟨ps, eq, refines⟩ := CutList.refine_eq_ok sProper tProper
  have child : ∀ p ∈ ps, (Canonical clocks p.item.1 ∧ min k t.level < p.item.1.level) ∧
      Canonical clocks p.item.2 ∧ min k t.level < p.item.2.level := by
    intro p hp
    obtain ⟨⟨e, he, eq⟩, e', he', eq'⟩ := refines.items p hp
    exact ⟨eq ▸ left e he, eq' ▸ right e' he'⟩
  exact ⟨ps, eq, sProper, tProper, refines, fun p hp => ⟨(child p hp).1.1, (child p hp).2.1⟩,
    fun p hp => lt_min (child p hp).1.2 (child p hp).2.2, lt⟩

theorem ApplyReduces.le_level (hs : Canonical clocks s) (ht : Canonical clocks t)
    (h : ApplyReduces op s t ctx r) : min s.level t.level ≤ r.level := by
  obtain ⟨depth, h⟩ := h
  induction depth generalizing s t ctx r with
  | zero => exact h.elim
  | succ depth ih =>
    unfold ApplyReducesWithin at h
    split at h
    next shortcut =>
      rcases level_le_of_shortcut hs ht shortcut h with ⟨b, rfl⟩ | le | le
      · exact (Nat.min_le_left _ _).trans hs.level_le
      · exact (Nat.min_le_left _ _).trans le
      · exact (Nat.min_le_right _ _).trans le
    next none =>
      obtain ⟨ps, hps, node⟩ := h
      obtain ⟨_, ⟨⟩, splits⟩ := hps ▸ hs.refine_eq_ok few ht none
      refine node.le_level fun p hp sub u hu => ?_
      obtain ⟨sCanonical, tCanonical⟩ := splits.canonical p hp
      exact (splits.below p hp).trans_le (ih sCanonical tCanonical hu)

/-! ## Truth -/

omit few in
theorem eval_of_itemAt?_cofactors {d : Assignment} {l : Nat}
    (h : itemAt? (d l) (t.cofactors l) = some u) : eval d u = eval d t := by
  cases t with
  | leaf b =>
    rw [cofactors, itemAt?_whole] at h
    cases h
    rfl
  | node k edges =>
    rw [cofactors_node] at h
    split at h
    next eq =>
      subst eq
      rw [eval_node, h]
      rfl
    next =>
      rw [itemAt?_whole] at h
      cases h
      rfl

variable {K : Int}

omit few in
theorem Small.cofactors {l : Nat} (h : Small K t) :
    ∀ p ∈ t.cofactors l, p.upper.Within K ∧ Small K p.item := by
  have whole : ∀ p ∈ whole t, p.upper.Within K ∧ Small K p.item := by
    intro p hp
    rw [List.mem_singleton.1 hp]
    exact ⟨Bound.within_infinity K, h⟩
  cases t with
  | leaf b => exact whole
  | node k edges =>
    rw [cofactors_node]
    split
    next => exact fun p hp => ⟨h.root p hp, h.child hp⟩
    next => exact whole

omit few in
theorem Small.of_shortcut (hs : Small K s) (ht : Small K t) (h : shortcut op s t = some u) :
    Small K u := by
  rcases shortcut_cases h with ⟨b, rfl⟩ | (rfl | rfl) | rfl | rfl
  exacts [.leaf b, hs, hs.neg, ht, ht.neg]

omit few in
/-- The pieces of two trees have their cuts and their constants. -/
theorem Splits.small {ps : CutList (Diagram × Diagram)} (h : Splits clocks s t ps)
    (hs : Small K s) (ht : Small K t) :
    ∀ p ∈ ps, p.upper.Within K ∧ Small K p.item.1 ∧ Small K p.item.2 := by
  intro p hp
  obtain ⟨⟨e, he, left⟩, e', he', right⟩ := h.refines.items p hp
  refine ⟨?_, left ▸ (hs.cofactors e he).2, right ▸ (ht.cofactors e' he').2⟩
  rcases h.refines.cuts p hp with ⟨o, ho, cut⟩ | ⟨o, ho, cut⟩
  · exact cut ▸ (hs.cofactors o ho).1
  · exact cut ▸ (ht.cofactors o ho).1

omit few in
/-- The pieces of two trees have their truths. -/
theorem Splits.truthAt_eq {ps : CutList (Diagram × Diagram)} (h : Splits clocks s t ps)
    (v : Valuation) :
    truthAt (min s.level t.level) ps
      (fun c v => op.onBool (eval v.differences c.1) (eval v.differences c.2)) v =
      op.onBool (eval v.differences s) (eval v.differences t) := by
  obtain ⟨a, ha⟩ := h.left.exists_itemAt? (v.differences (min s.level t.level))
  obtain ⟨b, hb⟩ := h.right.exists_itemAt? (v.differences (min s.level t.level))
  rw [truthAt_of_itemAt? (h.refines.itemAt? ha hb), eval_of_itemAt?_cofactors ha,
    eval_of_itemAt?_cofactors hb]

theorem small_of_applyReduces (hs : Canonical clocks s) (ht : Canonical clocks t)
    (sSmall : Small K s) (tSmall : Small K t) (h : ApplyReduces op s t ctx r) : Small K r := by
  obtain ⟨depth, h⟩ := h
  induction depth generalizing s t ctx r with
  | zero => exact h.elim
  | succ depth ih =>
    unfold ApplyReducesWithin at h
    split at h
    next shortcut => exact small_of_reduce (sSmall.of_shortcut tSmall shortcut) h
    next none =>
      obtain ⟨ps, hps, node⟩ := h
      obtain ⟨_, ⟨⟩, splits⟩ := hps ▸ hs.refine_eq_ok few ht none
      have small := splits.small sSmall tSmall
      refine node.small (fun p hp => (small p hp).1) fun p hp sub u hu => ?_
      obtain ⟨sCanonical, tCanonical⟩ := splits.canonical p hp
      obtain ⟨-, left, right⟩ := small p hp
      exact ih sCanonical tCanonical left right hu

/-- **Two trees can be combined and reduced in a context with room.** What they give has the
combined truth at every valuation of the context, and no path that none of them takes. -/
theorem applyReduces_of_ready (hctx : Ready clocks K ctx) (hs : Canonical clocks s)
    (ht : Canonical clocks t) (sSmall : Small K s) (tSmall : Small K t) :
    (∃ r, ApplyReduces op s t ctx r) ∧ ∀ r, ApplyReduces op s t ctx r →
      ReducesTo ctx (fun v => op.onBool (eval v.differences s) (eval v.differences t)) r := by
  -- The induction is on the number of levels that are left.
  generalize left : ClockPair.count clocks - min s.level t.level = n
  induction n using Nat.strong_induction_on generalizing s t ctx with
  | _ n ih =>
    cases shortcut : Diagram.shortcut op s t with
    | some u =>
      simp only [applyReduces_of_shortcut shortcut]
      have canonical := Canonical.of_shortcut hs ht shortcut
      obtain ⟨r, hr, spec⟩ := reduces_of_ready hctx canonical (sSmall.of_shortcut tSmall shortcut)
      refine ⟨⟨r, hr⟩, fun r' hr' => ?_⟩
      cases hr.symm.trans hr'
      refine ⟨fun v hv => ?_, spec.takesAll⟩
      rw [spec.agrees v hv, eval_shortcut _ hs.proper ht.proper shortcut]
    | none =>
      obtain ⟨ps, hps, splits⟩ := hs.refine_eq_ok few ht shortcut
      have small := splits.small sSmall tSmall
      have node (r : Diagram) : ApplyReduces op s t ctx r ↔
          NodeReduces (fun c sub u => ApplyReduces op c.1 c.2 sub u) (min s.level t.level) ps ctx
            r := by
        rw [applyReduces_iff shortcut, hps]
        exact ⟨fun ⟨_, eq, h⟩ => by cases eq; exact h, fun h => ⟨ps, rfl, h⟩⟩
      obtain ⟨⟨r, hr⟩, spec⟩ := nodeReduces_of_ready
        (R := fun (c : Diagram × Diagram) sub u => ApplyReduces op c.1 c.2 sub u)
        (fun c v => op.onBool (eval v.differences c.1) (eval v.differences c.2)) hctx
        splits.level_lt splits.refines.proper (fun p hp => (small p hp).1) fun p hp sub ready => by
          have below := splits.below p hp
          have lt := splits.level_lt
          exact ih _ (by omega) ready (splits.canonical p hp).1 (splits.canonical p hp).2
            (small p hp).2.1 (small p hp).2.2 rfl
      simp only [node]
      refine ⟨⟨r, hr⟩, fun r' hr' => ⟨fun v hv => ?_, (spec r' hr').takesAll⟩⟩
      rw [(spec r' hr').agrees v hv, splits.truthAt_eq]

end Levels

end ZoneDiagram.Diagram

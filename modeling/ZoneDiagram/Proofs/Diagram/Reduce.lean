import ZoneDiagram.Proofs.ClockPair
import ZoneDiagram.Proofs.Diagram.Basic
import ZoneDiagram.Proofs.Dbm.Feasible

/-!
# Reduction of trees

The result of a reduction depends on the tree and on the context alone (`Diagram.reduce`), so a
result that is remembered is the one that would be computed again.

**Theorem (`reduces_of_ready`).** In a context with room for the constants of a canonical tree,
reduction gives a tree with the same truth at every valuation of the context, and every path of it
is taken by some valuation of the context.

**Theorem (`reduce_of_takes_all`).** A canonical tree whose paths are all taken by valuations of
the context reduces to itself.
-/

namespace ZoneDiagram

open CutList

section Except

variable {ε α β : Type}

theorem Except.pure_eq_ok_iff {a b : α} : (pure a : Except ε α) = .ok b ↔ a = b :=
  ⟨fun h => by injection h, fun h => congrArg Except.ok h⟩

theorem Except.mapM_eq_ok_iff {f : α → Except ε β} {xs : List α} {ys : List β} :
    xs.mapM f = .ok ys ↔ List.Forall₂ (fun x y => f x = .ok y) xs ys := by
  induction xs generalizing ys with
  | nil =>
    rw [List.mapM_nil, Except.pure_eq_ok_iff, List.forall₂_nil_left_iff, eq_comm]
  | cons x xs ih =>
    simp only [List.mapM_cons, Except.bind_eq_ok_iff, Except.pure_eq_ok_iff, ih,
      List.forall₂_cons_left_iff]
    constructor
    · rintro ⟨y, hy, ys, hys, rfl⟩
      exact ⟨y, ys, hy, hys, rfl⟩
    · rintro ⟨y, ys, hy, hys, rfl⟩
      exact ⟨y, hy, ys, hys, rfl⟩

/-- What every step of a fold keeps, the fold keeps. -/
theorem Except.foldlM_keeps {f : β → α → Except ε β} {I : β → Prop} {xs : List α} {b b' : β}
    (h : ∀ a ∈ xs, ∀ b b', I b → f b a = .ok b' → I b') (hb : I b)
    (eq : xs.foldlM f b = .ok b') : I b' := by
  induction xs generalizing b with
  | nil =>
    cases eq
    exact hb
  | cons a xs ih =>
    rw [List.foldlM_cons] at eq
    obtain ⟨c, hc, eq⟩ := Except.bind_eq_ok_iff.1 eq
    exact ih (fun a ha => h a (List.mem_cons_of_mem _ ha)) (h a List.mem_cons_self b c hb hc) eq

/-- A fold whose steps succeed is a plain fold. -/
theorem Except.foldlM_eq_ok {f : β → α → Except ε β} {g : β → α → β} {xs : List α}
    (h : ∀ a ∈ xs, ∀ b, f b a = .ok (g b a)) (b : β) : xs.foldlM f b = .ok (xs.foldl g b) := by
  induction xs generalizing b with
  | nil => rfl
  | cons a xs ih =>
    rw [List.foldlM_cons, h a List.mem_cons_self]
    exact ih (fun a ha => h a (List.mem_cons_of_mem _ ha)) (g b a)

end Except

theorem Dbm.feasibleRun_mapItems {α β : Type} (m : Dbm) (pair : ClockPair) (f : α → β)
    (lower : Option Bound) (ps : CutList α) :
    m.feasibleRun pair lower (mapItems f ps) =
      mapItems (Prod.map f id) (m.feasibleRun pair lower ps) := by
  have start : ∀ (lower : Option Bound) (ps : CutList α),
      m.admittedStart pair lower (mapItems f ps) =
        mapItems (Prod.map f id) (m.admittedStart pair lower ps) := by
    intro lower ps
    induction ps generalizing lower with
    | nil => rfl
    | cons p ps ih =>
      change m.admittedStart pair lower (⟨f p.item, p.upper⟩ :: mapItems f ps) = _
      rw [admittedStart, admittedStart, ih]
      split <;> rfl
  induction ps generalizing lower with
  | nil => rfl
  | cons p ps ih =>
    change m.feasibleRun pair lower (⟨f p.item, p.upper⟩ :: mapItems f ps) = _
    rw [feasibleRun, feasibleRun, ih]
    split
    · exact start lower (p :: ps)
    · rfl

theorem Dbm.inhabited?_eq_ok_iff {m o : Dbm} :
    m.inhabited? = .ok o ↔ m.isEmpty = false ∧ m = o := by
  unfold inhabited?
  cases m.isEmpty <;> simp

namespace Diagram

/-! ## Reducing a tree -/

/-- The decision on a level from the pieces that a context admits. Each gives a child in the
context on its interval, and the last one takes the rest of the line. -/
def reduceNode (level : Nat) (edges : CutList (Dbm → Except Error Diagram)) (ctx : Dbm) :
    Except Error Diagram := do
  let pair ← ClockPair.ofLevel level
  let run := ctx.feasibleRun pair none edges
  if run.isEmpty then .error (.noFeasibleEdge pair)
  else do
    let edges ← run.mapM fun p => do
      let sub ← p.item.2.inhabited?
      return ⟨← p.item.1 sub, p.upper⟩
    return make level (stretch edges)

/-- Reduce a tree in a context. -/
def reduce : Diagram → Dbm → Except Error Diagram := fold (fun b _ => .ok (leaf b)) reduceNode

variable {α : Type} {level : Nat} {edges : List (Piece Diagram)} {ctx : Dbm} {r t : Diagram}

/-! ## What a decision reduces to -/

/-- A decision on the pieces that a context admits, where `R` relates an item and the context on
its interval, which is inhabited, to the child. -/
def NodeReduces (R : α → Dbm → Diagram → Prop) (level : Nat) (ps : CutList α) (ctx : Dbm)
    (r : Diagram) : Prop :=
  ∃ pair es, ClockPair.ofLevel level = .ok pair ∧ ctx.feasibleRun pair none ps ≠ [] ∧
    SameCuts (fun c s => c.2.isEmpty = false ∧ R c.1 c.2 s) (ctx.feasibleRun pair none ps) es ∧
    r = make level (stretch es)

/-- Every piece of a run has the item of an admitted piece, and what is left of the context on its
interval. -/
theorem exists_edge_of_mem_run {pair : ClockPair} {ps : CutList α} {q : Piece (α × Dbm)}
    (hq : q ∈ ctx.feasibleRun pair none ps) :
    ∃ lo p, (lo, p) ∈ intervals none ps ∧ ctx.admits pair lo p.upper ∧
      q = ctx.cutPiece pair (lo, p) := by
  obtain ⟨lo', hlo'⟩ := exists_interval_of_mem none hq
  obtain ⟨lo, p, hp, admitted, eq, -⟩ := Dbm.exists_interval_of_mem_feasibleRun hlo'
  exact ⟨lo, p, hp, admitted, eq⟩

theorem mem_edges_of_mem_run {pair : ClockPair} {ps : CutList α} {q : Piece (α × Dbm)}
    (hq : q ∈ ctx.feasibleRun pair none ps) : ∃ p ∈ ps, p.item = q.item.1 ∧
      p.upper = q.upper := by
  obtain ⟨lo, p, hp, -, rfl⟩ := exists_edge_of_mem_run hq
  exact ⟨p, mem_of_mem_intervals hp, rfl, rfl⟩

section NodeReduces

variable {R R' : α → Dbm → Diagram → Prop} {ps : CutList α}

theorem NodeReduces.imp_of_mem_run (h : NodeReduces R level ps ctx r)
    (himp : ∀ pair, ClockPair.ofLevel level = .ok pair → ∀ q ∈ ctx.feasibleRun pair none ps,
      ∀ s, R q.item.1 q.item.2 s → R' q.item.1 q.item.2 s) : NodeReduces R' level ps ctx r := by
  obtain ⟨pair, es, hpair, some, hes, rfl⟩ := h
  exact ⟨pair, es, hpair, some,
    hes.imp_of_mem fun q hq s hs => ⟨hs.1, himp pair hpair q hq s hs.2⟩, rfl⟩

theorem NodeReduces.imp (h : NodeReduces R level ps ctx r)
    (himp : ∀ p ∈ ps, ∀ sub s, R p.item sub s → R' p.item sub s) :
    NodeReduces R' level ps ctx r := by
  refine h.imp_of_mem_run fun pair _ q hq s hs => ?_
  obtain ⟨p, hp, eq, -⟩ := mem_edges_of_mem_run hq
  have child := himp p hp q.item.2 s
  rw [eq] at child
  exact child hs

theorem nodeReduces_mapItems_iff {β : Type} {R : β → Dbm → Diagram → Prop} {f : α → β} :
    NodeReduces R level (mapItems f ps) ctx r ↔
      NodeReduces (fun a => R (f a)) level ps ctx r := by
  unfold NodeReduces
  simp only [Dbm.feasibleRun_mapItems]
  simp only [mapItems, ne_eq, List.map_eq_nil_iff, SameCuts, List.forall₂_map_left_iff]
  rfl

theorem NodeReduces.le_level (h : NodeReduces R level ps ctx r)
    (below : ∀ p ∈ ps, ∀ sub s, R p.item sub s → level < s.level) : level ≤ r.level := by
  obtain ⟨pair, es, -, -, hes, rfl⟩ := h
  refine le_level_make fun p hp => ?_
  obtain ⟨e, he, eq, -⟩ := mem_stretch hp
  obtain ⟨q, hq, -, -, reduced⟩ := hes.exists_mem he
  obtain ⟨o, ho, item, -⟩ := mem_edges_of_mem_run hq
  rw [← eq]
  exact le_of_lt (below o ho _ _ (item ▸ reduced))

theorem NodeReduces.child {pair : ClockPair} {q : Piece (α × Dbm)}
    (h : NodeReduces R level ps ctx r) (hpair : ClockPair.ofLevel level = .ok pair)
    (hq : q ∈ ctx.feasibleRun pair none ps) :
    q.item.2.isEmpty = false ∧ ∃ s, R q.item.1 q.item.2 s := by
  obtain ⟨pair', es, eq, -, hes, -⟩ := h
  cases hpair.symm.trans eq
  obtain ⟨e, -, -, nonempty, child⟩ := hes.swap.exists_mem hq
  exact ⟨nonempty, e.item, child⟩

/-- If a child of every piece can only be one, then so can the decision. -/
theorem NodeReduces.unique {r' : Diagram} (h : NodeReduces R level ps ctx r)
    (h' : NodeReduces R level ps ctx r')
    (hR : ∀ p ∈ ps, ∀ sub s s', R p.item sub s → R p.item sub s' → s = s') : r = r' := by
  obtain ⟨pair, es, hpair, -, hes, rfl⟩ := h
  obtain ⟨pair', es', hpair', -, hes', rfl⟩ := h'
  cases hpair.symm.trans hpair'
  have same : es = es' := hes.unique hes' fun q hq s s' hs hs' => by
    obtain ⟨p, hp, item, -⟩ := mem_edges_of_mem_run hq
    exact hR p hp q.item.2 s s' (item ▸ hs.2) (item ▸ hs'.2)
  rw [same]

/-- If the children are complemented, then so is the decision. -/
theorem NodeReduces.neg (h : NodeReduces R level ps ctx r)
    (child : ∀ p ∈ ps, ∀ sub s, R p.item sub s → R' p.item sub s.neg) :
    NodeReduces R' level ps ctx r.neg := by
  obtain ⟨pair, es, hpair, some, hes, rfl⟩ := h
  have flipped : SameCuts (fun c s => c.2.isEmpty = false ∧ R' c.1 c.2 s.neg)
      (ctx.feasibleRun pair none ps) es := hes.imp_of_mem fun q hq s hs => by
    obtain ⟨p, hp, item, -⟩ := mem_edges_of_mem_run hq
    exact ⟨hs.1, item ▸ child p hp q.item.2 s (item ▸ hs.2)⟩
  refine ⟨pair, mapItems Diagram.neg es, hpair, some, List.forall₂_map_right_iff.2 flipped, ?_⟩
  rw [neg_make, mapItems_stretch]

end NodeReduces

/-- The child was reduced in its context, which is inhabited. -/
def Reduced (c : Diagram × Dbm) (s : Diagram) : Prop :=
  c.2.isEmpty = false ∧ c.1.reduce c.2 = .ok s

theorem reduceNode_eq_ok_iff {edges : CutList (Dbm → Except Error Diagram)} :
    reduceNode level edges ctx = .ok r ↔
      NodeReduces (fun child sub s => child sub = .ok s) level edges ctx r := by
  have step (q : Piece ((Dbm → Except Error Diagram) × Dbm)) (e : Piece Diagram) :
      (∃ sub, q.item.2.inhabited? = .ok sub ∧ ∃ s, q.item.1 sub = .ok s ∧ ⟨s, q.upper⟩ = e) ↔
        SameCut (fun c s => c.2.isEmpty = false ∧ c.1 c.2 = .ok s) q e := by
    obtain ⟨r, u⟩ := e
    simp only [Dbm.inhabited?_eq_ok_iff]
    constructor
    · rintro ⟨_, ⟨nonempty, rfl⟩, s, hs, eq⟩
      cases eq
      exact ⟨rfl, nonempty, hs⟩
    · rintro ⟨rfl, nonempty, hs⟩
      exact ⟨_, ⟨nonempty, rfl⟩, r, hs, rfl⟩
  rw [reduceNode, Except.bind_eq_ok_iff]
  constructor
  · rintro ⟨pair, hpair, h⟩
    dsimp only at h
    split at h
    next => cases h
    next some =>
      simp only [Except.bind_eq_ok_iff, Except.mapM_eq_ok_iff, Except.pure_eq_ok_iff] at h
      obtain ⟨es, hes, rfl⟩ := h
      exact ⟨pair, es, hpair, fun nil => some (by rw [nil]; rfl),
        List.Forall₂.imp (fun q e => (step q e).1) hes, rfl⟩
  · rintro ⟨pair, es, hpair, some, hes, rfl⟩
    refine ⟨pair, hpair, ?_⟩
    rw [if_neg (by simpa using some)]
    simp only [Except.bind_eq_ok_iff, Except.mapM_eq_ok_iff, Except.pure_eq_ok_iff]
    exact ⟨es, List.Forall₂.imp (fun q e => (step q e).2) hes, rfl⟩

theorem reduce_node (level : Nat) (edges : List (Piece Diagram)) (ctx : Dbm) :
    reduce (node level edges) ctx = reduceNode level (mapItems reduce edges) ctx := by
  rw [reduce, fold_node]

theorem reduce_node_eq_ok_iff : (node level edges).reduce ctx = .ok r ↔
    NodeReduces (fun t sub s => t.reduce sub = .ok s) level edges ctx r := by
  rw [reduce_node, reduceNode_eq_ok_iff, nodeReduces_mapItems_iff]

/-- Reduction commutes with complement. -/
theorem reduce_neg (h : t.reduce ctx = .ok r) : t.neg.reduce ctx = .ok r.neg := by
  induction t using induct generalizing ctx r with
  | leaf b =>
    cases h
    rfl
  | node level edges ih =>
    rw [neg_node, reduce_node_eq_ok_iff, nodeReduces_mapItems_iff]
    exact (reduce_node_eq_ok_iff.1 h).neg fun p hp _ _ => ih p hp

/-- Reduction never moves a decision up. -/
theorem level_le_of_reduce {clocks : Nat} (ht : Canonical clocks t) (h : t.reduce ctx = .ok r) :
    t.level ≤ r.level := by
  induction ht generalizing ctx r with
  | leaf b =>
    cases h
    exact le_rfl
  | @node level edges root _ ih =>
    refine (reduce_node_eq_ok_iff.1 h).le_level fun p hp sub s hs => ?_
    exact (root.below p hp).trans_le (ih p hp hs)

/-- The constants of the tree have at most the magnitude `K`. -/
abbrev Small (K : Int) : Diagram → Prop :=
  Everywhere fun _ edges => ∀ p ∈ edges, p.upper.Within K

theorem Small.mono {K L : Int} (h : Small K t) (le : K ≤ L) : Small L t := by
  induction h with
  | leaf b => exact .leaf b
  | node root _ ih => exact .node (fun p hp => (root p hp).mono le) ih

theorem Small.neg {K : Int} (h : Small K t) : Small K t.neg := by
  induction h with
  | leaf b => exact .leaf _
  | @node level edges root _ ih =>
    rw [neg_node]
    refine .node (fun p hp => ?_) fun p hp => ?_ <;> obtain ⟨o, ho, rfl⟩ := List.mem_map.1 hp
    · exact root o ho
    · exact ih o ho

theorem NodeReduces.small {K : Int} {R : α → Dbm → Diagram → Prop} {ps : CutList α}
    (h : NodeReduces R level ps ctx r) (within : ∀ p ∈ ps, p.upper.Within K)
    (child : ∀ p ∈ ps, ∀ sub s, R p.item sub s → Small K s) : Small K r := by
  obtain ⟨pair, es, -, -, hes, rfl⟩ := h
  have edge {p : Piece Diagram} (hp : p ∈ stretch es) : p.upper.Within K ∧ Small K p.item := by
    obtain ⟨e, he, eq, upper⟩ := mem_stretch hp
    obtain ⟨q, hq, bound, -, reduced⟩ := hes.exists_mem he
    obtain ⟨o, ho, item, cut⟩ := mem_edges_of_mem_run hq
    refine ⟨?_, eq ▸ child o ho _ _ (item ▸ reduced)⟩
    rcases upper with upper | upper <;> rw [upper]
    · rw [← bound, ← cut]
      exact within o ho
    · exact Bound.within_infinity K
  exact .make (fun _ p hp => (edge (mem_of_mem_merge hp)).1) fun p hp => (edge hp).2

theorem small_of_reduce {K : Int} (ht : Small K t) (h : t.reduce ctx = .ok r) : Small K r := by
  induction ht generalizing ctx r with
  | leaf b =>
    cases h
    exact .leaf b
  | @node level edges root _ ih =>
    exact (reduce_node_eq_ok_iff.1 h).small root fun p hp sub s hs => ih p hp hs

/-! ## Contexts with room -/

/-- A settled context over the clocks of a tree, with room for its constants. -/
structure Ready (clocks : Nat) (K : Int) (ctx : Dbm) : Prop where
  settled : ctx.Settled K
  room : Dbm.Room ctx.dim K
  clocks_le : clocks ≤ ctx.dim
  few : clocks ≤ Manager.maxClocks

variable {clocks : Nat} {K : Int} {pair : ClockPair} {lo : Option Bound} {p : Piece Diagram}

theorem differences_of_ofLevel (h : ClockPair.ofLevel level = .ok pair) (v : Valuation) :
    v.differences level = v pair.i - v pair.j := by
  rw [Valuation.differences, h]

theorem Ready.divides {ps : CutList α} (h : Ready clocks K ctx)
    (lt : level < ClockPair.count clocks) (proper : Proper ps)
    (within : ∀ p ∈ ps, p.upper.Within K) (hpair : ClockPair.ofLevel level = .ok pair) :
    Dbm.Divides K ctx pair none ps where
  settled := h.settled
  room := h.room
  inside := by
    obtain ⟨pair', eq, lt, -⟩ := ClockPair.ofLevel_eq_ok h.few lt
    cases hpair.symm.trans eq
    exact lt.trans_le h.clocks_le
  ascending := proper.ascending
  within := within
  within_lower := nofun

theorem Ready.restricted (h : Ready clocks K ctx) {upper : Bound}
    (cut : Dbm.Cuttable K ctx pair lo upper) (admitted : ctx.admits pair lo upper) :
    Ready clocks K (ctx.restricted pair lo upper) := by
  obtain ⟨dim, settled, -⟩ := cut.restricted_spec admitted
  exact ⟨settled, dim ▸ h.room, dim ▸ h.clocks_le, h.few⟩

/-- The pieces of a run carry items of the list, in contexts that are ready again. -/
theorem Ready.of_mem_run {ps : CutList α} {q : Piece (α × Dbm)} (h : Ready clocks K ctx)
    (div : Dbm.Divides K ctx pair none ps) (hq : q ∈ ctx.feasibleRun pair none ps) :
    ∃ p ∈ ps, p.item = q.item.1 ∧ Ready clocks K q.item.2 := by
  obtain ⟨lo, p, hp, admitted, rfl⟩ := exists_edge_of_mem_run hq
  exact ⟨p, mem_of_mem_intervals hp, rfl, h.restricted (div.cuttable hp) admitted⟩

/-- Every path of the tree is taken by a valuation of the context. -/
def TakesAll (t : Diagram) (ctx : Dbm) : Prop :=
  ∀ tests, Path t tests → ∃ v, ctx.Holds v ∧ ∀ c ∈ tests, c.Holds v

theorem TakesAll.neg (h : TakesAll t ctx) : TakesAll t.neg ctx := by
  intro tests path
  refine h tests ?_
  rw [← neg_neg t]
  exact path.neg

/-- The tree has a given truth inside of the context, and all its paths are taken there. -/
structure ReducesTo (ctx : Dbm) (truth : Valuation → Bool) (r : Diagram) : Prop where
  agrees : ∀ v, ctx.Holds v → eval v.differences r = truth v
  takesAll : TakesAll r ctx

/-- The truth of the item whose interval contains the difference of the level. -/
def truthAt (level : Nat) (ps : CutList α) (truth : α → Valuation → Bool) (v : Valuation) : Bool :=
  ((itemAt? (v.differences level) ps).map (truth · v)).getD false

theorem truthAt_of_itemAt? {ps : CutList α} {truth : α → Valuation → Bool} {v : Valuation} {a : α}
    (h : itemAt? (v.differences level) ps = some a) : truthAt level ps truth v = truth a v := by
  rw [truthAt, h]
  rfl

/-- An edge after merging and stretching leads where an admitted edge led, and covers its
interval. -/
theorem exists_admitted_edge {ps : CutList α} {R : α × Dbm → Diagram → Prop}
    {es : List (Piece Diagram)} (asc : Ascending none ps)
    (hes : SameCuts R (ctx.feasibleRun pair none ps) es)
    (hp : (lo, p) ∈ intervals none (merge (stretch es))) :
    ∃ lo' o, (lo', o) ∈ intervals none ps ∧ ctx.admits pair lo' o.upper ∧
      R (o.item, ctx.restricted pair lo' o.upper) p.item ∧
      ∀ d, Between lo' o.upper d → Between lo p.upper d := by
  have ascRun := hes.ascending (Dbm.ascending_feasibleRun ctx pair asc)
  have some : es ≠ [] := by
    rintro rfl
    cases hp
  obtain ⟨lo₁, e₁, he₁, item₁, wider₁⟩ :=
    exists_interval_of_mem_merge (proper_stretch ascRun some).ascending hp
  obtain ⟨e₂, he₂, item₂, wider₂⟩ := exists_interval_of_mem_stretch ascRun he₁
  obtain ⟨q, hq, bound, related⟩ := hes.exists_interval he₂
  obtain ⟨lo', o, ho, admitted, rfl, lower⟩ := Dbm.exists_interval_of_mem_feasibleRun hq
  refine ⟨lo', o, ho, admitted, ?_, fun d hd => wider₁ d (wider₂ d ⟨?_, fun b hb => ?_⟩)⟩
  · rw [← item₁, ← item₂]
    exact related
  · rw [← bound]
    exact hd.1
  · exact hd.2 b (lower b hb)

/-- A made decision takes all its paths if every merged edge takes the paths of its child. -/
theorem takesAll_make_of_merged {edges : List (Piece Diagram)}
    (taken : ∀ lo p tests, (lo, p) ∈ intervals none (merge edges) → Path p.item tests →
      ∃ v, ctx.Holds v ∧ Between lo p.upper (v.differences level) ∧ ∀ t ∈ tests, t.Holds v) :
    TakesAll (make level edges) ctx := by
  intro tests path
  rcases make_cases level edges with ⟨p, single, eq⟩ | ⟨-, eq⟩ <;> rw [eq] at path
  · have hp : (none, p) ∈ intervals none (merge edges) := by
      rw [single]
      exact List.mem_singleton_self _
    obtain ⟨v, hv, -, rest⟩ := taken none p tests hp path
    exact ⟨v, hv, rest⟩
  · cases path with
    | @edge _ _ lo p tests hp path =>
      obtain ⟨v, hv, between, rest⟩ := taken lo p tests hp path
      exact ⟨v, hv, List.forall_mem_cons.2 ⟨between, rest⟩⟩

/-- What is made of the run has the truth of the pieces, if its children have that of their
items. -/
theorem reducesTo_make {ps : CutList α} {truth : α → Valuation → Bool}
    {es : List (Piece Diagram)} (proper : Proper ps) (div : Dbm.Divides K ctx pair none ps)
    (hpair : ClockPair.ofLevel level = .ok pair)
    (hes : SameCuts (fun c s => ReducesTo c.2 (truth c.1) s) (ctx.feasibleRun pair none ps) es) :
    ReducesTo ctx (truthAt level ps truth) (make level (stretch es)) := by
  have asc := hes.ascending (Dbm.ascending_feasibleRun ctx pair div.ascending)
  -- An edge is taken by the valuations that take the rest of its path in the smaller context.
  have taken {lo p tests} (hp : (lo, p) ∈ intervals none (merge (stretch es)))
      (path : Path p.item tests) : ∃ v, ctx.Holds v ∧ Between lo p.upper (v.differences level) ∧
        ∀ c ∈ tests, c.Holds v := by
    obtain ⟨lo', o, ho, admitted, child, wider⟩ := exists_admitted_edge div.ascending hes hp
    obtain ⟨v, hv, rest⟩ := child.takesAll tests path
    obtain ⟨holds, between⟩ := ((div.cuttable ho).holds_restricted_iff admitted).1 hv
    rw [← differences_of_ofLevel hpair] at between
    exact ⟨v, holds, wider _ between, rest⟩
  refine ⟨fun v hv => ?_, takesAll_make_of_merged fun lo p tests => taken⟩
  obtain ⟨a, ha⟩ := proper.exists_itemAt? (v pair.i - v pair.j)
  obtain ⟨sub, found, hsub⟩ := Dbm.exists_piece_of_holds div hv nofun ha
  obtain ⟨s, hs, child⟩ := hes.itemAt? found
  have some : es ≠ [] := by
    rintro rfl
    cases hs
  rw [← differences_of_ofLevel hpair] at ha hs
  rw [eval_make _ _ (proper_stretch asc some), eval_node, itemAt?_stretch hs,
    truthAt_of_itemAt? ha]
  exact child.agrees v hsub

/-- **A decision can be reduced in a context with room if its children can**, and what it reduces
to is as right as what they reduce to. -/
theorem nodeReduces_of_ready {R : α → Dbm → Diagram → Prop} {ps : CutList α}
    (truth : α → Valuation → Bool) (hctx : Ready clocks K ctx)
    (lt : level < ClockPair.count clocks) (proper : Proper ps)
    (within : ∀ p ∈ ps, p.upper.Within K)
    (child : ∀ p ∈ ps, ∀ sub, Ready clocks K sub →
      (∃ s, R p.item sub s) ∧ ∀ s, R p.item sub s → ReducesTo sub (truth p.item) s) :
    (∃ r, NodeReduces R level ps ctx r) ∧
      ∀ r, NodeReduces R level ps ctx r → ReducesTo ctx (truthAt level ps truth) r := by
  obtain ⟨pair, hpair, -⟩ := ClockPair.ofLevel_eq_ok hctx.few lt
  have div := hctx.divides lt proper within hpair
  constructor
  · have children : ∀ q ∈ ctx.feasibleRun pair none ps,
        ∃ s, q.item.2.isEmpty = false ∧ R q.item.1 q.item.2 s := by
      intro q hq
      obtain ⟨p, hp, item, sub⟩ := hctx.of_mem_run div hq
      obtain ⟨s, hs⟩ := (child p hp q.item.2 sub).1
      exact ⟨s, sub.settled.isEmpty_eq_false, item ▸ hs⟩
    -- A settled context has a valuation, and the piece of its difference is admitted.
    have some : ctx.feasibleRun pair none ps ≠ [] := by
      obtain ⟨v, hv⟩ := hctx.settled.exists_holds
      obtain ⟨a, ha⟩ := proper.exists_itemAt? (v pair.i - v pair.j)
      obtain ⟨sub, found, -⟩ := Dbm.exists_piece_of_holds div hv nofun ha
      intro nil
      rw [nil] at found
      cases found
    obtain ⟨es, hes⟩ := exists_sameCuts
      (R := fun (c : α × Dbm) s => c.2.isEmpty = false ∧ R c.1 c.2 s) children
    exact ⟨_, pair, es, hpair, some, hes, rfl⟩
  · rintro r ⟨pair', es, eq, -, hes, rfl⟩
    cases hpair.symm.trans eq
    refine reducesTo_make proper div hpair (hes.imp_of_mem fun q hq s hs => ?_)
    obtain ⟨p, hp, item, sub⟩ := hctx.of_mem_run div hq
    have spec := (child p hp q.item.2 sub).2 s
    rw [item] at spec
    exact spec hs.2

/-- A leaf has its value, and its one path is taken. -/
theorem reducesTo_leaf (hctx : Ready clocks K ctx) (b : Bool) :
    ReducesTo ctx (fun v => eval v.differences (leaf b)) (leaf b) := by
  refine ⟨fun _ _ => rfl, fun tests path => ?_⟩
  obtain ⟨v, hv⟩ := hctx.settled.exists_holds
  cases path
  exact ⟨v, hv, nofun⟩

/-- **Reduction in a context with room.** It succeeds, keeps the truth at every valuation of the
context, and leaves no path that none of them takes. -/
theorem reduces_of_ready (hctx : Ready clocks K ctx) (ht : Canonical clocks t) (small : Small K t) :
    ∃ r, t.reduce ctx = .ok r ∧ ReducesTo ctx (fun v => eval v.differences t) r := by
  induction ht generalizing ctx with
  | leaf b => exact ⟨leaf b, rfl, reducesTo_leaf hctx b⟩
  | @node level edges root _ ih =>
    have child : ∀ p ∈ edges, ∀ sub, Ready clocks K sub → (∃ s, p.item.reduce sub = .ok s) ∧
        ∀ s, p.item.reduce sub = .ok s → ReducesTo sub (fun v => eval v.differences p.item) s := by
      intro p hp sub ready
      obtain ⟨s, hs, spec⟩ := ih p hp ready (small.child hp)
      refine ⟨⟨s, hs⟩, fun s' hs' => ?_⟩
      cases hs.symm.trans hs'
      exact spec
    obtain ⟨⟨r, hr⟩, spec⟩ := nodeReduces_of_ready (R := fun t sub s => t.reduce sub = .ok s)
      (fun t v => eval v.differences t) hctx root.level_lt root.proper small.root child
    have spec := spec r hr
    refine ⟨r, reduce_node_eq_ok_iff.2 hr, fun v hv => ?_, spec.takesAll⟩
    rw [spec.agrees v hv, eval_node]
    rfl

/-! ## Reduced trees -/

/-- A canonical tree with one truth, whose paths are all taken, is a leaf. -/
theorem eq_leaf_of_taken {S : Valuation → Prop} {b : Bool} (ht : Canonical clocks t)
    (taken : ∀ tests, Path t tests → ∃ v, S v ∧ ∀ c ∈ tests, c.Holds v)
    (truth : ∀ v, S v → eval v.differences t = b) : t = leaf b := by
  induction ht generalizing S with
  | leaf a =>
    obtain ⟨v, hv, -⟩ := taken [] (.leaf a)
    exact congrArg leaf (truth v hv)
  | @node level edges root _ ih =>
    -- Every child is the leaf, but the children of a canonical decision differ.
    have child : ∀ p ∈ edges, p.item = leaf b := by
      intro p hp
      obtain ⟨lo, hlo⟩ := exists_interval_of_mem none hp
      refine ih p hp (S := fun v => S v ∧ Between lo p.upper (v.differences level))
        (fun tests path => ?_) fun v ⟨hv, between⟩ => ?_
      · obtain ⟨v, hv, passes⟩ := taken _ (.edge hlo path)
        obtain ⟨first, rest⟩ := List.forall_mem_cons.1 passes
        exact ⟨v, ⟨hv, first⟩, rest⟩
      · have found := itemAt?_of_between root.proper.ascending hlo between
        rw [← truth v hv, eval_node, found]
        rfl
    obtain ⟨p, hp, ne⟩ := root.exists_child_ne (leaf b)
    exact absurd (child p hp) ne

/-- If all paths of a decision are taken, its edges are admitted, and all paths of a child are
taken in what is left of the context. -/
theorem TakesAll.edge (h : TakesAll (node level edges) ctx)
    (div : Dbm.Divides K ctx pair none edges) (hpair : ClockPair.ofLevel level = .ok pair)
    (children : ∀ p ∈ edges, Canonical clocks p.item) (hp : (lo, p) ∈ intervals none edges) :
    ctx.admits pair lo p.upper ∧ TakesAll p.item (ctx.restricted pair lo p.upper) := by
  have cut := div.cuttable hp
  have taken {tests} (path : Path p.item tests) : ∃ v, ctx.Holds v ∧
      Between lo p.upper (v pair.i - v pair.j) ∧ ∀ c ∈ tests, c.Holds v := by
    obtain ⟨v, hv, passes⟩ := h _ (.edge hp path)
    have first : Between lo p.upper (v.differences level) := passes _ List.mem_cons_self
    rw [differences_of_ofLevel hpair] at first
    exact ⟨v, hv, first, fun c hc => passes c (List.mem_cons_of_mem _ hc)⟩
  obtain ⟨tests, path⟩ := exists_path (children p (mem_of_mem_intervals hp)).proper
  obtain ⟨v, hv, between, -⟩ := taken path
  have admitted := cut.admits_of_holds hv between
  refine ⟨admitted, fun tests path => ?_⟩
  obtain ⟨v, hv, between, rest⟩ := taken path
  exact ⟨v, (cut.holds_restricted_iff admitted).2 ⟨hv, between⟩, rest⟩

theorem sameCuts_cutPieces {lower : Option Bound}
    (h : ∀ c ∈ intervals lower edges, Reduced (ctx.cutPiece pair c).item c.2.item) :
    SameCuts Reduced ((intervals lower edges).map (ctx.cutPiece pair)) edges := by
  induction edges generalizing lower with
  | nil => exact .nil
  | cons p edges ih =>
    exact .cons ⟨rfl, h _ List.mem_cons_self⟩ (ih fun c hc => h c (List.mem_cons_of_mem _ hc))

/-- **A canonical tree whose paths are all taken reduces to itself.** -/
theorem reduce_of_takesAll (hctx : Ready clocks K ctx) (ht : Canonical clocks t)
    (small : Small K t) (h : TakesAll t ctx) : t.reduce ctx = .ok t := by
  induction ht generalizing ctx with
  | leaf b => rfl
  | @node level edges root children ih =>
    obtain ⟨pair, hpair, -⟩ := ClockPair.ofLevel_eq_ok hctx.few root.level_lt
    have div := hctx.divides root.level_lt root.proper small.root hpair
    have edge {lo p} (hp : (lo, p) ∈ intervals none edges) := h.edge div hpair children hp
    have run := Dbm.feasibleRun_of_all_admitted ctx pair none fun c hc => (edge hc).1
    refine reduce_node_eq_ok_iff.2 ⟨pair, edges, hpair, ?_, ?_, ?_⟩
    · rw [run]
      intro nil
      obtain ⟨p, hp⟩ := List.exists_mem_of_ne_nil edges root.proper.ne_nil
      obtain ⟨lo, hlo⟩ := exists_interval_of_mem none hp
      rw [List.map_eq_nil_iff] at nil
      rw [nil] at hlo
      cases hlo
    · rw [run]
      refine sameCuts_cutPieces fun c hc => ?_
      obtain ⟨lo, p⟩ := c
      obtain ⟨admitted, rest⟩ := edge hc
      have mem := mem_of_mem_intervals hc
      have sub := hctx.restricted (div.cuttable hc) admitted
      exact ⟨sub.settled.isEmpty_eq_false, ih p mem sub (small.child mem) rest⟩
    · rw [stretch_of_proper root.proper, make_of_merged root.two_le root.merged]

end Diagram

end ZoneDiagram

import ZoneDiagram.Manager.Reduce
import ZoneDiagram.Manager.WellFormed
import ZoneDiagram.Proofs.ClockPair
import ZoneDiagram.Proofs.Diagram.Basic
import ZoneDiagram.Proofs.Handle
import ZoneDiagram.Proofs.SlotTable.Consistent

/-!
# The trees of a manager

Every live handle of a well-formed manager has a tree (`unfold`). The tree is canonical, it has the
same truth as the handle, and complement of the handle is complement of the tree.

**Theorem (`Nodes.eq_of_unfold_eq`).** Live handles with the same tree are the same handle: the
last child of a node carries no complement, so the last edge of the tree shows the sign, and equal
edges are stored once.
-/

namespace ZoneDiagram.Manager

open CutList

variable {m m' : Manager} {f g : Handle} {depth : Nat} {d : Assignment}

/-! ## Reading live handles -/

/-- The root node of a handle. -/
def nodeOf (m : Manager) (f : Handle) : Node := (m.store.get? f.slot).getD default

/-- The level of the root node. -/
def levelOf (m : Manager) (f : Handle) : Nat := (m.nodeOf f).level

/-- The edges of a diagram, complemented if the diagram is. -/
def edgesOf (m : Manager) (f : Handle) : CutList Handle := mapItems f.applySign (m.nodeOf f).edges

/-- The part of the invariant that is about nodes. -/
structure Nodes (m : Manager) : Prop where
  wellFormed : m.WellFormed
  store : m.store.Consistent Handle.one.slot
  few : m.clocks ≤ maxClocks

instance (m : Manager) (f : Handle) : Decidable (m.Live f) :=
  inferInstanceAs (Decidable ((m.store.get? f.slot).isSome = true))

theorem Live.get? (hf : m.Live f) : m.store.get? f.slot = some (m.nodeOf f) := by
  obtain ⟨node, hnode⟩ := Option.isSome_iff_exists.1 hf
  rw [nodeOf, hnode]
  rfl

theorem Live.neg (hf : m.Live f) : m.Live (-f) := by
  rwa [Live, Handle.slot_neg]

theorem Live.applySign (hg : m.Live g) (f : Handle) : m.Live (f.applySign g) := by
  rwa [Live, Handle.slot_applySign]

theorem Live.regular (hf : m.Live f) : m.Live f.regular := by
  rwa [Live, Handle.slot_regular]

theorem nodeOf_neg (m : Manager) (f : Handle) : m.nodeOf (-f) = m.nodeOf f := by
  rw [nodeOf, nodeOf, Handle.slot_neg]

/-- Without a complement the edges are those of the node. -/
theorem edgesOf_of_isNegated_eq_false (sign : f.isNegated = false) :
    m.edgesOf f = (m.nodeOf f).edges :=
  mapItems_eq_self fun e _ => Handle.applySign_of_isNegated_eq_false sign e.item

theorem levelOf_applySign (m : Manager) (f g : Handle) :
    m.levelOf (f.applySign g) = m.levelOf g := by
  rw [levelOf, levelOf, nodeOf, nodeOf, Handle.slot_applySign]

theorem levelOf_regular (m : Manager) (f : Handle) : m.levelOf f.regular = m.levelOf f := by
  rw [levelOf, levelOf, nodeOf, nodeOf, Handle.slot_regular]

namespace Nodes

theorem slot_ne_zero (hm : m.Nodes) (hf : m.Live f) : f.slot ≠ 0 :=
  hm.store.ne_zero_of_get? hf.get?

theorem live_of_isTerminal (hm : m.Nodes) (hf : f.isTerminal = true) : m.Live f := by
  rw [Live, Handle.isTerminal_iff.1 hf, hm.wellFormed.terminal]
  rfl

theorem live_one (hm : m.Nodes) : m.Live .one := hm.live_of_isTerminal rfl

theorem live_zero (hm : m.Nodes) : m.Live .zero := hm.live_of_isTerminal rfl

theorem nodeOf_of_isTerminal (hm : m.Nodes) (hf : f.isTerminal = true) :
    m.nodeOf f = .terminal := by
  rw [nodeOf, Handle.isTerminal_iff.1 hf, hm.wellFormed.terminal]
  rfl

theorem levelOf_of_isTerminal (hm : m.Nodes) (hf : f.isTerminal = true) :
    m.levelOf f = ClockPair.terminalLevel := by
  rw [levelOf, hm.nodeOf_of_isTerminal hf]
  rfl

theorem canonical_nodeOf (hm : m.Nodes) (hf : m.Live f) (inner : f.isTerminal = false) :
    Canonical (m.nodeOf f).edges ∧ m.levelOf f < ClockPair.count m.clocks :=
  hm.wellFormed.canonical hf.get? (Handle.isTerminal_eq_false_iff.1 inner)

theorem isTerminal_eq_false_of_levelOf (hm : m.Nodes)
    (h : m.levelOf f < ClockPair.count m.clocks) : f.isTerminal = false := by
  cases eq : f.isTerminal with
  | false => rfl
  | true =>
    rw [hm.levelOf_of_isTerminal eq] at h
    exact absurd (ClockPair.count_lt_terminalLevel hm.few) (by omega)

theorem proper_edgesOf (hm : m.Nodes) (hf : m.Live f) (inner : f.isTerminal = false) :
    Proper (m.edgesOf f) :=
  (sameCuts_mapItems f.applySign _).proper (hm.canonical_nodeOf hf inner).1.proper

theorem child (hm : m.Nodes) (hf : m.Live f) {e : Edge} (he : e ∈ m.edgesOf f) :
    m.Live e.item ∧ m.levelOf f < m.levelOf e.item := by
  obtain ⟨o, ho, rfl⟩ := List.mem_map.1 he
  obtain ⟨node, hnode, lt⟩ := hm.wellFormed.below hf.get? o ho
  refine ⟨Live.applySign (by rw [Live, hnode]; rfl) f, ?_⟩
  rw [levelOf_applySign, levelOf, levelOf, nodeOf, nodeOf, hnode, hf.get?]
  exact lt

theorem node_eq_ok (hm : m.Nodes) (hf : m.Live f) : m.node f = .ok (m.nodeOf f) := by
  obtain ⟨next, cell⟩ := hm.store.cell_eq_ok hf.get?
  rw [node, SlotTable.value, cell]
  rfl

theorem level_eq_ok (hm : m.Nodes) (hf : m.Live f) : m.level f = .ok (m.levelOf f) := by
  rw [level, hm.node_eq_ok hf]
  rfl

theorem edges_eq_ok (hm : m.Nodes) (hf : m.Live f) : m.edges f = .ok (m.edgesOf f) := by
  rw [edges, hm.node_eq_ok hf]
  rfl

theorem pair_eq (hm : m.Nodes) (hf : m.Live f) (inner : f.isTerminal = false) :
    m.pair f = ClockPair.ofLevel (m.levelOf f) := by
  unfold Manager.pair
  dsimp only
  rw [if_neg (by rw [inner]; exact Bool.false_ne_true), hm.level_eq_ok hf]
  -- The search for the pair of a level is not to be evaluated.
  generalize ClockPair.ofLevel = search
  rfl

theorem levelOf_le (hm : m.Nodes) (hf : m.Live f) : m.levelOf f ≤ ClockPair.terminalLevel := by
  cases inner : f.isTerminal with
  | true => exact Nat.le_of_eq (hm.levelOf_of_isTerminal inner)
  | false =>
    exact Nat.le_of_lt
      ((hm.canonical_nodeOf hf inner).2.trans (ClockPair.count_lt_terminalLevel hm.few))

/-- Induction on the levels of live handles: what holds of a handle if it holds of its children
holds of every handle. -/
theorem induct (hm : m.Nodes) {P : Handle → Prop}
    (step : ∀ f, m.Live f → (∀ e ∈ m.edgesOf f, P e.item) → P f) (hf : m.Live f) : P f := by
  have all : ∀ n f, m.Live f → ClockPair.terminalLevel - m.levelOf f = n → P f := by
    intro n
    induction n using Nat.strong_induction_on with
    | _ n ih =>
      intro f hf eq
      refine step f hf fun e he => ?_
      obtain ⟨live, lt⟩ := hm.child hf he
      have := hm.levelOf_le live
      exact ih _ (by omega) e.item live rfl
  exact all _ f hf rfl

end Nodes

/-! ## Unfolding -/

/-- The tree of a handle whose paths visit fewer nodes than `depth`. -/
def unfoldWithin (m : Manager) : Nat → Handle → Diagram
  | 0, _ => .leaf false
  | depth + 1, f =>
    if f.isTerminal then .leaf (!f.isNegated)
    else .node (m.levelOf f) (mapItems (m.unfoldWithin depth) (m.edgesOf f))

/-- The tree of a handle. -/
def unfold (m : Manager) (f : Handle) : Diagram := m.unfoldWithin m.depth f

/-- The paths of the handle visit fewer nodes than `depth`, as far as levels tell. -/
structure Fits (m : Manager) (depth : Nat) (f : Handle) : Prop where
  pos : 0 < depth
  count_lt : ClockPair.count m.clocks < depth + m.levelOf f

theorem fits_depth (m : Manager) (f : Handle) : m.Fits m.depth f :=
  ⟨Nat.succ_pos _, by unfold depth; omega⟩

theorem Fits.regular (h : m.Fits depth f) : m.Fits depth f.regular := by
  refine ⟨h.pos, ?_⟩
  rw [levelOf_regular]
  exact h.count_lt

theorem Fits.child (hm : m.Nodes) (hf : m.Live f) (inner : f.isTerminal = false)
    (h : m.Fits (depth + 1) f) {e : Edge} (he : e ∈ m.edgesOf f) : m.Fits depth e.item := by
  have lt := (hm.canonical_nodeOf hf inner).2
  have below := (hm.child hf he).2
  have enough := h.count_lt
  exact ⟨by omega, by omega⟩

theorem unfoldWithin_of_isTerminal (hf : f.isTerminal = true) :
    m.unfoldWithin (depth + 1) f = .leaf (!f.isNegated) := if_pos hf

theorem unfoldWithin_of_inner (inner : f.isTerminal = false) : m.unfoldWithin (depth + 1) f =
    .node (m.levelOf f) (mapItems (m.unfoldWithin depth) (m.edgesOf f)) :=
  if_neg (by rw [inner]; exact Bool.false_ne_true)

/-- The depth does not matter, as long as it is enough. -/
theorem unfoldWithin_eq {depth' : Nat} (hm : m.Nodes) (hf : m.Live f) (h : m.Fits depth f)
    (h' : m.Fits depth' f) : m.unfoldWithin depth f = m.unfoldWithin depth' f := by
  induction depth generalizing depth' f with
  | zero => exact absurd h.pos (Nat.lt_irrefl 0)
  | succ depth ih =>
    cases depth' with
    | zero => exact absurd h'.pos (Nat.lt_irrefl 0)
    | succ depth' =>
      cases inner : f.isTerminal with
      | true => rw [unfoldWithin_of_isTerminal inner, unfoldWithin_of_isTerminal inner]
      | false =>
        rw [unfoldWithin_of_inner inner, unfoldWithin_of_inner inner]
        refine congrArg _ (mapItems_congr fun e he => ?_)
        exact ih (hm.child hf he).1 (h.child hm hf inner he) (h'.child hm hf inner he)

theorem unfold_of_isTerminal (hf : f.isTerminal = true) : m.unfold f = .leaf (!f.isNegated) :=
  unfoldWithin_of_isTerminal hf

theorem unfold_one (m : Manager) : m.unfold .one = .leaf true := unfold_of_isTerminal rfl

theorem unfold_zero (m : Manager) : m.unfold .zero = .leaf false := unfold_of_isTerminal rfl

namespace Nodes

theorem unfold_of_inner (hm : m.Nodes) (hf : m.Live f) (inner : f.isTerminal = false) :
    m.unfold f = .node (m.levelOf f) (mapItems m.unfold (m.edgesOf f)) := by
  rw [unfold, depth, unfoldWithin_of_inner inner]
  refine congrArg _ (mapItems_congr fun e he => ?_)
  exact unfoldWithin_eq hm (hm.child hf he).1 ((fits_depth m f).child hm hf inner he)
    (fits_depth m e.item)

/-- A diagram whose tree is a decision has its level and its edges. -/
theorem of_unfold_eq_node (hm : m.Nodes) (hf : m.Live f) {level : Nat} {edges : List (Piece Diagram)}
    (tree : m.unfold f = .node level edges) :
    f.isTerminal = false ∧ m.levelOf f = level ∧ mapItems m.unfold (m.edgesOf f) = edges := by
  cases inner : f.isTerminal with
  | true =>
    rw [unfold_of_isTerminal inner] at tree
    cases tree
  | false =>
    rw [hm.unfold_of_inner hf inner] at tree
    exact ⟨rfl, Diagram.node.inj tree⟩

theorem level_unfold (hm : m.Nodes) (hf : m.Live f) : (m.unfold f).level = m.levelOf f := by
  cases inner : f.isTerminal with
  | true => rw [unfold_of_isTerminal inner, hm.levelOf_of_isTerminal inner]; rfl
  | false => rw [hm.unfold_of_inner hf inner]; rfl

theorem edgesOf_neg (hm : m.Nodes) (hf : m.Live f) :
    m.edgesOf (-f) = mapItems Neg.neg (m.edgesOf f) := by
  rw [edgesOf, nodeOf_neg, edgesOf, mapItems, mapItems, mapItems, List.map_map]
  refine List.map_congr_left fun e _ => ?_
  rw [Handle.applySign_neg (hm.slot_ne_zero hf)]
  rfl

theorem levelOf_neg (_ : m.Nodes) (f : Handle) : m.levelOf (-f) = m.levelOf f := by
  rw [levelOf, nodeOf_neg, levelOf]

theorem unfold_neg (hm : m.Nodes) (hf : m.Live f) : m.unfold (-f) = (m.unfold f).neg := by
  refine hm.induct (P := fun f => m.unfold (-f) = (m.unfold f).neg) (fun f hf ih => ?_) hf
  cases inner : f.isTerminal with
  | true =>
    rw [unfold_of_isTerminal inner, unfold_of_isTerminal ((Handle.isTerminal_neg f).trans inner),
      Handle.isNegated_neg (hm.slot_ne_zero hf)]
    rfl
  | false =>
    rw [hm.unfold_of_inner hf inner,
      hm.unfold_of_inner hf.neg ((Handle.isTerminal_neg f).trans inner), hm.edgesOf_neg hf,
      hm.levelOf_neg, Diagram.neg_node]
    refine congrArg _ ?_
    rw [mapItems, mapItems, mapItems, mapItems, List.map_map, List.map_map]
    exact List.map_congr_left fun e he => by simp [ih e he]

theorem unfold_applySign (hm : m.Nodes) (hg : m.Live g) (f : Handle) :
    m.unfold (f.applySign g) = if f.isNegated then (m.unfold g).neg else m.unfold g := by
  unfold Handle.applySign
  split
  · exact hm.unfold_neg hg
  · rfl

/-- A tree up to complement, of the root node. -/
theorem unfold_regular (hm : m.Nodes) (hf : m.Live f) :
    m.unfold f.regular = m.unfold f ∨ m.unfold f.regular = (m.unfold f).neg := by
  have tree := hm.unfold_applySign hf.regular f
  rw [Handle.applySign_regular] at tree
  rw [tree]
  split
  · exact .inr (Diagram.neg_neg _).symm
  · exact .inl rfl

/-! ## One handle for every tree -/

/-- The last edge has the sign of the diagram. -/
theorem isNegated_last (hm : m.Nodes) (hf : m.Live f) (inner : f.isTerminal = false) :
    ∃ e, (m.edgesOf f).getLast? = some e ∧ e.item.isNegated = f.isNegated := by
  have canonical := (hm.canonical_nodeOf hf inner).1
  obtain ⟨o, ho⟩ : ∃ o, (m.nodeOf f).edges.getLast? = some o :=
    Option.isSome_iff_exists.1 (List.getLast?_isSome.2 canonical.proper.ne_nil)
  have mem := List.mem_of_getLast? ho
  have live : m.Live (f.applySign o.item) :=
    (hm.child (e := ⟨f.applySign o.item, o.upper⟩) hf (List.mem_map_of_mem mem)).1
  have slot : o.item.slot ≠ 0 := by
    rw [← Handle.slot_applySign f]
    exact hm.slot_ne_zero live
  refine ⟨⟨f.applySign o.item, o.upper⟩, ?_, ?_⟩
  · rw [edgesOf, getLast?_mapItems, ho]
    rfl
  · rw [Handle.isNegated_applySign slot, canonical.regular o ho, Bool.xor_false]

theorem eq_of_nodeOf_eq (hm : m.Nodes) (hf : m.Live f) (hg : m.Live g)
    (node : m.nodeOf f = m.nodeOf g) (sign : f.isNegated = g.isNegated) : f = g := by
  refine Handle.eq_of_slot_of_isNegated (hm.wellFormed.unique hf.get? ?_) sign
  rw [node]
  exact hg.get?

theorem eq_of_edgesOf_eq (hm : m.Nodes) (hf : m.Live f) (hg : m.Live g)
    (fInner : f.isTerminal = false) (gInner : g.isTerminal = false)
    (level : m.levelOf f = m.levelOf g) (edges : m.edgesOf f = m.edgesOf g) : f = g := by
  obtain ⟨e, he, fSign⟩ := hm.isNegated_last hf fInner
  obtain ⟨e', he', gSign⟩ := hm.isNegated_last hg gInner
  rw [edges, he'] at he
  cases he
  have sign : f.isNegated = g.isNegated := fSign.symm.trans gSign
  refine hm.eq_of_nodeOf_eq hf hg ?_ sign
  have signs : f.applySign = g.applySign := by
    funext h
    rw [Handle.applySign, Handle.applySign, sign]
  rw [edgesOf, edgesOf, signs] at edges
  have edges : (m.nodeOf f).edges = (m.nodeOf g).edges :=
    eq_of_mapItems_eq (fun _ _ _ _ => Handle.applySign_injective) edges
  unfold levelOf at level
  cases hf : m.nodeOf f
  cases hg : m.nodeOf g
  rw [hf, hg] at level edges
  exact congrArg₂ Node.mk level edges

/-- **Live handles with the same tree are the same handle.** -/
theorem eq_of_unfold_eq (hm : m.Nodes) (hf : m.Live f) (hg : m.Live g)
    (h : m.unfold f = m.unfold g) : f = g := by
  refine hm.induct (P := fun f => ∀ g, m.Live g → m.unfold f = m.unfold g → f = g)
    (fun f hf ih g hg h => ?_) hf g hg h
  cases fInner : f.isTerminal <;> cases gInner : g.isTerminal
  · rw [hm.unfold_of_inner hf fInner, hm.unfold_of_inner hg gInner] at h
    obtain ⟨level, edges⟩ := Diagram.node.inj h
    refine hm.eq_of_edgesOf_eq hf hg fInner gInner level (eq_of_mapItems_eq ?_ edges)
    exact fun e he e' he' => ih e he e'.item (hm.child hg he').1
  · rw [hm.unfold_of_inner hf fInner, unfold_of_isTerminal gInner] at h
    cases h
  · rw [unfold_of_isTerminal fInner, hm.unfold_of_inner hg gInner] at h
    cases h
  · rw [unfold_of_isTerminal fInner, unfold_of_isTerminal gInner] at h
    refine Handle.eq_of_slot_of_isNegated ?_ (Bool.not_inj (Diagram.leaf.inj h))
    exact (Handle.isTerminal_iff.1 fInner).trans (Handle.isTerminal_iff.1 gInner).symm

/-- The tree of a live handle is canonical. -/
theorem canonical_unfold (hm : m.Nodes) (hf : m.Live f) :
    Diagram.Canonical m.clocks (m.unfold f) := by
  refine hm.induct (P := fun f => Diagram.Canonical m.clocks (m.unfold f)) (fun f hf ih => ?_) hf
  cases inner : f.isTerminal with
  | true => rw [unfold_of_isTerminal inner]; exact .leaf _
  | false =>
    obtain ⟨canonical, lt⟩ := hm.canonical_nodeOf hf inner
    have merged : Merged (m.edgesOf f) :=
      merged_mapItems canonical.merged fun _ _ _ _ => Handle.applySign_injective
    have distinct : ∀ p ∈ m.edgesOf f, ∀ q ∈ m.edgesOf f,
        m.unfold p.item = m.unfold q.item → p.item = q.item := fun p hp q hq =>
      hm.eq_of_unfold_eq (hm.child hf hp).1 (hm.child hf hq).1
    rw [hm.unfold_of_inner hf inner]
    refine .node ⟨?_, ?_, merged_mapItems merged distinct, lt, fun p hp => ?_⟩ fun p hp => ?_
    · rw [mapItems, List.length_map, edgesOf, mapItems, List.length_map]
      exact canonical.two_le
    · exact (sameCuts_mapItems m.unfold _).proper (hm.proper_edgesOf hf inner)
    · obtain ⟨e, he, rfl⟩ := List.mem_map.1 hp
      obtain ⟨live, below⟩ := hm.child hf he
      rwa [hm.level_unfold live]
    · obtain ⟨e, he, rfl⟩ := List.mem_map.1 hp
      exact ih e he

/-! ## Truth -/

theorem evalWithin_applySign (hm : m.Nodes) (hg : m.Live g) (f : Handle) (pos : 0 < depth) :
    m.evalWithin d depth (f.applySign g) = (f.isNegated ^^ m.evalWithin d depth g) := by
  cases depth with
  | zero => exact absurd pos (Nat.lt_irrefl 0)
  | succ depth =>
    have sign := Handle.isNegated_applySign (f := f) (hm.slot_ne_zero hg)
    simp only [evalWithin, Handle.isTerminal, Handle.slot_applySign, sign, Bool.xor_assoc]
    rfl

theorem evalWithin_eq (hm : m.Nodes) (hf : m.Live f) (h : m.Fits depth f) :
    m.evalWithin d depth f = (m.unfoldWithin depth f).eval d := by
  induction depth generalizing f with
  | zero => exact absurd h.pos (Nat.lt_irrefl 0)
  | succ depth ih =>
    cases inner : f.isTerminal with
    | true =>
      rw [unfoldWithin_of_isTerminal inner, evalWithin, inner]
      exact Bool.xor_true _
    | false =>
      obtain ⟨o, ho⟩ := (hm.canonical_nodeOf hf inner).1.proper.exists_itemAt? (d (m.levelOf f))
      have step : m.evalWithin d (depth + 1) f = (f.isNegated ^^ m.evalWithin d depth o) := by
        simp only [evalWithin, inner, hf.get?, Bool.false_eq_true, if_false]
        rw [← levelOf, ho]
      -- Evaluation keeps the sign outside of the node, but unfolding puts it on the edges.
      have signed : itemAt? (d (m.levelOf f)) (m.edgesOf f) = some (f.applySign o) := by
        rw [edgesOf, itemAt?_mapItems, ho]
        rfl
      have unbounded : ∀ b ∈ (none : Option Bound), ¬b.Holds (d (m.levelOf f)) := by simp
      obtain ⟨lo, e, he, item, -⟩ := exists_interval_of_itemAt? none signed unbounded
      have mem := mem_of_mem_intervals he
      have fits := h.child hm hf inner mem
      obtain ⟨live, -⟩ := hm.child hf mem
      rw [item] at fits live
      have below : m.Live o := by
        rwa [Live, Handle.slot_applySign] at live
      rw [step, unfoldWithin_of_inner inner, Diagram.eval_node, itemAt?_mapItems, signed,
        ← hm.evalWithin_applySign below f fits.pos]
      exact ih live fits

/-- A live handle has the truth of its tree. -/
theorem eval_eq (hm : m.Nodes) (hf : m.Live f) : m.eval d f = (m.unfold f).eval d :=
  hm.evalWithin_eq hf (fits_depth m f)

end Nodes

/-! ## More nodes -/

/-- The second manager has all nodes of the first, in the same slots. It may have more clocks. -/
structure Keeps (m m' : Manager) : Prop where
  clocks : m.clocks ≤ m'.clocks
  get? : ∀ {slot node}, m.store.get? slot = some node → m'.store.get? slot = some node

namespace Keeps

theorem refl (m : Manager) : m.Keeps m := ⟨Nat.le_refl _, fun h => h⟩

theorem trans {m'' : Manager} (h : m.Keeps m') (h' : m'.Keeps m'') : m.Keeps m'' :=
  ⟨h.clocks.trans h'.clocks, fun hs => h'.get? (h.get? hs)⟩

theorem live (h : m.Keeps m') (hf : m.Live f) : m'.Live f := by
  rw [Live, h.get? hf.get?]
  rfl

theorem nodeOf (h : m.Keeps m') (hf : m.Live f) : m'.nodeOf f = m.nodeOf f := by
  rw [Manager.nodeOf, h.get? hf.get?]
  rfl

theorem levelOf (h : m.Keeps m') (hf : m.Live f) : m'.levelOf f = m.levelOf f := by
  rw [Manager.levelOf, h.nodeOf hf, Manager.levelOf]

theorem edgesOf (h : m.Keeps m') (hf : m.Live f) : m'.edgesOf f = m.edgesOf f := by
  rw [Manager.edgesOf, h.nodeOf hf, Manager.edgesOf]

theorem unfoldWithin (h : m.Keeps m') (hm : m.Nodes) (hf : m.Live f) (depth : Nat) :
    m'.unfoldWithin depth f = m.unfoldWithin depth f := by
  induction depth generalizing f with
  | zero => rfl
  | succ depth ih =>
    unfold Manager.unfoldWithin
    rw [h.levelOf hf, h.edgesOf hf, mapItems_congr fun e he => ih (hm.child hf he).1]

/-- With more clocks there are more levels, and a path may visit more nodes than before. -/
theorem unfold (h : m.Keeps m') (hm : m.Nodes) (hf : m.Live f) : m'.unfold f = m.unfold f := by
  have more : ClockPair.count m.clocks ≤ ClockPair.count m'.clocks :=
    ClockPair.triangle_le_triangle h.clocks
  have fits : m.Fits m'.depth f := ⟨Nat.succ_pos _, by rw [depth]; omega⟩
  rw [Manager.unfold, h.unfoldWithin hm hf]
  exact unfoldWithin_eq hm hf fits (fits_depth m f)

theorem eval (h : m.Keeps m') (hm : m.Nodes) (hm' : m'.Nodes) (hf : m.Live f) :
    m'.eval d f = m.eval d f := by
  rw [hm'.eval_eq (h.live hf), hm.eval_eq hf, h.unfold hm hf]

end Keeps

/-- The second manager has all nodes of the first, in the same slots. -/
structure Extends (m m' : Manager) : Prop where
  clocks : m'.clocks = m.clocks
  capacity : m'.store.capacity = m.store.capacity
  get? : ∀ {slot node}, m.store.get? slot = some node → m'.store.get? slot = some node

namespace Extends

theorem refl (m : Manager) : m.Extends m := ⟨rfl, rfl, fun h => h⟩

theorem trans {m'' : Manager} (h : m.Extends m') (h' : m'.Extends m'') : m.Extends m'' :=
  ⟨h'.clocks.trans h.clocks, h'.capacity.trans h.capacity, fun hs => h'.get? (h.get? hs)⟩

theorem keeps (h : m.Extends m') : m.Keeps m' := ⟨Nat.le_of_eq h.clocks.symm, h.get?⟩

theorem live (h : m.Extends m') (hf : m.Live f) : m'.Live f := h.keeps.live hf

theorem levelOf (h : m.Extends m') (hf : m.Live f) : m'.levelOf f = m.levelOf f :=
  h.keeps.levelOf hf

theorem edgesOf (h : m.Extends m') (hf : m.Live f) : m'.edgesOf f = m.edgesOf f :=
  h.keeps.edgesOf hf

theorem unfold (h : m.Extends m') (hm : m.Nodes) (hf : m.Live f) : m'.unfold f = m.unfold f :=
  h.keeps.unfold hm hf

theorem eval (h : m.Extends m') (hm : m.Nodes) (hm' : m'.Nodes) (hf : m.Live f) :
    m'.eval d f = m.eval d f := h.keeps.eval hm hm' hf

theorem fits (h : m.Extends m') (hf : m.Live f) (fits : m.Fits depth f) : m'.Fits depth f :=
  ⟨fits.pos, by rw [h.clocks, h.levelOf hf]; exact fits.count_lt⟩

theorem dim (h : m.Extends m') : m'.dim = m.dim := by
  rw [Manager.dim, Manager.dim, h.clocks]

theorem openContext (h : m.Extends m') : m'.openContext = m.openContext := by
  unfold Manager.openContext Manager.dim
  simp only [h.clocks]

end Extends

end ZoneDiagram.Manager

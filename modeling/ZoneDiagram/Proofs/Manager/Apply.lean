import ZoneDiagram.Manager.Apply
import ZoneDiagram.Proofs.CutList.Refine
import ZoneDiagram.Proofs.Manager.Node

/-!
# Combining diagrams is exact

The pieces of two diagrams on their top level pair, at every value, the children that both take
there (`Splits`). So a node made of combined children combines the diagrams, and by induction on
the levels that are left so does `apply`: it gives the combination, or the store is full.
-/

namespace ZoneDiagram

open CutList

/-! ## Results without a look at the nodes -/

namespace Connective

variable {op : Connective} {f g r : Handle}

/-- A shortcut is a constant, an operand or the complement of an operand. -/
theorem shortcut_cases (h : op.shortcut f g = some r) :
    r.isTerminal = true ∨ (r = f ∨ r = -f) ∨ r = g ∨ r = -g := by
  have zero : Handle.zero.isTerminal = true := rfl
  have one : Handle.one.isTerminal = true := rfl
  cases op <;> simp only [shortcut] at h <;> split_ifs at h <;> cases h <;> simp [zero, one]

/-- A shortcut is right, however truth is given to diagrams, if complement flips it. -/
theorem shortcut_exact (truth : Handle → Bool) (one : truth .one = true)
    (zero : truth .zero = false) (hf : truth (-f) = !truth f) (hg : truth (-g) = !truth g)
    (h : op.shortcut f g = some r) : truth r = op.onBool (truth f) (truth g) := by
  cases op <;> simp only [shortcut] at h <;> split_ifs at h with h₁ h₂ h₃ <;> cases h
  all_goals simp only [onBool]
  · rcases h₁ with rfl | rfl | rfl <;> simp [*]
  · rcases h₂ with rfl | rfl <;> simp [*]
  · simp [*]
  · rcases h₁ with rfl | rfl | rfl <;> simp [*]
  · rcases h₂ with rfl | rfl <;> simp [*]
  · simp [*]
  all_goals simp [*]

/-- Constants have shortcuts. -/
theorem inner_of_shortcut_eq_none (h : op.shortcut f g = none) :
    f.isTerminal = false ∧ g.isTerminal = false := by
  have inner {f : Handle} (zero : f ≠ .zero) (one : f ≠ .one) : f.isTerminal = false := by
    cases terminal : f.isTerminal with
    | false => rfl
    | true => exact absurd (Handle.eq_one_or_eq_zero terminal) (not_or.2 ⟨one, zero⟩)
  cases op <;> simp only [shortcut] at h <;> split_ifs at h <;>
    exact ⟨inner (by simp_all) (by simp_all), inner (by simp_all) (by simp_all)⟩

theorem onBool_comm (op : Connective) (a b : Bool) : op.onBool a b = op.onBool b a := by
  cases op <;> simp [onBool, Bool.and_comm, Bool.or_comm, Bool.xor_comm]

end Connective

/-- Two operands keep their order or change it. -/
theorem Handle.ordered_cases (f g : Handle) : f.ordered g = (f, g) ∨ f.ordered g = (g, f) := by
  unfold ordered
  split
  exacts [.inl rfl, .inr rfl]

namespace Manager

variable {m m' : Manager} {op : Connective} {f g r : Handle} {level depth : Nat}
  {F : Error → Prop}

theorem Nodes.eval_neg (hm : m.Nodes) (hf : m.Live f) (d : Assignment) :
    m.eval d (-f) = !m.eval d f :=
  Manager.eval_neg m d (hm.slot_ne_zero hf)

theorem Nodes.applied_of_shortcut (hm : m.Nodes) (hf : m.Live f) (hg : m.Live g)
    (h : op.shortcut f g = some r) : m.Applied op f g r := by
  have exact d := Connective.shortcut_exact (m.eval d) (eval_one m d) (eval_zero m d)
    (hm.eval_neg hf d) (hm.eval_neg hg d) h
  have negated {f} (hf : m.Live f) {K} (small : Diagram.Small K (m.unfold f)) :
      Diagram.Small K (m.unfold (-f)) := hm.unfold_neg hf ▸ small.neg
  rcases Connective.shortcut_cases h with terminal | (rfl | rfl) | rfl | rfl
  · refine ⟨hm.live_of_isTerminal terminal, exact, ?_, fun _ _ => ?_⟩
    · rw [hm.levelOf_of_isTerminal terminal]
      exact (Nat.min_le_left _ _).trans (hm.levelOf_le hf)
    · rw [unfold_of_isTerminal terminal]
      exact .leaf _
  · exact ⟨hf, exact, Nat.min_le_left _ _, fun left _ => left⟩
  · exact ⟨hf.neg, exact, by rw [hm.levelOf_neg]; exact Nat.min_le_left _ _,
      fun left _ => negated hf left⟩
  · exact ⟨hg, exact, Nat.min_le_right _ _, fun _ right => right⟩
  · exact ⟨hg.neg, exact, by rw [hm.levelOf_neg]; exact Nat.min_le_right _ _,
      fun _ right => negated hg right⟩

theorem Applied.comm (h : m.Applied op f g r) : m.Applied op g f r where
  live := h.live
  eval d := (h.eval d).trans (op.onBool_comm _ _)
  level_le := by
    rw [Nat.min_comm]
    exact h.level_le
  small left right := h.small right left

/-! ## The pieces of two diagrams -/

/-- Pieces of one diagram as seen from a level: they lie below it, and at every value of the
difference one of them is taken and has the truth of the diagram. -/
structure Cofactors (m : Manager) (f : Handle) (level : Nat) (es : CutList Handle) : Prop where
  trees : (m.unfold f).cofactors level = mapItems m.unfold es
  proper : Proper es
  live : ∀ e ∈ es, m.Live e.item
  below : ∀ e ∈ es, level < m.levelOf e.item
  eval : ∀ {d h}, itemAt? (d level) es = some h → m.eval d h = m.eval d f

/-- Pieces of two diagrams on their top level. -/
structure Splits (m : Manager) (f g : Handle) (level : Nat) (ps : CutList (Handle × Handle)) :
    Prop where
  trees : CutList.refine ((m.unfold f).cofactors level) ((m.unfold g).cofactors level) =
    .ok (mapItems (Prod.map m.unfold m.unfold) ps)
  proper : Proper ps
  live : ∀ p ∈ ps, m.Live p.item.1 ∧ m.Live p.item.2
  below : ∀ p ∈ ps, level < m.levelOf p.item.1 ∧ level < m.levelOf p.item.2
  eval : ∀ {d a b}, itemAt? (d level) ps = some (a, b) →
    m.eval d a = m.eval d f ∧ m.eval d b = m.eval d g
  small : ∀ {K}, Diagram.Small K (m.unfold f) → Diagram.Small K (m.unfold g) → ∀ p ∈ ps,
    p.upper.Within K ∧ Diagram.Small K (m.unfold p.item.1) ∧ Diagram.Small K (m.unfold p.item.2)

theorem Nodes.eval_edgesOf (hm : m.Nodes) (hf : m.Live f) (inner : f.isTerminal = false)
    {d : Assignment} {h : Handle} (found : itemAt? (d (m.levelOf f)) (m.edgesOf f) = some h) :
    m.eval d h = m.eval d f := by
  obtain ⟨lo, e, he, rfl, -⟩ := exists_interval_of_itemAt? none found nofun
  have live := (hm.child hf (mem_of_mem_intervals he)).1
  rw [hm.eval_eq hf, hm.unfold_of_inner hf inner, Diagram.eval_node, itemAt?_mapItems, found,
    hm.eval_eq live]
  rfl

theorem Nodes.cofactors_eq_ok (hm : m.Nodes) (hf : m.Live f) (inner : f.isTerminal = false)
    (le : level ≤ m.levelOf f) : ∃ es, m.cofactors f level = .ok es ∧ m.Cofactors f level es := by
  have read : m.cofactors f level =
      if m.levelOf f = level then .ok (m.edgesOf f) else .ok (whole f) := by
    rw [cofactors, hm.level_eq_ok hf, hm.edges_eq_ok hf]
    rfl
  have tree := hm.unfold_of_inner hf inner
  rw [read]
  split
  next eq =>
    subst eq
    exact ⟨_, rfl, by rw [tree, Diagram.cofactors_node, if_pos rfl], hm.proper_edgesOf hf inner,
      fun e he => (hm.child hf he).1, fun e he => (hm.child hf he).2, hm.eval_edgesOf hf inner⟩
  next ne =>
    refine ⟨_, rfl, ?_, rfl, fun e he => ?_, fun e he => ?_, fun {d h} found => ?_⟩
    · rw [tree, Diagram.cofactors_node, if_neg ne, ← tree]
      rfl
    · rwa [List.mem_singleton.1 he]
    · rw [List.mem_singleton.1 he]
      exact Nat.lt_of_le_of_ne le (Ne.symm ne)
    · rw [whole, itemAt?_cons_of_holds (Bound.holds_infinity _)] at found
      cases found
      rfl

theorem Cofactors.small {es : CutList Handle} {K : Int} (h : m.Cofactors f level es)
    (small : Diagram.Small K (m.unfold f)) :
    ∀ e ∈ es, e.upper.Within K ∧ Diagram.Small K (m.unfold e.item) := by
  intro e he
  have mem : (⟨m.unfold e.item, e.upper⟩ : Piece Diagram) ∈ (m.unfold f).cofactors level :=
    h.trees ▸ List.mem_map_of_mem he
  exact small.cofactors _ mem

theorem Cofactors.splits {es gs : CutList Handle} {ps : CutList (Handle × Handle)}
    (hf : m.Cofactors f level es) (hg : m.Cofactors g level gs)
    (eq : CutList.refine es gs = .ok ps) (h : Refines es gs ps) : m.Splits f g level ps where
  trees := by
    rw [hf.trees, hg.trees, refine_mapItems, eq]
    rfl
  proper := h.proper
  live p hp := by
    obtain ⟨⟨e, he, left⟩, e', he', right⟩ := h.items p hp
    exact ⟨left ▸ hf.live e he, right ▸ hg.live e' he'⟩
  below p hp := by
    obtain ⟨⟨e, he, left⟩, e', he', right⟩ := h.items p hp
    exact ⟨left ▸ hf.below e he, right ▸ hg.below e' he'⟩
  eval {d a b} found := by
    obtain ⟨a', ha⟩ := hf.proper.exists_itemAt? (d level)
    obtain ⟨b', hb⟩ := hg.proper.exists_itemAt? (d level)
    cases found.symm.trans (h.itemAt? ha hb)
    exact ⟨hf.eval ha, hg.eval hb⟩
  small left right p hp := by
    obtain ⟨⟨e, he, eq⟩, e', he', eq'⟩ := h.items p hp
    refine ⟨?_, eq ▸ (hf.small left e he).2, eq' ▸ (hg.small right e' he').2⟩
    rcases h.cuts p hp with ⟨o, ho, cut⟩ | ⟨o, ho, cut⟩
    · exact cut ▸ (hf.small left o ho).1
    · exact cut ▸ (hg.small right o ho).1

/-- The refinement of what is seen of two diagrams from their top level. -/
theorem Nodes.refine_of_cofactors (hm : m.Nodes) (hf : m.Live f) (hg : m.Live g)
    {es gs : CutList Handle} {ps : CutList (Handle × Handle)}
    (hes : m.cofactors f (min (m.levelOf f) (m.levelOf g)) = .ok es)
    (hgs : m.cofactors g (min (m.levelOf f) (m.levelOf g)) = .ok gs)
    (hps : CutList.refine es gs = .ok ps) :
    m.refine f g = .ok (min (m.levelOf f) (m.levelOf g), ps) := by
  rw [refine, hm.level_eq_ok hf, hm.level_eq_ok hg]
  change (m.cofactors f _ >>= fun es => m.cofactors g _ >>= fun gs => _) = _
  rw [hes]
  change (m.cofactors g _ >>= fun gs => CutList.refine es gs >>= fun ps => _) = _
  rw [hgs]
  change (CutList.refine es gs >>= fun ps => _) = _
  rw [hps]
  rfl

theorem Nodes.refine_eq_ok (hm : m.Nodes) (hf : m.Live f) (hg : m.Live g)
    (fInner : f.isTerminal = false) (gInner : g.isTerminal = false) :
    ∃ ps, m.refine f g = .ok (min (m.levelOf f) (m.levelOf g), ps) ∧
      m.Splits f g (min (m.levelOf f) (m.levelOf g)) ps := by
  obtain ⟨es, hes, left⟩ := hm.cofactors_eq_ok hf fInner (Nat.min_le_left _ (m.levelOf g))
  obtain ⟨gs, hgs, right⟩ := hm.cofactors_eq_ok hg gInner (Nat.min_le_right (m.levelOf f) _)
  obtain ⟨ps, hps, refines⟩ := CutList.refine_eq_ok left.proper right.proper
  exact ⟨ps, hm.refine_of_cofactors hf hg hes hgs hps, left.splits right hps refines⟩

/-! ## Combining -/

/-- Pieces of two diagrams that are combined keep their combination in later managers. -/
theorem Applied.mono {m'' : Manager} {a b : Handle} (ha : m.Live a) (hb : m.Live b)
    (grows : m.Grows m') (grows' : m'.Grows m'') (h : m'.Applied op a b r) :
    m''.Applied op a b r :=
  grows'.keeps.applied grows.sound.toNodes grows'.sound.toNodes (grows.keeps.live ha)
    (grows.keeps.live hb) h

section Splits

variable {ps : CutList (Handle × Handle)} {edges : CutList Handle}

/-- What the diagrams of a piece are combined to is below both decisions. -/
theorem Splits.lt_levelOf (keeps : m.Extends m') (h : m.Splits f g level ps)
    (hes : SameCuts (fun c e => m'.Applied op c.1 c.2 e) ps edges) {e : Piece Handle}
    (he : e ∈ edges) : level < m'.levelOf e.item := by
  obtain ⟨p, hp, -, applied⟩ := hes.exists_mem he
  obtain ⟨ha, hb⟩ := h.live p hp
  have below := applied.level_le
  rw [keeps.levelOf ha, keeps.levelOf hb] at below
  exact (Nat.lt_min.2 (h.below p hp)).trans_le below

theorem Splits.supported (keeps : m.Extends m') (h : m.Splits f g level ps)
    (lt : level < ClockPair.count m.clocks)
    (hes : SameCuts (fun c e => m'.Applied op c.1 c.2 e) ps edges) : m'.Supported level edges where
  level_lt := keeps.clocks ▸ lt
  live e he := by
    obtain ⟨p, -, -, applied⟩ := hes.exists_mem he
    exact applied.live
  below _ he := h.lt_levelOf keeps hes he

/-- A node made of combined pieces is the combination. -/
theorem Splits.applied (hm : m.Nodes) (hm' : m'.Nodes) (keeps : m.Extends m') (hf : m.Live f)
    (hg : m.Live g) (h : m.Splits f g (min (m.levelOf f) (m.levelOf g)) ps)
    (hes : SameCuts (fun c e => m'.Applied op c.1 c.2 e) ps edges) (hr : m'.Live r)
    (made : m'.unfold r =
      Diagram.make (min (m.levelOf f) (m.levelOf g)) (mapItems m'.unfold edges)) :
    m'.Applied op f g r where
  live := hr
  eval d := by
    have proper : Proper (mapItems m'.unfold edges) :=
      (sameCuts_mapItems m'.unfold edges).proper (hes.proper h.proper)
    -- The assignment picks one piece, and the node has the truth of the child there.
    obtain ⟨⟨a, b⟩, hab⟩ := h.proper.exists_itemAt? (d (min (m.levelOf f) (m.levelOf g)))
    obtain ⟨e, he, applied⟩ := hes.itemAt? hab
    obtain ⟨lo, p, hp, item, -⟩ := exists_interval_of_itemAt? none hab nofun
    obtain ⟨ha, hb⟩ := h.live p (mem_of_mem_intervals hp)
    rw [item] at ha hb
    obtain ⟨left, right⟩ := h.eval hab
    have root : m'.eval d r = m'.eval d e := by
      rw [hm'.eval_eq hr, made, Diagram.eval_make d _ proper, Diagram.eval_node,
        itemAt?_mapItems, he, hm'.eval_eq applied.live]
      rfl
    rw [root, applied.eval, keeps.eval hm hm' ha, keeps.eval hm hm' hb, left, right,
      keeps.eval hm hm' hf, keeps.eval hm hm' hg]
  level_le := by
    rw [keeps.levelOf hf, keeps.levelOf hg, ← hm'.level_unfold hr, made]
    refine Diagram.le_level_make fun p hp => ?_
    obtain ⟨e, he, rfl⟩ := List.mem_map.1 hp
    obtain ⟨p, -, -, applied⟩ := hes.exists_mem he
    rw [hm'.level_unfold applied.live]
    exact (h.lt_levelOf keeps hes he).le
  small {K} left right := by
    rw [keeps.unfold hm hf] at left
    rw [keeps.unfold hm hg] at right
    rw [made]
    have edge : ∀ q ∈ mapItems m'.unfold edges, q.upper.Within K ∧ Diagram.Small K q.item := by
      intro q hq
      obtain ⟨e, he, rfl⟩ := List.mem_map.1 hq
      obtain ⟨p, hp, cut, applied⟩ := hes.exists_mem he
      obtain ⟨ha, hb⟩ := h.live p hp
      obtain ⟨within, first, second⟩ := h.small left right p hp
      rw [← keeps.unfold hm ha] at first
      rw [← keeps.unfold hm hb] at second
      exact ⟨cut ▸ within, applied.small first second⟩
    exact .make (fun _ q hq => (edge q (mem_of_mem_merge hq)).1) fun q hq => (edge q hq).2

end Splits

theorem Nodes.min_levelOf_lt (hm : m.Nodes) (hf : m.Live f) (inner : f.isTerminal = false)
    (g : Handle) : min (m.levelOf f) (m.levelOf g) < ClockPair.count m.clocks :=
  (Nat.min_le_left _ _).trans_lt (hm.canonical_nodeOf hf inner).2

/-- The diagrams of a piece stay live, and one level down, their paths visit one node less. -/
theorem Splits.piece {ps : CutList (Handle × Handle)} {p : Piece (Handle × Handle)}
    (h : m.Splits f g (min (m.levelOf f) (m.levelOf g)) ps) (keeps : m.Extends m')
    (lt : min (m.levelOf f) (m.levelOf g) < ClockPair.count m.clocks)
    (fFits : m.Fits (depth + 1) f) (gFits : m.Fits (depth + 1) g) (hp : p ∈ ps) :
    (m'.Live p.item.1 ∧ m'.Fits depth p.item.1) ∧ m'.Live p.item.2 ∧ m'.Fits depth p.item.2 := by
  have left := fFits.count_lt
  have right := gFits.count_lt
  have fits {a : Handle} (ha : m.Live a)
      (below : min (m.levelOf f) (m.levelOf g) < m.levelOf a) : m'.Live a ∧ m'.Fits depth a :=
    ⟨keeps.live ha, keeps.fits ha ⟨by omega, by omega⟩⟩
  exact ⟨fits (h.live p hp).1 (h.below p hp).1, fits (h.live p hp).2 (h.below p hp).2⟩

/-- Combine the children of two decisions on their common intervals, and make a node of them. -/
def combinePieces (child : Handle → Handle → ManagerM Handle) (f g : Handle) :
    ManagerM Handle := do
  let (level, pieces) ← query (·.refine f g)
  let edges ← pieces.mapM fun p => do return ⟨← child p.item.1 p.item.2, p.upper⟩
  mkNode level edges

theorem applyWithin_of_shortcut (depth : Nat) (h : op.shortcut f g = some r) :
    applyWithin op (depth + 1) f g = pure r := by
  rw [applyWithin, h]

theorem applyWithin_of_ordered {a b : Handle} (depth : Nat) (none : op.shortcut f g = none)
    (order : f.ordered g = (a, b)) : applyWithin op (depth + 1) f g =
      cached (.apply op a b) (combinePieces (applyWithin op depth) a b) := by
  rw [applyWithin, none, order]
  refine bind_congr fun found => ?_
  cases found with
  | some _ => rfl
  | none => simp only [combinePieces, bind_assoc]

/-- If all diagrams whose paths fit in `depth` can be combined, then so can two decisions whose
paths visit one node more. -/
theorem combinePieces_runs {child : Handle → Handle → ManagerM Handle} (hm : m.Sound)
    (hf : m.Live f) (hg : m.Live g) (fInner : f.isTerminal = false) (gInner : g.isTerminal = false)
    (fFits : m.Fits (depth + 1) f) (gFits : m.Fits (depth + 1) g)
    (hchild : ∀ {m' a b}, m'.Sound → m'.Live a → m'.Live b → m'.Fits depth a → m'.Fits depth b →
      Runs m' (child a b) (fun r m'' => m''.Applied op a b r) F) :
    Runs m (combinePieces child f g) (fun r m' => m'.Right (.apply op f g) r) F := by
  obtain ⟨ps, hps, splits⟩ := hm.refine_eq_ok hf hg fInner gInner
  have level_lt := hm.min_levelOf_lt hf fInner g
  refine .query_bind hps ?_
  have children : Runs m (ps.mapM fun p => do return (⟨← child p.item.1 p.item.2, p.upper⟩ : Edge))
      (fun edges m' => SameCuts (fun c e => m'.Applied op c.1 c.2 e) ps edges) F := by
    apply Runs.mapM hm
    · intro m₁ m₂ p e hp grows grows' h
      obtain ⟨ha, hb⟩ := splits.live p hp
      exact ⟨h.1, h.2.mono ha hb grows grows'⟩
    · intro p hp m' grows
      obtain ⟨⟨ha, aFits⟩, hb, bFits⟩ := splits.piece grows.keeps level_lt fFits gFits hp
      refine (hchild grows.sound ha hb aFits bFits).bind fun r m'' grows' applied => ?_
      exact .pure grows'.sound ⟨rfl, applied⟩
  refine children.bind fun edges m₁ grows hes => ?_
  have supported := splits.supported grows.keeps level_lt hes
  refine (mkNode_runs_of_proper grows.sound supported (hes.proper splits.proper)).imp
    (fun r m₂ grows' ⟨live, made⟩ => ?_) fun _ h => h
  -- Making the node may add to the store; the children are in the larger store what they were.
  have later : SameCuts (fun c e => m₂.Applied op c.1 c.2 e) ps edges :=
    hes.imp_of_mem fun p hp e h => by
      obtain ⟨ha, hb⟩ := splits.live p hp
      exact h.mono ha hb grows grows'
  have trees : mapItems m₁.unfold edges = mapItems m₂.unfold edges :=
    mapItems_congr fun e he =>
      (grows'.keeps.unfold grows.sound.toNodes (supported.live e he)).symm
  have keeps := (grows.trans grows').keeps
  exact ⟨keeps.live hf, keeps.live hg, splits.applied hm.toNodes grows'.sound.toNodes keeps hf hg
    later live (made.trans (congrArg _ trees))⟩

/-- **Diagrams whose paths fit are combined, or the store is full.** -/
theorem applyWithin_runs (hm : m.Sound) (hf : m.Live f) (hg : m.Live g)
    (fFits : m.Fits depth f) (gFits : m.Fits depth g) :
    Runs m (applyWithin op depth f g) (fun r m' => m'.Applied op f g r) F := by
  induction depth generalizing m f g with
  | zero => exact absurd fFits.pos (Nat.lt_irrefl 0)
  | succ depth ih =>
    cases shortcut : op.shortcut f g with
    | some r =>
      rw [applyWithin_of_shortcut depth shortcut]
      exact .pure hm (hm.applied_of_shortcut hf hg shortcut)
    | none =>
      obtain ⟨fInner, gInner⟩ := Connective.inner_of_shortcut_eq_none shortcut
      have pieces {a b} (ha : m.Live a) (hb : m.Live b) (aInner : a.isTerminal = false)
          (bInner : b.isTerminal = false) (aFits : m.Fits (depth + 1) a)
          (bFits : m.Fits (depth + 1) b) :
          Runs m (cached (.apply op a b) (combinePieces (applyWithin op depth) a b))
            (fun r m' => m'.Applied op a b r) F :=
        (Runs.cached hm fun m' grows => combinePieces_runs grows.sound (grows.keeps.live ha)
          (grows.keeps.live hb) aInner bInner (grows.keeps.fits ha aFits)
          (grows.keeps.fits hb bFits) ih).imp (fun _ _ _ right => right.2.2) fun _ h => h
      rcases Handle.ordered_cases f g with order | order <;>
        rw [applyWithin_of_ordered depth shortcut order]
      · exact pieces hf hg fInner gInner fFits gFits
      · exact (pieces hg hf gInner fInner gFits fFits).imp (fun _ _ _ applied => applied.comm)
          fun _ h => h

theorem apply_runs (hm : m.Sound) (hf : m.Live f) (hg : m.Live g) :
    Runs m (apply op f g) (fun r m' => m'.Applied op f g r) F :=
  .get_bind (applyWithin_runs hm hf hg (fits_depth m f) (fits_depth m g))

end Manager

end ZoneDiagram

import ZoneDiagram.Proofs.Diagram.Unique
import ZoneDiagram.Proofs.Manager.Replay

/-!
# What is forgotten is computed again

A remembered result may be lost at any time. The computation that is then repeated gives it back,
because the result is still there: all that it is made of is stored, so no node is added, and what
was made before is found (`Recalls`).

**Theorem (`applyWithin_recalls`).** A combination of two diagrams that is live is found by a
combination of the diagrams, with any cache that the manager may have.

**Theorem (`reduce_recalls`, `applyReduce_recalls`).** So are reductions, and reductions of
combinations.

The pieces of a combination are found one by one: at a value of the top level, the combination is
one of its children, or does not depend on the level (`Combines.exists_piece`). A canonical diagram
tests no level that its truth does not depend on, so the piece is where a node can lead to it.
-/

namespace ZoneDiagram

open CutList

/-- A canonical tree tests no level that its truth does not depend on. -/
theorem Diagram.Canonical.le_level {clocks n : Nat} {t : Diagram} (ht : Canonical clocks t)
    (le : n ≤ ClockPair.terminalLevel)
    (free : ∀ l < n, ∀ d x, eval (Function.update d l x) t = eval d t) : n ≤ t.level := by
  by_contra above
  cases t with
  | leaf b => exact above le
  | node l edges =>
    obtain ⟨p, hp⟩ := List.exists_mem_of_ne_nil edges ht.root.proper.ne_nil
    have child : Canonical clocks p.item := ht.child hp
    obtain ⟨x, hx⟩ := ht.root.proper.exists_value hp
    refine not_eval_eq_of_lt ht child (ht.root.below p hp)
      (fun q hq same => eq_of_eval_eq (ht.child hq) child same) fun d => ?_
    rw [← free l (Nat.not_le.1 above) d x, eval_update_node ht hx]

namespace Manager

variable {m : Manager} {α β : Type} {x : ManagerM α} {a : α} {b : β} {op : Connective}
  {f g r s : Handle} {depth level : Nat} {key : OpKey} {F : Error → Prop}

/-! ## Computations that change the cache only -/

/-- The computation gives a result with any cache that the manager may have, and changes nothing
but the cache, which the manager may have again. -/
def Recalls (m : Manager) (x : ManagerM α) (a : α) : Prop :=
  ∀ c, m.Trusts c → ∃ c', m.Trusts c' ∧ x (m.withCache c) = .ok a (m.withCache c')

theorem recalls_pure (a : α) : m.Recalls (pure a) a := fun c hc => ⟨c, hc, rfl⟩

theorem Recalls.bind {f : α → ManagerM β} (hx : m.Recalls x a) (hf : m.Recalls (f a) b) :
    m.Recalls (x >>= f) b := by
  intro c hc
  obtain ⟨c₁, hc₁, run⟩ := hx c hc
  obtain ⟨c₂, hc₂, rest⟩ := hf c₁ hc₁
  exact ⟨c₂, hc₂, (bind_of_ok run).trans rest⟩

/-- A computation has one result. -/
theorem Recalls.unique {a' : α} (h : m.Recalls x a) (h' : m.Recalls x a') (hm : m.Sound) :
    a = a' := by
  obtain ⟨_, -, run⟩ := h m.cache hm.trusts_cache
  obtain ⟨_, -, run'⟩ := h' m.cache hm.trusts_cache
  cases run.symm.trans run'
  rfl

theorem recalls_of_eq_ok (h : ∀ c, m.Trusts c → x (m.withCache c) = .ok a (m.withCache c)) :
    m.Recalls x a := fun c hc => ⟨c, hc, h c hc⟩

theorem recalls_mapM {ι : Type} {f : ι → ManagerM β} {xs : List ι} {bs : List β}
    (h : List.Forall₂ (fun i b => m.Recalls (f i) b) xs bs) : m.Recalls (xs.mapM f) bs := by
  induction h with
  | nil => exact recalls_pure []
  | cons head _ ih =>
    rw [List.mapM_cons]
    exact head.bind (ih.bind (recalls_pure _))

/-- What the edges make is found with every cache, if it is there. -/
theorem mkNode_recalls {edges : CutList Handle} (hm : m.Nodes) (supported : m.Supported level edges)
    (proper : Proper edges) (hr : m.Live r)
    (made : m.unfold r = Diagram.make level (mapItems m.unfold edges)) :
    m.Recalls (mkNode level edges) r := recalls_of_eq_ok fun c _ => by
  refine mkNode_eq_ok (hm.congr rfl rfl)
    ⟨supported.level_lt, supported.live, supported.below⟩ proper hr ?_
  rw [unfold_withCache]
  exact made

/-! ## Remembered computations -/

/-- What the computation gives is right for the key, and it gives back all that has a property that
right results have. -/
structure Recomputes (m : Manager) (key : OpKey) (x : ManagerM Handle) (P : Handle → Prop) :
    Prop where
  sound : m.Sound
  runs : ∀ m', m.Grows m' → Runs m' x (fun r m'' => m''.Right key r) fun _ => True
  of_right : ∀ r, m.Right key r → P r
  recalls : ∀ r, P r → m.Recalls x r

theorem Recomputes.cached_recalls {x : ManagerM Handle} {P : Handle → Prop} (h : m.Recomputes key x P)
    (hr : P r) : m.Recalls (cached key x) r := by
  intro c hc
  cases found : (c.get key).1 with
  | some s =>
    have held := hc.right _ _ (Cache.holds_of_get_eq_some found)
    rw [(h.recalls r hr).unique (h.recalls s (h.of_right s held)) h.sound]
    exact ⟨_, hc.get key, cached_of_found found⟩
  | none =>
    obtain ⟨c', hc', run⟩ := h.recalls r hr _ (hc.get key)
    obtain ⟨grows, right⟩ := (h.runs _ ((hc.get key).grows h.sound)).result run
    have right : m.Right key r :=
      (withCache_extends m c').right grows.sound.toNodes h.sound.toNodes right
    refine ⟨_, hc'.insert right, ?_⟩
    rw [cached_of_missed found, bind_of_ok run, bind_of_ok (remember_apply ..)]
    rfl

/-! ## Combining -/

/-- A live diagram with the combined truth. -/
structure Combines (m : Manager) (op : Connective) (f g r : Handle) : Prop where
  live : m.Live r
  eval : ∀ d, m.eval d r = op.onBool (m.eval d f) (m.eval d g)

theorem Combines.comm (h : m.Combines op f g r) : m.Combines op g f r :=
  ⟨h.live, fun d => (h.eval d).trans (op.onBool_comm _ _)⟩

theorem Nodes.eq_of_eval_eq (hm : m.Nodes) (hr : m.Live r) (hs : m.Live s)
    (same : ∀ d, m.eval d r = m.eval d s) : r = s := by
  refine hm.eq_of_unfold_eq hr hs (Diagram.eq_of_eval_eq (hm.canonical_unfold hr)
    (hm.canonical_unfold hs) fun d => ?_)
  rw [← hm.eval_eq hr, ← hm.eval_eq hs, same]

theorem Combines.unique (h : m.Combines op f g r) (h' : m.Combines op f g s) (hm : m.Nodes) :
    r = s := hm.eq_of_eval_eq h.live h'.live fun d => (h.eval d).trans (h'.eval d).symm

/-- A live diagram does not depend on a level above its root. -/
theorem Nodes.eval_update (hm : m.Nodes) (hf : m.Live f) (lt : level < m.levelOf f)
    (d : Assignment) (x : ℚ) : m.eval (Function.update d level x) f = m.eval d f := by
  rw [hm.eval_eq hf, hm.eval_eq hf]
  exact Diagram.eval_update (hm.canonical_unfold hf) (hm.level_unfold hf ▸ lt)

/-- The combination is on no level above both diagrams. -/
theorem Combines.le_levelOf (h : m.Combines op f g r) (hm : m.Nodes) (hf : m.Live f)
    (hg : m.Live g) : min (m.levelOf f) (m.levelOf g) ≤ m.levelOf r := by
  rw [← hm.level_unfold h.live]
  refine (hm.canonical_unfold h.live).le_level ((Nat.min_le_left _ _).trans (hm.levelOf_le hf))
    fun l lt d x => ?_
  have left := hm.eval_update hf (lt.trans_le (Nat.min_le_left _ _)) d x
  have right := hm.eval_update hg (lt.trans_le (Nat.min_le_right _ _)) d x
  rw [← hm.eval_eq h.live, ← hm.eval_eq h.live, h.eval, h.eval, left, right]

/-- What a diagram is at a value of a level is live: one of its children, or itself if it starts
below the level. -/
theorem Nodes.exists_live_at (hm : m.Nodes) (hr : m.Live r)
    (lt : level < ClockPair.count m.clocks) (le : level ≤ m.levelOf r) (x : ℚ) :
    ∃ s, m.Live s ∧ ∀ d, m.eval d s = m.eval (Function.update d level x) r := by
  rcases Nat.lt_or_eq_of_le le with below | rfl
  · exact ⟨r, hr, fun d => (hm.eval_update hr below d x).symm⟩
  · have inner := hm.isTerminal_eq_false_of_levelOf lt
    obtain ⟨s, hs⟩ := (hm.proper_edgesOf hr inner).exists_itemAt? x
    obtain ⟨_, e, he, rfl, -⟩ := exists_interval_of_itemAt? none hs nofun
    obtain ⟨live, below⟩ := hm.child hr (mem_of_mem_intervals he)
    refine ⟨e.item, live, fun d => ?_⟩
    rw [← hm.eval_update live below d x]
    exact hm.eval_edgesOf hr inner (by rw [Function.update_self]; exact hs)

section Splits

variable {ps : CutList (Handle × Handle)}

/-- The combination of a piece is there, if the combination of the diagrams is. -/
theorem Combines.exists_piece (h : m.Combines op f g r) (hm : m.Nodes) (hf : m.Live f)
    (hg : m.Live g) (splits : m.Splits f g (min (m.levelOf f) (m.levelOf g)) ps)
    (lt : min (m.levelOf f) (m.levelOf g) < ClockPair.count m.clocks) {p : Piece (Handle × Handle)}
    (hp : p ∈ ps) : ∃ s, m.Combines op p.item.1 p.item.2 s := by
  obtain ⟨x, hx⟩ := splits.proper.exists_value hp
  obtain ⟨s, live, same⟩ := hm.exists_live_at h.live lt (h.le_levelOf hm hf hg) x
  refine ⟨s, live, fun d => ?_⟩
  obtain ⟨left, right⟩ := splits.live p hp
  obtain ⟨leftBelow, rightBelow⟩ := splits.below p hp
  have at_x : itemAt? (Function.update d (min (m.levelOf f) (m.levelOf g)) x
      (min (m.levelOf f) (m.levelOf g))) ps = some (p.item.1, p.item.2) := by
    rw [Function.update_self]
    exact hx
  obtain ⟨left_eq, right_eq⟩ := splits.eval at_x
  rw [same, h.eval, ← left_eq, ← right_eq, hm.eval_update left leftBelow,
    hm.eval_update right rightBelow]

/-- The combinations of pieces are there and below both decisions. -/
theorem Splits.supported_of_combines {edges : CutList Handle} (hm : m.Nodes)
    (splits : m.Splits f g (min (m.levelOf f) (m.levelOf g)) ps)
    (lt : min (m.levelOf f) (m.levelOf g) < ClockPair.count m.clocks)
    (hes : SameCuts (fun c s => m.Combines op c.1 c.2 s) ps edges) :
    m.Supported (min (m.levelOf f) (m.levelOf g)) edges where
  level_lt := lt
  live e he := by
    obtain ⟨p, -, -, combines⟩ := hes.exists_mem he
    exact combines.live
  below e he := by
    obtain ⟨p, hp, -, combines⟩ := hes.exists_mem he
    obtain ⟨left, right⟩ := splits.live p hp
    exact (lt_min (splits.below p hp).1 (splits.below p hp).2).trans_le
      (combines.le_levelOf hm left right)

/-- The tree of a combination is made of the trees of the combinations of its pieces. -/
theorem Splits.unfold_eq_make {edges : CutList Handle} (hm : m.Nodes)
    (splits : m.Splits f g (min (m.levelOf f) (m.levelOf g)) ps)
    (lt : min (m.levelOf f) (m.levelOf g) < ClockPair.count m.clocks)
    (hes : SameCuts (fun c s => m.Combines op c.1 c.2 s) ps edges) (hr : m.Combines op f g r) :
    m.unfold r = Diagram.make (min (m.levelOf f) (m.levelOf g)) (mapItems m.unfold edges) := by
  have supported := splits.supported_of_combines hm lt hes
  have trees : Proper (mapItems m.unfold edges) :=
    (sameCuts_mapItems m.unfold edges).proper (hes.proper splits.proper)
  refine Diagram.eq_of_eval_eq (hm.canonical_unfold hr.live) (.make lt trees fun p hp => ?_)
    fun d => ?_
  · obtain ⟨e, he, rfl⟩ := List.mem_map.1 hp
    have live := supported.live e he
    exact ⟨hm.canonical_unfold live, (hm.level_unfold live).symm ▸ supported.below e he⟩
  · obtain ⟨⟨a, b⟩, hab⟩ := splits.proper.exists_itemAt? (d (min (m.levelOf f) (m.levelOf g)))
    obtain ⟨s, hs, combines⟩ := hes.itemAt? hab
    obtain ⟨left, right⟩ := splits.eval hab
    rw [← hm.eval_eq hr.live, hr.eval, ← left, ← right, ← combines.eval, Diagram.eval_make d _ trees,
      Diagram.eval_node, itemAt?_mapItems, hs, hm.eval_eq combines.live]
    rfl

/-- A node made of the combinations of pieces is the combination, if it is there. -/
theorem Splits.mkNode_recalls {edges : CutList Handle} (hm : m.Nodes)
    (splits : m.Splits f g (min (m.levelOf f) (m.levelOf g)) ps)
    (lt : min (m.levelOf f) (m.levelOf g) < ClockPair.count m.clocks)
    (hes : SameCuts (fun c s => m.Combines op c.1 c.2 s) ps edges) (hr : m.Combines op f g r) :
    m.Recalls (mkNode (min (m.levelOf f) (m.levelOf g)) edges) r :=
  Manager.mkNode_recalls hm (splits.supported_of_combines hm lt hes) (hes.proper splits.proper)
    hr.live (splits.unfold_eq_make hm lt hes hr)

end Splits

/-- The pieces of two decisions are combined to what is there, if the diagrams of a piece are. -/
theorem combinePieces_recalls {child : Handle → Handle → ManagerM Handle} (hm : m.Nodes)
    (hf : m.Live f) (hg : m.Live g) (fInner : f.isTerminal = false) (gInner : g.isTerminal = false)
    (fFits : m.Fits (depth + 1) f) (gFits : m.Fits (depth + 1) g)
    (hchild : ∀ {a b s}, m.Live a → m.Live b → m.Fits depth a → m.Fits depth b →
      m.Combines op a b s → m.Recalls (child a b) s)
    (hr : m.Combines op f g r) : m.Recalls (combinePieces child f g) r := by
  obtain ⟨ps, hps, splits⟩ := hm.refine_eq_ok hf hg fInner gInner
  have level_lt := hm.min_levelOf_lt hf fInner g
  have there : ∃ edges, SameCuts (fun c s => m.Combines op c.1 c.2 s) ps edges :=
    exists_sameCuts fun p hp => hr.exists_piece hm hf hg splits level_lt hp
  obtain ⟨edges, hes⟩ := there
  have children : SameCuts (fun c s => m.Recalls (child c.1 c.2) s) ps edges :=
    hes.imp_of_mem fun p hp s combines => by
      obtain ⟨⟨ha, aFits⟩, hb, bFits⟩ := splits.piece (.refl m) level_lt fFits gFits hp
      exact hchild ha hb aFits bFits combines
  have pieces : m.Recalls (query (·.refine f g)) (min (m.levelOf f) (m.levelOf g), ps) :=
    recalls_of_eq_ok fun c _ => query_of_ok hps
  refine pieces.bind ((recalls_mapM ?_).bind (splits.mkNode_recalls hm level_lt hes hr))
  refine children.imp fun p e ⟨upper, recalls⟩ => ?_
  rw [upper]
  exact recalls.bind (recalls_pure _)

/-- Two decisions are combined again to every diagram with the combined truth. -/
theorem recomputes_combinePieces (hm : m.Sound) (hf : m.Live f) (hg : m.Live g)
    (fInner : f.isTerminal = false) (gInner : g.isTerminal = false)
    (fFits : m.Fits (depth + 1) f) (gFits : m.Fits (depth + 1) g)
    (hchild : ∀ {a b s}, m.Live a → m.Live b → m.Fits depth a → m.Fits depth b →
      m.Combines op a b s → m.Recalls (applyWithin op depth a b) s) :
    m.Recomputes (.apply op f g) (combinePieces (applyWithin op depth) f g)
      (m.Combines op f g) where
  sound := hm
  runs _ grows := combinePieces_runs grows.sound (grows.keeps.live hf) (grows.keeps.live hg) fInner
    gInner (grows.keeps.fits hf fFits) (grows.keeps.fits hg gFits) applyWithin_runs
  of_right _ right := ⟨right.2.2.live, right.2.2.eval⟩
  recalls _ hr := combinePieces_recalls hm.toNodes hf hg fInner gInner fFits gFits hchild hr

/-- **A combination that is live is computed again** without a new node. -/
theorem applyWithin_recalls (hm : m.Sound) (hf : m.Live f) (hg : m.Live g)
    (fFits : m.Fits depth f) (gFits : m.Fits depth g) (hr : m.Combines op f g r) :
    m.Recalls (applyWithin op depth f g) r := by
  induction depth generalizing f g r with
  | zero => exact absurd fFits.pos (Nat.lt_irrefl 0)
  | succ depth ih =>
    cases shortcut : op.shortcut f g with
    | some s =>
      have applied := hm.applied_of_shortcut hf hg shortcut
      rw [applyWithin_of_shortcut depth shortcut,
        hr.unique ⟨applied.live, applied.eval⟩ hm.toNodes]
      exact recalls_pure s
    | none =>
      obtain ⟨fInner, gInner⟩ := Connective.inner_of_shortcut_eq_none shortcut
      have again {a b s} (ha : m.Live a) (hb : m.Live b) (aFits : m.Fits depth a)
          (bFits : m.Fits depth b) (hs : m.Combines op a b s) :
          m.Recalls (applyWithin op depth a b) s := ih ha hb aFits bFits hs
      rcases Handle.ordered_cases f g with order | order <;>
        rw [applyWithin_of_ordered depth shortcut order]
      · exact (recomputes_combinePieces hm hf hg fInner gInner fFits gFits again).cached_recalls hr
      · exact (recomputes_combinePieces hm hg hf gInner fInner gFits fFits again).cached_recalls hr.comm

theorem apply_recalls (hm : m.Sound) (hf : m.Live f) (hg : m.Live g) (hr : m.Combines op f g r) :
    m.Recalls (apply op f g) r := fun c hc =>
  applyWithin_recalls hm hf hg (fits_depth m f) (fits_depth m g) hr c hc

/-! ## Reducing -/

theorem recomputes_reducePass (hm : m.Sound) (hf : m.Live f) :
    m.Recomputes (.reduce f) (reducePass f) (m.ReducedIn m.openContext f) where
  sound := hm
  runs _ grows := (reducePass_runs grows.sound (grows.keeps.live hf)).imp (fun _ _ _ h => h)
    fun _ _ => trivial
  of_right _ right := right.2
  recalls r hr := recalls_of_eq_ok fun c hc => by
    have grows := hc.grows hm
    obtain ⟨memo, -, run⟩ := reduceWithin_replays grows.sound.toNodes (memoReduced_empty _)
      (grows.keeps.live hf) (grows.keeps.reducedIn hm.toNodes hf hr) (fits_depth _ f)
    exact bind_of_ok run

/-- **A reduction that is live is computed again** without a new node. -/
theorem reduce_recalls (hm : m.Sound) (hf : m.Live f) (hr : m.ReducedIn m.openContext f r) :
    m.Recalls (reduce f) r := by
  cases inner : f.isTerminal with
  | true =>
    rw [reduce_of_isTerminal inner, hr.unique (reducedIn_of_isTerminal hf inner) hm.toNodes]
    exact recalls_pure f
  | false =>
    rw [reduce_of_inner inner]
    exact (recomputes_reducePass hm hf).cached_recalls hr

/-- **A diagram whose paths are all taken reduces to itself** with every cache, and no node is
stored. -/
theorem TakenIn.reduce_recalls {K : Int} (hf : m.TakenIn K m.openContext f) (hm : m.Sound) :
    m.Recalls (reduce f) f :=
  Manager.reduce_recalls hm hf.live (hf.reducedIn hm.toNodes)

theorem TakenIn.reduce_eq {K : Int} (hf : m.TakenIn K m.openContext f) (hm : m.Sound) :
    ∃ c, reduce f m = .ok f { m with cache := c } := by
  obtain ⟨c, -, run⟩ := hf.reduce_recalls hm m.cache hm.trusts_cache
  exact ⟨c, run⟩

/-! ## Combining and reducing -/

theorem recomputes_applyReducePass (hm : m.Sound) (hf : m.Live f) (hg : m.Live g) :
    m.Recomputes (.applyReduce op f g) (applyReducePass op f g)
      (m.CombinedIn op m.openContext f g) where
  sound := hm
  runs _ grows := (applyReducePass_runs grows.sound (grows.keeps.live hf)
    (grows.keeps.live hg)).imp (fun _ _ _ h => h) fun _ _ => trivial
  of_right _ right := right.2.2
  recalls r hr := recalls_of_eq_ok fun c hc => by
    have grows := hc.grows hm
    obtain ⟨memo, -, run⟩ := applyReduceWithin_replays grows.sound.toNodes
      (memoCombined_empty op _) (grows.keeps.live hf) (grows.keeps.live hg)
      (grows.keeps.combinedIn hm.toNodes hf hg hr) (fits_depth _ f) (fits_depth _ g)
    exact bind_of_ok run

/-- **The reduction of a combination is computed again** without a new node, if it is live. -/
theorem applyReduce_recalls (hm : m.Sound) (hf : m.Live f) (hg : m.Live g)
    (hr : m.CombinedIn op m.openContext f g r) : m.Recalls (applyReduce op f g) r := by
  cases shortcut : op.shortcut f g with
  | some u =>
    rw [applyReduce_of_shortcut shortcut]
    have live := (hm.fits_of_shortcut hf hg (fits_depth m f) (fits_depth m g) shortcut).1
    exact reduce_recalls hm live
      ⟨hr.live, (hm.applyReduces_of_shortcut hf hg shortcut).1 hr.unfold⟩
  | none =>
    rcases Handle.ordered_cases f g with order | order <;>
      rw [applyReduce_of_ordered shortcut order]
    · exact (recomputes_applyReducePass hm hf hg).cached_recalls hr
    · exact (recomputes_applyReducePass hm hg hf).cached_recalls hr.comm

end Manager

end ZoneDiagram

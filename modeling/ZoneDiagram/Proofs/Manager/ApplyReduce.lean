import ZoneDiagram.Proofs.Manager.Apply
import ZoneDiagram.Proofs.Manager.Reduce

/-!
# Combining and reducing in one pass

The pass relates handles as `Diagram.ApplyReduces` relates their trees, whatever is remembered in
the pass. It fails only where no tree is related, or because the store is full.
-/

namespace ZoneDiagram

open CutList

namespace Manager

variable {m m' : Manager} {op : Connective} {f g r : Handle} {ctx : Dbm} {level depth : Nat}

/-! ## Shortcuts -/

theorem Nodes.unfold_inj (hm : m.Nodes) (hf : m.Live f) (hg : m.Live g) :
    m.unfold f = m.unfold g ↔ f = g :=
  ⟨hm.eq_of_unfold_eq hf hg, congrArg m.unfold⟩

/-- Trees have the shortcuts of their handles. -/
theorem Nodes.shortcut_unfold (hm : m.Nodes) (hf : m.Live f) (hg : m.Live g) :
    Diagram.shortcut op (m.unfold f) (m.unfold g) = (op.shortcut f g).map m.unfold := by
  have one {f} (hf : m.Live f) : m.unfold f = .leaf true ↔ f = .one := by
    rw [← unfold_one m, hm.unfold_inj hf hm.live_one]
  have zero {f} (hf : m.Live f) : m.unfold f = .leaf false ↔ f = .zero := by
    rw [← unfold_zero m, hm.unfold_inj hf hm.live_zero]
  have neg : m.unfold f = (m.unfold g).neg ↔ f = -g := by
    rw [← hm.unfold_neg hg, hm.unfold_inj hf hg.neg]
  have same := hm.unfold_inj hf hg
  have fNeg := hm.unfold_neg hf
  have gNeg := hm.unfold_neg hg
  cases op <;> simp only [Diagram.shortcut, Connective.shortcut, one hf, one hg, zero hf, zero hg,
    neg, same] <;> split_ifs <;> simp [unfold_one, unfold_zero, fNeg, gNeg]

theorem Nodes.shortcut_comm (hm : m.Nodes) (hf : m.Live f) (hg : m.Live g)
    (h : op.shortcut f g = none) : op.shortcut g f = none := by
  have tree : Diagram.shortcut op (m.unfold g) (m.unfold f) = (op.shortcut g f).map m.unfold :=
    hm.shortcut_unfold hg hf
  rw [Diagram.shortcut_comm, hm.shortcut_unfold hf hg, h] at tree
  exact Option.map_eq_none_iff.1 tree.symm

/-- A shortcut is live, and its paths are no longer than those of the operands. -/
theorem Nodes.fits_of_shortcut (hm : m.Nodes) (hf : m.Live f) (hg : m.Live g)
    (fFits : m.Fits depth f) (gFits : m.Fits depth g) (h : op.shortcut f g = some r) :
    m.Live r ∧ m.Fits depth r := by
  have negated {f} (fits : m.Fits depth f) : m.Fits depth (-f) :=
    ⟨fits.pos, by rw [hm.levelOf_neg]; exact fits.count_lt⟩
  rcases Connective.shortcut_cases h with terminal | (rfl | rfl) | rfl | rfl
  · have := ClockPair.count_lt_terminalLevel hm.few
    refine ⟨hm.live_of_isTerminal terminal, fFits.pos, ?_⟩
    rw [hm.levelOf_of_isTerminal terminal]
    omega
  · exact ⟨hf, fFits⟩
  · exact ⟨hf.neg, negated fFits⟩
  · exact ⟨hg, gFits⟩
  · exact ⟨hg.neg, negated gFits⟩

/-! ## The memo -/

/-- All results of the memo are right. -/
structure MemoCombined (op : Connective) (memo : ApplyMemo) (m : Manager) : Prop where
  reduced : MemoReduced memo.reduced m
  applied : ∀ (v : PairVisit) (r : Handle), memo.applied[v]? = some r →
    m.Live v.left ∧ m.Live v.right ∧ m.CombinedIn op v.context v.left v.right r

theorem memoCombined_empty (op : Connective) (m : Manager) : MemoCombined op {} m where
  reduced := memoReduced_empty m
  applied v r found := by
    rw [Std.TreeMap.getElem?_emptyc] at found
    cases found

theorem MemoCombined.mono {memo : ApplyMemo} (h : MemoCombined op memo m) (hm : m.Nodes)
    (grows : m.Grows m') : MemoCombined op memo m' where
  reduced := h.reduced.mono hm grows
  applied v r found := by
    obtain ⟨left, right, combined⟩ := h.applied v r found
    exact ⟨grows.keeps.live left, grows.keeps.live right,
      grows.keeps.combinedIn hm left right combined⟩

theorem MemoCombined.insert {memo : ApplyMemo} (h : MemoCombined op memo m) (hf : m.Live f)
    (hg : m.Live g) (combined : m.CombinedIn op ctx f g r) :
    MemoCombined op { memo with applied := memo.applied.insert ⟨f, g, ctx⟩ r } m where
  reduced := h.reduced
  applied v s found := by
    rcases getElem?_insert_eq_some found with ⟨rfl, rfl⟩ | found
    · exact ⟨hf, hg, combined⟩
    · exact h.applied v s found

/-! ## The pass -/

theorem CombinedIn.comm (h : m.CombinedIn op ctx f g r) : m.CombinedIn op ctx g f r :=
  ⟨h.live, h.unfold.comm⟩

theorem reduceIn_passes {memo : ApplyMemo} (hm : m.Sound) (hs : MemoCombined op memo m)
    (hf : m.Live f) (fits : m.Fits depth f) :
    Passes (MemoCombined op) m memo (reduceIn depth f ctx) (fun r m' => m'.ReducedIn ctx f r)
      (Stuck fun t => (m.unfold f).reduce ctx = .ok t) := by
  unfold Passes reduceIn
  refine Runs.bind (reduceWithin_passes hm hs.reduced hf fits) fun a m' grows ⟨memo', reduced⟩ => ?_
  exact .pure grows.sound ⟨⟨memo', (hs.mono hm.toNodes grows).applied⟩, reduced⟩

/-- The pieces of two decisions are related to a node as their trees are. -/
theorem Splits.applyReduces_iff {ps : CutList (Handle × Handle)} {t : Diagram} (hm : m.Nodes)
    (hf : m.Live f) (hg : m.Live g) (h : m.Splits f g (min (m.levelOf f) (m.levelOf g)) ps)
    (shortcut : op.shortcut f g = none) :
    Diagram.ApplyReduces op (m.unfold f) (m.unfold g) ctx t ↔
      Diagram.NodeReduces
        (fun c sub t => Diagram.ApplyReduces op (m.unfold c.1) (m.unfold c.2) sub t)
        (min (m.levelOf f) (m.levelOf g)) ps ctx t := by
  have none : Diagram.shortcut op (m.unfold f) (m.unfold g) = none := by
    rw [hm.shortcut_unfold hf hg, shortcut]
    rfl
  have trees : (m.unfold f).refine (m.unfold g) =
      .ok (mapItems (Prod.map m.unfold m.unfold) ps) := by
    rw [Diagram.refine, hm.level_unfold hf, hm.level_unfold hg]
    exact h.trees
  rw [Diagram.applyReduces_iff none, trees, hm.level_unfold hf, hm.level_unfold hg]
  constructor
  · rintro ⟨_, ⟨⟩, node⟩
    exact Diagram.nodeReduces_mapItems_iff.1 node
  · exact fun node => ⟨_, rfl, Diagram.nodeReduces_mapItems_iff.2 node⟩

/-- What the two diagrams of a piece reduce to is below both decisions. -/
theorem Splits.lt_level_of_applyReduces {ps : CutList (Handle × Handle)} {sub : Dbm} {t : Diagram}
    {p : Piece (Handle × Handle)} (hm : m.Nodes)
    (h : m.Splits f g (min (m.levelOf f) (m.levelOf g)) ps) (hp : p ∈ ps)
    (ht : Diagram.ApplyReduces op (m.unfold p.item.1) (m.unfold p.item.2) sub t) :
    min (m.levelOf f) (m.levelOf g) < t.level := by
  obtain ⟨ha, hb⟩ := h.live p hp
  obtain ⟨left, right⟩ := h.below p hp
  have le := ht.le_level hm.few (hm.canonical_unfold ha) (hm.canonical_unfold hb)
  rw [hm.level_unfold ha, hm.level_unfold hb] at le
  exact (lt_min left right).trans_le le

/-- Diagrams have in every later manager the trees that they have in this one. -/
theorem Passes.of_combinedIn {memo : ApplyMemo} {a b : Handle} {sub : Dbm}
    {x : StateT ApplyMemo ManagerM Handle} (hm : m.Sound) (grows : m.Grows m') (ha : m.Live a)
    (hb : m.Live b)
    (h : Passes (MemoCombined op) m' memo x (fun r m'' => m''.CombinedIn op sub a b r)
      (Stuck (Diagram.ApplyReduces op (m'.unfold a) (m'.unfold b) sub))) :
    Passes (MemoCombined op) m' memo x
      (fun r m'' => m''.Live r ∧
        Diagram.ApplyReduces op (m.unfold a) (m.unfold b) sub (m''.unfold r))
      (Stuck (Diagram.ApplyReduces op (m.unfold a) (m.unfold b) sub)) := by
  rw [← grows.keeps.unfold hm.toNodes ha, ← grows.keeps.unfold hm.toNodes hb]
  refine h.imp (fun r m'' grows' combined => ⟨combined.live, ?_⟩) fun _ stuck => stuck
  rw [← grows'.keeps.unfold grows.sound.toNodes (grows.keeps.live ha),
    ← grows'.keeps.unfold grows.sound.toNodes (grows.keeps.live hb)]
  exact combined.unfold

/-- Combine and reduce two decisions in a context, unless the pass has done it before. -/
def applyReduceNode (child : Handle × Handle → Dbm → StateT ApplyMemo ManagerM Handle)
    (f g : Handle) (ctx : Dbm) : StateT ApplyMemo ManagerM Handle := do
  match (← get).applied[(⟨f, g, ctx⟩ : PairVisit)]? with
  | some result => return result
  | none =>
    let (level, pieces) ← query (·.refine f g)
    let result ← reducePieces level ctx pieces child
    modify fun memo => { memo with applied := memo.applied.insert ⟨f, g, ctx⟩ result }
    return result

theorem applyReduceWithin_of_shortcut {u : Handle} (depth : Nat) (h : op.shortcut f g = some u) :
    applyReduceWithin op (depth + 1) (f, g) ctx = reduceIn (depth + 1) u ctx := by
  rw [applyReduceWithin, h]

theorem applyReduceWithin_of_ordered {a b : Handle} (depth : Nat) (none : op.shortcut f g = none)
    (order : f.ordered g = (a, b)) : applyReduceWithin op (depth + 1) (f, g) ctx =
      applyReduceNode (applyReduceWithin op depth) a b ctx := by
  rw [applyReduceWithin, none, order]
  rfl

/-- If all diagrams whose paths fit in `depth` can be combined and reduced, then so can two
decisions whose paths visit one node more. -/
theorem applyReduceNode_passes {memo : ApplyMemo}
    {child : Handle × Handle → Dbm → StateT ApplyMemo ManagerM Handle} (hm : m.Sound)
    (hs : MemoCombined op memo m) (hf : m.Live f) (hg : m.Live g)
    (shortcut : op.shortcut f g = none) (fFits : m.Fits (depth + 1) f)
    (gFits : m.Fits (depth + 1) g)
    (hchild : ∀ {m' memo' a b sub}, m'.Sound → MemoCombined op memo' m' → m'.Live a → m'.Live b →
      m'.Fits depth a → m'.Fits depth b → Passes (MemoCombined op) m' memo' (child (a, b) sub)
        (fun r m'' => m''.CombinedIn op sub a b r)
        (Stuck (Diagram.ApplyReduces op (m'.unfold a) (m'.unfold b) sub))) :
    Passes (MemoCombined op) m memo (applyReduceNode child f g ctx)
      (fun r m' => m'.CombinedIn op ctx f g r)
      (Stuck (Diagram.ApplyReduces op (m.unfold f) (m.unfold g) ctx)) := by
  refine .get_bind ?_
  split
  next r found => exact .pure hm hs (hs.applied _ _ found).2.2
  next =>
    obtain ⟨fInner, gInner⟩ := Connective.inner_of_shortcut_eq_none shortcut
    obtain ⟨ps, hps, splits⟩ := hm.refine_eq_ok hf hg fInner gInner
    have level_lt := hm.min_levelOf_lt hf fInner g
    refine .lift_bind (query_of_ok hps) ?_
    -- The trees of the pieces are taken where the pass begins; they are the same in later managers.
    have node := reducePieces_passes child ctx
      (R := fun c sub t => Diagram.ApplyReduces op (m.unfold c.1) (m.unfold c.2) sub t)
      (F := fun _ => False) hm hs (fun grows grows' h => h.mono grows.sound.toNodes grows') level_lt
      splits.proper (fun p hp sub t ht => splits.lt_level_of_applyReduces hm.toNodes hp ht)
      fun _ _ q hq m' memo' grows hs' => by
        obtain ⟨lo, p, hlo, -, rfl⟩ := Diagram.exists_edge_of_mem_run hq
        have hp := mem_of_mem_intervals hlo
        obtain ⟨live, live'⟩ := splits.live p hp
        obtain ⟨⟨ha, aFits⟩, hb, bFits⟩ := splits.piece grows.keeps level_lt fFits gFits hp
        refine (Passes.of_combinedIn hm grows live live' ?_).imp (fun _ _ _ h => h) fun _ => .inr
        exact hchild grows.sound hs' ha hb aFits bFits
    refine (node.imp (fun _ _ _ h => h) ?_).bind fun r m' memo' grows hs' ⟨live, reduced⟩ => ?_
    · rintro e (⟨⟨⟩⟩ | stuck)
      exact stuck.imp fun t ht => ⟨t, (splits.applyReduces_iff hm.toNodes hf hg shortcut).1 ht⟩
    · have combined : m'.CombinedIn op ctx f g r := by
        refine ⟨live, ?_⟩
        rw [grows.keeps.unfold hm.toNodes hf, grows.keeps.unfold hm.toNodes hg]
        exact (splits.applyReduces_iff hm.toNodes hf hg shortcut).2 reduced
      exact .modify_bind (.pure grows.sound
        (hs'.insert (grows.keeps.live hf) (grows.keeps.live hg) combined) combined)

/-- A shortcut of two diagrams is reduced as the diagrams are combined and reduced. -/
theorem Nodes.applyReduces_of_shortcut {u : Handle} {t : Diagram} (hm : m.Nodes) (hf : m.Live f)
    (hg : m.Live g) (shortcut : op.shortcut f g = some u) :
    Diagram.ApplyReduces op (m.unfold f) (m.unfold g) ctx t ↔ (m.unfold u).reduce ctx = .ok t := by
  apply Diagram.applyReduces_of_shortcut
  rw [hm.shortcut_unfold hf hg, shortcut]
  rfl

theorem Nodes.combinedIn_of_shortcut {u : Handle} (hm : m.Nodes) (hf : m.Live f) (hg : m.Live g)
    (shortcut : op.shortcut f g = some u) (h : m.ReducedIn ctx u r) : m.CombinedIn op ctx f g r :=
  ⟨h.live, (hm.applyReduces_of_shortcut hf hg shortcut).2 h.unfold⟩

theorem applyReduceWithin_passes {memo : ApplyMemo} (hm : m.Sound) (hs : MemoCombined op memo m)
    (hf : m.Live f) (hg : m.Live g) (fFits : m.Fits depth f) (gFits : m.Fits depth g) :
    Passes (MemoCombined op) m memo (applyReduceWithin op depth (f, g) ctx)
      (fun r m' => m'.CombinedIn op ctx f g r)
      (Stuck (Diagram.ApplyReduces op (m.unfold f) (m.unfold g) ctx)) := by
  induction depth generalizing m f g ctx memo with
  | zero => exact absurd fFits.pos (Nat.lt_irrefl 0)
  | succ depth ih =>
    cases shortcut : op.shortcut f g with
    | some u =>
      obtain ⟨live, fits⟩ := hm.fits_of_shortcut hf hg fFits gFits shortcut
      rw [applyReduceWithin_of_shortcut depth shortcut]
      refine (reduceIn_passes hm hs live fits).imp (fun r m' grows reduced => ?_) fun e stuck => ?_
      · exact grows.sound.combinedIn_of_shortcut (grows.keeps.live hf) (grows.keeps.live hg)
          shortcut reduced
      · exact stuck.imp fun t ht => ⟨t, (hm.applyReduces_of_shortcut hf hg shortcut).1 ht⟩
    | none =>
      rcases Handle.ordered_cases f g with order | order <;>
        rw [applyReduceWithin_of_ordered depth shortcut order]
      · exact applyReduceNode_passes hm hs hf hg shortcut fFits gFits ih
      · have comm := hm.shortcut_comm hf hg shortcut
        exact (applyReduceNode_passes hm hs hg hf comm gFits fFits ih).imp
          (fun r m' _ combined => combined.comm) fun _ stuck => stuck.imp fun t ht => ⟨t, ht.comm⟩

/-- Combine two diagrams and reduce the result in the open context. -/
def applyReducePass (op : Connective) (f g : Handle) : ManagerM Handle := do
  let m ← get
  let (result, _) ← (applyReduceWithin op m.depth (f, g) m.openContext).run {}
  return result

theorem applyReduce_of_shortcut {u : Handle} (h : op.shortcut f g = some u) :
    applyReduce op f g = reduce u := by
  rw [applyReduce, h]

theorem applyReduce_of_ordered {a b : Handle} (none : op.shortcut f g = none)
    (order : f.ordered g = (a, b)) :
    applyReduce op f g = cached (.applyReduce op a b) (applyReducePass op a b) := by
  rw [applyReduce, none, order]
  refine bind_congr fun found => ?_
  cases found with
  | some _ => rfl
  | none => simp only [applyReducePass, bind_assoc, pure_bind]

theorem applyReducePass_runs (hm : m.Sound) (hf : m.Live f) (hg : m.Live g) :
    Runs m (applyReducePass op f g) (fun r m' => m'.Right (.applyReduce op f g) r)
      (Stuck (Diagram.ApplyReduces op (m.unfold f) (m.unfold g) m.openContext)) :=
  .get_bind (Runs.bind (applyReduceWithin_passes hm (memoCombined_empty op m) hf hg
    (fits_depth m f) (fits_depth m g)) fun _ _ grows ⟨_, combined⟩ =>
      .pure grows.sound ⟨grows.keeps.live hf, grows.keeps.live hg,
        grows.keeps.openContext ▸ combined⟩)

/-- **Two diagrams are combined and reduced if their trees can be, unless the store is full.** -/
theorem applyReduce_runs (hm : m.Sound) (hf : m.Live f) (hg : m.Live g) :
    Runs m (applyReduce op f g) (fun r m' => m'.CombinedIn op m.openContext f g r)
      (Stuck (Diagram.ApplyReduces op (m.unfold f) (m.unfold g) m.openContext)) := by
  cases shortcut : op.shortcut f g with
  | some u =>
    rw [applyReduce_of_shortcut shortcut]
    obtain ⟨live, -⟩ := hm.fits_of_shortcut hf hg (fits_depth m f) (fits_depth m g) shortcut
    refine (reduce_runs hm live).imp (fun r m' grows reduced => ?_) fun e stuck => ?_
    · exact grows.sound.combinedIn_of_shortcut (grows.keeps.live hf) (grows.keeps.live hg)
        shortcut reduced
    · exact stuck.imp fun t ht => ⟨t, (hm.applyReduces_of_shortcut hf hg shortcut).1 ht⟩
  | none =>
    have pass {a b} (ha : m.Live a) (hb : m.Live b) :
        Runs m (cached (.applyReduce op a b) (applyReducePass op a b))
          (fun r m' => m'.CombinedIn op m.openContext a b r)
          (Stuck (Diagram.ApplyReduces op (m.unfold a) (m.unfold b) m.openContext)) := by
      refine (Runs.cached hm fun m' grows => ?_).imp
        (fun r m' grows right => grows.keeps.openContext ▸ right.2.2) fun _ h => h
      rw [← grows.keeps.unfold hm.toNodes ha, ← grows.keeps.unfold hm.toNodes hb,
        ← grows.keeps.openContext]
      exact applyReducePass_runs grows.sound (grows.keeps.live ha) (grows.keeps.live hb)
    rcases Handle.ordered_cases f g with order | order <;>
      rw [applyReduce_of_ordered shortcut order]
    · exact pass hf hg
    · exact (pass hg hf).imp (fun r m' _ combined => combined.comm)
        fun _ stuck => stuck.imp fun t ht => ⟨t, ht.comm⟩

end Manager

end ZoneDiagram

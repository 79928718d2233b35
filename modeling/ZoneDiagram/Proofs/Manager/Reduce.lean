import ZoneDiagram.Proofs.Manager.Node
import ZoneDiagram.Proofs.Manager.Raises

/-!
# Reducing handles

A pass over a diagram reduces every handle to a handle of the reduced tree, whatever is remembered
in the pass: all results of the memo are right in their contexts. The pass fails only where the
reduction of the tree fails (`Stuck`), or because the store is full. The pieces that a context
admits are put together to a decision whose cuts increase, whatever their constants are.
-/

namespace ZoneDiagram

open CutList

/-- What is looked up in a memo after an insertion. -/
theorem getElem?_insert_eq_some {α β : Type} [Ord α] [Std.TransOrd α] [Std.LawfulEqOrd α]
    {memo : Std.TreeMap α β} {a b : α} {x y : β} (h : (memo.insert a x)[b]? = some y) :
    b = a ∧ y = x ∨ memo[b]? = some y := by
  rw [Std.TreeMap.getElem?_insert] at h
  split at h
  next eq => exact .inl ⟨(Std.LawfulEqOrd.eq_of_compare eq).symm, (Option.some.inj h).symm⟩
  next => exact .inr h

namespace Manager

variable {m m' : Manager} {f r : Handle} {ctx : Dbm} {level depth : Nat}

/-! ## Nodes -/

section Pieces

variable {σ α : Type} {J : σ → Manager → Prop} {s : σ} {R : α → Dbm → Diagram → Prop}
  {pieces : CutList α} {F : Error → Prop}

/-- There is no reduction to be found, which is noticed before a node is made. -/
structure Stuck (S : Diagram → Prop) (e : Error) : Prop where
  isMaking : e.isMaking = false
  none : ¬∃ t, S t

theorem Stuck.imp {S S' : Diagram → Prop} {e : Error} (h : Stuck S e)
    (hS : ∀ t, S' t → ∃ t, S t) : Stuck S' e := ⟨h.isMaking, fun ⟨t, ht⟩ => h.none (hS t ht)⟩

/-- What a piece of the run was reduced to: a live child, in a context that is inhabited. -/
def ChildReduced (R : α → Dbm → Diagram → Prop) (m : Manager) (c : α × Dbm) (r : Handle) : Prop :=
  m.Live r ∧ c.2.isEmpty = false ∧ R c.1 c.2 (m.unfold r)

theorem ChildReduced.mono {c : α × Dbm} (h : ChildReduced R m c r) (grows : m.Grows m')
    (hm : m.Nodes) : ChildReduced R m' c r := by
  obtain ⟨live, nonempty, child⟩ := h
  refine ⟨grows.keeps.live live, nonempty, ?_⟩
  rw [grows.keeps.unfold hm live]
  exact child

theorem supported_stretch {run : CutList (α × Dbm)} {es : CutList Handle}
    (hes : SameCuts (ChildReduced R m) run es) (hm : m.Nodes)
    (level_lt : level < ClockPair.count m.clocks)
    (below : ∀ q ∈ run, ∀ t, R q.item.1 q.item.2 t → level < t.level) :
    m.Supported level (stretch es) := by
  have child {e : Edge} (he : e ∈ stretch es) : m.Live e.item ∧ level < m.levelOf e.item := by
    obtain ⟨e', he', eq, -⟩ := mem_stretch he
    obtain ⟨q, hq, -, live, -, reduced⟩ := hes.exists_mem he'
    rw [← eq, ← hm.level_unfold live]
    exact ⟨live, below q hq _ reduced⟩
  exact ⟨level_lt, fun e he => (child he).1, fun e he => (child he).2⟩

/-- A piece of the run is reduced, if its child can be. -/
theorem reducePiece_passes {pair : ClockPair} {q : Piece (α × Dbm)}
    (child : α → Dbm → StateT σ ManagerM Handle)
    (hpair : ClockPair.ofLevel level = .ok pair) (hq : q ∈ ctx.feasibleRun pair none pieces)
    (hchild : Passes J m s (child q.item.1 q.item.2)
      (fun r m' => m'.Live r ∧ R q.item.1 q.item.2 (m'.unfold r))
      (fun e => F e ∨ Stuck (R q.item.1 q.item.2) e)) (hm : m.Sound) :
    Passes J m s (do
        let sub ← (q.item.2.inhabited? : ManagerM Dbm)
        return (⟨← child q.item.1 sub, q.upper⟩ : Edge))
      (fun e m' => SameCut (ChildReduced R m') q e)
      (fun e => F e ∨ Stuck (Diagram.NodeReduces R level pieces ctx) e) := by
  cases hsub : q.item.2.inhabited? with
  | error e =>
    have misread := Dbm.raises_inhabited? _ e hsub
    refine .lift_bind_of_error hm rfl (.inr ⟨misread.isMaking, fun ⟨t, node⟩ => ?_⟩)
    have ok := Dbm.inhabited?_eq_ok_iff.2 ⟨(node.child hpair hq).1, rfl⟩
    cases hsub.symm.trans ok
  | ok sub =>
    refine .lift_bind rfl ?_
    obtain ⟨nonempty, rfl⟩ := Dbm.inhabited?_eq_ok_iff.1 hsub
    refine (hchild.imp (fun _ _ _ h => h) fun e he => ?_).bind
      fun r m₁ s₁ grows hs₁ ⟨live, made⟩ => .pure grows.sound hs₁ ⟨rfl, live, nonempty, made⟩
    exact he.imp_right fun stuck => stuck.imp fun t node => (node.child hpair hq).2

/-- The pieces that a context admits are put together, if their children can be reduced. -/
theorem reducePieces_passes (child : α → Dbm → StateT σ ManagerM Handle) (ctx : Dbm)
    (hm : m.Sound) (hs : J s m)
    (keep : ∀ {s m₁ m₂}, m.Grows m₁ → m₁.Grows m₂ → J s m₁ → J s m₂)
    (level_lt : level < ClockPair.count m.clocks) (proper : Proper pieces)
    (below : ∀ p ∈ pieces, ∀ sub t, R p.item sub t → level < t.level)
    (hchild : ∀ pair, ClockPair.ofLevel level = .ok pair →
      ∀ q ∈ ctx.feasibleRun pair none pieces, ∀ m' s', m.Grows m' → J s' m' →
        Passes J m' s' (child q.item.1 q.item.2)
          (fun r m'' => m''.Live r ∧ R q.item.1 q.item.2 (m''.unfold r))
          (fun e => F e ∨ Stuck (R q.item.1 q.item.2) e)) :
    Passes J m s (reducePieces level ctx pieces child)
      (fun r m' => m'.Live r ∧ Diagram.NodeReduces R level pieces ctx (m'.unfold r))
      (fun e => F e ∨ Stuck (Diagram.NodeReduces R level pieces ctx) e) := by
  obtain ⟨pair, hpair, -⟩ := ClockPair.ofLevel_eq_ok hm.few level_lt
  unfold reducePieces
  rw [hpair]
  refine .lift_bind (x := liftM (Except.ok pair)) (a := pair) rfl ?_
  dsimp only
  split
  -- Where no piece is admitted the pass fails, and nothing is a reduction.
  next empty =>
    refine Passes.bind (Passes.throw (J := J) (Q := fun _ _ => False) hm (.inr ⟨rfl, ?_⟩)) nofun
    rintro ⟨t, pair', es, hpair', some, -⟩
    cases hpair.symm.trans hpair'
    exact some (List.isEmpty_iff.1 empty)
  next some =>
    -- Children that are reduced stay so while the ones after them are reduced.
    refine (Passes.mapM (S := fun m' q e => SameCut (ChildReduced R m') q e) hm hs
      (fun _ grows grows' h => ⟨h.1, h.2.mono grows' grows.sound.toNodes⟩)
      fun q hq m' s' grows hs' => ?_).bind fun es m₁ s₁ grows hs₁ hes => ?_
    · exact reducePiece_passes child hpair hq (hchild pair hpair q hq m' s' grows hs') grows.sound
    have hes : SameCuts (ChildReduced R m₁) (ctx.feasibleRun pair none pieces) es := hes
    have supported := supported_stretch hes grows.sound.toNodes (grows.keeps.clocks ▸ level_lt)
      fun q hq t ht => by
        obtain ⟨p, hp, item, -⟩ := Diagram.mem_edges_of_mem_run hq
        exact below p hp _ t (item ▸ ht)
    have ne : es ≠ [] := by
      rintro rfl
      exact some (List.isEmpty_iff.2 (List.forall₂_nil_right_iff.1 hes))
    have ascending := hes.ascending (Dbm.ascending_feasibleRun ctx pair proper.ascending)
    refine (Passes.lift (fun g => keep grows g) hs₁ (mkNode_runs_of_proper grows.sound supported
      (proper_stretch ascending ne))).imp (fun r m₂ _ ⟨live, made⟩ => ⟨live, ?_⟩) fun _ h => h
    refine ⟨pair, mapItems m₁.unfold es, hpair, ?_, ?_, ?_⟩
    · exact fun nil => some (List.isEmpty_iff.2 nil)
    · exact List.forall₂_map_right_iff.2 (List.Forall₂.imp (fun _ _ h => ⟨h.1, h.2.2⟩) hes)
    · rw [made, mapItems_stretch]

end Pieces

/-! ## Passes -/

/-- All results of the memo are right. -/
def MemoReduced (memo : ReduceMemo) (m : Manager) : Prop :=
  ∀ (v : Visit) (r : Handle), memo[v]? = some r →
    m.Live v.diagram ∧ m.ReducedIn v.context v.diagram r

theorem memoReduced_empty (m : Manager) : MemoReduced ∅ m := by
  intro v r h
  rw [Std.TreeMap.getElem?_emptyc] at h
  cases h

theorem MemoReduced.mono {memo : ReduceMemo} (h : MemoReduced memo m) (hm : m.Nodes)
    (grows : m.Grows m') : MemoReduced memo m' := by
  intro v r found
  obtain ⟨live, reduced⟩ := h v r found
  exact ⟨grows.keeps.live live, grows.keeps.reducedIn hm live reduced⟩

theorem MemoReduced.insert {memo : ReduceMemo} (h : MemoReduced memo m) {v : Visit}
    (live : m.Live v.diagram) (reduced : m.ReducedIn v.context v.diagram r) :
    MemoReduced (memo.insert v r) m := by
  intro w s found
  rcases getElem?_insert_eq_some found with ⟨rfl, rfl⟩ | found
  · exact ⟨live, reduced⟩
  · exact h w s found

/-- A constant reduces to itself. -/
theorem reducedIn_of_isTerminal (hf : m.Live f) (terminal : f.isTerminal = true) :
    m.ReducedIn ctx f f where
  live := hf
  unfold := by
    rw [unfold_of_isTerminal terminal]
    rfl

/-- A diagram reduces like its root node, complemented if the diagram is. -/
theorem Nodes.reducedIn_applySign (hm : m.Nodes) (hf : m.Live f)
    (h : m.ReducedIn ctx f.regular r) : m.ReducedIn ctx f (f.applySign r) where
  live := h.live.applySign f
  unfold := by
    have tree := hm.unfold_applySign hf.regular f
    rw [Handle.applySign_regular] at tree
    rw [tree, hm.unfold_applySign h.live]
    split
    · exact Diagram.reduce_neg h.unfold
    · exact h.unfold

/-- The root node of a diagram reduces like the diagram, complemented if the diagram is. -/
theorem Nodes.reducedIn_regular (hm : m.Nodes) (hf : m.Live f) (h : m.ReducedIn ctx f r) :
    m.ReducedIn ctx f.regular (f.applySign r) where
  live := h.live.applySign f
  unfold := by
    have tree := hm.unfold_applySign hf.regular f
    rw [Handle.applySign_regular] at tree
    have reduced := h.unfold
    rw [tree] at reduced
    rw [hm.unfold_applySign h.live]
    split at reduced
    next negated =>
      rw [if_pos negated, ← Diagram.neg_neg (m.unfold f.regular)]
      exact Diagram.reduce_neg reduced
    next plain =>
      rw [if_neg plain]
      exact reduced

/-- A diagram has one reduction in a context. -/
theorem ReducedIn.unique {s : Handle} (hr : m.ReducedIn ctx f r) (hs : m.ReducedIn ctx f s)
    (hm : m.Nodes) : r = s := by
  have same : m.unfold r = m.unfold s := by
    injection hr.unfold.symm.trans hs.unfold
  exact hm.eq_of_unfold_eq hr.live hs.live same

/-- A decision is reduced from the reductions of its children. -/
theorem Nodes.reduce_eq_ok_iff {t : Diagram} (hm : m.Nodes) (hf : m.Live f)
    (inner : f.isTerminal = false) : (m.unfold f).reduce ctx = .ok t ↔
      Diagram.NodeReduces (fun e sub t => (m.unfold e).reduce sub = .ok t) (m.levelOf f)
        (m.edgesOf f) ctx t := by
  rw [hm.unfold_of_inner hf inner, Diagram.reduce_node_eq_ok_iff, Diagram.nodeReduces_mapItems_iff]

/-- What a child reduces to is below the decision. -/
theorem Nodes.lt_level_of_reduce (hm : m.Nodes) (hf : m.Live f) :
    ∀ e ∈ m.edgesOf f, ∀ sub t, (m.unfold e.item).reduce sub = .ok t → m.levelOf f < t.level := by
  intro e he sub t ht
  obtain ⟨live, lt⟩ := hm.child hf he
  rw [← hm.level_unfold live] at lt
  exact lt.trans_le (Diagram.level_le_of_reduce (hm.canonical_unfold live) ht)

theorem Nodes.exists_reduce_regular {t : Diagram} (hm : m.Nodes) (hf : m.Live f)
    (h : (m.unfold f).reduce ctx = .ok t) : ∃ t, (m.unfold f.regular).reduce ctx = .ok t := by
  have tree := hm.unfold_applySign hf.regular f
  rw [Handle.applySign_regular] at tree
  rw [tree] at h
  split at h
  · exact ⟨t.neg, Diagram.neg_neg (m.unfold f.regular) ▸ Diagram.reduce_neg h⟩
  · exact ⟨t, h⟩

/-- The root of a diagram is reduced from its edges, if the children on admitted edges can be. -/
theorem reduceRoot_passes {J : ReduceMemo → Manager → Prop} {memo : ReduceMemo}
    {F : Error → Prop} (child : Handle → Dbm → StateT ReduceMemo ManagerM Handle) (ctx : Dbm)
    (hm : m.Sound) (hs : J memo m)
    (keep : ∀ {memo m₁ m₂}, m.Grows m₁ → m₁.Grows m₂ → J memo m₁ → J memo m₂)
    (hf : m.Live f) (inner : f.isTerminal = false)
    (hchild : ∀ pair, ClockPair.ofLevel (m.levelOf f) = .ok pair →
      ∀ q ∈ ctx.feasibleRun pair none (m.edgesOf f), ∀ m' memo', m.Grows m' → J memo' m' →
        Passes J m' memo' (child q.item.1 q.item.2)
          (fun r m'' => m''.ReducedIn q.item.2 q.item.1 r)
          (fun e => F e ∨ Stuck (fun t => (m'.unfold q.item.1).reduce q.item.2 = .ok t) e)) :
    Passes J m memo (reducePieces (m.levelOf f) ctx (m.edgesOf f) child)
      (fun r m' => m'.ReducedIn ctx f r)
      (fun e => F e ∨ Stuck (fun t => (m.unfold f).reduce ctx = .ok t) e) := by
  -- A child has in every later manager the tree that it has in this one.
  have children : ∀ pair, ClockPair.ofLevel (m.levelOf f) = .ok pair →
      ∀ q ∈ ctx.feasibleRun pair none (m.edgesOf f), ∀ m' memo', m.Grows m' → J memo' m' →
        Passes J m' memo' (child q.item.1 q.item.2)
          (fun r m'' => m''.Live r ∧ (m.unfold q.item.1).reduce q.item.2 = .ok (m''.unfold r))
          (fun e => F e ∨ Stuck (fun t => (m.unfold q.item.1).reduce q.item.2 = .ok t) e) := by
    intro pair hpair q hq m' memo' grows hs'
    obtain ⟨e, he, item, -⟩ := Diagram.mem_edges_of_mem_run hq
    have live : m.Live q.item.1 := item ▸ (hm.child hf he).1
    have tree := grows.keeps.unfold hm.toNodes live
    refine (hchild pair hpair q hq m' memo' grows hs').imp (fun r m'' grows' reduced => ?_) ?_
    · have same := grows'.keeps.unfold grows.sound.toNodes (grows.keeps.live live)
      exact ⟨reduced.live, tree ▸ same ▸ reduced.unfold⟩
    · exact fun _ => Or.imp_right fun stuck => tree ▸ stuck
  refine (reducePieces_passes child ctx (R := fun e sub t => (m.unfold e).reduce sub = .ok t)
    (F := F) hm hs keep (hm.canonical_nodeOf hf inner).2 (hm.proper_edgesOf hf inner)
    (hm.lt_level_of_reduce hf) children).imp ?_ ?_
  · intro r m' grows ⟨live, reduced⟩
    refine ⟨live, ?_⟩
    rw [grows.keeps.unfold hm.toNodes hf]
    exact (hm.reduce_eq_ok_iff hf inner).2 reduced
  · exact fun _ => Or.imp_right fun stuck => stuck.imp fun t ht =>
      ⟨t, (hm.reduce_eq_ok_iff hf inner).1 ht⟩

theorem reduceWithin_passes {memo : ReduceMemo} (hm : m.Sound) (hs : MemoReduced memo m)
    (hf : m.Live f) (fits : m.Fits depth f) :
    Passes MemoReduced m memo (reduceWithin depth f ctx) (fun r m' => m'.ReducedIn ctx f r)
      (Stuck fun t => (m.unfold f).reduce ctx = .ok t) := by
  induction depth generalizing m f ctx memo with
  | zero => exact absurd fits.pos (Nat.lt_irrefl 0)
  | succ depth ih =>
    unfold reduceWithin
    split
    next terminal => exact .pure hm hs (reducedIn_of_isTerminal hf terminal)
    next inner =>
      refine .get_bind ?_
      split
      next r found => exact .pure hm hs (hm.reducedIn_applySign hf (hs _ _ found).2)
      next none =>
        have live := hf.regular
        have root : f.regular.isTerminal = false :=
          (Handle.isTerminal_regular f).trans (Bool.eq_false_iff.2 inner)
        -- The memo is about regular diagrams, so the sign is put aside and given back at the end.
        have node := reduceRoot_passes (F := fun _ => False) (reduceWithin depth) ctx hm hs
          (fun grows grows' h => h.mono grows.sound.toNodes grows') live root
          fun _ _ q hq m' memo' grows hs' => by
            obtain ⟨lo, e, hlo, -, rfl⟩ := Diagram.exists_edge_of_mem_run hq
            have he := mem_of_mem_intervals hlo
            have child := (hm.child live he).1
            have below := grows.keeps.fits child (fits.regular.child hm.toNodes live root he)
            exact (ih grows.sound hs' (grows.keeps.live child) below).imp
              (fun _ _ _ h => h) fun _ stuck => .inr stuck
        rw [edgesOf_of_isNegated_eq_false (Handle.isNegated_regular f)] at node
        refine .lift_bind (query_of_ok (hm.node_eq_ok live)) ?_
        refine (node.imp (fun _ _ _ h => h) ?_).bind fun r m' memo' grows hs' reduced => ?_
        · rintro e (⟨⟨⟩⟩ | stuck)
          exact stuck.imp fun t ht => hm.exists_reduce_regular hf ht
        · have stored := hs'.insert (v := ⟨f.regular, ctx⟩) (grows.keeps.live live) reduced
          refine .modify_bind (.pure grows.sound stored ?_)
          exact grows.sound.reducedIn_applySign (grows.keeps.live hf) reduced

/-- Reduce a diagram in the open context. -/
def reducePass (f : Handle) : ManagerM Handle := do
  let m ← get
  let (result, _) ← (reduceWithin m.depth f m.openContext).run ∅
  return result

theorem reduce_of_isTerminal (terminal : f.isTerminal = true) : reduce f = pure f := by
  unfold reduce
  rw [if_pos terminal]

theorem reduce_of_inner (inner : f.isTerminal = false) :
    reduce f = cached (.reduce f) (reducePass f) := by
  unfold reduce
  rw [if_neg (Bool.eq_false_iff.1 inner)]
  refine bind_congr fun found => ?_
  cases found with
  | some _ => rfl
  | none => simp only [reducePass, bind_assoc, pure_bind]

theorem reducePass_runs (hm : m.Sound) (hf : m.Live f) :
    Runs m (reducePass f) (fun r m' => m'.Right (.reduce f) r)
      (Stuck fun t => (m.unfold f).reduce m.openContext = .ok t) :=
  .get_bind (Runs.bind (reduceWithin_passes hm (memoReduced_empty m) hf (fits_depth m f))
    fun _ _ grows ⟨_, reduced⟩ =>
      .pure grows.sound ⟨grows.keeps.live hf, grows.keeps.openContext ▸ reduced⟩)

/-- **A diagram is reduced if its tree can be, unless the store is full.** -/
theorem reduce_runs (hm : m.Sound) (hf : m.Live f) :
    Runs m (reduce f) (fun r m' => m'.ReducedIn m.openContext f r)
      (Stuck fun t => (m.unfold f).reduce m.openContext = .ok t) := by
  cases inner : f.isTerminal with
  | true =>
    rw [reduce_of_isTerminal inner]
    exact .pure hm (reducedIn_of_isTerminal hf inner)
  | false =>
    rw [reduce_of_inner inner]
    refine (Runs.cached hm fun m' grows => ?_).imp
      (fun r m' grows right => grows.keeps.openContext ▸ right.2) fun _ h => h
    rw [← grows.keeps.unfold hm.toNodes hf, ← grows.keeps.openContext]
    exact reducePass_runs grows.sound (grows.keeps.live hf)

end Manager

end ZoneDiagram

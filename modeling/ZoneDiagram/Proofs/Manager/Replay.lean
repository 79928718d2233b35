import ZoneDiagram.Proofs.Manager.ApplyReduce
import ZoneDiagram.Proofs.Manager.Rebuild

/-!
# Passes over what is there

A pass builds the reduction of a diagram, or of a combination of two, in a context. If this
reduction is already there, the pass finds every node that it needs, gives the reduction back, and
leaves the manager as it was (`reduceWithin_replays`, `applyReduceWithin_replays`).

A diagram whose paths are all taken by valuations of the context is its own reduction, so it is
given back, also when it is reduced by layers (`TakenIn.reduceByLayers_eq`).
-/

namespace ZoneDiagram.Manager

open CutList

variable {m : Manager} {α β σ : Type}

/-! ## Computations that change the memo only -/

/-- The computation gives a result from a memo, and changes nothing but the memo, which stays
good. -/
def Replays (J : σ → Prop) (m : Manager) (s : σ) (x : StateT σ ManagerM α) (a : α) : Prop :=
  ∃ s', J s' ∧ x.run s m = .ok (a, s') m

section Replays

variable {J : σ → Prop} {s : σ} {x : StateT σ ManagerM α} {a : α} {b : β}

theorem Replays.pure (hs : J s) : Replays J m s (pure a) a := ⟨s, hs, rfl⟩

theorem Replays.bind {J' : σ → Prop} {f : α → StateT σ ManagerM β} (hx : Replays J m s x a)
    (hf : ∀ s', J s' → Replays J' m s' (f a) b) : Replays J' m s (x >>= f) b := by
  obtain ⟨s₁, hs₁, run⟩ := hx
  obtain ⟨s₂, hs₂, rest⟩ := hf s₁ hs₁
  refine ⟨s₂, hs₂, ?_⟩
  rw [StateT.run_bind, bind_of_ok run]
  exact rest

theorem Replays.lift_bind {y : ManagerM α} {f : α → StateT σ ManagerM β} (eq : y m = .ok a m)
    (h : Replays J m s (f a) b) : Replays J m s (liftM y >>= f) b := by
  obtain ⟨s', hs', rest⟩ := h
  have run : (liftM y : StateT σ ManagerM α).run s m = .ok (a, s) m := bind_of_ok eq
  refine ⟨s', hs', ?_⟩
  rw [StateT.run_bind, bind_of_ok run]
  exact rest

theorem Replays.lift {y : ManagerM α} (hs : J s) (eq : y m = .ok a m) :
    Replays J m s (liftM y) a :=
  ⟨s, hs, bind_of_ok eq⟩

theorem Replays.get_bind {f : σ → StateT σ ManagerM β} (h : Replays J m s (f s) b) :
    Replays J m s (get >>= f) b := h

theorem Replays.modify_bind {g : σ → σ} {f : PUnit → StateT σ ManagerM β}
    (h : Replays J m (g s) (f ⟨⟩) b) : Replays J m s (modify g >>= f) b := h

theorem Replays.mapM {ι : Type} {f : ι → StateT σ ManagerM β} {xs : List ι} {bs : List β}
    (hs : J s) (h : List.Forall₂ (fun i b => ∀ s', J s' → Replays J m s' (f i) b) xs bs) :
    Replays J m s (xs.mapM f) bs := by
  induction h generalizing s with
  | nil => exact .pure hs
  | @cons i b xs bs head _ ih =>
    rw [List.mapM_cons]
    refine (head s hs).bind fun s₁ hs₁ => ?_
    refine (ih hs₁).bind fun s₂ hs₂ => ?_
    exact .pure hs₂

/-- A computation has one result. -/
theorem Replays.unique {J' : σ → Prop} {b : α} (h : Replays J m s x a) (h' : Replays J' m s x b) :
    a = b := by
  obtain ⟨_, -, run⟩ := h
  obtain ⟨_, -, run'⟩ := h'
  cases run.symm.trans run'
  rfl

end Replays

/-! ## Passes over what is there -/

variable {op : Connective} {f g r : Handle} {ctx : Dbm} {depth level : Nat} {K : Int}

/-- The edges that a live diagram is made of lead to live diagrams. -/
theorem Nodes.exists_edges {es : List (Piece Diagram)} (hm : m.Nodes) (hr : m.Live r)
    (made : m.unfold r = Diagram.make level (stretch es)) :
    ∃ edges, SameCuts (fun t s => m.Live s ∧ m.unfold s = t) es edges := by
  refine exists_sameCuts fun p hp => ?_
  obtain ⟨q, hq, item⟩ := exists_mem_stretch hp
  rw [← item]
  exact hm.exists_live_child hr made hq

/-- **The pieces that a context admits are put together to what is there**, if their children
give what is there of them. -/
theorem reducePieces_replays {J : σ → Prop} {s : σ} {R : α → Dbm → Diagram → Prop}
    {pieces : CutList α} (child : α → Dbm → StateT σ ManagerM Handle) (hm : m.Nodes) (hs : J s)
    (level_lt : level < ClockPair.count m.clocks) (proper : Proper pieces)
    (below : ∀ p ∈ pieces, ∀ sub t, R p.item sub t → level < t.level) (hr : m.Live r)
    (node : Diagram.NodeReduces R level pieces ctx (m.unfold r))
    (hchild : ∀ pair, ClockPair.ofLevel level = .ok pair →
      ∀ q ∈ ctx.feasibleRun pair none pieces, ∀ t, m.Live t →
        R q.item.1 q.item.2 (m.unfold t) → ∀ s', J s' →
          Replays J m s' (child q.item.1 q.item.2) t) :
    Replays J m s (reducePieces level ctx pieces child) r := by
  obtain ⟨pair, es, hpair, some, hes, made⟩ := node
  -- The reduction is there, so its children are; the pass has to find just these.
  obtain ⟨edges, there⟩ := hm.exists_edges hr made
  have trees : mapItems m.unfold edges = es :=
    SameCuts.mapItems_eq (there.imp_of_mem fun _ _ _ h => h.2)
  have children : SameCuts (ChildReduced R m) (ctx.feasibleRun pair none pieces) edges :=
    (hes.comp there).imp_of_mem fun _ _ _ ⟨_, reduced, live, tree⟩ =>
      ⟨live, reduced.1, tree ▸ reduced.2⟩
  have asc := children.ascending (Dbm.ascending_feasibleRun ctx pair proper.ascending)
  unfold reducePieces
  rw [hpair]
  refine .lift_bind (y := liftM (Except.ok pair)) (a := pair) rfl ?_
  dsimp only
  split
  next empty => exact absurd (List.isEmpty_iff.1 empty) some
  next =>
    refine Replays.bind (a := edges) (.mapM hs ?_) fun s₁ hs₁ => .lift hs₁ ?_
    · have given : SameCuts (fun c t => c.2.isEmpty = false ∧ ∀ s', J s' →
          Replays J m s' (child c.1 c.2) t) (ctx.feasibleRun pair none pieces) edges :=
        children.imp_of_mem fun q hq t ⟨live, nonempty, reduced⟩ =>
          ⟨nonempty, hchild pair hpair q hq t live reduced⟩
      refine given.imp fun q e ⟨upper, nonempty, gives⟩ s' hs' => ?_
      have sub := Dbm.inhabited?_eq_ok_iff.2 ⟨nonempty, rfl⟩
      refine .lift_bind (congrArg (fun r => (liftM r : ManagerM Dbm) m) sub) ?_
      rw [upper]
      exact (gives s' hs').bind fun s₂ hs₂ => .pure hs₂
    · have ne : edges ≠ [] := by
        rintro rfl
        exact some (List.forall₂_nil_right_iff.1 children)
      refine mkNode_eq_ok hm ?_ (proper_stretch asc ne) hr ?_
      · refine supported_stretch children hm level_lt fun q hq t ht => ?_
        obtain ⟨p, hp, item, -⟩ := Diagram.mem_edges_of_mem_run hq
        exact below p hp _ t (item ▸ ht)
      · rw [made, mapItems_stretch, trees]

/-- **A pass gives the reduction of a diagram that is there.** -/
theorem reduceWithin_replays {memo : ReduceMemo} (hm : m.Nodes) (hs : MemoReduced memo m)
    (hf : m.Live f) (hr : m.ReducedIn ctx f r) (fits : m.Fits depth f) :
    Replays (MemoReduced · m) m memo (reduceWithin depth f ctx) r := by
  induction depth generalizing f r ctx memo with
  | zero => exact absurd fits.pos (Nat.lt_irrefl 0)
  | succ depth ih =>
    unfold reduceWithin
    split
    next terminal =>
      rw [hr.unique (reducedIn_of_isTerminal hf terminal) hm]
      exact .pure hs
    next inner =>
      refine .get_bind ?_
      split
      next s found =>
        rw [hr.unique (hm.reducedIn_applySign hf (hs _ _ found).2) hm]
        exact .pure hs
      next =>
        have live := hf.regular
        have inner : f.regular.isTerminal = false :=
          (Handle.isTerminal_regular f).trans (Bool.eq_false_iff.2 inner)
        have reduced := hm.reducedIn_regular hf hr
        have pieces := reducePieces_replays (reduceWithin depth) hm hs
          (hm.canonical_nodeOf live inner).2 (hm.proper_edgesOf live inner)
          (hm.lt_level_of_reduce live) reduced.live
          ((hm.reduce_eq_ok_iff live inner).1 reduced.unfold)
          fun _ _ q hq t ht child memo' hs' => by
            obtain ⟨lo, e, hlo, -, rfl⟩ := Diagram.exists_edge_of_mem_run hq
            have he := mem_of_mem_intervals hlo
            exact ih hs' (hm.child live he).1 ⟨ht, child⟩ (fits.regular.child hm live inner he)
        rw [edgesOf_of_isNegated_eq_false (Handle.isNegated_regular _)] at pieces
        refine .lift_bind (query_of_ok (hm.node_eq_ok live)) ?_
        refine pieces.bind fun memo' hs' => .modify_bind ?_
        rw [Handle.applySign_applySign]
        exact .pure (hs'.insert live reduced)

/-! ## Passes that combine and reduce -/

theorem reduceIn_replays {memo : ApplyMemo} (hm : m.Nodes) (hs : MemoCombined op memo m)
    (hf : m.Live f) (hr : m.ReducedIn ctx f r) (fits : m.Fits depth f) :
    Replays (MemoCombined op · m) m memo (reduceIn depth f ctx) r := by
  obtain ⟨memo', hs', run⟩ := reduceWithin_replays hm hs.reduced hf hr fits
  exact ⟨{ memo with reduced := memo' }, ⟨hs', hs.applied⟩, bind_of_ok run⟩

/-- The pieces of two decisions are combined and reduced to what is there, if the diagrams of a
piece are. -/
theorem Splits.pieces_replays {memo : ApplyMemo} {ps : CutList (Handle × Handle)}
    {child : Handle × Handle → Dbm → StateT ApplyMemo ManagerM Handle} (hm : m.Nodes)
    (hs : MemoCombined op memo m) (hf : m.Live f) (hg : m.Live g)
    (shortcut : op.shortcut f g = none)
    (splits : m.Splits f g (min (m.levelOf f) (m.levelOf g)) ps) (fFits : m.Fits (depth + 1) f)
    (gFits : m.Fits (depth + 1) g)
    (hchild : ∀ {memo' a b sub t}, MemoCombined op memo' m → m.Live a → m.Live b →
      m.Fits depth a → m.Fits depth b → m.CombinedIn op sub a b t →
        Replays (MemoCombined op · m) m memo' (child (a, b) sub) t)
    (hr : m.CombinedIn op ctx f g r) :
    Replays (MemoCombined op · m) m memo
      (reducePieces (min (m.levelOf f) (m.levelOf g)) ctx ps child) r := by
  obtain ⟨fInner, -⟩ := Connective.inner_of_shortcut_eq_none shortcut
  have level_lt := hm.min_levelOf_lt hf fInner g
  refine reducePieces_replays child hm hs level_lt splits.proper
    (fun p hp sub t ht => splits.lt_level_of_applyReduces hm hp ht) hr.live
    ((splits.applyReduces_iff hm hf hg shortcut).1 hr.unfold) fun _ _ q hq t ht reduced memo' hs' => ?_
  obtain ⟨lo, p, hlo, -, rfl⟩ := Diagram.exists_edge_of_mem_run hq
  obtain ⟨⟨ha, aFits⟩, hb, bFits⟩ :=
    splits.piece (.refl m) level_lt fFits gFits (mem_of_mem_intervals hlo)
  exact hchild hs' ha hb aFits bFits ⟨ht, reduced⟩

theorem applyReduceNode_replays {memo : ApplyMemo}
    {child : Handle × Handle → Dbm → StateT ApplyMemo ManagerM Handle} (hm : m.Nodes)
    (hs : MemoCombined op memo m) (hf : m.Live f) (hg : m.Live g)
    (shortcut : op.shortcut f g = none) (fFits : m.Fits (depth + 1) f)
    (gFits : m.Fits (depth + 1) g)
    (hchild : ∀ {memo' a b sub t}, MemoCombined op memo' m → m.Live a → m.Live b →
      m.Fits depth a → m.Fits depth b → m.CombinedIn op sub a b t →
        Replays (MemoCombined op · m) m memo' (child (a, b) sub) t)
    (hr : m.CombinedIn op ctx f g r) :
    Replays (MemoCombined op · m) m memo (applyReduceNode child f g ctx) r := by
  obtain ⟨fInner, gInner⟩ := Connective.inner_of_shortcut_eq_none shortcut
  obtain ⟨ps, hps, splits⟩ := hm.refine_eq_ok hf hg fInner gInner
  have pieces {s memo'} (hs' : MemoCombined op memo' m) (h : m.CombinedIn op ctx f g s) :=
    splits.pieces_replays hm hs' hf hg shortcut fFits gFits hchild h
  refine .get_bind ?_
  split
  next s found =>
    -- What is remembered is computed again, and a computation has one result.
    rw [(pieces hs hr).unique (pieces hs (hs.applied _ _ found).2.2)]
    exact .pure hs
  next =>
    refine .lift_bind (query_of_ok hps) ?_
    exact (pieces hs hr).bind fun memo' hs' => .modify_bind (.pure (hs'.insert hf hg hr))

/-- **A pass gives the reduction of the combination of two diagrams that is there.** -/
theorem applyReduceWithin_replays {memo : ApplyMemo} (hm : m.Nodes) (hs : MemoCombined op memo m)
    (hf : m.Live f) (hg : m.Live g) (hr : m.CombinedIn op ctx f g r) (fFits : m.Fits depth f)
    (gFits : m.Fits depth g) :
    Replays (MemoCombined op · m) m memo (applyReduceWithin op depth (f, g) ctx) r := by
  induction depth generalizing f g r ctx memo with
  | zero => exact absurd fFits.pos (Nat.lt_irrefl 0)
  | succ depth ih =>
    cases shortcut : op.shortcut f g with
    | some u =>
      obtain ⟨live, fits⟩ := hm.fits_of_shortcut hf hg fFits gFits shortcut
      rw [applyReduceWithin_of_shortcut depth shortcut]
      exact reduceIn_replays hm hs live
        ⟨hr.live, (hm.applyReduces_of_shortcut hf hg shortcut).1 hr.unfold⟩ fits
    | none =>
      rcases Handle.ordered_cases f g with order | order <;>
        rw [applyReduceWithin_of_ordered depth shortcut order]
      · exact applyReduceNode_replays hm hs hf hg shortcut fFits gFits
          (fun hs ha hb fits fits' h => ih hs ha hb h fits fits') hr
      · exact applyReduceNode_replays hm hs hg hf (hm.shortcut_comm hf hg shortcut) gFits fFits
          (fun hs ha hb fits fits' h => ih hs ha hb h fits fits') hr.comm

/-! ## Diagrams whose paths are all taken -/

/-- Every path of the diagram is taken in a context, which has room for its constants. -/
structure TakenIn (m : Manager) (K : Int) (ctx : Dbm) (f : Handle) : Prop
    extends MetIn m K ctx f where
  taken : Diagram.TakesAll (m.unfold f) ctx

theorem TakenIn.regular (h : m.TakenIn K ctx f) (hm : m.Nodes) : m.TakenIn K ctx f.regular where
  toMetIn := h.toMetIn.regular hm
  taken := by
    rcases hm.unfold_regular h.live with eq | eq <;> rw [eq]
    exacts [h.taken, h.taken.neg]

/-- The context admits every edge of a diagram whose paths are all taken, and all paths of a child
are taken in what is left. -/
theorem TakenIn.edge {pair : ClockPair} {c : Option Bound × Edge} (h : m.TakenIn K ctx f)
    (hm : m.Nodes) (inner : f.isTerminal = false)
    (hpair : ClockPair.ofLevel (m.levelOf f) = .ok pair)
    (hc : c ∈ intervals none (m.edgesOf f)) :
    ctx.admits pair c.1 c.2.upper ∧
      m.TakenIn K (ctx.restricted pair c.1 c.2.upper) c.2.item := by
  have canonical := hm.canonical_unfold h.live
  have small := h.small
  have taken := h.taken
  rw [hm.unfold_of_inner h.live inner] at canonical small taken
  have div := h.ready.divides canonical.root.level_lt canonical.root.proper small.root hpair
  obtain ⟨admitted, rest⟩ := taken.edge div hpair (fun p hp => canonical.child hp)
    (mem_intervals_mapItems m.unfold hc)
  exact ⟨admitted, h.toMetIn.child hm inner hpair hc admitted, rest⟩

/-- A diagram whose paths are all taken reduces to itself. -/
theorem TakenIn.reducedIn (h : m.TakenIn K ctx f) (hm : m.Nodes) : m.ReducedIn ctx f f :=
  ⟨h.live, Diagram.reduce_of_takesAll h.ready (hm.canonical_unfold h.live) h.small h.taken⟩

/-! ## Reduction by layers -/

/-- The memo gives back what it is asked for, and it has results for some visits. -/
structure Restores (known : List Visit) (memo : ReduceMemo) : Prop where
  own : ∀ (v : Visit) (r : Handle), memo[v]? = some r → r = v.diagram
  found : Remembers known memo

theorem restores_nil : Restores [] ∅ := by
  refine ⟨fun v r found => ?_, nofun⟩
  rw [Std.TreeMap.getElem?_emptyc] at found
  cases found

theorem Restores.insert {known : List Visit} {memo : ReduceMemo} (h : Restores known memo)
    (v : Visit) : Restores (v :: known) (memo.insert v v.diagram) := by
  refine ⟨fun w r found => ?_, h.found.insert v v.diagram⟩
  rcases getElem?_insert_eq_some found with ⟨rfl, rfl⟩ | found
  · rfl
  · exact h.own w r found

/-- A decision whose paths are all taken in a context. -/
structure TakenVisit (m : Manager) (K : Int) (v : Visit) : Prop
    extends TakenIn m K v.context v.diagram where
  inner : v.diagram.isTerminal = false

theorem TakenVisit.successor {v w : Visit} (hv : m.TakenVisit K v) (hm : m.Nodes)
    (hw : w ∈ m.successors v) : m.TakenVisit K w := by
  obtain ⟨pair, hpair, -⟩ :=
    ClockPair.ofLevel_eq_ok hm.few (hm.canonical_nodeOf hv.live hv.inner).2
  obtain ⟨c, hc, inner, -, rfl⟩ := (mem_successors_iff hpair).1 hw
  exact ⟨(hv.edge hm hv.inner hpair hc).2.regular hm, (Handle.isTerminal_regular _).trans inner⟩

theorem carried_takenVisit (hm : m.Nodes) (K : Int) : m.Carried (m.TakenVisit K) :=
  carried_of_met (fun hv => ⟨hv.toMetIn, hv.inner⟩) fun hv hw => hv.successor hm hw

theorem rebuiltChild_replays {memo : ReduceMemo} {known : List Visit} (hs : Restores known memo)
    (h : f.isTerminal = false → ⟨f.regular, ctx⟩ ∈ known) :
    Replays (Restores known) m memo (rebuiltChild f ctx) f := by
  unfold rebuiltChild
  split
  next => exact .pure hs
  next inner =>
    obtain ⟨r, found⟩ := hs.found _ (h (Bool.eq_false_iff.2 inner))
    refine .get_bind ?_
    rw [found, hs.own _ _ found]
    dsimp only
    rw [Handle.applySign_regular]
    exact .pure hs

/-- A visit is rebuilt as it was, if all that its edges lead to is known. -/
theorem rebuild_replays {memo : ReduceMemo} {known : List Visit} {v : Visit} (hm : m.Nodes)
    (hs : Restores known memo) (hv : m.TakenVisit K v)
    (next : ∀ w ∈ m.successors v, w ∈ known) :
    Replays (Restores (v :: known)) m memo (rebuild (m.levelOf v.diagram) v) ⟨⟩ := by
  have pieces := reducePieces_replays rebuiltChild hm hs (hm.canonical_nodeOf hv.live hv.inner).2
    (hm.proper_edgesOf hv.live hv.inner) (hm.lt_level_of_reduce hv.live) hv.live
    ((hm.reduce_eq_ok_iff hv.live hv.inner).1 (hv.reducedIn hm).unfold)
    fun pair hpair q hq t ht reduced memo' hs' => by
      obtain ⟨lo, e, hlo, admitted, rfl⟩ := Diagram.exists_edge_of_mem_run hq
      have child := (hv.edge hm hv.inner hpair hlo).2
      have reduced : m.ReducedIn _ e.item t := ⟨ht, reduced⟩
      rw [reduced.unique (child.reducedIn hm) hm]
      exact rebuiltChild_replays hs' fun inner =>
        next _ ((mem_successors_iff hpair).2 ⟨(lo, e), hlo, inner, admitted, rfl⟩)
  refine .lift_bind (query_of_ok (hm.edges_eq_ok hv.live)) ?_
  exact pieces.bind fun memo' hs' => ⟨_, hs'.insert v, rfl⟩

theorem threads_replays (m : Manager) : Threads fun known x known' =>
    ∀ memo, Restores known memo → Replays (Restores known') m memo x ⟨⟩ where
  skip _ hs := .pure hs
  seq hx hy memo hs := (hx memo hs).bind hy
  forget hx sub memo hs := by
    obtain ⟨memo', hs', run⟩ := hx memo hs
    exact ⟨memo', ⟨hs'.own, fun v hv => hs'.found v (sub v hv)⟩, run⟩

/-- Complete layers are rebuilt as they were. -/
theorem rebuildLayers_replays {layers : List Layer} (hm : m.Nodes)
    (complete : Complete m (m.TakenVisit K) layers) :
    Replays (Restores (visitsOf layers)) m ∅ (rebuildLayers layers) ⟨⟩ := by
  exact complete.rebuildLayers (carried_takenVisit hm K) hm (threads_replays m)
    (fun v hv known next memo hs => rebuild_replays hm hs hv next) ∅ restores_nil

/-- **A diagram whose paths are all taken is given back by a reduction by layers**, and nothing
changes. -/
theorem TakenIn.reduceByLayers_eq (hf : m.TakenIn K m.openContext f) (hm : m.Nodes) :
    reduceByLayers f m = .ok f m := by
  unfold reduceByLayers
  cases inner : f.isTerminal with
  | true =>
    rw [if_pos rfl]
    rfl
  | false =>
    rw [if_neg Bool.false_ne_true]
    have root : m.TakenVisit K ⟨f.regular, m.openContext⟩ :=
      ⟨hf.regular hm, (Handle.isTerminal_regular f).trans inner⟩
    obtain ⟨layers, run, complete, found⟩ :=
      exists_layers (carried_takenVisit hm K) hm hf.live root
    have collected : query (fun m => do
        let fr : Frontier := ⟨∅, ∅⟩
        m.layersFrom m.depth (fr.add (← m.level f) ⟨f.regular, m.openContext⟩) []) m =
        .ok layers m := query_of_ok run
    have pass : Replays (Restores (visitsOf layers)) m ∅
        (do rebuildLayers layers; rebuiltChild f m.openContext) f :=
      Replays.bind (rebuildLayers_replays hm complete)
        fun _ hs => rebuiltChild_replays hs fun _ => found
    obtain ⟨memo, -, rebuilt⟩ := pass
    rw [bind_of_ok collected, get_bind_apply]
    exact bind_of_ok rebuilt

end ZoneDiagram.Manager

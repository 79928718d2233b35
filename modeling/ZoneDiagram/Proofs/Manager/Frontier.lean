import ZoneDiagram.Proofs.Manager.Layers

/-!
# The pass from the root is complete

The pass from the root down takes the pending levels one after the other. Edges lead to later
levels, so a level that was taken is never pending again, and the pass ends within the depth of the
manager (`layersFrom_eq_ok`).

What it returns is complete (`Complete`): the layers are ordered by level, the deepest first, and
with every visit the layers contain all visits that its edges lead to. These are on later levels,
so they stand in earlier layers.

The visits have a property that is kept along edges and rules out failures (`Carried`).

So whatever a rebuild does for one visit whose successors are known, it does for all of them
(`Complete.rebuildLayers`).
-/

namespace ZoneDiagram.Manager

open CutList

variable {m : Manager} {v w : Visit} {fr : Frontier} {level floor depth : Nat}
  {P : Visit → Prop} {vs done : List Visit} {layers : List Layer}

/-! ## What is kept along edges -/

/-- A property of visits that is kept along edges. The visits are to live decisions, and no edge
that a context admits leaves it empty. -/
structure Carried (m : Manager) (P : Visit → Prop) : Prop where
  live : ∀ {v}, P v → m.Live v.diagram
  inner : ∀ {v}, P v → v.diagram.isTerminal = false
  next : ∀ {v w}, P v → w ∈ m.successors v → P w
  inhabited : ∀ {v w}, P v → w ∈ m.successors v → w.context.isEmpty = false

theorem Carried.level_lt (hP : m.Carried P) (hm : m.Nodes) (hv : P v) :
    m.levelOf v.diagram < ClockPair.count m.clocks :=
  (hm.canonical_nodeOf (hP.live hv) (hP.inner hv)).2

theorem Carried.exists_pair (hP : m.Carried P) (hm : m.Nodes) (hv : P v) :
    ∃ pair, ClockPair.ofLevel (m.levelOf v.diagram) = .ok pair := by
  obtain ⟨pair, hpair, -⟩ := ClockPair.ofLevel_eq_ok hm.few (hP.level_lt hm hv)
  exact ⟨pair, hpair⟩

/-- Edges lead to later levels. -/
theorem Carried.level_lt_successor (hP : m.Carried P) (hm : m.Nodes) (hv : P v)
    (hw : w ∈ m.successors v) : m.levelOf v.diagram < m.levelOf w.diagram := by
  obtain ⟨pair, hpair⟩ := hP.exists_pair hm hv
  obtain ⟨c, hc, -, -, rfl⟩ := (mem_successors_iff hpair).1 hw
  have below := (hm.child (hP.live hv) (mem_of_mem_intervals hc)).2
  rwa [levelOf_regular]

/-! ## Adding visits -/

/-- Add visits on their levels. -/
def addAll (m : Manager) (fr : Frontier) (ws : List Visit) : Frontier :=
  ws.foldl (fun fr w => fr.add (m.levelOf w.diagram) w) fr

theorem addAll_append (m : Manager) (fr : Frontier) (vs ws : List Visit) :
    m.addAll fr (vs ++ ws) = m.addAll (m.addAll fr vs) ws := List.foldl_append

theorem expand_eq_ok (hP : m.Carried P) (hm : m.Nodes) (hv : P v) :
    m.expand fr v = .ok (m.addAll fr (m.successors v)) := by
  obtain ⟨pair, hpair⟩ := hP.exists_pair hm hv
  have live := hP.live hv
  have next : m.successors v = (v.context.feasible pair (fun child => !child.isTerminal) none
      (m.edgesOf v.diagram)).map fun p => ⟨p.item.1.regular, p.item.2⟩ := by
    rw [successors, hpair]
  have mem {w : Visit} (hw : w ∈ m.successors v) : m.Live w.diagram ∧ w.context.isEmpty = false :=
    ⟨hP.live (hP.next hv hw), hP.inhabited hv hw⟩
  rw [next] at mem
  rw [expand, hm.pair_eq live (hP.inner hv), hpair, hm.edges_eq_ok live, next, addAll,
    List.foldl_map]
  refine Except.foldlM_eq_ok (fun p hp fr => ?_) fr
  obtain ⟨live, inhabited⟩ := mem (w := ⟨p.item.1.regular, p.item.2⟩) (List.mem_map_of_mem hp)
  dsimp only at live inhabited ⊢
  rw [Dbm.inhabited?_eq_ok_iff.2 ⟨inhabited, rfl⟩, hm.level_eq_ok live]
  rfl

/-- What the pass has found but not looked into: it is pending on its level, which is no earlier
than the floor. Everything that was seen is pending or done. -/
structure Pends (m : Manager) (P : Visit → Prop) (floor : Nat) (fr : Frontier)
    (done : List Visit) : Prop where
  keys : ∀ k ∈ fr.pending, floor ≤ k ∧ k < ClockPair.count m.clocks
  met : ∀ k, ∀ v ∈ (fr.pending.getD k #[]).toList, P v ∧ m.levelOf v.diagram = k
  seen : ∀ v ∈ fr.seen, v ∈ done ∨ v ∈ (fr.pending.getD (m.levelOf v.diagram) #[]).toList

theorem Pends.add (h : Pends m P floor fr done) (hP : m.Carried P) (hm : m.Nodes) (hw : P w)
    (le : floor ≤ m.levelOf w.diagram) :
    Pends m P floor (fr.add (m.levelOf w.diagram) w) done := by
  unfold Frontier.add
  split
  next => exact h
  next =>
    refine ⟨fun k hk => ?_, fun k v hv => ?_, fun v hv => ?_⟩
    · rcases Std.TreeMap.mem_insert.1 hk with eq | hk
      · obtain rfl := Std.LawfulEqOrd.eq_of_compare eq
        exact ⟨le, hP.level_lt hm hw⟩
      · exact h.keys k hk
    · rcases mem_pending_insert.1 hv with hv | ⟨rfl, rfl⟩
      · exact h.met k v hv
      · exact ⟨hw, rfl⟩
    · rw [mem_pending_insert]
      rcases Std.TreeSet.mem_insert.1 hv with eq | hv
      · obtain rfl := Std.LawfulEqOrd.eq_of_compare eq
        exact .inr (.inr ⟨rfl, rfl⟩)
      · exact (h.seen v hv).imp_right Or.inl

theorem mem_seen_add : v ∈ (fr.add level w).seen ↔ v ∈ fr.seen ∨ v = w := by
  unfold Frontier.add
  split
  next old =>
    refine ⟨Or.inl, fun h => h.elim id ?_⟩
    rintro rfl
    exact old
  next =>
    refine Std.TreeSet.mem_insert.trans (or_comm.trans (or_congr_right ?_))
    refine ⟨fun eq => ?_, fun eq => ?_⟩
    · exact (Std.LawfulEqOrd.eq_of_compare eq).symm
    · rw [eq]
      exact Std.ReflCmp.compare_self

theorem mem_seen_addAll : v ∈ (m.addAll fr vs).seen ↔ v ∈ fr.seen ∨ v ∈ vs := by
  induction vs generalizing fr with
  | nil => exact (or_iff_left List.not_mem_nil).symm
  | cons w vs ih =>
    change v ∈ (m.addAll (fr.add (m.levelOf w.diagram) w) vs).seen ↔ _
    rw [ih, mem_seen_add, List.mem_cons, or_assoc]

theorem Pends.addAll (h : Pends m P floor fr done) (hP : m.Carried P) (hm : m.Nodes)
    (hvs : ∀ w ∈ vs, P w ∧ floor ≤ m.levelOf w.diagram) :
    Pends m P floor (m.addAll fr vs) done := by
  induction vs generalizing fr with
  | nil => exact h
  | cons w vs ih =>
    obtain ⟨hw, le⟩ := hvs w List.mem_cons_self
    exact ih (h.add hP hm hw le) fun u hu => hvs u (List.mem_cons_of_mem w hu)

/-! ## One level -/

theorem foldlM_expand_eq_ok (hP : m.Carried P) (hm : m.Nodes) (hvs : ∀ v ∈ vs, P v) :
    vs.foldlM m.expand fr = .ok (m.addAll fr (vs.flatMap m.successors)) := by
  induction vs generalizing fr with
  | nil => rfl
  | cons v vs ih =>
    rw [List.foldlM_cons, expand_eq_ok hP hm (hvs v List.mem_cons_self), List.flatMap_cons,
      addAll_append]
    exact ih fun u hu => hvs u (List.mem_cons_of_mem v hu)

/-- The first pending level is taken. -/
theorem Pends.erase (h : Pends m P floor fr done) (min : fr.pending.minKey? = some level) :
    Pends m P (level + 1) { fr with pending := fr.pending.erase level }
      ((fr.pending.getD level #[]).toList ++ done) := by
  refine ⟨fun k hk => ?_, fun k v hv => ?_, fun v hv => ?_⟩
  · obtain ⟨ne, hk⟩ := Std.TreeMap.mem_erase.1 hk
    have le : level ≤ k :=
      Nat.isLE_compare.1 ((Std.TreeMap.minKey?_eq_some_iff_mem_and_forall.1 min).2 k hk)
    have ne : level ≠ k := fun eq => ne (eq ▸ Std.ReflCmp.compare_self)
    exact ⟨by omega, (h.keys k hk).2⟩
  · exact h.met k v (mem_pending_erase.1 hv).2
  · rw [List.mem_append]
    rcases h.seen v hv with old | pending
    · exact .inl (.inr old)
    · by_cases eq : level = m.levelOf v.diagram
      · exact .inl (.inl (eq ▸ pending))
      · exact .inr (mem_pending_erase.2 ⟨eq, pending⟩)

/-! ## All levels -/

/-- Layers of visits on their level, the deepest first. -/
structure Ordered (m : Manager) (P : Visit → Prop) (layers : List Layer) : Prop where
  met : ∀ l ∈ layers, ∀ v ∈ l.visits, P v ∧ m.levelOf v.diagram = l.level
  sorted : layers.Pairwise fun l l' => l'.level < l.level

/-- The visits of some layers. -/
abbrev visitsOf (layers : List Layer) : List Visit := layers.flatMap Layer.visits

/-- Ordered layers that contain, with every visit, all that its edges lead to. -/
structure Complete (m : Manager) (P : Visit → Prop) (layers : List Layer) : Prop
    extends Ordered m P layers where
  closed : ∀ v ∈ visitsOf layers, ∀ w ∈ m.successors v, w ∈ visitsOf layers

/-- Where the pass stands: everything above the floor is done, up to visits that were seen. -/
structure Passing (m : Manager) (P : Visit → Prop) (floor : Nat) (fr : Frontier)
    (layers : List Layer) : Prop extends Ordered m P layers where
  pends : Pends m P floor fr (visitsOf layers)
  below : ∀ l ∈ layers, l.level < floor
  closed : ∀ v ∈ visitsOf layers, ∀ w ∈ m.successors v, w ∈ fr.seen

/-- With nothing pending, all that was seen is done. -/
theorem Passing.complete (h : Passing m P floor fr layers) (none : fr.pending.minKey? = none) :
    Complete m P layers ∧ ∀ v ∈ fr.seen, v ∈ visitsOf layers := by
  have all : ∀ v ∈ fr.seen, v ∈ visitsOf layers := by
    intro v hv
    refine (h.pends.seen v hv).resolve_right fun pending => ?_
    rw [Std.TreeMap.getD_of_isEmpty (Std.TreeMap.minKey?_eq_none_iff.1 none)] at pending
    cases pending
  exact ⟨⟨h.toOrdered, fun v hv w hw => all w (h.closed v hv w hw)⟩, all⟩

/-- One level: it lies within the floor and the depth, its visits lead to later levels, and nothing
that was seen is lost. -/
theorem Passing.step (hP : m.Carried P) (hm : m.Nodes) (h : Passing m P floor fr layers)
    (min : fr.pending.minKey? = some level) {visits : List Visit}
    (all : (fr.pending.getD level #[]).toList = visits) :
    (floor ≤ level ∧ level < ClockPair.count m.clocks) ∧ ∃ fr',
      visits.foldlM m.expand { fr with pending := fr.pending.erase level } = .ok fr' ∧
        Passing m P (level + 1) fr' (⟨level, visits⟩ :: layers) ∧ ∀ v ∈ fr.seen, v ∈ fr'.seen := by
  have bounds := h.pends.keys level (Std.TreeMap.minKey?_eq_some_iff_mem_and_forall.1 min).1
  have met : ∀ v ∈ visits, P v ∧ m.levelOf v.diagram = level := all ▸ h.pends.met level
  have rest := all ▸ h.pends.erase min
  have next : ∀ w ∈ visits.flatMap m.successors, P w ∧ level + 1 ≤ m.levelOf w.diagram := by
    intro w hw
    obtain ⟨v, hv, hw⟩ := List.mem_flatMap.1 hw
    obtain ⟨good, level_eq⟩ := met v hv
    have later := hP.level_lt_successor hm good hw
    exact ⟨hP.next good hw, by omega⟩
  -- Successors are on later levels, so the levels that were passed get no further visits.
  refine ⟨bounds, _, foldlM_expand_eq_ok hP hm fun v hv => (met v hv).1, ?_, fun v hv => ?_⟩
  · refine ⟨⟨?_, ?_⟩, rest.addAll hP hm next, ?_, fun v hv w hw => ?_⟩
    · exact List.forall_mem_cons.2 ⟨met, h.met⟩
    · exact List.pairwise_cons.2 ⟨fun l hl => (h.below l hl).trans_le bounds.1, h.sorted⟩
    · exact List.forall_mem_cons.2 ⟨Nat.lt_succ_self level, fun l hl =>
        (h.below l hl).trans_le (bounds.1.trans (Nat.le_succ level))⟩
    · rw [mem_seen_addAll]
      rcases List.mem_append.1 hv with hv | hv
      · exact .inr (List.mem_flatMap.2 ⟨v, hv, hw⟩)
      · exact .inl (h.closed v hv w hw)
  · exact mem_seen_addAll.2 (.inl hv)

/-- **The pass from the root ends**, and what it returns is complete and contains all that was
seen. -/
theorem layersFrom_eq_ok (hP : m.Carried P) (hm : m.Nodes) (h : Passing m P floor fr layers)
    (enough : ClockPair.count m.clocks < depth + floor) (pos : 0 < depth) :
    ∃ layers', m.layersFrom depth fr layers = .ok layers' ∧ Complete m P layers' ∧
      ∀ v ∈ fr.seen, v ∈ visitsOf layers' := by
  induction depth generalizing floor fr layers with
  | zero => exact absurd pos (Nat.lt_irrefl 0)
  | succ depth ih =>
    unfold layersFrom
    split
    next none => exact ⟨layers, rfl, h.complete none⟩
    next level min =>
      obtain ⟨⟨le, lt⟩, fr', run, passing, kept⟩ := h.step hP hm min rfl
      obtain ⟨layers', rest, complete, found⟩ := ih passing (by omega) (by omega)
      refine ⟨layers', ?_, complete, fun v hv => found v (kept v hv)⟩
      dsimp only
      rw [run]
      exact rest

theorem pends_empty (m : Manager) (P : Visit → Prop) : Pends m P 0 ⟨∅, ∅⟩ [] where
  keys _ hk := absurd hk Std.TreeMap.not_mem_emptyc
  met k v hv := by
    rw [Std.TreeMap.getD_emptyc] at hv
    cases hv
  seen _ hv := absurd hv Std.TreeSet.not_mem_emptyc

/-- The pass from the root of a diagram returns complete layers that contain the root. -/
theorem exists_layers {f : Handle} {ctx : Dbm} (hP : m.Carried P) (hm : m.Nodes) (hf : m.Live f)
    (hv : P ⟨f.regular, ctx⟩) :
    ∃ layers, (do
        let fr : Frontier := ⟨∅, ∅⟩
        m.layersFrom m.depth (fr.add (← m.level f) ⟨f.regular, ctx⟩) []) = Except.ok layers ∧
      Complete m P layers ∧ ⟨f.regular, ctx⟩ ∈ visitsOf layers := by
  have start : Passing m P 0 (Frontier.add ⟨∅, ∅⟩ (m.levelOf f.regular) ⟨f.regular, ctx⟩) [] :=
    ⟨⟨List.forall_mem_nil _, .nil⟩, (pends_empty m P).add hP hm hv (Nat.zero_le _),
      List.forall_mem_nil _, List.forall_mem_nil _⟩
  obtain ⟨layers, run, complete, found⟩ :=
    layersFrom_eq_ok hP hm start (Nat.lt_succ_self _) (Nat.succ_pos _)
  rw [levelOf_regular] at run found
  refine ⟨layers, ?_, complete, found _ (mem_seen_add.2 (.inr rfl))⟩
  rw [hm.level_eq_ok hf]
  exact run

/-- In complete layers, everything that the edges of a visit lead to stands in an earlier layer. -/
theorem Complete.successor_mem {l : Layer} {before after : List Layer} (hP : m.Carried P)
    (hm : m.Nodes) (h : Complete m P (before ++ l :: after)) (hv : v ∈ l.visits)
    (hw : w ∈ m.successors v) : w ∈ visitsOf before := by
  have here : l ∈ before ++ l :: after := List.mem_append_right _ List.mem_cons_self
  obtain ⟨good, level_eq⟩ := h.met l here v hv
  have later := hP.level_lt_successor hm good hw
  obtain ⟨k, hk, hwk⟩ := List.mem_flatMap.1 (h.closed v (List.mem_flatMap.2 ⟨l, here, hv⟩) w hw)
  obtain ⟨-, level_eq'⟩ := h.met k hk w hwk
  rcases List.mem_append.1 hk with hk | hk
  · exact List.mem_flatMap.2 ⟨k, hk, hwk⟩
  · -- The layers from this one on are no deeper.
    obtain ⟨first, -⟩ := List.pairwise_cons.1 (List.pairwise_append.1 h.sorted).2.1
    rcases List.mem_cons.1 hk with rfl | hk
    · omega
    · have := first k hk
      omega

/-! ## Rebuilding complete layers -/

/-- A way to say which visits a computation finds known and which it leaves known. What is known may
be forgotten, and one computation may follow another. -/
structure Threads (T : List Visit → StateT ReduceMemo ManagerM PUnit → List Visit → Prop) :
    Prop where
  skip : ∀ {known}, T known (pure ⟨⟩) known
  seq : ∀ {known mid known' x y}, T known x mid → T mid y known' →
    T known (x >>= fun _ => y) known'
  forget : ∀ {known mid known' x}, T known x mid → (∀ v ∈ known', v ∈ mid) → T known x known'

section Threads

variable {T : List Visit → StateT ReduceMemo ManagerM PUnit → List Visit → Prop}

/-- If visits can be rebuilt once their successors are known, then so can the visits of a level. -/
theorem Threads.rebuildVisits {known : List Visit} (hT : Threads T)
    (step : ∀ v ∈ vs, ∀ known, (∀ w ∈ m.successors v, w ∈ known) →
      T known (rebuild level v) (v :: known))
    (next : ∀ v ∈ vs, ∀ w ∈ m.successors v, w ∈ known) :
    T known (vs.forM (rebuild level)) (vs ++ known) := by
  induction vs generalizing known with
  | nil => exact hT.skip
  | cons v vs ih =>
    refine hT.seq (step v List.mem_cons_self known (next v List.mem_cons_self)) ?_
    refine hT.forget (ih (fun u hu => step u (List.mem_cons_of_mem v hu)) fun u hu w hw => ?_)
      fun u hu => ?_
    · exact List.mem_cons_of_mem v (next u (List.mem_cons_of_mem v hu) w hw)
    · simp only [List.mem_append, List.mem_cons] at hu ⊢
      tauto

/-- Layers can be rebuilt once those before them are, if all are complete. -/
theorem Complete.rebuildLayers_after (before : List Layer) (hP : m.Carried P) (hm : m.Nodes)
    (hT : Threads T) (step : ∀ v, P v → ∀ known, (∀ w ∈ m.successors v, w ∈ known) →
      T known (rebuild (m.levelOf v.diagram) v) (v :: known))
    (complete : Complete m P (before ++ layers)) :
    T (visitsOf before) (Manager.rebuildLayers layers) (visitsOf (before ++ layers)) := by
  induction layers generalizing before with
  | nil =>
    rw [List.append_nil]
    exact hT.skip
  | cons l layers ih =>
    have met := complete.met l (List.mem_append_right _ List.mem_cons_self)
    have visits : T (visitsOf before) (l.visits.forM (rebuild l.level))
        (l.visits ++ visitsOf before) := by
      refine hT.rebuildVisits (fun v hv => ?_) fun v hv w hw => complete.successor_mem hP hm hv hw
      obtain ⟨good, level_eq⟩ := met v hv
      exact level_eq ▸ step v good
    have split : before ++ l :: layers = (before ++ [l]) ++ layers := by simp
    rw [split] at complete ⊢
    refine hT.seq (hT.forget visits fun v hv => ?_) (ih (before ++ [l]) complete)
    simpa [visitsOf, or_comm] using hv

/-- **If visits can be rebuilt once their successors are known, complete layers can be rebuilt**,
the deepest first. -/
theorem Complete.rebuildLayers (complete : Complete m P layers) (hP : m.Carried P) (hm : m.Nodes)
    (hT : Threads T) (step : ∀ v, P v → ∀ known, (∀ w ∈ m.successors v, w ∈ known) →
      T known (rebuild (m.levelOf v.diagram) v) (v :: known)) :
    T [] (Manager.rebuildLayers layers) (visitsOf layers) :=
  Complete.rebuildLayers_after [] hP hm hT step complete

end Threads

end ZoneDiagram.Manager

import ZoneDiagram.Manager.Reach
import ZoneDiagram.Proofs.SlotTable.Retain
import ZoneDiagram.Proofs.Manager.Paths
import ZoneDiagram.Proofs.Manager.Sound

/-!
# Garbage collection keeps a sound manager

A search from some roots does not fail, and it finds exactly the slots that the roots visit
(`Nodes.reach_eq_ok`). The slots that it adds are closed under children (`Covers`), so whatever is
kept finds its children kept. The results that were remembered may name nodes that are gone, but
none is kept.
-/

namespace ZoneDiagram.Manager

variable {m : Manager} {f f' g : Handle} {depth : Nat} {seen seen' seen'' : Std.TreeSet Nat}
  {roots : List Handle}

/-! ## Everything visited is found -/

/-- The search keeps what it has seen, and sees the children of everything that it adds. -/
structure Covers (m : Manager) (seen seen' : Std.TreeSet Nat) : Prop where
  subset : ∀ {s}, s ∈ seen → s ∈ seen'
  closed : ∀ {s node}, s ∈ seen' → m.store.get? s = some node →
    s ∈ seen ∨ ∀ e ∈ node.edges, e.item.slot ∈ seen'

theorem Covers.refl (m : Manager) (seen : Std.TreeSet Nat) : m.Covers seen seen :=
  ⟨fun h => h, fun h _ => .inl h⟩

theorem Covers.trans (h : m.Covers seen seen') (h' : m.Covers seen' seen'') :
    m.Covers seen seen'' where
  subset hs := h'.subset (h.subset hs)
  closed hs node := by
    rcases h'.closed hs node with old | new
    · exact (h.closed old node).imp_right fun children e he => h'.subset (children e he)
    · exact .inr new

/-- The step of a search through a list: each item is seen, and so are the children of all that is
added. -/
theorem covers_foldlM {α : Type} {step : Std.TreeSet Nat → α → Except Error (Std.TreeSet Nat)}
    {as : List α} (slot : α → Nat)
    (h : ∀ a ∈ as, ∀ seen seen', step seen a = .ok seen' → m.Covers seen seen' ∧ slot a ∈ seen')
    (eq : as.foldlM step seen = Except.ok seen') :
    m.Covers seen seen' ∧ ∀ a ∈ as, slot a ∈ seen' := by
  induction as generalizing seen with
  | nil =>
    cases eq
    exact ⟨.refl m _, nofun⟩
  | cons a as ih =>
    rw [List.foldlM_cons] at eq
    obtain ⟨mid, hmid, eq⟩ := Except.bind_eq_ok_iff.1 eq
    obtain ⟨first, ha⟩ := h a List.mem_cons_self seen mid hmid
    obtain ⟨rest, has⟩ := ih (fun b hb => h b (List.mem_cons_of_mem a hb)) eq
    refine ⟨first.trans rest, fun b hb => ?_⟩
    rcases List.mem_cons.1 hb with rfl | hb
    · exact rest.subset ha
    · exact has b hb

theorem Nodes.live_child {e : Edge} (hm : m.Nodes) (hf : m.Live f)
    (he : e ∈ (m.nodeOf f).edges) : m.Live e.item := by
  obtain ⟨node, hnode, -⟩ := hm.wellFormed.below hf.get? e he
  rw [Live, hnode]
  rfl

theorem covers_reachFrom (hm : m.Nodes) (hf : m.Live f)
    (eq : m.reachFrom depth seen f = .ok seen') : m.Covers seen seen' ∧ f.slot ∈ seen' := by
  induction depth generalizing f seen seen' with
  | zero => cases eq
  | succ depth ih =>
    unfold reachFrom at eq
    split at eq
    next found =>
      cases eq
      exact ⟨.refl m seen, found⟩
    next =>
      rw [hm.node_eq_ok hf] at eq
      obtain ⟨covers, children⟩ := covers_foldlM (fun e : Edge => e.item.slot)
        (fun e he seen seen' eq => ih (hm.live_child hf he) eq) eq
      have self : f.slot ∈ seen.insert f.slot := Std.TreeSet.mem_insert_self
      refine ⟨⟨fun hs => covers.subset (Std.TreeSet.mem_insert.2 (.inr hs)), fun hs node => ?_⟩,
        covers.subset self⟩
      rcases covers.closed hs node with old | new
      · rcases Std.TreeSet.mem_insert.1 old with here | old
        · obtain rfl := Std.LawfulEqOrd.eq_of_compare here
          cases node.symm.trans hf.get?
          exact .inr children
        · exact .inl old
      · exact .inr new

/-- The slots that are reached contain the terminal node and the roots, and all children of what
they hold. -/
theorem reach_closed (hm : m.Nodes) (hr : ∀ f ∈ roots, m.Live f) (eq : m.reach roots = .ok seen) :
    Handle.one.slot ∈ seen ∧ (∀ f ∈ roots, f.slot ∈ seen) ∧
      ∀ {s node}, s ∈ seen → m.store.get? s = some node → ∀ e ∈ node.edges, e.item.slot ∈ seen := by
  have search : roots.foldlM (m.reachFrom m.depth) (Std.TreeSet.empty.insert Handle.one.slot) =
      .ok seen := eq
  obtain ⟨covers, found⟩ := covers_foldlM Handle.slot
    (fun f hf _ _ eq => covers_reachFrom hm (hr f hf) eq) search
  refine ⟨covers.subset Std.TreeSet.mem_insert_self, found, fun hs node => ?_⟩
  rcases covers.closed hs node with old | new
  · rcases Std.TreeSet.mem_insert.1 old with here | old
    · obtain rfl := Std.LawfulEqOrd.eq_of_compare here
      cases node.symm.trans hm.wellFormed.terminal
      exact nofun
    · exact absurd old Std.TreeSet.not_mem_emptyc
  · exact new

/-! ## Everything found is visited -/

/-- The diagram visits the node in a slot. -/
def VisitsSlot (m : Manager) (f : Handle) (slot : Nat) : Prop := ∃ g, m.Visits f g ∧ g.slot = slot

/-- Complement changes no slot on the way. -/
theorem Visits.visitsSlot (h : m.Visits f g) (same : f.slot = f'.slot) :
    m.VisitsSlot f' g.slot := by
  induction h generalizing f' with
  | root f => exact ⟨f', .root f', same.symm⟩
  | @child f g edges e read he _ ih =>
    obtain ⟨node, hnode, read⟩ := Except.bind_eq_ok_iff.1 read
    cases read
    obtain ⟨o, ho, rfl⟩ := List.mem_map.1 he
    have read' : m.edges f' = .ok (CutList.mapItems f'.applySign node.edges) := by
      have hnode' : m.node f' = .ok node := by
        rw [Manager.node, ← same]
        exact hnode
      rw [Manager.edges, hnode']
      rfl
    have child : (f.applySign o.item).slot = (f'.applySign o.item).slot := by
      rw [Handle.slot_applySign, Handle.slot_applySign]
    obtain ⟨g', visits, slot⟩ := ih child
    exact ⟨g', .child read' (List.mem_map_of_mem ho) visits, slot⟩

/-- A diagram visits what the children of its node visit. -/
theorem Nodes.visitsSlot_child {e : Edge} {s : Nat} (hm : m.Nodes) (hf : m.Live f)
    (he : e ∈ (m.nodeOf f).edges) (h : m.VisitsSlot e.item s) : m.VisitsSlot f s := by
  obtain ⟨g, visits, rfl⟩ := h
  obtain ⟨g', visits', slot⟩ :=
    visits.visitsSlot (Handle.slot_applySign f e.item).symm
  exact ⟨g', .child (hm.edges_eq_ok hf) (List.mem_map_of_mem he) visits', slot⟩

/-- The step of a search through a list: no item makes it fail, and what is added is visited. -/
theorem foldlM_eq_ok {α : Type} {step : Std.TreeSet Nat → α → Except Error (Std.TreeSet Nat)}
    (as : List α) {P : α → Nat → Prop}
    (h : ∀ a ∈ as, ∀ seen, ∃ seen', step seen a = Except.ok seen' ∧
      ∀ s ∈ seen', s ∈ seen ∨ P a s)
    (seen : Std.TreeSet Nat) :
    ∃ seen', as.foldlM step seen = Except.ok seen' ∧
      ∀ s ∈ seen', s ∈ seen ∨ ∃ a ∈ as, P a s := by
  induction as generalizing seen with
  | nil => exact ⟨seen, rfl, fun s hs => .inl hs⟩
  | cons a as ih =>
    obtain ⟨mid, hmid, first⟩ := h a List.mem_cons_self seen
    obtain ⟨last, hlast, rest⟩ := ih (fun b hb => h b (List.mem_cons_of_mem a hb)) mid
    refine ⟨last, by rw [List.foldlM_cons, hmid]; exact hlast, fun s hs => ?_⟩
    rcases rest s hs with hs | ⟨b, hb, found⟩
    · exact (first s hs).imp_right fun found => ⟨a, List.mem_cons_self, found⟩
    · exact .inr ⟨b, List.mem_cons_of_mem a hb, found⟩

/-- A search that is as deep as the diagram does not fail, and adds only what is visited. -/
theorem Nodes.reachFrom_eq_ok (hm : m.Nodes) (hf : m.Live f) (fits : m.Fits depth f)
    (seen : Std.TreeSet Nat) : ∃ seen', m.reachFrom depth seen f = .ok seen' ∧
      ∀ s ∈ seen', s ∈ seen ∨ m.VisitsSlot f s := by
  induction depth generalizing f seen with
  | zero => exact absurd fits.pos (Nat.lt_irrefl 0)
  | succ depth ih =>
    unfold reachFrom
    split
    next => exact ⟨seen, rfl, fun s hs => .inl hs⟩
    next =>
      rw [hm.node_eq_ok hf]
      have child {e : Edge} (he : e ∈ (m.nodeOf f).edges) : m.Fits depth e.item := by
        cases inner : f.isTerminal with
        | true =>
          rw [hm.nodeOf_of_isTerminal inner] at he
          cases he
        | false =>
          have fits := fits.child hm hf inner (List.mem_map_of_mem he)
          exact ⟨fits.pos, levelOf_applySign m f e.item ▸ fits.count_lt⟩
      obtain ⟨last, hlast, found⟩ := foldlM_eq_ok (m.nodeOf f).edges
        (fun e he seen => ih (hm.live_child hf he) (child he) seen) (seen.insert f.slot)
      refine ⟨last, hlast, fun s hs => ?_⟩
      rcases found s hs with hs | ⟨e, he, visits⟩
      · rcases Std.TreeSet.mem_insert.1 hs with here | hs
        · exact .inr ⟨f, .root f, Std.LawfulEqOrd.eq_of_compare here⟩
        · exact .inl hs
      · exact .inr (hm.visitsSlot_child hf he visits)

/-- **A search finds exactly the terminal node and what the roots visit.** -/
theorem Nodes.reach_eq_ok (hm : m.Nodes) (hr : ∀ f ∈ roots, m.Live f) :
    ∃ seen, m.reach roots = .ok seen ∧
      ∀ s, s ∈ seen ↔ s = Handle.one.slot ∨ ∃ f ∈ roots, m.VisitsSlot f s := by
  obtain ⟨seen, eq, sound⟩ := foldlM_eq_ok roots
    (fun f hf => hm.reachFrom_eq_ok (hr f hf) (fits_depth m f))
    (Std.TreeSet.empty.insert Handle.one.slot)
  obtain ⟨terminal, start, closed⟩ := reach_closed hm hr eq
  have visited {f g : Handle} (h : m.Visits f g) (hf : m.Live f) (hs : f.slot ∈ seen) :
      g.slot ∈ seen := by
    induction h with
    | root f => exact hs
    | child read he _ ih =>
      rw [hm.edges_eq_ok hf] at read
      cases read
      refine ih (hm.child hf he).1 ?_
      obtain ⟨o, ho, rfl⟩ := List.mem_map.1 he
      rw [Handle.slot_applySign]
      exact closed hs hf.get? o ho
  refine ⟨seen, eq, fun s => ⟨fun hs => ?_, ?_⟩⟩
  · refine (sound s hs).imp_left fun hs => ?_
    rcases Std.TreeSet.mem_insert.1 hs with here | absurd
    · exact (Std.LawfulEqOrd.eq_of_compare here).symm
    · exact (Std.TreeSet.not_mem_emptyc absurd).elim
  · rintro (rfl | ⟨f, hf, g, visits, rfl⟩)
    · exact terminal
    · exact visited visits (hr f hf) (start f hf)

/-! ## What is kept -/

/-- A manager without remembered results is as sound as its nodes. -/
theorem Nodes.sound_of_clear {m' : Manager} {c : Cache OpKey Handle} (hm : m'.Nodes) (hc : c.Fresh)
    (eq : m'.cache = c.clear) : m'.Sound where
  toNodes := hm
  fresh := by
    rw [eq]
    exact Cache.fresh_clear hc
  right h := by
    rw [eq] at h
    exact absurd h (Cache.not_holds_clear hc)

section Retained

variable {keep : Nat → Bool} {store : SlotTable Node} {count : Nat}

/-- A slot holds what it held before, if it is kept. -/
theorem get?_of_retained {s : Nat} {node : Node} (terminal : keep Handle.one.slot = true)
    (retained : m.store.Retained Handle.one.slot keep count store) :
    store.get? s = some node ↔ keep s = true ∧ m.store.get? s = some node := by
  rw [retained.get?]
  cases kept : keep s with
  | true => simp
  | false =>
    have ne : s ≠ Handle.one.slot := fun eq => by
      rw [eq, terminal] at kept
      cases kept
    simp [ne]

/-- Dropping every node that is not kept leaves well-formed nodes, if children are kept. -/
theorem nodes_of_retained (hm : m.Nodes) (terminal : keep Handle.one.slot = true)
    (closed : ∀ {s node}, keep s = true → m.store.get? s = some node →
      ∀ e ∈ node.edges, keep e.item.slot = true)
    (retained : m.store.Retained Handle.one.slot keep count store) :
    Nodes { m with store } where
  wellFormed := {
    terminal := (get?_of_retained terminal retained).2 ⟨terminal, hm.wellFormed.terminal⟩
    canonical := fun s node hs =>
      hm.wellFormed.canonical ((get?_of_retained terminal retained).1 hs).2
    below := fun s node hs e he => by
      obtain ⟨kept, hs⟩ := (get?_of_retained terminal retained).1 hs
      obtain ⟨child, hchild, lt⟩ := hm.wellFormed.below hs e he
      exact ⟨child, (get?_of_retained terminal retained).2 ⟨closed kept hs e he, hchild⟩, lt⟩
    unique := fun s t node hs ht =>
      hm.wellFormed.unique ((get?_of_retained terminal retained).1 hs).2
        ((get?_of_retained terminal retained).1 ht).2 }
  store := retained.consistent
  few := hm.few

end Retained

theorem reachFrom_withCache (m : Manager) (c : Cache OpKey Handle) (depth : Nat) :
    (m.withCache c).reachFrom depth = m.reachFrom depth := by
  induction depth with
  | zero => rfl
  | succ depth ih =>
    funext seen f
    rw [reachFrom, reachFrom, ih]
    rfl

theorem reach_withCache (m : Manager) (c : Cache OpKey Handle) (roots : List Handle) :
    (m.withCache c).reach roots = m.reach roots := by
  unfold reach
  rw [depth, reachFrom_withCache]
  rfl

/-- A collection keeps the slots that are reached and no result. -/
theorem collectGarbage_eq_ok (hm : m.Nodes) (found : m.reach roots = .ok seen) :
    ∃ count store, m.store.Retained Handle.one.slot seen.contains count store ∧
      collectGarbage roots m = .ok count { m with store, cache := m.cache.clear } := by
  obtain ⟨count, store, run, retained⟩ := hm.store.retain_eq_ok seen.contains
  have clear : (modify fun m => { m with cache := m.cache.clear } : ManagerM PUnit) m =
      .ok ⟨⟩ (m.withCache m.cache.clear) := rfl
  have reached : (m.withCache m.cache.clear).reach roots = .ok seen := by
    rw [reach_withCache, found]
  exact ⟨count, store, retained, (bind_of_ok clear).trans ((bind_of_ok (query_of_ok reached)).trans
    ((bind_of_ok (query_of_ok run)).trans rfl))⟩

/-- **Garbage collection leaves a sound manager.** -/
theorem collectGarbage_sound (hm : m.Sound) (hr : ∀ f ∈ roots, m.Live f) :
    (after (collectGarbage roots) m).Sound := by
  obtain ⟨seen, found, -⟩ := hm.toNodes.reach_eq_ok hr
  obtain ⟨terminal, -, closed⟩ := reach_closed hm.toNodes hr found
  obtain ⟨count, store, retained, run⟩ := collectGarbage_eq_ok hm.toNodes found
  rw [after_of_ok run]
  have nodes : Nodes { m with store, cache := m.cache.clear } :=
    (nodes_of_retained hm.toNodes terminal closed retained).congr rfl rfl
  exact nodes.sound_of_clear hm.fresh rfl

end ZoneDiagram.Manager

import ZoneDiagram.Proofs.Representation

/-!
# Garbage collection

**Theorem (`Reachable.collectGarbage_keeps`).** A collection keeps exactly the terminal node and the
nodes that its roots visit, each in its slot and with its level and edges, and no remembered result
(`Swept`). It returns the number of nodes that are gone.

Until the next collection the nodes that were kept are found where they are, and nothing else comes
into their slots (`KeepsSlots`). An empty slot is handed out for a node that no slot holds. So the
handles of the nodes that were kept mean what they meant.
-/

namespace ZoneDiagram.Manager

variable {m m' : Manager} {roots : List Handle} {seen : Std.TreeSet Nat}

/-! ## The collection -/

/-- What a collection leaves of a manager: the terminal node and the nodes that the roots visit,
each in its slot, and no result. -/
structure Swept (m : Manager) (roots : List Handle) (dropped : Nat) (m' : Manager) : Prop where
  occupied : ∀ slot, (m'.store.get? slot).isSome ↔
    slot = Handle.one.slot ∨ ∃ root ∈ roots, m.VisitsSlot root slot
  same : ∀ slot node, m'.store.get? slot = some node → m.store.get? slot = some node
  preserves : m'.Preserves m
  nodeCount : m.nodeCount = m'.nodeCount + dropped
  forgotten : ∀ key, (m'.cache.get key).1 = none

/-- A collection from live roots succeeds and keeps exactly what they visit. -/
theorem Sound.collectGarbage_eq_ok (hm : m.Sound) (hr : ∀ f ∈ roots, m.Live f) :
    ∃ dropped m', collectGarbage roots m = .ok dropped m' ∧ m.Swept roots dropped m' ∧
      m'.Sound := by
  obtain ⟨seen, found, mem⟩ := hm.toNodes.reach_eq_ok hr
  obtain ⟨count, store, retained, run⟩ := Manager.collectGarbage_eq_ok hm.toNodes found
  have sound := collectGarbage_sound hm hr
  rw [after_of_ok run] at sound
  refine ⟨_, _, run, ?_, sound⟩
  have kept {slot : Nat} {node : Node} :
      store.get? slot = some node ↔ slot ∈ seen ∧ m.store.get? slot = some node :=
    get?_of_retained ((mem _).2 (.inl rfl)) retained
  have stored {slot : Nat} (hs : slot ∈ seen) : (m.store.get? slot).isSome := by
    rcases (mem slot).1 hs with rfl | ⟨f, hf, g, visits, rfl⟩
    · exact hm.toNodes.live_one
    · exact visits.live hm.toNodes (hr f hf)
  have pos := sound.store.realSize_pos sound.wellFormed.terminal
  exact {
    occupied := fun slot => by
      rw [← mem slot, Option.isSome_iff_exists]
      constructor
      · rintro ⟨node, hnode⟩
        exact (kept.1 hnode).1
      · intro hs
        obtain ⟨node, hnode⟩ := Option.isSome_iff_exists.1 (stored hs)
        exact ⟨node, kept.2 ⟨hs, hnode⟩⟩
    same := fun slot node hs => (kept.1 hs).2
    preserves :=
      Keeps.preserves ⟨Nat.le_refl _, fun hs => (kept.1 hs).2⟩ sound.toNodes hm.toNodes
    nodeCount := by
      have sizes := retained.realSize
      unfold nodeCount
      dsimp only at pos ⊢
      omega
    forgotten := Cache.get_clear hm.fresh }

/-! ## Later operations -/

/-- What is left to the nodes of a manager later on: they are where they were and mean what they
meant, they are found when they are put again, and no slot that holds a node is handed out. The
terminal node is in no bucket, and it is never put. -/
structure KeepsSlots (m m' : Manager) : Prop where
  same : ∀ slot node, m.store.get? slot = some node → m'.store.get? slot = some node
  preserves : m.Preserves m'
  found : ∀ slot node, m.store.get? slot = some node → slot ≠ Handle.one.slot →
    m'.store.put node = (.ok slot, m'.store)
  fresh : ∀ node slot store, node ≠ .terminal → m'.store.put node = (.ok slot, store) →
    m'.store.get? slot = some node ∧ store = m'.store ∨
      m'.store.get? slot = none ∧ (∀ s, m'.store.get? s ≠ some node) ∧
        ∀ s, store.get? s = if s = slot then some node else m'.store.get? s
  taken : ∀ a : Action, a.collects = false → (∀ f ∈ a.operands, m'.Live f) → ∀ slot node,
    m'.store.get? slot = none → (a.next m').store.get? slot = some node →
      ∀ s, m'.store.get? s ≠ some node

theorem Keeps.keepsSlots (h : m.Keeps m') (hm : m.Nodes) (hm' : m'.Sound) : m.KeepsSlots m' where
  same _ _ hs := h.get? hs
  preserves := h.preserves hm hm'.toNodes
  found slot node hs ne := hm'.store.put_of_get? (h.get? hs) ne
  fresh node slot store ne run := by
    rcases SlotTable.put_cases hm'.store node with
      ⟨slot', run', hs, -⟩ | ⟨slot', store', run', put⟩ | ⟨run', -⟩
    · cases run.symm.trans run'
      exact .inl ⟨hs, rfl⟩
    · cases run.symm.trans run'
      refine .inr ⟨put.unused, fun s hs => ?_, put.get?⟩
      obtain rfl := put.new hs
      cases hs.symm.trans hm'.wellFormed.terminal
      exact ne rfl
    · cases run.symm.trans run'
  taken a plain live slot node empty hs s hs' := by
    have keeps := hm'.keeps_next live plain
    obtain rfl := (hm'.next a live).wellFormed.unique hs (keeps.get? hs')
    rw [empty] at hs'
    cases hs'

/-- **A collection keeps exactly what its roots visit**, and what it keeps stays where it is until
the next one. -/
theorem Reachable.collectGarbage_keeps (h : m.Reachable) (hr : ∀ f ∈ roots, m.Live f) :
    ∃ dropped m', collectGarbage roots m = .ok dropped m' ∧ m.Swept roots dropped m' ∧
      ∀ actions m'', (∀ a ∈ actions, a.collects = false) → m'.run? actions = some m'' →
        m'.KeepsSlots m'' := by
  obtain ⟨dropped, m', run, collects, sound⟩ := h.sound.collectGarbage_eq_ok hr
  refine ⟨dropped, m', run, collects, fun actions m'' plain later => ?_⟩
  obtain ⟨sound', keeps⟩ := sound.keeps_run? plain later
  exact keeps.keepsSlots sound.toNodes sound'

/-- The nodes that filled the store are gone, and the box is built in slots that they had. -/
theorem collectGarbage_keeps_stopped :
    ∃ m', collectGarbage [⟨-5⟩, ⟨-4⟩] stopped = .ok 13 m' ∧
      stopped.Swept [⟨-5⟩, ⟨-4⟩] 13 m' ∧ m'.KeepsSlots reused := by
  obtain ⟨-, live, -, sizes, -⟩ := evaluate_reused
  have start : ∀ f ∈ [⟨-5⟩, ⟨-4⟩], stopped.Live f := fun f hf => (live f hf).2.1
  obtain ⟨dropped, m', run, collects, later⟩ := reachable_stopped.collectGarbage_keeps start
  have here : cleared = m' := by
    rw [cleared, Action.next]
    exact after_of_ok run
  have apart : cleared.run? [.apply .and ⟨-5⟩ ⟨-4⟩] = some reused :=
    if_pos fun f hf => (live f hf).2.2
  have count := collects.nodeCount
  rw [← here, nodeCount, nodeCount] at count
  simp only [Prod.mk.injEq] at sizes
  obtain rfl : dropped = 13 := by omega
  refine ⟨m', run, collects, later [.apply .and ⟨-5⟩ ⟨-4⟩] reused ?_ (here ▸ apart)⟩
  intro a ha
  obtain rfl := List.mem_singleton.1 ha
  rfl

end ZoneDiagram.Manager

import ZoneDiagram.Proofs.Manager.Failure

/-!
# What a failed request leaves

**Theorem (`failed_perform`).** A request that refuses its arguments leaves the manager as it was. A
request that finds the store full, wherever in its recursion, leaves a manager that holds as many
nodes as it has room for. All nodes from before are where they were, the store is consistent and
well formed, and the node that found no room is not linked anywhere. What is remembered is what a
computation without any remembered result gives, with the nodes that are there. So later requests
have the answers that they would have if nothing were remembered, and the manager is reachable: all
that is proved of reachable managers is true of it (`FilledUp`).

What a request does before it fails is done by computations that keep the invariant at every step
(`Sound.next`), so the recursion may be left anywhere.
-/

namespace ZoneDiagram

namespace OpKey

/-- The computation whose result is remembered under a key. -/
def compute : OpKey → ManagerM Handle
  | apply op f g => Manager.apply op f g
  | applyReduce op f g => Manager.applyReduce op f g
  | reduce f => Manager.reduce f

end OpKey

namespace Manager

variable {m m' first : Manager} {config : Config} {actions : List Action} {r : Request} {e : Error}

/-! ## Remembered results -/

/-- What is right for a key is computed again, with every cache and without a new node. -/
theorem Sound.recalls_compute {key : OpKey} {f : Handle} (hm : m.Sound) (right : m.Right key f) :
    m.Recalls key.compute f := by
  cases key with
  | apply op a b =>
    obtain ⟨ha, hb, applied⟩ := right
    exact apply_recalls hm ha hb ⟨applied.live, applied.eval⟩
  | applyReduce op a b =>
    obtain ⟨ha, hb, combined⟩ := right
    exact applyReduce_recalls hm ha hb combined
  | reduce a =>
    obtain ⟨ha, reduced⟩ := right
    exact reduce_recalls hm ha reduced

/-! ## Room for nodes -/

theorem capacity_create (created : create config = .ok first) :
    first.store.capacity = config.nodeCapacity + 1 := by
  obtain ⟨store, made, created⟩ := Except.bind_eq_ok_iff.1 created
  unfold SlotTable.empty? at made
  split at made
  next room =>
    cases made
    obtain ⟨t, add, stored⟩ := SlotTable.add_empty room.1 Node.terminal
    rw [add] at created
    obtain ⟨_, -, created⟩ := Except.bind_eq_ok_iff.1 created
    obtain ⟨_, -, created⟩ := Except.bind_eq_ok_iff.1 created
    cases created
    exact stored.capacity
  next => cases made

/-- No operation changes how many nodes there is room for. -/
theorem Sound.capacity_next (hm : m.Sound) (a : Action) (live : ∀ f ∈ a.operands, m.Live f) :
    (a.next m).store.capacity = m.store.capacity := by
  rcases hm.next_cases a live with grows | ⟨n, rfl⟩ | ⟨roots, rfl⟩
  · exact grows.keeps.capacity
  · rw [Action.next]
    obtain ⟨-, eq⟩ | ⟨e, -, eq⟩ := addClocks_cases n m
    · rw [after_of_ok eq]
    · rw [after_of_error eq]
  · have live : ∀ f ∈ roots, m.Live f := live
    obtain ⟨seen, found, -⟩ := hm.toNodes.reach_eq_ok live
    obtain ⟨count, store, retained, run⟩ := Manager.collectGarbage_eq_ok hm.toNodes found
    rw [Action.next, after_of_ok run]
    exact retained.capacity

theorem Sound.capacity_run? (hm : m.Sound) (run : m.run? actions = some m') :
    m'.store.capacity = m.store.capacity := by
  induction actions generalizing m with
  | nil =>
    cases run
    rfl
  | cons a actions ih =>
    rw [run?] at run
    split at run
    next live => exact (ih (hm.next a live) run).trans (hm.capacity_next a live)
    next => cases run

/-! ## Failed requests -/

/-- A request that fails leaves what its operation leaves. A question leaves the manager as it
is. -/
theorem next_of_failed (failed : r.perform m = .error e m') :
    m' = m ∨ ∃ a, r = .act a ∧ m' = a.next m := by
  cases r with
  | act a =>
    refine .inr ⟨a, rfl, ?_⟩
    rw [← a.after_perform]
    exact (after_of_error failed).symm
  | contains f zone =>
    refine .inl ?_
    rw [← after_of_error failed, Request.perform, after_map, after, query_apply]
    cases m.contains f zone <;> rfl

/-- A collection from live roots does not fail. -/
theorem Sound.collects_of_failed {a : Action} (hm : m.Sound) (live : ∀ f ∈ a.operands, m.Live f)
    (failed : a.perform m = .error e m') : a.collects = false := by
  cases a with
  | collectGarbage roots =>
    have live : ∀ f ∈ roots, m.Live f := live
    obtain ⟨dropped, m'', run, -⟩ := hm.collectGarbage_eq_ok live
    rw [Action.perform, map_eq_pure_bind, bind_of_ok run] at failed
    cases failed
  | _ => rfl

/-- What is left of a manager when a request finds the store full. -/
structure FilledUp (config : Config) (m m' : Manager) (e : Error) : Prop where
  /-- There is no room for one more node. -/
  nodeCount : m'.nodeCount = config.nodeCapacity
  /-- There is a node that could not be put, and it is not in the store, which is left as it is. -/
  unlinked : ∃ node, m'.store.put node = (.error e, m'.store) ∧
    ∀ slot, m'.store.get? slot = some node → slot = Handle.one.slot
  /-- All nodes from before are in their slots. -/
  same : ∀ slot node, m.store.get? slot = some node → m'.store.get? slot = some node
  /-- All diagrams from before have their level, edges and truth. -/
  preserves : m.Preserves m'
  wellFormed : m'.WellFormed
  consistent : m'.store.Consistent Handle.one.slot
  /-- What is remembered is computed again, from nothing remembered and without a new node. -/
  recalls : ∀ key f, m'.cache.Holds key f →
    ∃ c, key.compute (m'.withCache m'.cache.clear) = .ok f (m'.withCache c)
  /-- What is remembered changes no answer. -/
  later : ∀ requests, m'.AllLive requests →
    m'.observe requests = (m'.withCache m'.cache.clear).observe requests
  reachable : m'.Reachable

/-- **Failing requests leave a sound manager.** -/
theorem failed_perform (created : create config = .ok first) (run : first.run? actions = some m)
    (live : ∀ f ∈ r.operands, m.Live f) (failed : r.perform m = .error e m') :
    (e.isRefusal = true → m' = m) ∧ (e.isStoreFull = true → FilledUp config m m' e) := by
  have reachable : m.Reachable := (Reachable.create created).run? run
  have hm := reachable.sound
  obtain ⟨refuses, overflows⟩ := hm.orderly r live e m' failed
  refine ⟨refuses, fun full => ?_⟩
  obtain ⟨node, put⟩ := overflows full
  have keeps : m'.Reachable ∧ m.Keeps m' ∧ m'.store.capacity = m.store.capacity := by
    rcases next_of_failed failed with rfl | ⟨a, rfl, rfl⟩
    · exact ⟨reachable, .refl _, rfl⟩
    · exact ⟨reachable.step a live, hm.keeps_next live (hm.collects_of_failed live failed),
        hm.capacity_next a live⟩
  obtain ⟨reachable', keeps, capacity⟩ := keeps
  have hm' := reachable'.sound
  have stuck : m'.store.realSize = m'.store.capacity ∧
      ∀ slot, m'.store.get? slot = some node → slot = Handle.one.slot := by
    rcases SlotTable.put_cases hm'.store node with
      ⟨slot, run', -⟩ | ⟨slot, store, run', -⟩ | ⟨-, stuck⟩
    · cases put.symm.trans run'
    · cases put.symm.trans run'
    · exact stuck
  exact {
    nodeCount := by
      rw [nodeCount, stuck.1, capacity, (sound_create created).capacity_run? run,
        capacity_create created]
      rfl
    unlinked := ⟨node, put, stuck.2⟩
    same := fun slot node hs => keeps.get? hs
    preserves := keeps.preserves hm.toNodes hm'.toNodes
    wellFormed := hm'.wellFormed
    consistent := hm'.store
    recalls := fun key f held => by
      obtain ⟨c, -, again⟩ := hm'.recalls_compute (hm'.right held) _ hm'.trusts_clear
      exact ⟨c, again⟩
    later := fun requests live => (hm'.observe_withCache hm'.trusts_clear live).symm
    reachable := reachable' }

/-! ## The box in a store that is nearly full -/

/-- The operations that lead to the square in a store with one slot left. -/
def crowd : List Action :=
  [.addClocks 3, .interval 1 0 0 2, .interval 2 0 0 2, .upperBound 2 1 5,
    .apply .and ⟨-2⟩ ⟨-3⟩] ++ filling

theorem run?_crowd : smallManager.run? crowd = some crowded := by
  obtain ⟨filled, -⟩ := evaluate_reused
  obtain ⟨m, run⟩ := Option.isSome_iff_exists.1 filled
  rw [crowd, run?_append, crowded, run, Option.getD_some]
  have start : smallManager.run? [.addClocks 3, .interval 1 0 0 2, .interval 2 0 0 2,
      .upperBound 2 1 5, .apply .and ⟨-2⟩ ⟨-3⟩] = some square := by
    rw [run?_cons_of_no_operands rfl, run?_cons_of_no_operands rfl, run?_cons_of_no_operands rfl,
      run?_cons_of_no_operands rfl]
    exact if_pos evaluate_box.1
  rw [start]
  exact run

/-- The box needs two nodes, and there is room for one of them. -/
theorem failed_perform_crowded : ∃ m', smallManager.run? crowd = some crowded ∧
    (Request.act (.apply .and ⟨-5⟩ ⟨-4⟩)).perform crowded = .error (.storeFull 17) m' ∧
    FilledUp { nodeCapacity := 16, cacheCapacity := 4 } crowded m' (.storeFull 17) := by
  obtain ⟨-, live, fails, -⟩ := evaluate_reused
  obtain ⟨m', run⟩ := exists_of_failure? fails
  have failed : (Request.act (.apply .and ⟨-5⟩ ⟨-4⟩)).perform crowded =
      .error (.storeFull 17) m' := by
    rw [Request.perform, Action.perform, map_eq_pure_bind, bind_of_error run]
  have operands : ∀ f ∈ (Request.act (.apply .and ⟨-5⟩ ⟨-4⟩)).operands, crowded.Live f :=
    fun f hf => (live f hf).1
  exact ⟨m', run?_crowd, failed,
    (failed_perform create_smallManager run?_crowd operands failed).2 rfl⟩

end Manager

end ZoneDiagram

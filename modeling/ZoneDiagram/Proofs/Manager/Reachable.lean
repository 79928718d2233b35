import ZoneDiagram.Manager.Extract
import ZoneDiagram.Proofs.Manager.ApplyReduce
import ZoneDiagram.Proofs.Manager.Build
import ZoneDiagram.Proofs.Manager.Layers
import ZoneDiagram.Proofs.Manager.Reach

/-!
# Reachable managers

A manager is reachable if it results from a new one by operations on live diagrams, in any order.
An operation that fails counts too: the manager is what the failure leaves.

**Theorem (`Reachable.sound`).** Every reachable manager is sound.
-/

namespace ZoneDiagram.Manager

variable {m m' : Manager} {α : Type} {op : Connective} {f g : Handle}

/-! ## Operations -/

/-- An operation that may change a manager. -/
inductive Action where
  | addClocks (n : Nat)
  | interval (i j : Nat) (low up : Int)
  | lowerBound (i j : Nat) (low : Int)
  | upperBound (i j : Nat) (up : Int)
  | constraint (i j : Nat) (bound : Bound)
  | ofDbm (zone : Dbm)
  | apply (op : Connective) (f g : Handle)
  | reduce (f : Handle)
  | reduceByLayers (f : Handle)
  | applyReduce (op : Connective) (f g : Handle)
  | isEmpty (f : Handle)
  | isEquivalent (f g : Handle)
  | extract (f : Handle) (dim : Nat)
  | removeNegative (f : Handle)
  | collectGarbage (roots : List Handle)

namespace Action

/-- The diagrams that the operation is about. -/
def operands : Action → List Handle
  | addClocks _ | interval .. | lowerBound .. | upperBound .. | constraint .. | ofDbm _ => []
  | apply _ f g | applyReduce _ f g | isEquivalent f g => [f, g]
  | reduce f | reduceByLayers f | isEmpty f | extract f _ | removeNegative f => [f]
  | collectGarbage roots => roots

/-- The manager after the operation. -/
def next (m : Manager) : Action → Manager
  | addClocks n => after (Manager.addClocks n) m
  | interval i j low up => after (Manager.interval i j low up) m
  | lowerBound i j low => after (Manager.lowerBound i j low) m
  | upperBound i j up => after (Manager.upperBound i j up) m
  | constraint i j bound => after (Manager.constraint i j bound) m
  | ofDbm zone => after (Manager.ofDbm zone) m
  | apply op f g => after (Manager.apply op f g) m
  | reduce f => after (Manager.reduce f) m
  | reduceByLayers f => after (Manager.reduceByLayers f) m
  | applyReduce op f g => after (Manager.applyReduce op f g) m
  | isEmpty f => after (Manager.isEmpty f) m
  | isEquivalent f g => after (Manager.isEquivalent f g) m
  | extract f dim => after (Manager.extract f dim) m
  | removeNegative f => after (Manager.removeNegative f) m
  | collectGarbage roots => after (Manager.collectGarbage roots) m

/-- The operation may drop nodes. -/
def collects : Action → Bool
  | collectGarbage _ => true
  | _ => false

end Action

/-- Both operands of an operation on two diagrams are live. -/
theorem both_live (live : ∀ h ∈ [f, g], m.Live h) : m.Live f ∧ m.Live g :=
  ⟨live f List.mem_cons_self, live g (List.mem_cons_of_mem f List.mem_cons_self)⟩

/-- The managers that operations on live diagrams lead to. -/
inductive Reachable : Manager → Prop
  | create {config : Config} {m : Manager} (h : create config = .ok m) : Reachable m
  | step {m : Manager} (a : Action) (h : Reachable m) (live : ∀ f ∈ a.operands, m.Live f) :
      Reachable (a.next m)

/-! ## The first manager -/

theorem sound_create {config : Config} (h : create config = .ok m) : m.Sound := by
  obtain ⟨store, hstore, h⟩ := Except.bind_eq_ok_iff.1 h
  unfold SlotTable.empty? at hstore
  split at hstore
  next capacity =>
    cases hstore
    obtain ⟨t, add, stored⟩ := SlotTable.add_empty capacity.1 Node.terminal
    rw [add] at h
    obtain ⟨_, -, h⟩ := Except.bind_eq_ok_iff.1 h
    obtain ⟨cache, hcache, h⟩ := Except.bind_eq_ok_iff.1 h
    have get := SlotTable.get?_of_stored_empty stored
    -- A new store has the terminal node and no other.
    have only {s : Nat} {n : Node} (hs : t.get? s = some n) :
        s = Handle.one.slot ∧ n = .terminal := by
      rw [get] at hs
      split at hs
      next eq => exact ⟨eq, (Option.some.inj hs).symm⟩
      next => cases hs
    have unused := Cache.not_hasEntry_of_withCapacity? hcache
    cases h
    exact {
      wellFormed := {
        terminal := get 1
        canonical := fun s node hs ne => absurd (only hs).1 ne
        below := fun s node hs e he => by
          rw [(only hs).2] at he
          cases he
        unique := fun s s' node hs hs' => (only hs).1.trans (only hs').1.symm }
      store := SlotTable.consistent_of_stored_empty stored
      few := Nat.zero_le _
      fresh := fun e he => absurd he (unused e)
      right := fun h => absurd h (unused _) }
  next => cases hstore

/-! ## More clocks -/

theorem clocksPlus_eq_ok_iff {n clocks : Nat} :
    m.clocksPlus n = .ok clocks ↔ m.clocks + n ≤ maxClocks ∧ clocks = m.clocks + n := by
  unfold clocksPlus maxClocks UInt64.size
  split
  next => exact iff_of_false nofun (by omega)
  next =>
    split
    next => exact iff_of_false nofun (by omega)
    next few => exact ⟨fun eq => ⟨Nat.not_lt.1 few, by cases eq; rfl⟩, fun h => by rw [h.2]⟩

/-- More clocks are added if there is room for them, and nothing changes if not. -/
theorem addClocks_cases (n : Nat) (m : Manager) :
    (m.clocks + n ≤ maxClocks ∧
      addClocks n m = .ok ⟨⟩ { m with clocks := m.clocks + n, cache := m.cache.clear }) ∨
    ∃ e, m.clocksPlus n = .error e ∧ addClocks n m = .error e m := by
  cases eq : m.clocksPlus n with
  | ok clocks =>
    obtain ⟨few, rfl⟩ := clocksPlus_eq_ok_iff.1 eq
    exact .inl ⟨few, bind_of_ok (query_of_ok eq)⟩
  | error e => exact .inr ⟨e, rfl, bind_of_error (query_of_error eq)⟩

theorem sound_addClocks (hm : m.Sound) (n : Nat) : (after (addClocks n) m).Sound := by
  obtain ⟨few, eq⟩ | ⟨e, -, eq⟩ := addClocks_cases n m
  · have more : ClockPair.count m.clocks ≤ ClockPair.count (m.clocks + n) :=
      ClockPair.triangle_le_triangle (Nat.le_add_right _ _)
    have nodes : Nodes { m with clocks := m.clocks + n, cache := m.cache.clear } := {
      wellFormed := {
        terminal := hm.wellFormed.terminal
        canonical := fun s node hs ne => by
          obtain ⟨canonical, lt⟩ := hm.wellFormed.canonical hs ne
          exact ⟨canonical, lt.trans_le more⟩
        below := hm.wellFormed.below
        unique := hm.wellFormed.unique }
      store := hm.store
      few }
    rw [after_of_ok eq]
    exact nodes.sound_of_clear hm.fresh rfl
  · rw [after_of_error eq]
    exact hm

/-- More clocks leave all nodes where they are. -/
theorem keeps_addClocks (n : Nat) (m : Manager) : m.Keeps (after (addClocks n) m) := by
  obtain ⟨-, eq⟩ | ⟨e, -, eq⟩ := addClocks_cases n m
  · rw [after_of_ok eq]
    exact ⟨Nat.le_add_right _ _, fun h => h⟩
  · rw [after_of_error eq]
    exact .refl m

/-! ## Further operations -/

theorem isEmpty_runs (hm : m.Sound) (hf : m.Live f) :
    Runs m (isEmpty f) (fun _ _ => True) (·.isMaking = false) :=
  ((reduce_runs hm hf).imp (fun _ _ _ h => h) fun _ stuck => stuck.isMaking).bind
    fun _ _ grows _ => .pure grows.sound trivial

theorem applyReduce_makes (hm : m.Sound) (hf : m.Live f) (hg : m.Live g) :
    Makes m (applyReduce op f g) True :=
  (applyReduce_runs hm hf hg).imp (fun _ _ _ h => h.live) fun _ stuck _ => stuck.isMaking

theorem isEquivalent_runs (hm : m.Sound) (hf : m.Live f) (hg : m.Live g) :
    Runs m (isEquivalent f g) (fun _ _ => True) (·.isMaking = false) :=
  ((applyReduce_runs hm hf hg).imp (fun _ _ _ h => h) fun _ stuck => stuck.isMaking).bind
    fun _ _ grows _ => .pure grows.sound trivial

theorem nonNegative_runs (hm : m.Sound) (clocks : List Nat) : Makes m (nonNegative clocks) True :=
  .foldlM hm hm.live_one fun _ _ hm' hf i _ =>
    (lowerBound_runs hm' i 0 0).bind fun _ _ grows hg =>
      applyReduce_makes grows.sound (grows.keeps.live hf) hg

theorem removeNegative_runs (hm : m.Sound) (hf : m.Live f) : Makes m (removeNegative f) True := by
  refine .get_bind ?_
  dsimp only
  split
  · exact .pure hm hf
  · exact (nonNegative_runs hm _).bind fun g m' grows hg =>
      applyReduce_makes grows.sound (grows.keeps.live hf) hg

/-- A zone is taken out. It fits if it is tight. -/
theorem extract_runs (hm : m.Sound) (hf : m.Live f) (dim : Nat) :
    Runs m (extract f dim) (fun e m' => m'.Live e.zone ∧ m'.Live e.remainder)
      fun e => (∀ full, m.chooseZone f = .ok full → full.Tight) → e.isMaking = false := by
  refine .query_cases hm (fun _ _ => .query_cases hm (fun full chosen => ?_)
    fun e eq _ => m.raises_chooseZone f e eq) fun e eq _ => m.raises_checkExtractDim dim e eq
  refine ((ofDbm_runs hm full).imp (fun _ _ _ h => h) fun e fails tight => ?_).bind
    fun zone m₁ grows hz => ?_
  · refine fails fun _ => ?_
    rw [(tight full chosen).close_eq_self]
    exact tight full chosen
  · refine ((applyReduce_makes grows.sound (grows.keeps.live hf) hz.neg).imp (fun _ _ _ h => h)
      fun e fails _ => fails trivial).bind fun r m₂ grows' hr => ?_
    exact .pure grows'.sound ⟨grows'.keeps.live hz, hr⟩

/-! ## Every operation -/

/-- An operation on live diagrams only adds nodes and results, unless it adds clocks or collects
nodes. -/
theorem Sound.next_cases (hm : m.Sound) (a : Action) (live : ∀ f ∈ a.operands, m.Live f) :
    m.Grows (a.next m) ∨ (∃ n, a = .addClocks n) ∨ ∃ roots, a = .collectGarbage roots := by
  cases a with
  | addClocks n => exact .inr (.inl ⟨n, rfl⟩)
  | collectGarbage roots => exact .inr (.inr ⟨roots, rfl⟩)
  | interval i j low up => exact .inl (interval_runs hm i j low up).grows_after
  | lowerBound i j low => exact .inl (lowerBound_runs hm i j low).grows_after
  | upperBound i j up => exact .inl (upperBound_runs hm i j up).grows_after
  | constraint i j bound => exact .inl (constraint_runs hm i j bound).grows_after
  | ofDbm zone => exact .inl (ofDbm_runs hm zone).grows_after
  | apply op f g =>
    obtain ⟨hf, hg⟩ := both_live live
    exact .inl (apply_runs (F := fun _ => False) hm hf hg).grows_after
  | reduce f => exact .inl (reduce_runs hm (live f List.mem_cons_self)).grows_after
  | reduceByLayers f => exact .inl (reduceByLayers_runs hm (live f List.mem_cons_self)).grows_after
  | applyReduce op f g =>
    obtain ⟨hf, hg⟩ := both_live live
    exact .inl (applyReduce_runs hm hf hg).grows_after
  | isEmpty f => exact .inl (isEmpty_runs hm (live f List.mem_cons_self)).grows_after
  | isEquivalent f g =>
    obtain ⟨hf, hg⟩ := both_live live
    exact .inl (isEquivalent_runs hm hf hg).grows_after
  | extract f dim => exact .inl (extract_runs hm (live f List.mem_cons_self) dim).grows_after
  | removeNegative f => exact .inl (removeNegative_runs hm (live f List.mem_cons_self)).grows_after

/-- All operations but collections leave all nodes where they are. -/
theorem Sound.keeps_next (hm : m.Sound) {a : Action} (live : ∀ f ∈ a.operands, m.Live f)
    (h : a.collects = false) : m.Keeps (a.next m) := by
  rcases hm.next_cases a live with grows | ⟨n, rfl⟩ | ⟨roots, rfl⟩
  · exact grows.keeps.keeps
  · exact keeps_addClocks n m
  · cases h

/-- An operation on live diagrams leaves a sound manager. -/
theorem Sound.next (hm : m.Sound) (a : Action) (live : ∀ f ∈ a.operands, m.Live f) :
    (a.next m).Sound := by
  rcases hm.next_cases a live with grows | ⟨n, rfl⟩ | ⟨roots, rfl⟩
  · exact grows.sound
  · exact sound_addClocks hm n
  · exact collectGarbage_sound hm live

theorem Reachable.sound (h : Reachable m) : m.Sound := by
  induction h with
  | create h => exact sound_create h
  | step a _ live ih => exact ih.next a live

end ZoneDiagram.Manager

import ZoneDiagram.Proofs.Manager.Agree
import ZoneDiagram.Proofs.Representation
import ZoneDiagram.Proofs.Splitting

/-!
# The cache only saves time

A client sees the answers of a manager, errors included, and the nodes that it holds. Two managers
with room for the same number of nodes, but with caches of any sizes, are asked the same requests.

**Theorem (`observe_eq_of_created`).** After every request both have given the same answer, with
the same handles, and both have the same nodes in the same slots, found through the same buckets,
and the same free slots. So the store is full for both at the same node of the same request.

The managers differ in their caches only, and every request keeps it that way: it runs alike with
every cache of right results (`Sound.perform_agrees`), and leaves caches of right results
(`Sound.next`), in which clocks that are added and nodes that are dropped leave nothing behind.
-/

namespace ZoneDiagram.Manager

variable {m m' : Manager} {α β : Type}

/-! ## Requests and answers -/

/-- What an operation answers. -/
inductive Answer where
  | done
  | diagram (f : Handle)
  | truth (value : Bool)
  | extraction (extraction : Extraction)
  | dropped (count : Nat)

/-- What a client asks of a manager: an operation, or whether a zone lies in a diagram. -/
inductive Request where
  | act (action : Action)
  | contains (f : Handle) (zone : Dbm)

namespace Action

/-- The operation with its answer. -/
def perform : Action → ManagerM Answer
  | addClocks n => (fun _ => .done) <$> Manager.addClocks n
  | interval i j low up => .diagram <$> Manager.interval i j low up
  | lowerBound i j low => .diagram <$> Manager.lowerBound i j low
  | upperBound i j up => .diagram <$> Manager.upperBound i j up
  | constraint i j bound => .diagram <$> Manager.constraint i j bound
  | ofDbm zone => .diagram <$> Manager.ofDbm zone
  | apply op f g => .diagram <$> Manager.apply op f g
  | reduce f => .diagram <$> Manager.reduce f
  | reduceByLayers f => .diagram <$> Manager.reduceByLayers f
  | applyReduce op f g => .diagram <$> Manager.applyReduce op f g
  | isEmpty f => .truth <$> Manager.isEmpty f
  | isEquivalent f g => .truth <$> Manager.isEquivalent f g
  | extract f dim => .extraction <$> Manager.extract f dim
  | removeNegative f => .diagram <$> Manager.removeNegative f
  | collectGarbage roots => .dropped <$> Manager.collectGarbage roots

end Action

namespace Request

/-- The diagrams that the request is about. -/
def operands : Request → List Handle
  | act action => action.operands
  | contains f _ => [f]

/-- The request with its answer. -/
def perform : Request → ManagerM Answer
  | act action => action.perform
  | contains f zone => .truth <$> query (·.contains f zone)

end Request

theorem after_map (g : α → β) (x : ManagerM α) (m : Manager) : after (g <$> x) m = after x m := by
  change after (EStateM.map g x) m = after x m
  unfold after EStateM.map
  cases x m <;> rfl

theorem Action.after_perform (a : Action) (m : Manager) : after a.perform m = a.next m := by
  cases a <;> exact after_map _ _ m

theorem Sound.after_perform (hm : m.Sound) (r : Request) (live : ∀ f ∈ r.operands, m.Live f) :
    (after r.perform m).Sound := by
  cases r with
  | act action =>
    rw [Request.perform, action.after_perform]
    exact hm.next action live
  | contains f zone =>
    have same : after (query (·.contains f zone)) m = m := by
      unfold after
      rw [query_apply]
      cases m.contains f zone <;> rfl
    rw [Request.perform, after_map, same]
    exact hm

theorem contains_withCache (m : Manager) (c : Cache OpKey Handle) (f : Handle) (zone : Dbm) :
    (m.withCache c).contains f zone = m.contains f zone := by
  unfold contains
  rw [depth, containsWithin_withCache]
  rfl

/-- **Every request about live diagrams runs alike with all caches of right results.** -/
theorem Sound.perform_agrees (hm : m.Sound) (r : Request) (live : ∀ f ∈ r.operands, m.Live f) :
    m.Agrees r.perform := by
  cases r with
  | contains f zone =>
    exact (steady_query fun m c => contains_withCache m c f zone).agrees.map _
  | act action =>
    cases action with
    | addClocks n => exact (steady_addClocks n).agrees.map _
    | interval i j low up => exact (steady_interval i j low up).agrees.map _
    | lowerBound i j low => exact (steady_lowerBound i j low).agrees.map _
    | upperBound i j up => exact (steady_upperBound i j up).agrees.map _
    | constraint i j bound => exact (steady_constraint i j bound).agrees.map _
    | ofDbm zone => exact (steady_ofDbm zone).agrees.map _
    | reduceByLayers f => exact (steady_compositional.reduceByLayers f).agrees.map _
    | collectGarbage roots => exact (steady_collectGarbage roots).agrees.map _
    | apply op f g =>
      obtain ⟨hf, hg⟩ := both_live live
      exact (apply_agrees hm hf hg).map _
    | reduce f => exact (reduce_agrees hm (live f List.mem_cons_self)).map _
    | applyReduce op f g =>
      obtain ⟨hf, hg⟩ := both_live live
      exact (applyReduce_agrees hm hf hg).map _
    | isEmpty f =>
      exact ((reduce_agrees hm (live f List.mem_cons_self)).bind_steady
        fun _ => steady_pure _).map _
    | isEquivalent f g =>
      obtain ⟨hf, hg⟩ := both_live live
      exact ((applyReduce_agrees hm hf hg).bind_steady fun _ => steady_pure _).map _
    | extract f dim => exact (extract_agrees hm (live f List.mem_cons_self) dim).map _
    | removeNegative f => exact (removeNegative_agrees hm (live f List.mem_cons_self)).map _

/-! ## Observing a run -/

/-- What a client sees after a request. -/
structure Observation where
  /-- What the request gave, or why it failed. -/
  answer : Except Error Answer
  /-- The nodes in their slots, the slots of every bucket, and the free slots. -/
  store : SlotTable Node
  nodeCount : Nat

/-- What a computation gives, or why it fails. -/
def outcome (x : ManagerM α) (m : Manager) : Except Error α :=
  match x m with
  | .ok a _ => .ok a
  | .error e _ => .error e

/-- What a client sees of some requests, one after the other. -/
def observe (m : Manager) : List Request → List Observation
  | [] => []
  | r :: rest =>
    let m' := after r.perform m
    ⟨outcome r.perform m, m'.store, m'.nodeCount⟩ :: m'.observe rest

/-- Each request is about diagrams that are live when it is made. Handles to dropped nodes must not
be used. -/
def AllLive (m : Manager) : List Request → Prop
  | [] => True
  | r :: rest => (∀ f ∈ r.operands, m.Live f) ∧ (after r.perform m).AllLive rest

/-- Whether all operands of a run are live can be decided. -/
def decideAllLive (m : Manager) : (requests : List Request) → Decidable (m.AllLive requests)
  | [] => inferInstanceAs (Decidable True)
  | r :: rest =>
    have := decideAllLive (after r.perform m) rest
    inferInstanceAs (Decidable ((∀ f ∈ r.operands, m.Live f) ∧ (after r.perform m).AllLive rest))

instance (m : Manager) (requests : List Request) : Decidable (m.AllLive requests) :=
  decideAllLive m requests

/-- Matching runs look the same, and leave managers that differ in the cache only. -/
theorem Matches.outcome_eq {x : ManagerM α} (h : Matches (x m) (x m')) :
    outcome x m' = outcome x m ∧ ∃ c, after x m' = (after x m).withCache c := by
  unfold outcome after
  generalize x m = r, x m' = r' at h
  cases h with
  | ok a n c => exact ⟨rfl, c, rfl⟩
  | error e n c => exact ⟨rfl, c, rfl⟩

/-- With another cache of right results, a client sees the same. -/
theorem Sound.observe_withCache {requests : List Request} {c : Cache OpKey Handle} (hm : m.Sound)
    (hc : m.Trusts c) (live : m.AllLive requests) :
    (m.withCache c).observe requests = m.observe requests := by
  induction requests generalizing m c with
  | nil => rfl
  | cons r rest ih =>
    obtain ⟨operands, live⟩ := live
    obtain ⟨answer, c', next⟩ :=
      (hm.perform_agrees r operands m.cache c hm.trusts_cache hc).outcome_eq
    have sound : (after r.perform (m.withCache c)).Sound :=
      (hc.grows hm).sound.after_perform r operands
    rw [next] at sound
    rw [observe, observe, answer, next]
    exact congrArg _ (ih (hm.after_perform r operands) sound.trusts_of_withCache live)

/-! ## Managers with caches of different sizes -/

/-- New managers with room for the same number of nodes differ in the cache only. -/
theorem exists_withCache_of_created {config config' : Config}
    (same : config'.nodeCapacity = config.nodeCapacity) (created : create config = .ok m)
    (created' : create config' = .ok m') : ∃ c, m' = m.withCache c := by
  obtain ⟨store, made, created⟩ := Except.bind_eq_ok_iff.1 created
  obtain ⟨store', made', created'⟩ := Except.bind_eq_ok_iff.1 created'
  rw [same, made] at made'
  cases made'
  obtain ⟨_, -, created⟩ := Except.bind_eq_ok_iff.1 created
  obtain ⟨cache, -, created⟩ := Except.bind_eq_ok_iff.1 created
  obtain ⟨_, -, created'⟩ := Except.bind_eq_ok_iff.1 created'
  obtain ⟨cache', -, created'⟩ := Except.bind_eq_ok_iff.1 created'
  cases created
  cases created'
  exact ⟨cache', rfl⟩

/-- **The cache only saves time.** Managers that were made with room for the same number of nodes
give the same answers to requests about live diagrams, and after every request they have the same
store. -/
theorem observe_eq_of_created {config config' : Config} {requests : List Request}
    (same : config'.nodeCapacity = config.nodeCapacity) (created : create config = .ok m)
    (created' : create config' = .ok m') (live : m.AllLive requests) :
    m'.observe requests = m.observe requests := by
  obtain ⟨c, rfl⟩ := exists_withCache_of_created same created created'
  exact (sound_create created).observe_withCache (sound_create created').trusts_of_withCache live

/-! ## A full store -/

/-- Bands that are combined, bounds that fill the store, a combination that finds it full, and
again when it has room, and questions about the box. -/
def crowding : List Request :=
  let start : List Action := [.addClocks 3, .interval 1 0 0 2, .interval 2 0 0 2,
    .upperBound 2 1 5, .apply .and ⟨-2⟩ ⟨-3⟩]
  let rest : List Action := [.apply .and ⟨-5⟩ ⟨-4⟩, .collectGarbage [⟨-5⟩, ⟨-4⟩],
    .apply .and ⟨-5⟩ ⟨-4⟩, .reduce ⟨-6⟩]
  (start ++ filling ++ rest).map .act ++ [.contains ⟨-6⟩ corner]

/-- What evaluating the run shows. -/
theorem evaluate_crowding : (create ⟨16, 64, 2⟩).isOk = true ∧ smallManager.AllLive crowding ∧
    (smallManager.observe crowding).any
      (·.answer matches .error (.storeFull _)) = true := by
  decide +kernel

/-- A cache of one set and one of sixteen sets, and a run that finds the store full. -/
theorem observe_eq_of_created_crowding : ∃ m', create ⟨16, 64, 2⟩ = .ok m' ∧
    smallManager.AllLive crowding ∧ m'.observe crowding = smallManager.observe crowding ∧
    (smallManager.observe crowding).any (·.answer matches .error (.storeFull _)) = true := by
  obtain ⟨made, live, full⟩ := evaluate_crowding
  cases created : create ⟨16, 64, 2⟩ with
  | ok m' =>
    exact ⟨m', rfl, live, observe_eq_of_created (by rfl) create_smallManager created live,
      full⟩
  | error e =>
    rw [created] at made
    cases made

end ZoneDiagram.Manager

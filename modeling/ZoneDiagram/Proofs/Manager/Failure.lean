import ZoneDiagram.Proofs.CacheTransparency
import ZoneDiagram.Proofs.Collection

/-!
# How operations fail

An operation refuses its arguments in a check before it does anything, so a refusal leaves the
manager as it is. After the checks a computation is honest (`Honest`): it does not refuse, and if it
finds the store full, then at a node that the store, as it is left, cannot take. Nothing is stored
or remembered after that, because every caller passes the error on.

**Theorem (`Sound.orderly`).** Every request about live diagrams fails in one of these two ways, or
because an assumption is broken.
-/

namespace ZoneDiagram

namespace SlotTable

variable {α : Type} {t t' : SlotTable α} {v : α} {e : Error}

theorem add_of_error (h : t.add v = (.error e, t')) : t' = t ∧ e = .storeFull t.capacity := by
  unfold add at h
  split at h
  · cases h
  · dsimp only at h
    split at h
    · cases h
      exact ⟨rfl, rfl⟩
    · cases h

/-- A value that cannot be put leaves the table as it is. -/
theorem put_of_error [BEq α] [Hashable α] (h : t.put v = (.error e, t')) :
    t' = t ∧ e.isRefusal = false := by
  unfold put at h
  dsimp only at h
  split at h
  next walk =>
    cases h
    exact ⟨rfl, (t.raises_walk v _ _ _ _ walk).isRefusal⟩
  next => cases h
  next =>
    split at h
    next add =>
      cases h
      obtain ⟨same, rfl⟩ := add_of_error add
      exact ⟨same, rfl⟩
    next => cases h

end SlotTable

namespace Manager

variable {m m' : Manager} {α β : Type} {n : Nat} {x : ManagerM α} {e : Error}

/-- Which clocks exist depends on their number only. -/
theorem checkPair_congr (same : m'.clocks = m.clocks) (i j : Nat) :
    m'.checkPair i j = m.checkPair i j := by
  unfold checkPair checkClock
  rw [same]

/-- There is a node that the store cannot take, and it is left as it is. -/
def Overflows (m : Manager) (e : Error) : Prop := ∃ node, m.store.put node = (.error e, m.store)

/-! ## After the checks -/

/-- In managers with a number of clocks the computation does not refuse, and it finds the store full
only at a node that the store cannot take. -/
def Honest (n : Nat) (x : ManagerM α) : Prop := ∀ m, m.clocks = n →
  match x m with
  | .ok _ m' => m'.clocks = n
  | .error e m' => e.isRefusal = false ∧ (e.isStoreFull = true → m'.Overflows e)

section Honest

variable {f : α → ManagerM β}

theorem honest_pure (a : α) : Honest n (pure a) := fun _ same => same

theorem honest_throw (broken : e.Broken) : Honest n (throw e : ManagerM α) := fun _ _ =>
  ⟨broken.isRefusal, fun full => by
    rw [broken.isStoreFull] at full
    cases full⟩

theorem Honest.bind (hx : Honest n x) (hf : ∀ a, Honest n (f a)) : Honest n (x >>= f) := by
  intro m same
  have first := hx m same
  split at first
  next a m' run =>
    rw [bind_of_ok run]
    exact hf a m' first
  next e m' run =>
    rw [bind_of_error run]
    exact first

theorem honest_get_bind {f : Manager → ManagerM β} (hf : ∀ m, m.clocks = n → Honest n (f m)) :
    Honest n (get >>= f) := fun m same => hf m same m same

theorem honest_query {read : Manager → Except Error α}
    (h : ∀ m, m.clocks = n → Raises Error.Broken (read m)) : Honest n (query read) := by
  intro m same
  rw [query_apply]
  cases run : read m with
  | ok a => exact same
  | error e => exact honest_throw (α := α) (h m same e run) m same

theorem honest_intern (node : Node) : Honest n (intern node) := by
  intro m same
  unfold intern
  rcases put : m.store.put node with ⟨e | slot, store⟩
  · obtain ⟨rfl, plain⟩ := SlotTable.put_of_error put
    exact ⟨plain, fun _ => ⟨node, put⟩⟩
  · exact same

theorem honest_compositional (n : Nat) : Compositional (Honest n) where
  pure := honest_pure
  bind := Honest.bind
  throw := honest_throw
  query _ h := honest_query fun m _ => (h m).imp fun _ misread => misread.broken
  get_bind _ h := honest_get_bind fun m _ => h m
  intern := honest_intern

theorem honest_cached {key : OpKey} {x : ManagerM Handle} (hx : Honest n x) :
    Honest n (cached key x) := by
  have asked : Honest n (remembered? key) := fun _ same => same
  have kept (r : Handle) : Honest n (remember key r) := fun _ same => same
  refine asked.bind fun found => ?_
  cases found with
  | some r => exact honest_pure r
  | none => exact hx.bind fun r => (kept r).bind fun _ => honest_pure r

end Honest

/-! ## Operations without checks -/

section Unchecked

variable (op : Connective) (f g : Handle)

theorem honest_applyWithin (depth : Nat) : Honest n (applyWithin op depth f g) := by
  induction depth generalizing f g with
  | zero => exact honest_throw ⟨rfl, rfl⟩
  | succ depth ih =>
    cases shortcut : op.shortcut f g with
    | some r =>
      rw [applyWithin_of_shortcut depth shortcut]
      exact honest_pure r
    | none =>
      rw [applyWithin_of_ordered depth shortcut rfl]
      exact honest_cached ((honest_compositional n).combinePieces _ _ ih)

theorem honest_apply : Honest n (apply op f g) :=
  honest_get_bind fun _ _ => honest_applyWithin op f g _

theorem honest_reduce : Honest n (reduce f) := by
  cases inner : f.isTerminal with
  | true =>
    rw [reduce_of_isTerminal inner]
    exact honest_pure f
  | false =>
    rw [reduce_of_inner inner]
    exact honest_cached ((honest_compositional n).reducePass f)

theorem honest_applyReduce : Honest n (applyReduce op f g) := by
  cases shortcut : op.shortcut f g with
  | some r =>
    rw [applyReduce_of_shortcut shortcut]
    exact honest_reduce r
  | none =>
    rw [applyReduce_of_ordered shortcut rfl]
    exact honest_cached ((honest_compositional n).applyReducePass op _ _)

/-- A lower bound of zero on a clock that exists is not refused. -/
theorem honest_lowerBound_zero {i : Nat} (pos : 0 < i) (lt : i < n) :
    Honest n (lowerBound i 0 0) := by
  have check (m : Manager) (same : m.clocks = n) : Raises Error.Broken (m.checkPair i 0) := by
    unfold checkPair checkClock
    rw [if_pos (same ▸ lt), if_pos (same ▸ pos.trans lt)]
    exact (raises_ok ()).bind fun _ => (raises_ok ()).bind fun _ => by
      rw [dif_pos pos]
      exact raises_ok _
  exact ((honest_compositional n).range (honest_query check) :
    Honest n (range i 0 .infinity (.weak (-0))))

theorem honest_nonNegative {clocks : List Nat} (h : ∀ i ∈ clocks, 0 < i ∧ i < n) :
    Honest n (nonNegative clocks) := by
  have fold (f : Handle) : Honest n (clocks.foldlM
      (fun f i => do applyReduce .and f (← lowerBound i 0 0)) f) := by
    induction clocks generalizing f with
    | nil => exact honest_pure f
    | cons i clocks ih =>
      obtain ⟨pos, lt⟩ := h i List.mem_cons_self
      rw [List.foldlM_cons]
      exact ((honest_lowerBound_zero pos lt).bind fun g => honest_applyReduce .and f g).bind
        fun r => ih (fun j hj => h j (List.mem_cons_of_mem i hj)) r
  exact fold .one

theorem honest_removeNegative : Honest n (removeNegative f) := by
  refine honest_get_bind fun m same => ?_
  dsimp only
  split
  · exact honest_pure f
  · refine (honest_nonNegative fun i hi => ?_).bind fun g => honest_applyReduce .and f g
    rw [List.mem_range'_1] at hi
    omega

end Unchecked

/-! ## Every request -/

/-- If the computation refuses, the manager is as before; if it finds the store full, then at a node
that the store, as it is left, cannot take. -/
def Orderly (m : Manager) (x : ManagerM α) : Prop := ∀ e m', x m = .error e m' →
  (e.isRefusal = true → m' = m) ∧ (e.isStoreFull = true → m'.Overflows e)

theorem Honest.orderly (h : Honest m.clocks x) : m.Orderly x := by
  intro e m' run
  have fails := h m rfl
  rw [run] at fails
  refine ⟨fun refused => ?_, fails.2⟩
  rw [fails.1] at refused
  cases refused

/-- What is raised before anything is done leaves the manager as it is. -/
theorem Orderly.of_unchanged (h : ∀ e m', x m = .error e m' → m' = m ∧ e.isMaking = false) :
    m.Orderly x := by
  intro e m' run
  obtain ⟨same, making⟩ := h e m' run
  refine ⟨fun _ => same, fun full => ?_⟩
  rw [Error.isStoreFull_of_isMaking making] at full
  cases full

theorem Orderly.bind {f : α → ManagerM β} (hx : m.Orderly x)
    (hf : ∀ a m', x m = .ok a m' → Honest m'.clocks (f a)) : m.Orderly (x >>= f) := by
  intro e m' run
  cases first : x m with
  | error e' m'' =>
    rw [bind_of_error first] at run
    cases run
    exact hx _ _ first
  | ok a m'' =>
    rw [bind_of_ok first] at run
    have fails := hf a m'' first m'' rfl
    rw [run] at fails
    refine ⟨fun refused => ?_, fails.2⟩
    rw [fails.1] at refused
    cases refused

theorem Orderly.map (hx : m.Orderly x) (g : α → β) : m.Orderly (g <$> x) := by
  rw [map_eq_pure_bind]
  exact hx.bind fun _ _ _ => honest_pure _

/-- A check of the arguments comes first. -/
theorem orderly_query_bind {read : Manager → Except Error α} {f : α → ManagerM β}
    (h : Raises (·.isMaking = false) (read m)) (hf : ∀ a, m.Orderly (f a)) :
    m.Orderly (query read >>= f) := by
  cases check : read m with
  | ok a =>
    intro e m' run
    rw [bind_of_ok (query_of_ok check)] at run
    exact hf a e m' run
  | error e =>
    refine .of_unchanged fun e' m' run => ?_
    rw [bind_of_error (query_of_error check)] at run
    cases run
    exact ⟨rfl, h e check⟩

theorem orderly_lift_bind {r : Except Error α} {f : α → ManagerM β}
    (h : Raises (·.isMaking = false) r) (hf : ∀ a, m.Orderly (f a)) :
    m.Orderly (liftM r >>= f) := by
  cases r with
  | ok a => exact hf a
  | error e =>
    refine .of_unchanged fun e' m' run => ?_
    cases run
    exact ⟨rfl, h e rfl⟩

section Requests

variable (m)

theorem orderly_range (i j : Nat) (bound opposite : Bound) :
    m.Orderly (range i j bound opposite) := by
  cases check : m.checkPair i j with
  | error e =>
    refine .of_unchanged fun e' m' run => ?_
    rw [range, bind_of_error (query_of_error check)] at run
    cases run
    exact ⟨rfl, m.raises_checkPair i j e check⟩
  | ok found =>
    refine ((honest_compositional m.clocks).range (honest_query fun m' same => ?_)).orderly
    rw [checkPair_congr same, check]
    exact raises_ok found

theorem orderly_interval (i j : Nat) (low up : Int) : m.Orderly (interval i j low up) :=
  orderly_lift_bind (raises_checkValue low) fun _ =>
    orderly_lift_bind (raises_checkValue up) fun _ => m.orderly_range i j _ _

theorem orderly_lowerBound (i j : Nat) (low : Int) : m.Orderly (lowerBound i j low) :=
  orderly_lift_bind (raises_checkValue low) fun _ => m.orderly_range i j _ _

theorem orderly_upperBound (i j : Nat) (up : Int) : m.Orderly (upperBound i j up) :=
  orderly_lift_bind (raises_checkValue up) fun _ => m.orderly_range i j _ _

theorem orderly_ofDbm (zone : Dbm) : m.Orderly (ofDbm zone) := by
  refine orderly_query_bind (m.raises_checkDim zone.dim) fun _ => Honest.orderly ?_
  split
  · exact honest_pure _
  · exact (honest_compositional m.clocks).pathThrough _

theorem orderly_extract (f : Handle) (dim : Nat) : m.Orderly (extract f dim) :=
  orderly_query_bind (m.raises_checkExtractDim dim) fun _ =>
    orderly_query_bind (m.raises_chooseZone f) fun full =>
      (m.orderly_ofDbm full).bind fun zone _ _ =>
        (honest_applyReduce .and f (-zone)).bind fun _ => honest_pure _

theorem orderly_addClocks (n : Nat) : m.Orderly (addClocks n) := by
  refine .of_unchanged fun e m' run => ?_
  obtain ⟨-, eq⟩ | ⟨_, raised, eq⟩ := addClocks_cases n m
  · cases run.symm.trans eq
  · cases run.symm.trans eq
    exact ⟨rfl, m.raises_clocksPlus n e raised⟩

end Requests

/-- **Every request about live diagrams fails in order.** A collection does not fail at all. -/
theorem Sound.orderly (hm : m.Sound) (r : Request) (live : ∀ f ∈ r.operands, m.Live f) :
    m.Orderly r.perform := by
  cases r with
  | contains f zone =>
    refine Orderly.map (.of_unchanged fun e m' run => ?_) _
    rw [query_apply] at run
    split at run
    · cases run
    next raised =>
      cases run
      exact ⟨rfl, m.raises_contains f zone _ raised⟩
  | act action =>
    cases action with
    | addClocks n => exact (m.orderly_addClocks n).map _
    | interval i j low up => exact (m.orderly_interval i j low up).map _
    | lowerBound i j low => exact (m.orderly_lowerBound i j low).map _
    | upperBound i j up => exact (m.orderly_upperBound i j up).map _
    | constraint i j bound => exact (m.orderly_range i j bound .infinity).map _
    | ofDbm zone => exact (m.orderly_ofDbm zone).map _
    | apply op f g => exact (honest_apply op f g).orderly.map _
    | reduce f => exact (honest_reduce f).orderly.map _
    | reduceByLayers f => exact ((honest_compositional _).reduceByLayers f).orderly.map _
    | applyReduce op f g => exact (honest_applyReduce op f g).orderly.map _
    | isEmpty f => exact ((honest_reduce f).bind fun _ => honest_pure _).orderly.map _
    | isEquivalent f g =>
      exact ((honest_applyReduce .xor f g).bind fun _ => honest_pure _).orderly.map _
    | extract f dim => exact (m.orderly_extract f dim).map _
    | removeNegative f => exact (honest_removeNegative f).orderly.map _
    | collectGarbage roots =>
      refine Orderly.map (.of_unchanged fun e m' run => ?_) _
      obtain ⟨_, _, eq, -⟩ := hm.collectGarbage_eq_ok live
      cases run.symm.trans eq

end Manager

end ZoneDiagram

import ZoneDiagram.Proofs.Manager.Compositional
import ZoneDiagram.Proofs.Manager.Reachable

/-!
# What does not look at the cache

Managers that differ in the cache only have the same nodes, so every read of a diagram is the same
in both. A computation is steady if it runs alike from both: it has the same result, or fails with
the same error, and leaves managers that again differ in the cache only.

All computations but those that look up a remembered result are steady: the builders, the passes
of reduction, which have a memo of their own, reduction by layers, more clocks, and the collection
of nodes.
-/

namespace ZoneDiagram.Manager

variable {α β : Type}

/-- The same result, in managers that differ in the cache only. -/
inductive Matches : EStateM.Result Error Manager α → EStateM.Result Error Manager α → Prop
  | ok (a : α) (m : Manager) (c : Cache OpKey Handle) : Matches (.ok a m) (.ok a (m.withCache c))
  | error (e : Error) (m : Manager) (c : Cache OpKey Handle) :
      Matches (.error e m) (.error e (m.withCache c))

/-- The computation does not look at the cache. -/
def Steady (x : ManagerM α) : Prop := ∀ m c, Matches (x m) (x (m.withCache c))

/-! ## Steady computations -/

section Steady

variable {x : ManagerM α} {f : α → ManagerM β}

/-- What follows a matching result may depend on the run. -/
theorem Matches.bind {m m' : Manager} (h : Matches (x m) (x m'))
    (hf : ∀ a n c, x m = .ok a n → x m' = .ok a (n.withCache c) →
      Matches (f a n) (f a (n.withCache c))) : Matches ((x >>= f) m) ((x >>= f) m') := by
  generalize run : x m = r, run' : x m' = r' at h
  cases h with
  | ok a n c =>
    rw [bind_of_ok run, bind_of_ok run']
    exact hf a n c run run'
  | error e n c =>
    rw [bind_of_error run, bind_of_error run']
    exact .error e n c

theorem steady_pure (a : α) : Steady (pure a) := fun m c => .ok a m c

theorem steady_throw (e : Error) : Steady (throw e : ManagerM α) := fun m c => .error e m c

theorem Steady.bind (hx : Steady x) (hf : ∀ a, Steady (f a)) : Steady (x >>= f) := fun m c =>
  (hx m c).bind fun a n c' _ _ => hf a n c'

theorem steady_lift (r : Except Error α) : Steady (liftM r) := fun m c => by
  cases r with
  | ok a => exact .ok a m c
  | error e => exact .error e m c

theorem steady_query {read : Manager → Except Error α}
    (h : ∀ m c, read (withCache m c) = read m) : Steady (query read) := fun m c => by
  have same := h m c
  rw [query_apply, query_apply, same]
  cases read m with
  | ok a => exact .ok a m c
  | error e => exact .error e m c

/-- A part of the manager may be read that is not the cache. -/
theorem steady_get_bind {f : Manager → ManagerM β} (h : ∀ m c, f (withCache m c) = f m)
    (hf : ∀ m, Steady (f m)) : Steady (get >>= f) := fun m c => by
  have same := h m c
  rw [get_bind_apply, get_bind_apply, same]
  exact hf m m c

end Steady

/-! ## Making nodes -/

theorem steady_intern (node : Node) : Steady (intern node) := fun m c => by
  unfold intern
  rcases m.store.put node with ⟨slot | e, store⟩
  · exact .error _ _ c
  · exact .ok _ _ c

/-- What makes nodes and passes is steady, because its steps are. -/
theorem steady_compositional : Compositional Steady where
  pure := steady_pure
  bind := Steady.bind
  throw _ := steady_throw _
  query h _ := steady_query h
  get_bind := steady_get_bind
  intern := steady_intern

theorem steady_remember (key : OpKey) (r : Handle) : Steady (remember key r) := fun m c =>
  .ok _ { m with cache := m.cache.insert key r } (c.insert key r)

/-! ## Builders -/

theorem steady_range (i j : Nat) (bound opposite : Bound) : Steady (range i j bound opposite) :=
  steady_compositional.range (steady_query fun _ _ => rfl)

theorem steady_interval (i j : Nat) (low up : Int) : Steady (interval i j low up) :=
  (steady_lift _).bind fun _ => (steady_lift _).bind fun _ => steady_range i j _ _

theorem steady_lowerBound (i j : Nat) (low : Int) : Steady (lowerBound i j low) :=
  (steady_lift _).bind fun _ => steady_range i j _ _

theorem steady_upperBound (i j : Nat) (up : Int) : Steady (upperBound i j up) :=
  (steady_lift _).bind fun _ => steady_range i j _ _

theorem steady_constraint (i j : Nat) (bound : Bound) : Steady (constraint i j bound) :=
  steady_range i j bound .infinity

theorem steady_ofDbm (zone : Dbm) : Steady (ofDbm zone) := by
  refine (steady_query fun _ _ => rfl).bind fun _ => ?_
  split
  · exact steady_pure _
  · exact steady_compositional.pathThrough _

/-! ## Clocks and garbage -/

theorem steady_addClocks (n : Nat) : Steady (addClocks n) := by
  have count : Steady (query (·.clocksPlus n)) := steady_query fun _ _ => rfl
  exact count.bind fun clocks => fun m c => .ok _ _ c.clear

theorem steady_collectGarbage (roots : List Handle) : Steady (collectGarbage roots) := by
  have clear : Steady (modify fun m : Manager => { m with cache := m.cache.clear }) :=
    fun m c => .ok _ _ c.clear
  have reach : Steady (query (·.reach roots)) :=
    steady_query fun m c => reach_withCache m c roots
  have retain (alive : Std.TreeSet Nat) : Steady (query (·.store.retain alive.contains)) :=
    steady_query fun _ _ => rfl
  exact clear.bind fun _ => reach.bind fun alive => (retain alive).bind fun _ => fun m c =>
    .ok _ _ c

end ZoneDiagram.Manager

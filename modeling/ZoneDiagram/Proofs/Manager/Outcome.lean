import ZoneDiagram.Proofs.Manager.Sound

/-!
# What a client sees of a computation

A computation from a sound manager has a result as it should be, or it finds every slot of the
store taken (`Gives`). Either way, every diagram that was live keeps its level, its edges and its
truth.
-/

namespace ZoneDiagram.Manager

variable {m m' : Manager} {α : Type} {x : ManagerM α} {Q Q' : α → Manager → Prop} {a : α}

/-- The diagrams that were live are what they were. -/
structure Preserves (m m' : Manager) : Prop where
  live : ∀ h, m.Live h → m'.Live h
  level : ∀ h, m.Live h → m'.level h = m.level h
  edges : ∀ h, m.Live h → m'.edges h = m.edges h
  eval : ∀ h, m.Live h → ∀ d, m'.eval d h = m.eval d h

theorem Keeps.preserves (h : m.Keeps m') (hm : m.Nodes) (hm' : m'.Nodes) : m.Preserves m' where
  live _ hh := h.live hh
  level f hf := by rw [hm.level_eq_ok hf, hm'.level_eq_ok (h.live hf), h.levelOf hf]
  edges f hf := by rw [hm.edges_eq_ok hf, hm'.edges_eq_ok (h.live hf), h.edgesOf hf]
  eval _ hf _ := h.eval hm hm' hf

theorem Sound.preserves (hm : m.Sound) (grows : m.Grows m') : m.Preserves m' :=
  grows.keeps.keeps.preserves hm.toNodes grows.sound.toNodes

/-- The computation gives a result as described, unless every slot of the store is taken. -/
def Gives (m : Manager) (x : ManagerM α) (Q : α → Manager → Prop) : Prop :=
  match x m with
  | .ok a m' => Q a m' ∧ m.Preserves m'
  | .error e m' => Exhausted e m' ∧ m.Preserves m'

theorem Runs.gives (h : Runs m x Q fun _ => False) (hm : m.Sound) : m.Gives x Q := by
  unfold Runs at h
  split at h
  next a m' run =>
    rw [Gives, run]
    exact ⟨h.2, hm.preserves h.1⟩
  next e m' run =>
    rw [Gives, run]
    exact ⟨h.2.resolve_right not_false, hm.preserves h.1⟩

theorem Runs.gives_of (h : Runs m x Q fun _ => False) (hm : m.Sound)
    (hQ : ∀ a m', m.Grows m' → Q a m' → Q' a m') : m.Gives x Q' :=
  (h.imp hQ fun _ absurd => absurd).gives hm

/-- Two computations whose results have a property that only one handle can have give the same
handle. -/
theorem Runs.both {x y : ManagerM Handle} {P : Manager → Handle → Prop}
    (hx : Runs m x (fun r m' => P m' r) fun _ => False)
    (hy : ∀ m', m.Grows m' → Runs m' y (fun r m'' => P m'' r) fun _ => False)
    (keep : ∀ {m₁ m₂ r}, m.Grows m₁ → m₁.Grows m₂ → P m₁ r → P m₂ r)
    (unique : ∀ {m' r s}, m'.Sound → P m' r → P m' s → r = s) :
    Runs m (do return (← x, ← y)) (fun p _ => p.1 = p.2) fun _ => False := by
  refine hx.bind fun r m₁ grows first => (hy m₁ grows).bind fun s m₂ grows' second => ?_
  exact .pure grows'.sound (unique grows'.sound (keep grows grows' first) second)

/-- The result of a computation that succeeds. -/
def result? (x : ManagerM α) (m : Manager) : Option α :=
  match x m with
  | .ok a _ => some a
  | .error _ _ => none

/-- The failure of a computation that does not succeed. -/
def failure? (x : ManagerM α) (m : Manager) : Option Error :=
  match x m with
  | .ok _ _ => none
  | .error e _ => some e

theorem exists_of_result? (found : result? x m = some a) : ∃ m', x m = .ok a m' := by
  unfold result? at found
  cases run : x m with
  | ok b m' =>
    rw [run] at found
    cases found
    exact ⟨m', rfl⟩
  | error e m' =>
    rw [run] at found
    cases found

theorem exists_of_failure? {e : Error} (failed : failure? x m = some e) :
    ∃ m', x m = .error e m' := by
  unfold failure? at failed
  cases run : x m with
  | ok b m' =>
    rw [run] at failed
    cases failed
  | error e' m' =>
    rw [run] at failed
    cases failed
    exact ⟨m', rfl⟩

/-- Only a full store makes the computation fail. -/
theorem Gives.eq_storeFull {e : Error} (h : m.Gives x Q) (failed : failure? x m = some e) :
    ∃ capacity, e = .storeFull capacity := by
  obtain ⟨m', run⟩ := exists_of_failure? failed
  rw [Gives, run] at h
  exact ⟨_, h.1.1⟩

theorem Gives.of_result? (h : m.Gives x Q) (found : result? x m = some a) :
    ∃ m', x m = .ok a m' ∧ Q a m' := by
  obtain ⟨m', run⟩ := exists_of_result? found
  rw [Gives, run] at h
  exact ⟨m', run, h.1⟩

theorem Gives.of_ok (h : m.Gives x Q) (run : x m = .ok a m') : Q a m' := by
  rw [Gives, run] at h
  exact h.1

/-- If two computations in a row succeed, then so does each of them. -/
theorem exists_of_isSome_bind {β : Type} {f : α → ManagerM β}
    (found : (result? (x >>= f) m).isSome = true) :
    ∃ a m', x m = .ok a m' ∧ (result? (f a) m').isSome = true := by
  cases run : x m with
  | ok a m' =>
    rw [result?, bind_of_ok run] at found
    exact ⟨a, m', rfl, found⟩
  | error e m' =>
    rw [result?, bind_of_error run] at found
    cases found

theorem Gives.of_isSome (h : m.Gives x Q) (found : (result? x m).isSome = true) :
    ∃ a m', x m = .ok a m' ∧ Q a m' := by
  obtain ⟨a, ha⟩ := Option.isSome_iff_exists.1 found
  exact ⟨a, h.of_result? ha⟩

end ZoneDiagram.Manager

import ZoneDiagram.Proofs.Reduction

/-!
# The representation of a manager

A run performs operations one after the other, each on diagrams that are live when it comes to
them. Operations may fail, also for a store that is full in the middle of a recursion, and the next
one starts from what is left. The reachable managers are those that a run from a new one leads to
(`reachable_iff_run?`).

**Theorem (`Reachable.representation`).** In every reachable manager the first slot holds the
terminal node; all other nodes are canonical decisions on levels that exist, with stored children on
later levels; and no two slots hold the same node.

Nothing is assumed of the bounds and matrices that diagrams are built from: a node is stored only
with edges that are canonical and children that are stored (`intern_runs`), or not at all. That the
cuts increase is checked before a node is made (`mkNode`), and `Reachable.properCuts` says when this
check cannot fail. Garbage collection keeps what the nodes that it keeps have as children
(`collectGarbage_sound`).
-/

namespace ZoneDiagram.Manager

variable {m m' : Manager} {actions : List Action}

/-! ## Runs -/

/-- The manager after some operations, if each of them is about live diagrams. -/
def run? (m : Manager) : List Action → Option Manager
  | [] => some m
  | a :: rest => if ∀ f ∈ a.operands, m.Live f then (a.next m).run? rest else none

/-- An operation on no diagrams is done. -/
theorem run?_cons_of_no_operands {a : Action} (h : a.operands = []) :
    m.run? (a :: actions) = (a.next m).run? actions := by
  rw [run?, if_pos]
  rw [h]
  exact fun f hf => (List.not_mem_nil hf).elim

theorem run?_append (m : Manager) (actions rest : List Action) :
    m.run? (actions ++ rest) = (m.run? actions).bind (·.run? rest) := by
  induction actions generalizing m with
  | nil => rfl
  | cons a actions ih =>
    rw [List.cons_append, run?, run?]
    split
    next => exact ih (a.next m)
    next => rfl

/-- A run from a reachable manager leads to a reachable one. -/
theorem Reachable.run? (h : m.Reachable) (run : m.run? actions = some m') : m'.Reachable := by
  induction actions generalizing m with
  | nil =>
    cases run
    exact h
  | cons a actions ih =>
    rw [Manager.run?] at run
    split at run
    next live => exact ih (h.step a live) run
    next => cases run

/-- A run without collections leaves all nodes where they are. -/
theorem Sound.keeps_run? (hm : m.Sound) (plain : ∀ a ∈ actions, a.collects = false)
    (run : m.run? actions = some m') : m'.Sound ∧ m.Keeps m' := by
  induction actions generalizing m with
  | nil =>
    cases run
    exact ⟨hm, .refl _⟩
  | cons a actions ih =>
    rw [Manager.run?] at run
    split at run
    next live =>
      obtain ⟨sound, keeps⟩ :=
        ih (hm.next a live) (fun b hb => plain b (List.mem_cons_of_mem a hb)) run
      exact ⟨sound, (hm.keeps_next live (plain a List.mem_cons_self)).trans keeps⟩
    next => cases run

/-- The reachable managers are those that runs from new ones lead to. -/
theorem reachable_iff_run? : m.Reachable ↔
    ∃ config first actions, create config = .ok first ∧ first.run? actions = some m := by
  constructor
  · intro h
    induction h with
    | create created => exact ⟨_, _, [], created, rfl⟩
    | step a _ live ih =>
      obtain ⟨config, first, actions, created, run⟩ := ih
      refine ⟨config, first, actions ++ [a], created, ?_⟩
      rw [run?_append, run, Option.bind_some, Manager.run?, if_pos live, Manager.run?]
  · rintro ⟨config, first, actions, created, run⟩
    exact (Reachable.create created).run? run

/-! ## The invariant -/

/-- **Every reachable manager is well formed**, whatever operations failed on the way. -/
theorem Reachable.representation (h : m.Reachable) : m.WellFormed := h.sound.wellFormed

/-! ## A store that is full, and slots that are taken again -/

/-- Bounds that take all slots but one. -/
def filling : List Action := (List.range 11).map fun k => .upperBound 1 0 (k + 10)

/-- The square in a store with one slot left. -/
def crowded : Manager := (square.run? filling).getD square

/-- The box would need two nodes, and the second one finds the store full. -/
def stopped : Manager := (Action.apply .and ⟨-5⟩ ⟨-4⟩).next crowded

/-- Only the square and the third band are kept. -/
def cleared : Manager := (Action.collectGarbage [⟨-5⟩, ⟨-4⟩]).next stopped

/-- The box in slots that were taken before. -/
def reused : Manager := (Action.apply .and ⟨-5⟩ ⟨-4⟩).next cleared

/-- What evaluating the run shows. -/
theorem evaluate_reused : (square.run? filling).isSome = true ∧
    (∀ f ∈ [⟨-5⟩, ⟨-4⟩], crowded.Live f ∧ stopped.Live f ∧ cleared.Live f) ∧
    failure? (apply .and ⟨-5⟩ ⟨-4⟩) crowded = some (.storeFull 17) ∧
    (stopped.store.realSize, cleared.store.realSize, reused.store.realSize) = (17, 4, 6) ∧
    result? (apply .and ⟨-5⟩ ⟨-4⟩) cleared = some ⟨-6⟩ := by
  decide +kernel

theorem reachable_stopped : stopped.Reachable := by
  obtain ⟨filled, live, -⟩ := evaluate_reused
  obtain ⟨m, run⟩ := Option.isSome_iff_exists.1 filled
  have start : crowded.Reachable := by
    rw [crowded, run, Option.getD_some]
    exact reachable_square.run? run
  exact start.step (.apply .and ⟨-5⟩ ⟨-4⟩) fun f hf => (live f hf).1

theorem representation_reused :
    failure? (apply .and ⟨-5⟩ ⟨-4⟩) crowded = some (.storeFull 17) ∧ stopped.WellFormed ∧
      (stopped.store.realSize, cleared.store.realSize, reused.store.realSize) = (17, 4, 6) ∧
      result? (apply .and ⟨-5⟩ ⟨-4⟩) cleared = some ⟨-6⟩ ∧ reused.WellFormed := by
  obtain ⟨-, live, full, sizes, again⟩ := evaluate_reused
  have second := reachable_stopped.step (.collectGarbage [⟨-5⟩, ⟨-4⟩]) fun f hf => (live f hf).2.1
  have third := second.step (.apply .and ⟨-5⟩ ⟨-4⟩) fun f hf => (live f hf).2.2
  exact ⟨full, reachable_stopped.representation, sizes, again, third.representation⟩

end ZoneDiagram.Manager

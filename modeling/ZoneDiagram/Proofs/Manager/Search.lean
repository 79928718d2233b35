import ZoneDiagram.Manager.Zones
import ZoneDiagram.Proofs.Manager.Paths

/-!
# Searches through a diagram

A search reads the manager and remembers the visits that it is done with. It ends with an answer,
and what it remembers stays right (`Ends`). It goes on at the children of a decision in what is
left of the context on their intervals, where a valuation has the truth of the child
(`MetIn.holds_of_branch`); no valuation is lost (`MetIn.exists_branch_of_holds`).
-/

namespace ZoneDiagram.Manager

open CutList

/-! ## Ends -/

section Ends

variable {σ α β : Type} {J : σ → Prop} {s : σ} {x : StateT σ (Except Error) α} {Q R : α → Prop}

/-- The search ends with an answer of which `Q` holds, and what it remembers has the property
`J`. -/
def Ends (J : σ → Prop) (s : σ) (x : StateT σ (Except Error) α) (Q : α → Prop) : Prop :=
  ∃ a s', x.run s = .ok (a, s') ∧ J s' ∧ Q a

theorem Ends.pure {a : α} (hs : J s) (h : Q a) : Ends J s (pure a) Q := ⟨a, s, rfl, hs, h⟩

theorem Ends.imp (h : Ends J s x Q) (himp : ∀ a, Q a → R a) : Ends J s x R := by
  obtain ⟨a, s', run, hs', ha⟩ := h
  exact ⟨a, s', run, hs', himp a ha⟩

theorem Ends.bind {R : β → Prop} {f : α → StateT σ (Except Error) β} (hx : Ends J s x Q)
    (hf : ∀ a s', J s' → Q a → Ends J s' (f a) R) : Ends J s (x >>= f) R := by
  obtain ⟨a, s', run, hs', ha⟩ := hx
  obtain ⟨b, s'', rest, hs'', hb⟩ := hf a s' hs' ha
  refine ⟨b, s'', ?_, hs'', hb⟩
  rw [StateT.run_bind, run]
  exact rest

theorem Ends.lift_bind {a : β} {y : Except Error β} {f : β → StateT σ (Except Error) α}
    (eq : y = .ok a) (h : Ends J s (f a) Q) : Ends J s (liftM y >>= f) Q := by
  rw [eq]
  exact h

theorem Ends.get_bind {f : σ → StateT σ (Except Error) α} (h : Ends J s (f s) Q) :
    Ends J s (get >>= f) Q := h

theorem Ends.modify_bind {g : σ → σ} {f : PUnit → StateT σ (Except Error) α}
    (h : Ends J (g s) (f ⟨⟩) Q) : Ends J s (modify g >>= f) Q := h

end Ends

/-! ## Branches -/

variable {m : Manager} {f e : Handle} {ctx : Dbm} {K : Int} {pair : ClockPair}
  {wanted : Handle → Bool} {p : Piece (Handle × Dbm)} {v : Valuation}

/-- A diagram that is not a constant is a decision on a pair of clocks. -/
theorem Nodes.exists_pair (hm : m.Nodes) (hf : m.Live f) (notZero : f ≠ .zero) (notOne : f ≠ .one) :
    f.isTerminal = false ∧ ∃ pair, ClockPair.ofLevel (m.levelOf f) = .ok pair := by
  have inner : f.isTerminal = false := by
    rw [← Bool.not_eq_true]
    intro terminal
    rcases Handle.eq_one_or_eq_zero terminal with eq | eq
    exacts [notOne eq, notZero eq]
  obtain ⟨pair, hpair, -⟩ := ClockPair.ofLevel_eq_ok hm.few (hm.canonical_nodeOf hf inner).2
  exact ⟨inner, pair, hpair⟩

theorem branches_eq_ok (hm : m.Nodes) (hf : m.Live f) (inner : f.isTerminal = false)
    (hpair : ClockPair.ofLevel (m.levelOf f) = .ok pair) :
    m.branches f ctx = .ok (ctx.feasible pair (· != .zero) none (m.edgesOf f)) := by
  rw [branches, hm.pair_eq hf inner, hpair, hm.edges_eq_ok hf]
  rfl

/-- A decision has the truth of the child that the difference selects. -/
theorem Nodes.holds_of_itemAt? (hm : m.Nodes) (hf : m.Live f) (inner : f.isTerminal = false)
    (hpair : ClockPair.ofLevel (m.levelOf f) = .ok pair)
    (item : itemAt? (v pair.i - v pair.j) (m.edgesOf f) = some e) : m.Holds f v ↔ m.Holds e v := by
  obtain ⟨lo, c, hc, rfl, between⟩ := exists_interval_of_itemAt? none item nofun
  rw [← Diagram.differences_of_ofLevel hpair v] at between
  rw [Holds, Holds, hm.eval_of_between hf inner (hm.level_eq_ok hf) (hm.edges_eq_ok hf) hc between]

/-- A branch is met in what is left of the context, and there some valuation is left. -/
theorem MetIn.branch (hf : m.MetIn K ctx f) (hm : m.Nodes) (inner : f.isTerminal = false)
    (hpair : ClockPair.ofLevel (m.levelOf f) = .ok pair)
    (hp : p ∈ ctx.feasible pair wanted none (m.edgesOf f)) :
    m.MetIn K p.item.2 p.item.1 ∧ ∃ e ∈ m.edgesOf f, e.item = p.item.1 := by
  obtain ⟨c, hc, -, admitted, rfl⟩ := Dbm.mem_feasible_iff.1 hp
  exact ⟨hf.child hm inner hpair hc admitted, c.2, mem_of_mem_intervals hc, rfl⟩

theorem MetIn.isEmpty_eq_false (hf : m.MetIn K ctx f) : ctx.isEmpty = false :=
  hf.ready.settled.isEmpty_eq_false

/-- In what is left of the context for a branch, a decision has the truth of the child. -/
theorem MetIn.holds_of_branch (hf : m.MetIn K ctx f) (hm : m.Nodes) (inner : f.isTerminal = false)
    (hpair : ClockPair.ofLevel (m.levelOf f) = .ok pair)
    (hp : p ∈ ctx.feasible pair wanted none (m.edgesOf f)) (hv : p.item.2.Holds v) :
    ctx.Holds v ∧ (m.Holds f v ↔ m.Holds p.item.1 v) := by
  obtain ⟨inside, item⟩ := (hf.divides hm inner hpair).holds_of_mem_feasible hp hv
  exact ⟨inside, hm.holds_of_itemAt? hf.live inner hpair item⟩

/-- Every valuation of the context is left for a branch. -/
theorem MetIn.exists_branch_of_holds (hf : m.MetIn K ctx f) (hm : m.Nodes)
    (inner : f.isTerminal = false) (hpair : ClockPair.ofLevel (m.levelOf f) = .ok pair)
    (hv : ctx.Holds v) : ∃ p ∈ ctx.feasible pair (fun _ => true) none (m.edgesOf f),
      p.item.2.Holds v ∧ (m.Holds f v ↔ m.Holds p.item.1 v) := by
  obtain ⟨e, item⟩ := (hm.proper_edgesOf hf.live inner).exists_itemAt? (v pair.i - v pair.j)
  obtain ⟨p, hp, rfl, holds⟩ :=
    (hf.divides hm inner hpair).exists_feasible_of_holds (fun _ => true) hv item rfl
  exact ⟨p, hp, holds, hm.holds_of_itemAt? hf.live inner hpair item⟩

end ZoneDiagram.Manager

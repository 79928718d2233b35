import ZoneDiagram.Proofs.Manager.Apply
import ZoneDiagram.Proofs.Simulation

/-!
# The same computation among more clocks

A manager is given more clocks, and all else stays. A computation on the wider manager follows one
on the narrow manager if every result of the second is one of the first, and the managers have the
same nodes and caches again (`wider`). Nodes test pairs of the first clocks only (`Leveled`), so
both meet the same pairs.

Making a node, a path, or a combination of diagrams reads nothing of the clocks but a limit of the
depth, which is larger among more clocks. So each follows itself (`wider_mkNode`, `wider_apply`).
-/

namespace ZoneDiagram

theorem SlotTable.get?_add {α : Type} {t t' : SlotTable α} {v w : α} {slot s : Nat}
    (add : t.add v = (.ok slot, t')) (h : t'.get? s = some w) : w = v ∨ t.get? s = some w := by
  unfold SlotTable.add at add
  split at add
  · cases add
    rw [get?, Array.getElem?_setIfInBounds] at h
    split at h
    · split at h
      · exact .inl (Option.some.inj h).symm
      · cases h
    · exact .inr h
  · dsimp only at add
    split at add
    · cases add
    · cases add
      rw [get?, Array.getElem?_push] at h
      split at h
      · exact .inl (Option.some.inj h).symm
      · exact .inr h

/-- The slots hold what they held before, and one may hold the value that was put. -/
theorem SlotTable.get?_put {α : Type} [BEq α] [Hashable α] {t t' : SlotTable α} {v w : α}
    {slot s : Nat} (put : t.put v = (.ok slot, t')) (h : t'.get? s = some w) :
    w = v ∨ t.get? s = some w := by
  unfold SlotTable.put at put
  dsimp only at put
  split at put
  · cases put
  · cases put
    exact .inr h
  · split at put
    · cases put
    next added =>
      cases put
      rw [get?_link] at h
      exact get?_add added h

namespace Manager

variable {c n : Nat} {α β σ τ : Type} {R : α → β → Prop} {m : Manager} {level depth depth' : Nat}
  {op : Connective} {f g : Handle}

/-! ## More clocks -/

/-- The manager with another number of clocks. -/
abbrev withClocks (m : Manager) (n : Nat) : Manager := { m with clocks := n }

/-- The level of a pair of so many clocks, or of the terminal node. -/
def LevelIn (clocks level : Nat) : Prop :=
  level = ClockPair.terminalLevel ∨ level < ClockPair.count clocks

/-- The manager has so many clocks, and its nodes test pairs of them. -/
structure Leveled (c : Nat) (m : Manager) : Prop where
  clocks : m.clocks = c
  level : ∀ {s node}, m.store.get? s = some node → LevelIn c node.level

theorem Leveled.node {node : Node} (hm : Leveled c m) (read : m.node f = .ok node) :
    LevelIn c node.level := by
  obtain ⟨cell, hcell, eq⟩ := Except.bind_eq_ok_iff.1 read
  cases eq
  cases held : cell.held with
  | none => exact .inl rfl
  | some node => exact hm.level ((SlotTable.get?_of_cell hcell).trans held)

theorem Leveled.level_of_ok (hm : Leveled c m) (read : m.level f = .ok level) :
    LevelIn c level := by
  obtain ⟨node, hnode, eq⟩ := Except.bind_eq_ok_iff.1 read
  cases eq
  exact hm.node hnode

/-- Only levels of pairs lead to pairs. -/
theorem LevelIn.lt_of_ofLevel {pair : ClockPair} (hl : LevelIn c level) (hc : c ≤ maxClocks)
    (hpair : ClockPair.ofLevel level = .ok pair) : pair.i < c := by
  rcases hl with rfl | lt
  · cases hpair
  · obtain ⟨_, eq, inside, -⟩ := ClockPair.ofLevel_eq_ok hc lt
    cases hpair.symm.trans eq
    exact inside

theorem Leveled.pair (hm : Leveled c m) (hc : c ≤ maxClocks) {pair : ClockPair}
    (read : m.pair f = .ok pair) : pair.i < c := by
  unfold Manager.pair at read
  split at read
  · cases read
  · obtain ⟨level, hlevel, read⟩ := Except.bind_eq_ok_iff.1 read
    exact (hm.level_of_ok hlevel).lt_of_ofLevel hc read

/-- A result of the first computation, on a manager with `c` clocks, is one of the second on the
same manager with `n` clocks. -/
def wider (c n : Nat) : Simulation ManagerM where
  Rel x y R := ∀ ⦃m a m₁⦄, Leveled c m → x m = .ok a m₁ →
    Leveled c m₁ ∧ ∃ b, y (m.withClocks n) = .ok b (m₁.withClocks n) ∧ R a b
  pure h m a m₁ hm run := by
    cases run
    exact ⟨hm, _, rfl, h⟩
  bind hx hf m a m₁ hm run := by
    obtain ⟨b, m', first, rest⟩ := exists_of_bind_eq_ok run
    obtain ⟨hm', b', first', related⟩ := hx hm first
    obtain ⟨hm₁, a', rest', related'⟩ := hf b b' related hm' rest
    exact ⟨hm₁, a', (bind_of_ok first').trans rest', related'⟩

theorem wider_throw {e : Error} {y : ManagerM β} : (wider c n).Rel (throw e : ManagerM α) y R :=
  fun _ _ _ _ run => by cases run

theorem wider_pass_throw {S : σ → τ → Prop} {e : Error} {y : StateT τ ManagerM β} :
    (wider c n).Pass S (throw e : StateT σ ManagerM α) y R := fun _ _ _ _ _ _ _ run => by
  cases run

theorem wider_pass_throw_bind {S : σ → τ → Prop} {e : Error} {γ : Type}
    {f : γ → StateT σ ManagerM α} {y : StateT τ ManagerM β} :
    (wider c n).Pass S (throw e >>= f) y R := fun _ _ _ _ _ _ _ run => by cases run

theorem wider_query {read : Manager → Except Error α} {read' : Manager → Except Error β}
    (h : ∀ m, Leveled c m → results.Rel (read m) (read' (m.withClocks n)) R) :
    (wider c n).Rel (query read) (query read') R := by
  intro m a m₁ hm run
  rw [query_apply] at run
  split at run
  next a read =>
    cases run
    obtain ⟨b, read', related⟩ := h m hm a read
    exact ⟨hm, b, query_of_ok read', related⟩
  next => cases run

theorem wider_lift {r : Except Error α} {r' : Except Error β} (h : results.Rel r r' R) :
    (wider c n).Rel (liftM r) (liftM r') R := by
  intro m a m₁ hm run
  cases r with
  | error e => cases run
  | ok a =>
    cases run
    obtain ⟨b, eq, related⟩ := h a rfl
    subst eq
    exact ⟨hm, b, rfl, related⟩

theorem wider_get_bind {x : Manager → ManagerM α} {y : Manager → ManagerM β}
    (h : ∀ m, Leveled c m → (wider c n).Rel (x m) (y (m.withClocks n)) R) :
    (wider c n).Rel (get >>= x) (get >>= y) R := fun m _ _ hm run => h m hm hm run

theorem wider_node (f : Handle) : (wider c n).Rel (query (·.node f)) (query (·.node f))
    fun a b => a = b ∧ LevelIn c a.level :=
  wider_query fun _ hm => results_same fun _ => hm.node

/-! ## Making nodes -/

theorem wider_intern {node : Node} (hl : LevelIn c node.level) :
    (wider c n).Rel (intern node) (intern node) Eq := by
  intro m f m₁ hm run
  unfold intern at run ⊢
  generalize put : m.store.put node = r at run
  obtain ⟨slot | e, store⟩ := r
  · cases run
  · cases run
    refine ⟨⟨hm.clocks, fun h => ?_⟩, _, rfl, rfl⟩
    rcases SlotTable.get?_put put h with rfl | h
    · exact hl
    · exact hm.level h

theorem wider_putNode (hl : LevelIn c level) (edges : CutList Handle) :
    (wider c n).Rel (putNode level edges) (putNode level edges) Eq := by
  unfold putNode
  split
  · refine (wider c n).bind (wider_intern hl) ?_
    rintro f _ rfl
    exact (wider c n).pure rfl
  · exact wider_intern hl

theorem wider_mkNode (hl : LevelIn c level) (edges : CutList Handle) :
    (wider c n).Rel (mkNode level edges) (mkNode level edges) Eq := by
  unfold mkNode
  generalize CutList.merge edges = merged
  cases merged with
  | nil => exact wider_throw
  | cons e rest =>
    dsimp only
    split
    · exact wider_throw
    split
    · exact (wider c n).pure rfl
    · exact wider_putNode hl _

theorem wider_pathThrough {cuts : List Cut} (hl : ∀ cut ∈ cuts, LevelIn c cut.level) :
    (wider c n).Rel (pathThrough cuts) (pathThrough cuts) Eq := by
  induction cuts with
  | nil => exact (wider c n).pure rfl
  | cons cut cuts ih =>
    refine (wider c n).bind (ih fun cut' h => hl cut' (List.mem_cons_of_mem _ h)) ?_
    rintro f _ rfl
    exact wider_mkNode (hl cut List.mem_cons_self) _

/-! ## Remembered results -/

theorem wider_remembered? (key : OpKey) :
    (wider c n).Rel (remembered? key) (remembered? key) Eq := by
  intro m r m₁ hm run
  cases run
  exact ⟨⟨hm.clocks, hm.level⟩, _, rfl, rfl⟩

theorem wider_remember (key : OpKey) (r : Handle) :
    (wider c n).Rel (remember key r) (remember key r) Eq := by
  intro m u m₁ hm run
  cases run
  exact ⟨⟨hm.clocks, hm.level⟩, _, rfl, rfl⟩

theorem wider_cached {key : OpKey} {x y : ManagerM Handle} (h : (wider c n).Rel x y Eq) :
    (wider c n).Rel (cached key x) (cached key y) Eq := by
  refine (wider c n).bind (wider_remembered? key) ?_
  rintro found _ rfl
  cases found with
  | some r => exact (wider c n).pure rfl
  | none =>
    refine (wider c n).bind h ?_
    rintro r _ rfl
    exact (wider c n).bind (wider_remember key r) fun _ _ _ => (wider c n).pure rfl

/-! ## Combining -/

theorem Leveled.refine {pieces : CutList (Handle × Handle)} (hm : Leveled c m)
    (read : m.refine f g = .ok (level, pieces)) : LevelIn c level := by
  obtain ⟨first, hfirst, read⟩ := Except.bind_eq_ok_iff.1 read
  obtain ⟨second, hsecond, read⟩ := Except.bind_eq_ok_iff.1 read
  obtain ⟨left, -, read⟩ := Except.bind_eq_ok_iff.1 read
  obtain ⟨right, -, read⟩ := Except.bind_eq_ok_iff.1 read
  obtain ⟨refined, -, read⟩ := Except.bind_eq_ok_iff.1 read
  cases read
  rcases min_choice first second with eq | eq <;> rw [eq]
  exacts [hm.level_of_ok hfirst, hm.level_of_ok hsecond]

/-- Two diagrams have the same common intervals, on a level of both managers. -/
theorem wider_refine (f g : Handle) :
    (wider c n).Rel (query (·.refine f g)) (query (·.refine f g)) fun a b =>
      a = b ∧ LevelIn c a.1 :=
  wider_query fun _ hm => results_same fun _ => hm.refine

theorem wider_combinePieces {child child' : Handle → Handle → ManagerM Handle}
    (hchild : ∀ f g, (wider c n).Rel (child f g) (child' f g) Eq) :
    (wider c n).Rel (combinePieces child f g) (combinePieces child' f g) Eq := by
  refine (wider c n).bind (wider_refine f g) ?_
  rintro ⟨level, pieces⟩ _ ⟨rfl, hl⟩
  refine (wider c n).bind ((wider c n).mapM pieces fun p => ?_) ?_
  · refine (wider c n).bind (hchild p.item.1 p.item.2) ?_
    rintro r _ rfl
    exact (wider c n).pure rfl
  · rintro edges _ rfl
    exact wider_mkNode hl edges

theorem wider_applyWithin (le : depth ≤ depth') :
    (wider c n).Rel (applyWithin op depth f g) (applyWithin op depth' f g) Eq := by
  induction depth generalizing depth' f g with
  | zero => exact wider_throw
  | succ depth ih =>
    obtain ⟨depth', rfl⟩ : ∃ k, depth' = k + 1 := ⟨depth' - 1, by omega⟩
    cases shortcut : op.shortcut f g with
    | some r =>
      rw [applyWithin_of_shortcut _ shortcut, applyWithin_of_shortcut _ shortcut]
      exact (wider c n).pure rfl
    | none =>
      rw [applyWithin_of_ordered _ shortcut rfl, applyWithin_of_ordered _ shortcut rfl]
      exact wider_cached (wider_combinePieces fun f g => ih (Nat.le_of_succ_le_succ le))

theorem Leveled.depth_le (hm : Leveled c m) (le : c ≤ n) : m.depth ≤ (m.withClocks n).depth :=
  Nat.succ_le_succ (ClockPair.triangle_le_triangle (hm.clocks ▸ le))

theorem wider_apply (le : c ≤ n) : (wider c n).Rel (apply op f g) (apply op f g) Eq :=
  wider_get_bind fun _ hm => wider_applyWithin (hm.depth_le le)

end Manager

end ZoneDiagram

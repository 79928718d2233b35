import ZoneDiagram.Manager.Zones
import ZoneDiagram.Proofs.Manager.ApplyReduce

/-!
# Diagrams with the same tree

Two managers may hold the same tree under different handles, in different slots and with the
complement on another edge. What a search for zones reads of a diagram is the same in both: its
pair, the bounds of its edges, and which edges lead to constants (`SameTree`). So searches in the
two managers take the same turns: they find the same zones one after the other, or stop with the
same error.

Nothing is assumed of the constants in the trees. Also where they do not add up, and the zones are
not those of the federation, both searches do the same.
-/

namespace ZoneDiagram.Manager

open CutList

variable {α β γ δ : Type} {m m' : Manager} {f f' : Handle}

/-! ## The same outcome -/

/-- Both succeed with related results, or both fail with the same error. -/
inductive Alike (R : α → β → Prop) : Except Error α → Except Error β → Prop
  | ok {a : α} {b : β} (h : R a b) : Alike R (.ok a) (.ok b)
  | error (e : Error) : Alike R (.error e) (.error e)

theorem Alike.bind {R : α → β → Prop} {S : γ → δ → Prop} {x : Except Error α} {y : Except Error β}
    {g : α → Except Error γ} {g' : β → Except Error δ} (h : Alike R x y)
    (hg : ∀ a b, R a b → Alike S (g a) (g' b)) : Alike S (x >>= g) (y >>= g') := by
  cases h with
  | ok h => exact hg _ _ h
  | error e => exact .error e

/-- Related results may lead to the same end. -/
theorem Alike.bind_eq {R : α → β → Prop} {x : Except Error α} {y : Except Error β}
    {g : α → Except Error γ} {g' : β → Except Error γ} (h : Alike R x y)
    (hg : ∀ a b, R a b → g a = g' b) : x >>= g = y >>= g' := by
  cases h with
  | ok h => exact hg _ _ h
  | error e => rfl

theorem Alike.exists_of_ok {R : α → β → Prop} {a : α} {y : Except Error β}
    (h : Alike R (.ok a) y) : ∃ b, y = .ok b ∧ R a b := by
  cases h with
  | ok h => exact ⟨_, rfl, h⟩

theorem Alike.eq_of_error {R : α → β → Prop} {e : Error} {y : Except Error β}
    (h : Alike R (.error e) y) : y = .error e := by
  cases h
  rfl

theorem alike_of_eq {x y : Except Error α} (h : x = y) : Alike Eq x y := by
  rw [h]
  cases y with
  | ok a => exact .ok rfl
  | error e => exact .error e

/-! ## Diagrams -/

/-- Live diagrams of two managers with the same tree. -/
structure SameTree (m m' : Manager) (f f' : Handle) : Prop where
  left : m.Live f
  right : m'.Live f'
  unfold : m.unfold f = m'.unfold f'

namespace SameTree

variable (hm : m.Nodes) (hm' : m'.Nodes) (h : SameTree m m' f f')

include hm hm' h

theorem eq_one_iff : f = .one ↔ f' = .one := by
  rw [← hm.unfold_inj h.left hm.live_one, ← hm'.unfold_inj h.right hm'.live_one, unfold_one,
    unfold_one, h.unfold]

theorem eq_zero_iff : f = .zero ↔ f' = .zero := by
  rw [← hm.unfold_inj h.left hm.live_zero, ← hm'.unfold_inj h.right hm'.live_zero, unfold_zero,
    unfold_zero, h.unfold]

theorem levelOf_eq : m.levelOf f = m'.levelOf f' := by
  rw [← hm.level_unfold h.left, ← hm'.level_unfold h.right, h.unfold]

/-- Both are constants, or both are decisions on the same bounds with the same trees below. -/
theorem cases : f.isTerminal = true ∧ f'.isTerminal = true ∨
    (f.isTerminal = false ∧ f'.isTerminal = false) ∧
      SameCuts (SameTree m m') (m.edgesOf f) (m'.edgesOf f') := by
  cases inner : f'.isTerminal with
  | true =>
    cases inner' : f.isTerminal with
    | true => exact .inl ⟨rfl, rfl⟩
    | false =>
      have tree := h.unfold
      rw [hm.unfold_of_inner h.left inner', unfold_of_isTerminal inner] at tree
      cases tree
  | false =>
    obtain ⟨inner', -, edges⟩ :=
      hm.of_unfold_eq_node h.left (h.unfold.trans (hm'.unfold_of_inner h.right inner))
    refine .inr ⟨⟨inner', rfl⟩, ?_⟩
    have live : SameCuts (fun a b => m.Live a ∧ m.unfold a = m'.unfold b) (m.edgesOf f)
        (m'.edgesOf f') :=
      (sameCuts_of_mapItems_eq edges).imp_of_mem fun e he b same => ⟨(hm.child h.left he).1, same⟩
    exact (live.swap.imp_of_mem fun e he a both =>
      (⟨both.1, (hm'.child h.right he).1, both.2⟩ : SameTree m m' a e.item)).swap

theorem edges_alike : Alike (SameCuts (SameTree m m')) (m.edges f) (m'.edges f') := by
  rw [hm.edges_eq_ok h.left, hm'.edges_eq_ok h.right]
  rcases h.cases hm hm' with ⟨terminal, terminal'⟩ | ⟨-, edges⟩
  · rw [edgesOf, edgesOf, hm.nodeOf_of_isTerminal terminal, hm'.nodeOf_of_isTerminal terminal']
    exact .ok .nil
  · exact .ok edges

theorem pair_eq : m.pair f = m'.pair f' := by
  rcases h.cases hm hm' with ⟨terminal, terminal'⟩ | ⟨⟨inner, inner'⟩, -⟩
  · unfold pair
    rw [if_pos terminal, if_pos terminal']
    rfl
  · rw [hm.pair_eq h.left inner, hm'.pair_eq h.right inner', h.levelOf_eq hm hm']

end SameTree

/-- The context without constraints depends on the number of clocks only. -/
theorem openContext_congr (clocks : m.clocks = m'.clocks) : m.openContext = m'.openContext := by
  unfold openContext dim
  simp only [clocks]

/-! ## Searches -/

/-- Searches inside of decisions with the same tree, with the same edges left. -/
structure SameFrame (m m' : Manager) (frame frame' : ZoneFrame) : Prop where
  root : SameTree m m' frame.root frame'.root
  context : frame.context = frame'.context
  lower : frame.lower = frame'.lower
  edges : SameCuts (SameTree m m') frame.edges frame'.edges

/-- Searches inside of the same decisions. -/
abbrev SameStack (m m' : Manager) : List ZoneFrame → List ZoneFrame → Prop :=
  List.Forall₂ (SameFrame m m')

/-- The same zone, if there is one, and searches inside of the same decisions. -/
def SameTurn (m m' : Manager) (a b : Option Dbm × List ZoneFrame) : Prop :=
  a.1 = b.1 ∧ SameStack m m' a.2 b.2

/-- Searches that have the same zones left. -/
structure SameSearch (m m' : Manager) (s s' : ZoneSearch) : Prop where
  pending : s.pending = s'.pending
  stack : SameStack m m' s.stack s'.stack

theorem search_cons (m : Manager) (frame : ZoneFrame) (stack : List ZoneFrame) :
    m.search (frame :: stack) = m.turn frame stack >>= fun turned =>
      if turned.1.isSome then .ok turned else m.search turned.2 := by
  rw [search]
  split
  next turn => rw [turn]; rfl
  next turn => rw [turn]; rfl
  next turn => rw [turn]; rfl

theorem all_eq_bind (m : Manager) (s : ZoneSearch) : s.all m = s.next m >>= fun found =>
    found.1.elim (.ok []) fun zone => do return zone :: (← found.2.all m) := by
  rw [ZoneSearch.all]
  split
  next next => rw [next]; rfl
  next next => rw [next]; rfl
  next next => rw [next]; rfl

section Searches

variable {frame frame' : ZoneFrame} {stack stack' : List ZoneFrame} {e e' : Edge}
  {s s' : ZoneSearch}
variable (hm : m.Nodes) (hm' : m'.Nodes) (clocks : m.clocks = m'.clocks)

include hm hm' clocks

theorem enter_alike (h : SameTree m m' f f') (ctx : Dbm) (same : SameStack m m' stack stack') :
    Alike (SameStack m m') (m.enter f ctx stack) (m'.enter f' ctx stack') := by
  unfold enter
  rw [same.length_eq, depth, depth, clocks]
  split
  · exact (h.edges_alike hm hm').bind fun _ _ edges => .ok (.cons ⟨h, rfl, rfl, edges⟩ same)
  · exact .error _

theorem follow_alike (h : SameFrame m m' frame frame') (edge : SameCut (SameTree m m') e e')
    (same : SameStack m m' stack stack') :
    Alike (SameTurn m m') (m.follow frame e stack) (m'.follow frame' e' stack') := by
  have pass : SameTurn m m' (none, stack) (none, stack') := ⟨rfl, same⟩
  unfold follow
  by_cases zero : e.item = .zero
  · rw [if_pos zero, if_pos ((edge.2.eq_zero_iff hm hm').1 zero)]
    exact .ok pass
  rw [if_neg zero, if_neg (zero ∘ (edge.2.eq_zero_iff hm hm').2), h.context, h.lower, edge.1]
  refine (alike_of_eq (h.root.pair_eq hm hm')).bind ?_
  rintro pair _ rfl
  split
  · refine (alike_of_eq rfl).bind ?_
    rintro sub _ rfl
    by_cases one : e.item = .one
    · rw [if_pos one, if_pos ((edge.2.eq_one_iff hm hm').1 one)]
      exact .ok ⟨rfl, same⟩
    · rw [if_neg one, if_neg (one ∘ (edge.2.eq_one_iff hm hm').2)]
      exact (enter_alike hm hm' clocks edge.2 sub same).bind fun _ _ below => .ok ⟨rfl, below⟩
  · exact .ok pass

/-- **Searches inside of the same decisions take the same turn.** -/
theorem turn_alike (h : SameFrame m m' frame frame') (same : SameStack m m' stack stack') :
    Alike (SameTurn m m') (m.turn frame stack) (m'.turn frame' stack') := by
  have edges := h.edges
  unfold turn
  generalize frame.edges = left, frame'.edges = left' at edges
  cases edges with
  | nil => exact .ok ⟨rfl, same⟩
  | cons edge rest =>
    have left : SameFrame m m' { frame with lower := some _, edges := _ }
        { frame' with lower := some _, edges := _ } :=
      ⟨h.root, h.context, congrArg some edge.1, rest⟩
    exact follow_alike hm hm' clocks h edge (.cons left same)

/-- **Searches inside of the same decisions find the same zone**, and go on alike after it. -/
theorem search_alike (same : SameStack m m' stack stack') :
    Alike (SameTurn m m') (m.search stack) (m'.search stack') := by
  -- The induction is on the turns of the first search; the second one takes the same turns.
  fun_induction Manager.search m stack generalizing stack' with
  | case1 =>
    cases same
    rw [search]
    exact .ok ⟨rfl, .nil⟩
  | case2 frame stack e turn =>
    cases same with
    | cons h same =>
      have turns := turn_alike hm hm' clocks h same
      rw [turn] at turns
      rw [search_cons, turns.eq_of_error]
      exact .error e
  | case3 frame stack zone below turn =>
    cases same with
    | cons h same =>
      have turns := turn_alike hm hm' clocks h same
      rw [turn] at turns
      obtain ⟨⟨_, below'⟩, turn', rfl, same'⟩ := turns.exists_of_ok
      rw [search_cons, turn']
      exact .ok ⟨rfl, same'⟩
  | case4 frame stack below turn ih =>
    cases same with
    | cons h same =>
      have turns := turn_alike hm hm' clocks h same
      rw [turn] at turns
      obtain ⟨⟨_, below'⟩, turn', rfl, same'⟩ := turns.exists_of_ok
      rw [search_cons, turn']
      exact ih same'

theorem start_alike (h : SameTree m m' f f') :
    Alike (SameSearch m m') (ZoneSearch.start m f) (ZoneSearch.start m' f') := by
  have ctx : m.openContext = m'.openContext := openContext_congr clocks
  unfold ZoneSearch.start
  by_cases one : f = .one
  · rw [if_pos one, if_pos ((h.eq_one_iff hm hm').1 one)]
    exact .ok ⟨congrArg some ctx, .nil⟩
  rw [if_neg one, if_neg (one ∘ (h.eq_one_iff hm hm').2)]
  by_cases zero : f = .zero
  · rw [if_pos zero, if_pos ((h.eq_zero_iff hm hm').1 zero)]
    exact .ok ⟨rfl, .nil⟩
  rw [if_neg zero, if_neg (zero ∘ (h.eq_zero_iff hm hm').2), ← ctx]
  exact (enter_alike hm hm' clocks h m.openContext .nil).bind fun _ _ stack => .ok ⟨rfl, stack⟩

theorem next_alike (h : SameSearch m m' s s') :
    Alike (fun a b => a.1 = b.1 ∧ SameSearch m m' a.2 b.2) (s.next m) (s'.next m') := by
  obtain ⟨pending, stack⟩ := h
  unfold ZoneSearch.next
  rw [pending]
  split
  · exact .ok ⟨rfl, rfl, stack⟩
  · exact (search_alike hm hm' clocks stack).bind fun _ _ found => .ok ⟨found.1, rfl, found.2⟩

theorem all_eq_all (h : SameSearch m m' s s') : s.all m = s'.all m' := by
  fun_induction ZoneSearch.all m s generalizing s' with
  | case1 s e next =>
    have found := next_alike hm hm' clocks h
    rw [next] at found
    rw [all_eq_bind, found.eq_of_error]
    rfl
  | case2 s zone rest next ih =>
    have found := next_alike hm hm' clocks h
    rw [next] at found
    obtain ⟨⟨_, rest'⟩, next', rfl, same⟩ := found.exists_of_ok
    rw [ih same, all_eq_bind m' s', next']
    rfl
  | case3 s rest next =>
    have found := next_alike hm hm' clocks h
    rw [next] at found
    obtain ⟨⟨_, rest'⟩, next', rfl, -⟩ := found.exists_of_ok
    rw [all_eq_bind, next']
    rfl

theorem take_eq_take (h : SameSearch m m' s s') (limit : Nat) :
    s.take m limit = s'.take m' limit := by
  induction limit generalizing s s' with
  | zero => rfl
  | succ limit ih =>
    rw [ZoneSearch.take, ZoneSearch.take]
    refine (next_alike hm hm' clocks h).bind_eq ?_
    rintro ⟨found, rest⟩ ⟨_, rest'⟩ ⟨rfl, same⟩
    cases found with
    | none => rfl
    | some zone =>
      dsimp only
      rw [ih same]

/-- **The zones of the same tree are the same**, in the same order. -/
theorem zones_eq (h : SameTree m m' f f') : m.zones f = m'.zones f' :=
  (start_alike hm hm' clocks h).bind_eq fun _ _ same => all_eq_all hm hm' clocks same

/-- The same zones are found in advance of the same failure, if there is one. -/
theorem firstZones_eq (h : SameTree m m' f f') (limit : Nat) :
    m.firstZones f limit = m'.firstZones f' limit :=
  (start_alike hm hm' clocks h).bind_eq fun _ _ same => take_eq_take hm hm' clocks same limit

end Searches

end ZoneDiagram.Manager

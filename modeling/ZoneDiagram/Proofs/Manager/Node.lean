import ZoneDiagram.Proofs.Manager.Sound

/-!
# Making nodes

A node is stored if it is canonical and its children are live on later levels. So what `mkNode`
returns has the tree that the edges make, and it can only fail if the cuts are not proper or the
store is full. The edges of a live diagram lead back to it, and nothing is stored.
-/

namespace ZoneDiagram.Manager

open CutList

variable {m m' : Manager} {node : Node} {level : Nat} {edges : CutList Handle} {f : Handle}
  {F : Error → Prop}

/-- The edges may stand on a node of the level. -/
structure Supported (m : Manager) (level : Nat) (edges : CutList Handle) : Prop where
  level_lt : level < ClockPair.count m.clocks
  live : ∀ e ∈ edges, m.Live e.item
  below : ∀ e ∈ edges, level < m.levelOf e.item

theorem Supported.ne_terminal (h : m.Supported level edges) (few : m.clocks ≤ maxClocks) :
    (⟨level, edges⟩ : Node) ≠ .terminal := by
  intro eq
  have : level = ClockPair.terminalLevel := congrArg Node.level eq
  have := ClockPair.count_lt_terminalLevel few
  have := h.level_lt
  omega

theorem Supported.of_subset {edges' : CutList Handle} (h : m.Supported level edges)
    (sub : ∀ e ∈ edges', e ∈ edges) : m.Supported level edges' :=
  ⟨h.level_lt, fun e he => h.live e (sub e he), fun e he => h.below e (sub e he)⟩

theorem Supported.neg (h : m.Supported level edges) :
    m.Supported level (mapItems Neg.neg edges) where
  level_lt := h.level_lt
  live e he := by
    obtain ⟨o, ho, rfl⟩ := List.mem_map.1 he
    exact (h.live o ho).neg
  below e he := by
    obtain ⟨o, ho, rfl⟩ := List.mem_map.1 he
    rw [levelOf, nodeOf_neg]
    exact h.below o ho

/-! ## Storing -/

/-- A new node in an empty slot keeps the manager well formed. -/
theorem nodes_of_put (hm : m.Nodes) (canonical : Canonical edges)
    (supported : m.Supported level edges) {slot : Nat} {store : SlotTable Node}
    (put : SlotTable.Put m.store Handle.one.slot ⟨level, edges⟩ slot store) :
    m.Extends { m with store } ∧ Nodes { m with store } := by
  have old {s : Nat} {n : Node} (hs : m.store.get? s = some n) : s ≠ slot := by
    rintro rfl
    rw [put.unused] at hs
    cases hs
  have keep {s : Nat} {n : Node} (hs : m.store.get? s = some n) : store.get? s = some n := by
    rw [put.get?, if_neg (old hs), hs]
  have cases {s : Nat} {n : Node} (hs : store.get? s = some n) :
      m.store.get? s = some n ∨ s = slot ∧ n = ⟨level, edges⟩ := by
    rw [put.get?] at hs
    split at hs
    next eq => exact .inr ⟨eq, (Option.some.inj hs).symm⟩
    next => exact .inl hs
  -- The lookup passes over the slot of the terminal node only, so the new node is in no slot.
  have new {s : Nat} (hs : m.store.get? s = some ⟨level, edges⟩) : False := by
    have terminal := hm.wellFormed.terminal
    rw [← put.new hs, hs] at terminal
    exact supported.ne_terminal hm.few (Option.some.inj terminal)
  refine ⟨⟨rfl, put.capacity, keep⟩, ?_, put.consistent, hm.few⟩
  refine ⟨keep hm.wellFormed.terminal, fun s n hs ne => ?_, fun s n hs e he => ?_,
    fun s t n hs ht => ?_⟩
  · rcases cases hs with hs | ⟨-, rfl⟩
    · exact hm.wellFormed.canonical hs ne
    · exact ⟨canonical, supported.level_lt⟩
  · rcases cases hs with hs | ⟨-, rfl⟩
    · obtain ⟨child, hchild, lt⟩ := hm.wellFormed.below hs e he
      exact ⟨child, keep hchild, lt⟩
    · exact ⟨m.nodeOf e.item, keep (supported.live e he).get?, supported.below e he⟩
  · rcases cases hs with hs | ⟨rfl, rfl⟩ <;> rcases cases ht with ht | ⟨rfl, eq⟩
    · exact hm.wellFormed.unique hs ht
    · exact absurd (eq ▸ hs) new
    · exact absurd ht new
    · rfl

/-- A canonical node is stored, and its handle carries no complement. -/
theorem intern_runs (hm : m.Sound) (canonical : Canonical edges)
    (supported : m.Supported level edges) :
    Runs m (intern ⟨level, edges⟩) (fun r m' => m'.Live r ∧ r.isNegated = false ∧
      m'.nodeOf r = ⟨level, edges⟩) F := by
  have slot (s : Nat) : (Handle.ofSlot s).isNegated = false :=
    decide_eq_false (Int.not_lt.2 (Int.natCast_nonneg s))
  rcases SlotTable.put_cases hm.store ⟨level, edges⟩ with
    ⟨s, eq, found, -⟩ | ⟨s, store, eq, put⟩ | ⟨eq, full, -⟩
  · have run : intern ⟨level, edges⟩ m = .ok (.ofSlot s) m := by
      rw [intern, eq]
      rfl
    refine .of_ok run (.refl hm) ⟨?_, slot s, ?_⟩
    · rw [Live, Handle.slot_ofSlot, found]
      rfl
    · rw [nodeOf, Handle.slot_ofSlot, found]
      rfl
  · obtain ⟨keeps, nodes⟩ := nodes_of_put hm.toNodes canonical supported put
    have stored : store.get? s = some ⟨level, edges⟩ := by rw [put.get?, if_pos rfl]
    have sound : Sound { m with store } :=
      ⟨nodes, hm.fresh, fun h => keeps.right hm.toNodes nodes (hm.right h)⟩
    have run : intern ⟨level, edges⟩ m = .ok (.ofSlot s) { m with store } := by
      rw [intern, eq]
      rfl
    refine .of_ok run ⟨keeps, sound⟩ ⟨?_, slot s, ?_⟩
    · rw [Live, Handle.slot_ofSlot, stored]
      rfl
    · rw [nodeOf, Handle.slot_ofSlot, stored]
      rfl
  · have run : intern ⟨level, edges⟩ m = .error (.storeFull m.store.capacity) m := by
      rw [intern, eq]
      rfl
    exact .of_error run (.refl hm) (.inl ⟨rfl, full⟩)

/-! ## Making -/

theorem putNode_runs (hm : m.Sound) (two : 2 ≤ edges.length) (proper : Proper edges)
    (merged : Merged edges) (supported : m.Supported level edges) :
    Runs m (putNode level edges) (fun r m' => m'.Live r ∧ m'.levelOf r = level ∧
      m'.edgesOf r = edges) F := by
  have negs : mapItems Neg.neg (mapItems Neg.neg edges) = edges := by
    simp [mapItems, Function.comp_def]
  have slot {e : Edge} (he : e ∈ edges) : e.item.slot ≠ 0 := hm.slot_ne_zero (supported.live e he)
  unfold putNode
  split
  -- The last edge is negated, so the complement is stored and its handle negated.
  next negated =>
    obtain ⟨last, hlast, neg⟩ := (Option.any_eq_true ..).1 negated
    have canonical : Canonical (mapItems Neg.neg edges) := by
      refine ⟨by simpa [mapItems] using two, (sameCuts_mapItems _ _).proper proper,
        merged_mapItems merged fun _ _ _ _ => Handle.neg_injective, fun e he => ?_⟩
      rw [getLast?_mapItems, hlast] at he
      obtain rfl := Option.some.inj he
      rw [Handle.isNegated_neg (slot (List.mem_of_getLast? hlast)), neg]
      rfl
    refine (intern_runs hm canonical supported.neg).bind ?_
    rintro r m' grows ⟨live, sign, node⟩
    refine .pure grows.sound ⟨live.neg, ?_, ?_⟩
    · rw [levelOf, nodeOf_neg, node]
    · rw [grows.sound.edgesOf_neg live, edgesOf_of_isNegated_eq_false sign, node, negs]
  next regular =>
    have canonical : Canonical edges := by
      refine ⟨two, proper, merged, fun e he => ?_⟩
      cases neg : e.item.isNegated with
      | false => rfl
      | true => exact absurd ((Option.any_eq_true ..).2 ⟨e, he, neg⟩) regular
    refine (intern_runs hm canonical supported).imp ?_ fun _ h => h
    rintro r m' - ⟨live, sign, node⟩
    exact ⟨live, by rw [levelOf, node], by rw [edgesOf_of_isNegated_eq_false sign, node]⟩

/-- Children are merged as their trees are. -/
theorem Supported.merge_mapItems_unfold (h : m.Supported level edges) (hm : m.Nodes) :
    merge (mapItems m.unfold edges) = mapItems m.unfold (merge edges) :=
  merge_mapItems fun p hp q hq => hm.eq_of_unfold_eq (h.live p hp) (h.live q hq)

/-- **What is made has the tree that the edges make.** -/
theorem mkNode_runs (hm : m.Sound) (supported : m.Supported level edges) :
    Runs m (mkNode level edges) (fun r m' => m'.Live r ∧
      m'.unfold r = Diagram.make level (mapItems m.unfold edges))
      (fun _ => ¬ Proper (merge edges)) := by
  have within : ∀ e ∈ merge edges, e ∈ edges := fun e he => mem_of_mem_merge he
  have trees := supported.merge_mapItems_unfold hm.toNodes
  have merged := merged_merge edges
  unfold mkNode Diagram.make
  rw [trees]
  generalize merge edges = made at within merged
  rcases made with _ | ⟨e, rest⟩
  · exact .throw hm fun h => h
  dsimp only
  split
  next improper => exact .throw hm improper
  next proper =>
    have proper := not_not.1 proper
    cases rest with
    | nil =>
      rw [if_pos List.isEmpty_nil]
      exact .pure hm ⟨supported.live e (within e List.mem_cons_self), rfl⟩
    | cons e' rest =>
      rw [if_neg (by rw [List.isEmpty_cons]; exact Bool.false_ne_true)]
      refine (putNode_runs hm (by simp) proper merged (supported.of_subset within)).imp
        (fun r m' grows ⟨live, level_eq, edges_eq⟩ => ⟨live, ?_⟩) fun _ h => h
      have inner : r.isTerminal = false := by
        apply grows.sound.isTerminal_eq_false_of_levelOf
        rw [level_eq, grows.keeps.clocks]
        exact supported.level_lt
      rw [grows.sound.unfold_of_inner live inner, level_eq, edges_eq]
      refine congrArg _ (mapItems_congr fun o ho => ?_)
      exact grows.keeps.unfold hm.toNodes (supported.live o (within o ho))

theorem proper_of_mkNode_eq_ok {r : Handle} (run : mkNode level edges m = .ok r m') :
    Proper (merge edges) := by
  unfold mkNode at run
  generalize merge edges = made at run ⊢
  rcases made with _ | ⟨e, rest⟩
  · cases run
  · by_contra improper
    dsimp only at run
    rw [if_pos improper] at run
    cases run

theorem mkNode_runs_of_proper (hm : m.Sound) (supported : m.Supported level edges)
    (proper : Proper edges) : Runs m (mkNode level edges) (fun r m' => m'.Live r ∧
      m'.unfold r = Diagram.make level (mapItems m.unfold edges)) F :=
  (mkNode_runs hm supported).imp (fun _ _ _ h => h) fun _ h => absurd (proper_merge proper) h

/-! ## Making what is there -/

/-- A node that is there is found. -/
theorem intern_nodeOf (hm : m.Nodes) (hf : m.Live f) (inner : f.isTerminal = false) :
    intern (m.nodeOf f) m = .ok f.regular m := by
  have ne := Handle.isTerminal_eq_false_iff.1 inner
  rw [intern, hm.store.put_of_get? hf.get? ne]
  rfl

/-- The edges of a live diagram carry a complement if the diagram does, so it is taken off again. -/
theorem putNode_edgesOf (hm : m.Nodes) (hf : m.Live f) (inner : f.isTerminal = false) :
    putNode (m.levelOf f) (m.edgesOf f) m = .ok f m := by
  have found := intern_nodeOf hm hf inner
  obtain ⟨last, hlast, sign⟩ := hm.isNegated_last hf inner
  rw [putNode, hlast, Option.any_some, sign]
  have node : (⟨m.levelOf f, (m.nodeOf f).edges⟩ : Node) = m.nodeOf f := rfl
  cases neg : f.isNegated with
  | true =>
    have regular : (-f).isNegated = false := by
      rw [Handle.isNegated_neg (hm.slot_ne_zero hf), neg]
      rfl
    have back : mapItems Neg.neg (m.edgesOf f) = (m.nodeOf f).edges := by
      rw [← hm.edgesOf_neg hf, edgesOf_of_isNegated_eq_false regular, nodeOf_neg]
    rw [if_pos rfl, back, node]
    refine (bind_of_ok found).trans (congrArg (EStateM.Result.ok · m) ?_)
    have sign := Handle.applySign_regular f
    rwa [Handle.applySign_of_isNegated neg] at sign
  | false =>
    rw [if_neg Bool.false_ne_true, edgesOf_of_isNegated_eq_false neg, node, found]
    have sign := Handle.applySign_regular f
    rw [Handle.applySign_of_isNegated_eq_false neg] at sign
    rw [sign]

/-- **What the edges make is found**, if a live diagram has the tree of it, and nothing changes. -/
theorem mkNode_eq_ok (hm : m.Nodes) (supported : m.Supported level edges) (proper : Proper edges)
    (hf : m.Live f) (made : m.unfold f = Diagram.make level (mapItems m.unfold edges)) :
    mkNode level edges m = .ok f m := by
  have within : ∀ e ∈ merge edges, m.Live e.item := fun e he =>
    supported.live e (mem_of_mem_merge he)
  have proper := proper_merge proper
  unfold Diagram.make at made
  unfold mkNode
  rw [supported.merge_mapItems_unfold hm] at made
  generalize merge edges = es at within proper made
  rcases es with _ | ⟨e, _ | ⟨e', rest⟩⟩
  · cases proper
  · rw [hm.eq_of_unfold_eq hf (within e List.mem_cons_self) made]
    dsimp only
    rw [if_neg (not_not.2 proper), if_pos List.isEmpty_nil]
    rfl
  · obtain ⟨inner, level_eq, edges_eq⟩ := hm.of_unfold_eq_node hf made
    have same : m.edgesOf f = e :: e' :: rest := eq_of_mapItems_eq (fun o ho o' ho' =>
      hm.eq_of_unfold_eq (hm.child hf ho).1 (within o' ho')) edges_eq
    have found := putNode_edgesOf hm hf inner
    rw [level_eq, same] at found
    dsimp only
    rw [if_neg (not_not.2 proper), if_neg (by rw [List.isEmpty_cons]; exact Bool.false_ne_true)]
    exact found

/-- The children that a live diagram is made of are live. -/
theorem Nodes.exists_live_child {es : List (Piece Diagram)} {p : Piece Diagram} (hm : m.Nodes)
    (hf : m.Live f) (made : m.unfold f = Diagram.make level es) (hp : p ∈ es) :
    ∃ s, m.Live s ∧ m.unfold s = p.item := by
  obtain ⟨q, hq, item⟩ := exists_mem_merge hp
  rw [← item]
  rcases Diagram.make_cases level es with ⟨q', single, eq⟩ | ⟨-, eq⟩ <;> rw [eq] at made
  · rw [single, List.mem_singleton] at hq
    exact ⟨f, hf, hq ▸ made⟩
  · obtain ⟨-, -, edges_eq⟩ := hm.of_unfold_eq_node hf made
    rw [← edges_eq] at hq
    obtain ⟨e, he, rfl⟩ := List.mem_map.1 hq
    exact ⟨e.item, (hm.child hf he).1, rfl⟩

end ZoneDiagram.Manager

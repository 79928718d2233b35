import ZoneDiagram.Manager.Layers
import ZoneDiagram.Proofs.Manager.Reduce

/-!
# Reducing layer by layer

Whatever the pass from the root collects on a level is a live decision of that level. So every
diagram that is rebuilt is the reduction of a collected one, in the context in which it was met.
-/

namespace ZoneDiagram.Manager

open CutList

variable {m m' : Manager} {f : Handle} {ctx : Dbm} {level depth : Nat} {v w : Visit}
  {fr fr' : Frontier}

/-! ## Successors -/

/-- What the edges of a visit lead to, where its context admits them. -/
def successors (m : Manager) (v : Visit) : List Visit :=
  match ClockPair.ofLevel (m.levelOf v.diagram) with
  | .error _ => []
  | .ok pair =>
    (v.context.feasible pair (fun child => !child.isTerminal) none (m.edgesOf v.diagram)).map
      fun p => ⟨p.item.1.regular, p.item.2⟩

theorem mem_successors_iff {pair : ClockPair}
    (hpair : ClockPair.ofLevel (m.levelOf v.diagram) = .ok pair) : w ∈ m.successors v ↔
      ∃ c ∈ intervals none (m.edgesOf v.diagram), c.2.item.isTerminal = false ∧
        v.context.admits pair c.1 c.2.upper = true ∧
        w = ⟨c.2.item.regular, v.context.restricted pair c.1 c.2.upper⟩ := by
  unfold successors
  rw [hpair]
  simp only [List.mem_map, Dbm.mem_feasible_iff, Bool.not_eq_true']
  constructor
  · rintro ⟨_, ⟨c, hc, inner, admitted, rfl⟩, rfl⟩
    exact ⟨c, hc, inner, admitted, rfl⟩
  · rintro ⟨c, hc, inner, admitted, rfl⟩
    exact ⟨_, ⟨c, hc, inner, admitted, rfl⟩, rfl⟩

/-! ## What is collected -/

/-- The visit is to a live decision on the level. -/
structure MetAt (m : Manager) (level : Nat) (v : Visit) : Prop where
  live : m.Live v.diagram
  inner : v.diagram.isTerminal = false
  level_eq : m.levelOf v.diagram = level

theorem MetAt.mono (h : m.MetAt level v) (keeps : m.Extends m') : m'.MetAt level v :=
  ⟨keeps.live h.live, h.inner, (keeps.levelOf h.live).trans h.level_eq⟩

/-- All pending visits are to live decisions, by level. -/
def Collects (m : Manager) (fr : Frontier) : Prop :=
  ∀ level, ∀ v ∈ (fr.pending.getD level #[]).toList, m.MetAt level v

/-- All visits of a layer are to live decisions on its level. -/
def Rebuilds (m : Manager) (layer : Layer) : Prop := ∀ v ∈ layer.visits, m.MetAt layer.level v

/-- The pending visits after one more. -/
theorem mem_pending_insert {pending : Std.TreeMap Nat (Array Visit)} {k : Nat} :
    v ∈ ((pending.insert level ((pending.getD level #[]).push w)).getD k #[]).toList ↔
      v ∈ (pending.getD k #[]).toList ∨ level = k ∧ v = w := by
  rw [Std.TreeMap.getD_insert]
  split
  next eq =>
    obtain rfl := Std.LawfulEqOrd.eq_of_compare eq
    rw [Array.toList_push, List.mem_append, List.mem_singleton]
    exact or_congr_right ⟨fun h => ⟨rfl, h⟩, And.right⟩
  next ne =>
    refine ⟨Or.inl, fun h => h.resolve_right ?_⟩
    rintro ⟨rfl, -⟩
    exact ne Std.ReflCmp.compare_self

/-- The pending visits without those of a level. -/
theorem mem_pending_erase {pending : Std.TreeMap Nat (Array Visit)} {k : Nat} :
    v ∈ ((pending.erase level).getD k #[]).toList ↔
      level ≠ k ∧ v ∈ (pending.getD k #[]).toList := by
  rw [Std.TreeMap.getD_erase]
  split
  next eq =>
    obtain rfl := Std.LawfulEqOrd.eq_of_compare eq
    exact ⟨nofun, fun h => absurd rfl h.1⟩
  next ne =>
    refine ⟨fun h => ⟨?_, h⟩, And.right⟩
    rintro rfl
    exact ne Std.ReflCmp.compare_self

theorem collects_empty (m : Manager) : Collects m ⟨∅, ∅⟩ := by
  intro level v hv
  rw [Std.TreeMap.getD_emptyc] at hv
  cases hv

theorem Collects.add (h : Collects m fr) (hv : m.MetAt level v) : Collects m (fr.add level v) := by
  unfold Frontier.add
  split
  · exact h
  · intro l w hw
    rcases mem_pending_insert.1 hw with hw | ⟨rfl, rfl⟩
    · exact h l w hw
    · exact hv

theorem Collects.erase (h : Collects m fr) (level : Nat) :
    Collects m { fr with pending := fr.pending.erase level } :=
  fun l v hv => h l v (mem_pending_erase.1 hv).2

theorem Collects.expand (hm : m.Nodes) (h : Collects m fr) (hv : m.MetAt level v)
    (eq : m.expand fr v = .ok fr') : Collects m fr' := by
  unfold Manager.expand at eq
  obtain ⟨pair, -, eq⟩ := Except.bind_eq_ok_iff.1 eq
  rw [hm.edges_eq_ok hv.live] at eq
  refine Except.foldlM_keeps (fun q hq fr fr' h eq => ?_) h eq
  obtain ⟨c, hc, wanted, -, rfl⟩ := Dbm.mem_feasible_iff.1 hq
  have live := (hm.child hv.live (mem_of_mem_intervals hc)).1.regular
  obtain ⟨sub, -, eq⟩ := Except.bind_eq_ok_iff.1 eq
  rw [Dbm.cutPiece, hm.level_eq_ok live] at eq
  cases eq
  refine h.add ⟨live, ?_, rfl⟩
  rw [Handle.isTerminal_regular]
  exact Bool.not_eq_true' _ ▸ wanted

theorem rebuilds_of_layersFrom {layers layers' : List Layer} (hm : m.Nodes) (h : Collects m fr)
    (hl : ∀ l ∈ layers, Rebuilds m l) (eq : m.layersFrom depth fr layers = .ok layers') :
    ∀ l ∈ layers', Rebuilds m l := by
  induction depth generalizing fr layers with
  | zero => cases eq
  | succ depth ih =>
    unfold layersFrom at eq
    split at eq
    next =>
      cases eq
      exact hl
    next level _ =>
      obtain ⟨fr', hfr, eq⟩ := Except.bind_eq_ok_iff.1 eq
      have collects : Collects m fr' :=
        Except.foldlM_keeps (fun v hv fr fr' hc eq => hc.expand hm (h level v hv) eq)
          (h.erase level) hfr
      refine ih collects (fun l hl' => ?_) eq
      rcases List.mem_cons.1 hl' with rfl | hl'
      · exact fun v hv => h level v hv
      · exact hl l hl'

/-! ## What is rebuilt -/

variable {memo : ReduceMemo} {known : List Visit} {r : Handle}

/-- The memo has results for some visits. -/
def Remembers (known : List Visit) (memo : ReduceMemo) : Prop :=
  ∀ v ∈ known, ∃ r, memo[v]? = some r

theorem Remembers.insert (h : Remembers known memo) (v : Visit) (r : Handle) :
    Remembers (v :: known) (memo.insert v r) := by
  intro w hw
  rw [Std.TreeMap.getElem?_insert]
  split
  next => exact ⟨r, rfl⟩
  next ne =>
    refine h w ((List.mem_cons.1 hw).resolve_left ?_)
    rintro rfl
    exact ne Std.ReflCmp.compare_self

/-- All results of the memo are right, and it has results for some visits. -/
structure Knows (known : List Visit) (memo : ReduceMemo) (m : Manager) : Prop where
  reduced : MemoReduced memo m
  found : Remembers known memo

theorem knows_empty (m : Manager) : Knows [] ∅ m := ⟨memoReduced_empty m, nofun⟩

theorem Knows.mono (h : Knows known memo m) (hm : m.Nodes) (grows : m.Grows m') :
    Knows known memo m' := ⟨h.reduced.mono hm grows, h.found⟩

theorem Knows.of_subset {known' : List Visit} (h : Knows known memo m)
    (sub : ∀ v ∈ known', v ∈ known) : Knows known' memo m :=
  ⟨h.reduced, fun v hv => h.found v (sub v hv)⟩

/-- A child is found, unless it is not known. -/
theorem rebuiltChild_passes (hm : m.Sound) (hs : Knows known memo m) (hf : m.Live f) :
    Passes (Knows known) m memo (rebuiltChild f ctx) (fun r m' => m'.ReducedIn ctx f r)
      (fun e => e = .missingState ∧ f.isTerminal = false ∧ ⟨f.regular, ctx⟩ ∉ known) := by
  unfold rebuiltChild
  split
  next terminal => exact .pure hm hs (reducedIn_of_isTerminal hf terminal)
  next inner =>
    refine .get_bind ?_
    split
    next r found => exact .pure hm hs (hm.reducedIn_applySign hf (hs.reduced _ _ found).2)
    next none =>
      refine .throw hm ⟨rfl, Bool.eq_false_iff.2 inner, fun mem => ?_⟩
      obtain ⟨r, found⟩ := hs.found _ mem
      cases none.symm.trans found

/-- **A visit is rebuilt**, unless something that its edges lead to is not known, or the tree cannot
be reduced. -/
theorem rebuild_passes (hm : m.Sound) (hs : Knows known memo m) (hv : m.MetAt level v) :
    Passes (Knows (v :: known)) m memo (rebuild level v) (fun _ _ => True)
      (fun e => (e = .missingState ∧ ∃ w ∈ m.successors v, w ∉ known) ∨
        Stuck (fun t => (m.unfold v.diagram).reduce v.context = .ok t) e) := by
  obtain ⟨live, inner, rfl⟩ := hv
  refine .lift_bind (query_of_ok (hm.edges_eq_ok live)) ?_
  refine (reduceRoot_passes (F := fun e => e = .missingState ∧ ∃ w ∈ m.successors v, w ∉ known)
    rebuiltChild v.context hm hs (fun grows grows' h => h.mono grows.sound.toNodes grows') live
    inner ?_).bind ?_
  · intro pair hpair q hq m' memo' grows hs'
    obtain ⟨lo, e, he, admitted, rfl⟩ := Diagram.exists_edge_of_mem_run hq
    have child := grows.keeps.live (hm.child live (mem_of_mem_intervals he)).1
    refine (rebuiltChild_passes grows.sound hs' child).imp (fun _ _ _ h => h) ?_
    intro _ ⟨missing, inner, unknown⟩
    have next := (mem_successors_iff hpair).2 ⟨(lo, e), he, inner, admitted, rfl⟩
    exact .inl ⟨missing, _, next, unknown⟩
  · intro r m' memo' grows hs' reduced
    refine .of_modify grows.sound ⟨?_, hs'.found.insert v r⟩ trivial
    exact hs'.reduced.insert (grows.keeps.live live) reduced

theorem rebuildLayers_passes {layers : List Layer} (hm : m.Sound) (hs : Knows [] memo m)
    (h : ∀ l ∈ layers, Rebuilds m l) :
    Passes (Knows []) m memo (rebuildLayers layers) (fun _ _ => True) (·.isMaking = false) := by
  refine .forM hm hs fun l hl _ _ grows hs₁ => .forM grows.sound hs₁ fun v hv _ _ grows' hs₂ => ?_
  have met := (h l hl v hv).mono (grows.trans grows').keeps
  have visit := rebuild_passes grows'.sound hs₂ met
  refine (visit.weaken fun _ _ h => h.of_subset (List.forall_mem_nil _)).imp (fun _ _ _ h => h) ?_
  rintro e (⟨rfl, -⟩ | stuck)
  · rfl
  · exact stuck.isMaking

/-- **What a reduction by layers gives is the reduction.** It fails before a node is made, or
because the store is full. -/
theorem reduceByLayers_runs (hm : m.Sound) (hf : m.Live f) :
    Runs m (reduceByLayers f) (fun r m' => m'.ReducedIn m.openContext f r)
      (·.isMaking = false) := by
  unfold reduceByLayers
  split
  next terminal => exact .pure hm (reducedIn_of_isTerminal hf terminal)
  next inner =>
    have reads : Raises Error.Misread (do
        m.layersFrom m.depth (Frontier.add ⟨∅, ∅⟩ (← m.level f) ⟨f.regular, m.openContext⟩) []) :=
      (m.raises_level f).bind fun _ => m.raises_layersFrom _ _ _
    refine .query_cases hm (fun layers eq => ?_) fun e eq => (reads e eq).isMaking
    obtain ⟨level, hlevel, eq⟩ := Except.bind_eq_ok_iff.1 eq
    cases hlevel.symm.trans (hm.level_eq_ok hf)
    have root : m.MetAt (m.levelOf f) ⟨f.regular, m.openContext⟩ :=
      ⟨hf.regular, (Handle.isTerminal_regular f).trans (Bool.eq_false_iff.2 inner),
        levelOf_regular m f⟩
    have rebuilds := rebuilds_of_layersFrom hm.toNodes ((collects_empty m).add root)
      (List.forall_mem_nil _) eq
    refine .get_bind ?_
    refine Runs.bind (Passes.bind (rebuildLayers_passes hm (knows_empty m) rebuilds)
      fun _ m₁ memo₁ grows hs₁ _ => (rebuiltChild_passes grows.sound hs₁ (grows.keeps.live hf)).imp
        (fun _ _ _ h => h) fun _ ⟨missing, _⟩ => missing ▸ rfl) fun r m₁ grows ⟨_, reduced⟩ => ?_
    exact .pure grows.sound reduced

/-! ## Complements -/

theorem level_neg (m : Manager) (f : Handle) : m.level (-f) = m.level f := by
  rw [level, node, Handle.slot_neg]
  rfl

/-- What is found for a child is found complemented for its complement. -/
theorem rebuiltChild_neg {memo' : ReduceMemo} (hf : f.slot ≠ 0)
    (found : rebuiltChild f ctx memo m = .ok (r, memo') m') :
    rebuiltChild (-f) ctx memo m = .ok (-r, memo') m' := by
  unfold rebuiltChild at found ⊢
  rw [Handle.isTerminal_neg, Handle.regular_neg]
  by_cases terminal : f.isTerminal = true
  · rw [if_pos terminal] at found ⊢
    cases found
    rfl
  · rw [if_neg terminal, pass_get_bind_apply] at found ⊢
    cases stored : memo[(⟨f.regular, ctx⟩ : Visit)]? with
    | some s =>
      rw [stored] at found
      cases found
      rw [← Handle.applySign_neg hf]
      rfl
    | none =>
      rw [stored] at found
      cases found

/-- **A complement is reduced by layers as the diagram is**: only the sign of the root differs, and
no layer depends on it. -/
theorem reduceByLayers_neg (hf : f.slot ≠ 0) (run : reduceByLayers f m = .ok r m') :
    reduceByLayers (-f) m = .ok (-r) m' := by
  unfold reduceByLayers at run ⊢
  rw [Handle.isTerminal_neg, Handle.regular_neg]
  by_cases terminal : f.isTerminal = true
  · rw [if_pos terminal] at run ⊢
    cases run
    rfl
  · rw [if_neg terminal] at run ⊢
    simp only [level_neg]
    obtain ⟨layers, m₁, collected, run⟩ := exists_of_bind_eq_ok run
    obtain ⟨m₂, m₃, got, run⟩ := exists_of_bind_eq_ok run
    obtain ⟨⟨s, memo⟩, m₄, rebuilt, run⟩ := exists_of_bind_eq_ok run
    obtain ⟨⟨⟨⟩, memo'⟩, m₅, passed, found⟩ := exists_of_bind_eq_ok rebuilt
    cases run
    refine (bind_of_ok collected).trans ((bind_of_ok got).trans ?_)
    exact (bind_of_ok ((bind_of_ok passed).trans (rebuiltChild_neg hf found))).trans rfl

end ZoneDiagram.Manager

import ZoneDiagram.Proofs.Diagram.Zone
import ZoneDiagram.Proofs.Manager.Node
import ZoneDiagram.Proofs.Manager.Raises

/-!
# Elementary diagrams are live

The builders make nodes about clocks that exist, so they leave a sound manager, and what they
return is live. The cuts of a zone are taken in the order of levels, so its path goes down, and the
diagram of a zone has the tree of that path.

The cuts at one pair of clocks increase if the bounds fit the encoding and leave room between them
(`consistent_pairCut`), and the cuts of a zone if it is tight (`consistent_of_tight`). Then no node
is refused because of its cuts (`Makes`).
-/

namespace ZoneDiagram.Manager

open CutList

variable {m : Manager} {level i j : Nat} {inside : Handle} {lower upper : Option Bound}

/-- The computation gives a live diagram, or fails. If what it is given fits, then no node that it
makes is the reason, but for a full store. -/
def Makes (m : Manager) (x : ManagerM Handle) (fits : Prop) : Prop :=
  Runs m x (fun r m' => m'.Live r) fun e => fits → e.isMaking = false

theorem mem_bandEdges {e : Edge} (h : e ∈ bandEdges inside lower upper) :
    e.item = inside ∨ e.item = .zero := by
  unfold bandEdges at h
  cases lower <;> cases upper <;> simp at h <;> grind

theorem lt_levelOf_of_isTerminal {f : Handle} (hm : m.Nodes) (lt : level < ClockPair.count m.clocks)
    (hf : f.isTerminal = true) : level < m.levelOf f := by
  rw [hm.levelOf_of_isTerminal hf]
  exact lt.trans (ClockPair.count_lt_terminalLevel hm.few)

theorem supported_bandEdges (hm : m.Nodes) (lt : level < ClockPair.count m.clocks)
    (hi : m.Live inside) (below : level < m.levelOf inside) :
    m.Supported level (bandEdges inside lower upper) := by
  refine ⟨lt, fun e he => ?_, fun e he => ?_⟩
  · rcases mem_bandEdges he with eq | eq <;> rw [eq]
    exacts [hi, hm.live_zero]
  · rcases mem_bandEdges he with eq | eq <;> rw [eq]
    exacts [below, lt_levelOf_of_isTerminal hm lt rfl]

theorem mapItems_bandEdges (m : Manager) (inside : Handle) (lower upper : Option Bound) :
    mapItems m.unfold (bandEdges inside lower upper) =
      Diagram.band (m.unfold inside) lower upper := by
  have zero : m.unfold .zero = .leaf false := unfold_of_isTerminal rfl
  cases lower <;> cases upper <;> simp [mapItems, bandEdges, Diagram.band, zero]

theorem proper_bandEdges (m : Manager) {c : Cut} (consistent : c.Consistent) :
    Proper (bandEdges inside c.lower c.upper) := by
  refine (sameCuts_mapItems m.unfold _).swap.proper ?_
  rw [mapItems_bandEdges]
  exact Diagram.proper_band consistent

/-! ## One clock pair -/

theorem checkClock_eq_ok_iff {clock : Nat} : m.checkClock clock = .ok () ↔ clock < m.clocks := by
  unfold checkClock
  split
  next lt => exact iff_of_true rfl lt
  next ge => exact iff_of_false nofun ge

/-- Only two distinct clocks that exist have a pair. -/
theorem of_checkPair {pair : ClockPair} {swapped : Bool}
    (h : m.checkPair i j = .ok (pair, swapped)) :
    i < m.clocks ∧ j < m.clocks ∧ i ≠ j ∧ pair.i < m.clocks := by
  obtain ⟨⟨⟩, hi, h⟩ := Except.bind_eq_ok_iff.1 h
  obtain ⟨⟨⟩, hj, h⟩ := Except.bind_eq_ok_iff.1 h
  have hi := checkClock_eq_ok_iff.1 hi
  have hj := checkClock_eq_ok_iff.1 hj
  split at h
  next lt =>
    cases h
    exact ⟨hi, hj, lt.ne', hi⟩
  next =>
    split at h
    next lt =>
      cases h
      exact ⟨hi, hj, lt.ne, hj⟩
    next => cases h

/-- Two bounds are in conflict if their sum is negative; a missing one is never in conflict. -/
theorem conflict_eq (b b' : Bound) : (!b.isInfinity && !b'.isInfinity && decide (b + b' < .zero)) =
    decide (b + b' < .zero) := by
  by_cases broken : b + b' < .zero
  · have left := Bound.ne_infinity_of_add_lt broken
    have right := Bound.ne_infinity_of_add_lt (Bound.bound_add_comm b b' ▸ broken)
    simp [Bound.isInfinity_eq_false_iff.2 left, Bound.isInfinity_eq_false_iff.2 right]
  · simp [broken]

theorem range_runs (hm : m.Sound) (i j : Nat) (bound opposite : Bound) :
    Makes m (range i j bound opposite)
      (bound.Within Bound.maxValue ∧ opposite.Within Bound.maxValue) := by
  refine .query_cases hm (fun ⟨pair, swapped⟩ eq => ?_) fun e eq _ => m.raises_checkPair i j e eq
  obtain ⟨-, -, -, last⟩ := of_checkPair eq
  have lt := ClockPair.level_lt_count last
  have below : pair.level < m.levelOf .one := lt_levelOf_of_isTerminal hm.toNodes lt rfl
  dsimp only
  generalize swap : (if swapped then (opposite, bound) else (bound, opposite)) = ends
  obtain ⟨upper, lower⟩ := ends
  dsimp only
  rw [conflict_eq]
  split
  next => exact .pure hm hm.live_zero
  next room =>
    have sat : .zero ≤ upper + lower := not_lt.1 (of_decide_eq_false (Bool.eq_false_iff.2 room))
    refine (mkNode_runs hm (supported_bandEdges hm.toNodes lt hm.live_one below)).imp
      (fun _ _ _ h => h.1) fun e improper ⟨first, second⟩ => absurd (proper_merge ?_) improper
    have within : upper.Within Bound.maxValue ∧ lower.Within Bound.maxValue := by
      split at swap <;> cases swap
      exacts [⟨second, first⟩, ⟨first, second⟩]
    exact m.proper_bandEdges (consistent_pairCut (i := i) (j := j) within.1 within.2 sat).1

theorem of_checkValue {c c' : Int} (h : Bound.checkValue c = .ok c') :
    c' = c ∧ |c| ≤ Bound.maxValue := by
  unfold Bound.checkValue at h
  split at h
  next fits =>
    cases h
    exact ⟨rfl, abs_le.2 (of_decide_eq_true fits)⟩
  next => cases h

theorem within_weak_neg {c : Int} (h : |c| ≤ Bound.maxValue) :
    (Bound.weak (-c)).Within Bound.maxValue := Bound.within_weak (by rwa [abs_neg])

theorem lowerBound_runs (hm : m.Sound) (i j : Nat) (low : Int) :
    Makes m (lowerBound i j low) True := by
  refine .lift_cases hm (fun c eq => ?_) fun e eq _ => raises_checkValue low e eq
  obtain ⟨rfl, fits⟩ := of_checkValue eq
  exact (range_runs hm i j _ _).imp (fun _ _ _ h => h) fun _ h _ =>
    h ⟨Bound.within_infinity _, within_weak_neg fits⟩

theorem upperBound_runs (hm : m.Sound) (i j : Nat) (up : Int) :
    Makes m (upperBound i j up) True := by
  refine .lift_cases hm (fun c eq => ?_) fun e eq _ => raises_checkValue up e eq
  obtain ⟨rfl, fits⟩ := of_checkValue eq
  exact (range_runs hm i j _ _).imp (fun _ _ _ h => h) fun _ h _ =>
    h ⟨Bound.within_strict fits, Bound.within_infinity _⟩

theorem interval_runs (hm : m.Sound) (i j : Nat) (low up : Int) :
    Makes m (interval i j low up) True := by
  refine .lift_cases hm (fun c eq => ?_) fun e eq _ => raises_checkValue low e eq
  refine .lift_cases hm (fun c' eq' => ?_) fun e eq' _ => raises_checkValue up e eq'
  obtain ⟨rfl, lowFits⟩ := of_checkValue eq
  obtain ⟨rfl, upFits⟩ := of_checkValue eq'
  exact (range_runs hm i j _ _).imp (fun _ _ _ h => h) fun _ h _ =>
    h ⟨Bound.within_strict upFits, within_weak_neg lowFits⟩

theorem constraint_runs (hm : m.Sound) (i j : Nat) (bound : Bound) :
    Makes m (constraint i j bound) (bound.Within Bound.maxValue) :=
  (range_runs hm i j bound .infinity).imp (fun _ _ _ h => h) fun _ h within =>
    h ⟨within, Bound.within_infinity _⟩

/-! ## Zones -/

theorem levels_pairsBelow (dim : Nat) :
    (pairsBelow dim).map (fun p => ClockPair.triangle p.1 + p.2) =
      List.range (ClockPair.triangle dim) := by
  induction dim with
  | zero => rfl
  | succ dim ih =>
    unfold pairsBelow at ih ⊢
    rw [List.range_succ, List.flatMap_append, List.map_append, ih, ClockPair.triangle_succ,
      List.range_add]
    simp [Function.comp_def]

/-- The cuts of a matrix are on levels of its pairs, in their order. -/
theorem levels_cutsAt (d implied : Dbm) (pairs : List (Nat × Nat)) :
    ((cutsAt d implied pairs).map Cut.level).Sublist
      (pairs.map fun p => ClockPair.triangle p.1 + p.2) := by
  induction pairs generalizing implied with
  | nil => exact .slnil
  | cons p pairs ih =>
    obtain ⟨i, j⟩ := p
    unfold cutsAt
    dsimp only
    split
    next => exact (ih implied).cons _
    next => exact (ih _).cons_cons _

theorem cuts_ascending (d : Dbm) : ((cuts d).map Cut.level).Pairwise (· < ·) ∧
    ∀ c ∈ cuts d, c.level < ClockPair.count d.dim := by
  have sub := levels_cutsAt d (.unconstrained d.dim d.dim_pos) (pairsBelow d.dim)
  rw [levels_pairsBelow] at sub
  refine ⟨List.pairwise_lt_range.sublist sub, fun c hc => ?_⟩
  exact List.mem_range.1 (sub.subset (List.mem_map_of_mem hc))

/-- A decision at a cut may stand above the path through cuts on later levels. -/
theorem supported_of_path {c : Cut} {cs : List Cut} {r : Handle} (hm : m.Nodes)
    (ascending : ((c :: cs).map Cut.level).Pairwise (· < ·))
    (lt : ∀ c' ∈ c :: cs, c'.level < ClockPair.count m.clocks) (hr : m.Live r)
    (tree : m.unfold r = Diagram.pathThrough cs) :
    m.Supported c.level (bandEdges r c.lower c.upper) := by
  rw [List.map_cons, List.pairwise_cons] at ascending
  obtain ⟨inside, rest⟩ := List.forall_mem_cons.1 lt
  have few := ClockPair.count_lt_terminalLevel hm.few
  refine supported_bandEdges hm inside hr ?_
  rw [← hm.level_unfold hr, tree]
  exact Diagram.lt_level_pathThrough ascending.2 (fun c hc => (rest c hc).trans few)
    (inside.trans few) fun c' hc' => ascending.1 _ (List.mem_map_of_mem hc')

/-- **A path through cuts on ascending levels has its tree.** It fails only if the cuts of a
decision do not increase, or because the store is full. -/
theorem pathThrough_runs {cs : List Cut} (hm : m.Sound)
    (ascending : (cs.map Cut.level).Pairwise (· < ·))
    (lt : ∀ c ∈ cs, c.level < ClockPair.count m.clocks) :
    Runs m (pathThrough cs) (fun r m' => m'.Live r ∧ m'.unfold r = Diagram.pathThrough cs ∧
      Diagram.Passable cs) fun _ => ¬Diagram.Passable cs := by
  induction cs with
  | nil => exact .pure hm ⟨hm.live_one, unfold_of_isTerminal rfl, trivial⟩
  | cons c cs ih =>
    have later : (cs.map Cut.level).Pairwise (· < ·) := (List.pairwise_cons.1 ascending).2
    have rest := (List.forall_mem_cons.1 lt).2
    unfold pathThrough
    refine ((ih later rest).imp (fun _ _ _ h => h) fun _ broken all => broken all.1).bind
      fun r m₁ grows ⟨live, tree, passable⟩ => ?_
    have supported : m₁.Supported c.level (bandEdges r c.lower c.upper) :=
      supported_of_path grows.sound.toNodes ascending (grows.keeps.clocks ▸ lt) live tree
    have proper_iff : Proper (merge (bandEdges r c.lower c.upper)) ↔
        Proper (merge (Diagram.band (Diagram.pathThrough cs) c.lower c.upper)) := by
      rw [← tree, ← mapItems_bandEdges, supported.merge_mapItems_unfold grows.sound.toNodes]
      exact ⟨(sameCuts_mapItems _ _).proper, (sameCuts_mapItems _ _).swap.proper⟩
    refine ((mkNode_runs grows.sound supported).and_of_eq_ok
      fun _ _ => proper_of_mkNode_eq_ok).imp
      (fun r' m₂ grows' ⟨⟨live', made⟩, proper⟩ => ?_) fun _ improper all =>
        improper (proper_iff.2 all.2)
    refine ⟨live', ?_, passable, proper_iff.1 proper⟩
    rw [made, mapItems_bandEdges, tree, Diagram.pathThrough]

/-- **A path that is there is found**, and nothing changes. -/
theorem pathThrough_eq_ok {cs : List Cut} {f : Handle} (hm : m.Nodes)
    (ascending : (cs.map Cut.level).Pairwise (· < ·))
    (lt : ∀ c ∈ cs, c.level < ClockPair.count m.clocks) (consistent : ∀ c ∈ cs, c.Consistent)
    (hf : m.Live f) (tree : m.unfold f = Diagram.pathThrough cs) : pathThrough cs m = .ok f m := by
  induction cs generalizing f with
  | nil =>
    have one : m.unfold .one = Diagram.pathThrough [] := unfold_of_isTerminal rfl
    rw [hm.eq_of_unfold_eq hf hm.live_one (tree.trans one.symm)]
    rfl
  | cons c cs ih =>
    have later : (cs.map Cut.level).Pairwise (· < ·) := (List.pairwise_cons.1 ascending).2
    obtain ⟨own, others⟩ := List.forall_mem_cons.1 consistent
    obtain ⟨r, hr, inside⟩ := hm.exists_live_child hf tree
      (Diagram.inside_mem_band (Diagram.pathThrough cs) c.lower c.upper)
    have made : m.unfold f = Diagram.make c.level (mapItems m.unfold
        (bandEdges r c.lower c.upper)) := by
      rw [mapItems_bandEdges, inside, tree, Diagram.pathThrough]
    have proper : Proper (bandEdges r c.lower c.upper) := m.proper_bandEdges own
    rw [pathThrough, bind_of_ok (ih later (List.forall_mem_cons.1 lt).2 others hr inside)]
    exact mkNode_eq_ok hm (supported_of_path hm ascending lt hr inside) proper hf made

/-- The reference clock alone has no pair. -/
theorem count_dim (m : Manager) : ClockPair.count m.dim = ClockPair.count m.clocks := by
  unfold dim
  cases m.clocks with
  | zero => rfl
  | succ n => rw [Nat.max_eq_left (Nat.succ_pos n)]

theorem checkDim_eq_ok_iff {dim : Nat} : m.checkDim dim = .ok () ↔ dim ≤ m.dim := by
  unfold checkDim
  split
  next le => exact iff_of_true rfl le
  next gt => exact iff_of_false nofun gt

/-- The cuts of a matrix over clocks of the manager are on levels of the manager. -/
theorem level_lt_of_mem_cuts {d : Dbm} (le : d.dim ≤ m.dim) (c : Cut) (hc : c ∈ cuts d) :
    c.level < ClockPair.count m.clocks := by
  refine ((cuts_ascending d).2 c hc).trans_le ?_
  rw [← count_dim m]
  exact ClockPair.triangle_le_triangle le

/-- A path through the cuts of a matrix over clocks of the manager has its tree. -/
theorem pathThrough_cuts_runs {d : Dbm} (hm : m.Sound) (le : d.dim ≤ m.dim) :
    Runs m (pathThrough (cuts d)) (fun r m' => m'.Live r ∧
      m'.unfold r = Diagram.pathThrough (cuts d) ∧ Diagram.Passable (cuts d))
      fun _ => ¬Diagram.Passable (cuts d) :=
  pathThrough_runs hm (cuts_ascending d).1 (level_lt_of_mem_cuts le)

/-- **The cuts of a path increase** if they are consistent, so the path is made unless the store is
full. -/
theorem pathThrough_runs_of_consistent {d : Dbm} (hm : m.Sound) (le : d.dim ≤ m.dim)
    (consistent : ∀ c ∈ cuts d, c.Consistent) :
    Runs m (pathThrough (cuts d)) (fun r m' => m'.Live r ∧
      m'.unfold r = Diagram.pathThrough (cuts d)) fun _ => False :=
  (pathThrough_cuts_runs hm le).imp (fun _ _ _ made => ⟨made.1, made.2.1⟩)
    fun _ improper => improper (Diagram.passable_of_consistent consistent)

theorem dim_of_close_eq {zone closed : Dbm} {inhabited : Bool}
    (close : zone.close = (closed, inhabited)) : closed.dim = zone.dim := by
  rw [← Dbm.dim_close zone, close]

/-- A matrix has a diagram. It fits if its closure is tight, as it is if no sum is clamped. -/
theorem ofDbm_runs (hm : m.Sound) (zone : Dbm) :
    Makes m (ofDbm zone) (zone.close.2 = true → zone.close.1.Tight) := by
  refine .query_cases hm (fun _ eq => ?_) fun e eq _ => m.raises_checkDim zone.dim e eq
  rcases close : zone.close with ⟨closed, inhabited⟩
  have le : closed.dim ≤ m.dim := (dim_of_close_eq close).trans_le (checkDim_eq_ok_iff.1 eq)
  cases inhabited with
  | false => exact .pure hm hm.live_zero
  | true =>
    refine (pathThrough_cuts_runs hm le).imp (fun _ _ _ h => h.1) fun _ improper tight => ?_
    have consistent (c : Cut) (hc : c ∈ cuts closed) : c.Consistent :=
      consistent_of_tight (tight rfl) hc
    exact absurd (Diagram.passable_of_consistent consistent) improper

/-- The diagram of a matrix is the path through the cuts of its closure. -/
theorem ofDbm_eq_path {zone closed : Dbm} (close : zone.close = (closed, true))
    (le : zone.dim ≤ m.dim) : ofDbm zone m = pathThrough (cuts closed) m := by
  rw [ofDbm, bind_of_ok (query_of_ok (checkDim_eq_ok_iff.2 le)), close]

/-- A matrix whose closure has consistent cuts has the tree of its cuts. -/
theorem ofDbm_runs_of_consistent {zone closed : Dbm} (hm : m.Sound)
    (close : zone.close = (closed, true)) (le : zone.dim ≤ m.dim)
    (consistent : ∀ c ∈ cuts closed, c.Consistent) :
    Runs m (ofDbm zone) (fun r m' => m'.Live r ∧
      m'.unfold r = Diagram.pathThrough (cuts closed)) fun _ => False := by
  rw [Runs, ofDbm_eq_path close le]
  exact pathThrough_runs_of_consistent hm ((dim_of_close_eq close).trans_le le) consistent

/-- **The diagram of a matrix is found again**, and nothing changes. -/
theorem ofDbm_eq_ok {zone closed : Dbm} {f : Handle} (hm : m.Nodes)
    (close : zone.close = (closed, true)) (le : zone.dim ≤ m.dim)
    (consistent : ∀ c ∈ cuts closed, c.Consistent) (hf : m.Live f)
    (tree : m.unfold f = Diagram.pathThrough (cuts closed)) : ofDbm zone m = .ok f m := by
  rw [ofDbm_eq_path close le]
  exact pathThrough_eq_ok hm (cuts_ascending closed).1
    (level_lt_of_mem_cuts ((dim_of_close_eq close).trans_le le)) consistent hf tree

/-- A matrix whose closure is settled has the diagram of its closure. -/
theorem ofDbm_runs_of_close_eq {zone closed : Dbm} {K : Int} (hm : m.Sound)
    (close : zone.close = (closed, true)) (h : closed.Settled K) (room : Dbm.Room closed.dim K)
    (le : zone.dim ≤ m.dim) :
    Runs m (ofDbm zone) (fun r m' => m'.Live r ∧
      m'.unfold r = Diagram.pathThrough (cuts closed)) fun _ => False :=
  ofDbm_runs_of_consistent hm close le fun _ hc => (consistent_of_mem_cuts h room hc).1

/-- A matrix that closing finds empty has the constant without valuations. -/
theorem ofDbm_eq_zero {zone rest : Dbm} (close : zone.close = (rest, false))
    (le : zone.dim ≤ m.dim) : ofDbm zone m = .ok .zero m := by
  rw [ofDbm, bind_of_ok (query_of_ok (checkDim_eq_ok_iff.2 le)), close]
  rfl

/-- **The diagram of a settled zone is the path through its cuts**, unless the store is full. -/
theorem ofDbm_runs_of_settled {zone : Dbm} {K : Int} (hm : m.Sound) (h : zone.Settled K)
    (room : Dbm.Room zone.dim K) (le : zone.dim ≤ m.dim) :
    Runs m (ofDbm zone) (fun r m' => m'.Live r ∧
      m'.unfold r = Diagram.pathThrough (cuts zone)) fun _ => False :=
  ofDbm_runs_of_close_eq hm (h.close_eq_self room) h room le

end ZoneDiagram.Manager

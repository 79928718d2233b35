import ZoneDiagram.Proofs.Manager.Extract

/-!
# The search for all zones

A search is inside of some decisions at a time, and each has edges left. The zones that are left are
those of these edges, innermost decision first (`zonesLeft`). A turn of the search takes nothing
from them but the zone that it finds (`turn_eq_ok`). So the zones that a search finds, one after the
other, are the zones of the tree, and then it ends (`start_yields`).
-/

namespace ZoneDiagram.Manager

open CutList

variable {m : Manager} {f : Handle} {e : Edge} {ctx : Dbm} {K : Int} {frame : ZoneFrame}
  {stack : List ZoneFrame} {s s' : ZoneSearch} {zone : Dbm} {zones : List Dbm}

/-! ## What is left of a search -/

/-- The zones of the edges that a decision has left. -/
def zonesBelow (m : Manager) (frame : ZoneFrame) : List Dbm :=
  match ClockPair.ofLevel (m.levelOf frame.root) with
  | .ok pair => (frame.context.feasible pair (· != .zero) frame.lower frame.edges).flatMap
      fun p => (m.unfold p.item.1).zones p.item.2
  | .error _ => []

/-- The zones that a search has left. -/
def zonesLeft (m : Manager) (stack : List ZoneFrame) : List Dbm := stack.flatMap m.zonesBelow

/-- A decision is met in its context, below as many others as its level allows, and the edges that
it has left are the last ones. -/
structure Inside (m : Manager) (K : Int) (above : Nat) (frame : ZoneFrame) : Prop where
  met : m.MetIn K frame.context frame.root
  inner : frame.root.isTerminal = false
  above_le : above ≤ m.levelOf frame.root
  last : intervals frame.lower frame.edges <:+ intervals none (m.edgesOf frame.root)

/-- A search is inside of decisions, each on an edge of the one before. -/
def Underway (m : Manager) (K : Int) : List ZoneFrame → Prop
  | [] => True
  | frame :: stack => m.Inside K stack.length frame ∧ m.Underway K stack

/-- A decision after its next edge. -/
theorem Inside.advance {edges : CutList Handle} (h : m.Inside K stack.length frame)
    (eq : frame.edges = e :: edges) :
    m.Inside K stack.length { frame with lower := some e.upper, edges } :=
  ⟨h.met, h.inner, h.above_le, by
    have last := h.last
    rw [eq] at last
    exact (List.suffix_cons _ _).trans last⟩

theorem Inside.pair_eq_ok (h : m.Inside K stack.length frame) (hm : m.Nodes) :
    ∃ pair, ClockPair.ofLevel (m.levelOf frame.root) = .ok pair ∧
      m.pair frame.root = .ok pair := by
  obtain ⟨pair, hpair, -⟩ :=
    ClockPair.ofLevel_eq_ok hm.few (hm.canonical_nodeOf h.met.live h.inner).2
  exact ⟨pair, hpair, (hm.pair_eq h.met.live h.inner).trans hpair⟩

/-! ## Turns -/

/-- A search goes into every decision that it meets on a later level. -/
theorem enter_eq_ok (hm : m.Nodes) (met : m.MetIn K ctx f) (inner : f.isTerminal = false)
    (le : stack.length ≤ m.levelOf f) (under : m.Underway K stack) :
    ∃ stack', m.enter f ctx stack = .ok stack' ∧ m.Underway K stack' ∧
      m.zonesLeft stack' = (m.unfold f).zones ctx ++ m.zonesLeft stack := by
  have lt : stack.length < m.depth := by
    have := (hm.canonical_nodeOf met.live inner).2
    unfold depth
    omega
  obtain ⟨pair, hpair, -⟩ := ClockPair.ofLevel_eq_ok hm.few (hm.canonical_nodeOf met.live inner).2
  refine ⟨⟨f, ctx, none, m.edgesOf f⟩ :: stack, ?_, ⟨⟨met, inner, le, List.suffix_rfl⟩, under⟩, ?_⟩
  · rw [enter, if_pos lt, hm.edges_eq_ok met.live]
    rfl
  · rw [zonesLeft, List.flatMap_cons, zonesBelow, hpair, hm.zones_unfold met.live inner hpair]
    rfl

section Follow

variable {pair : ClockPair}

theorem follow_of_eq_zero (zero : e.item = .zero) : m.follow frame e stack = .ok (none, stack) :=
  if_pos zero

theorem follow_of_not_admits (wanted : e.item ≠ .zero) (hpair : m.pair frame.root = .ok pair)
    (h : ¬ frame.context.admits pair frame.lower e.upper) :
    m.follow frame e stack = .ok (none, stack) := by
  rw [follow, if_neg wanted, hpair]
  exact if_neg h

theorem follow_of_admits (wanted : e.item ≠ .zero) (hpair : m.pair frame.root = .ok pair)
    (h : frame.context.admits pair frame.lower e.upper)
    (inhabited : (frame.context.restricted pair frame.lower e.upper).isEmpty = false) :
    m.follow frame e stack =
      let sub := frame.context.restricted pair frame.lower e.upper
      if e.item = .one then .ok (some sub, stack)
      else return (none, ← m.enter e.item sub stack) := by
  rw [follow, if_neg wanted, hpair]
  refine (if_pos h).trans ?_
  rw [Dbm.inhabited?_eq_ok_iff.2 ⟨inhabited, rfl⟩]
  rfl

end Follow

/-- A search that follows an edge finds the zone that is left there, or goes on inside of the child,
or passes over an edge without zones. -/
theorem follow_eq_ok {edges : CutList Handle} (hm : m.Nodes)
    (inside : m.Inside K stack.length frame) (under : m.Underway K stack)
    (eq : frame.edges = e :: edges) :
    ∃ found stack', m.follow frame e ({ frame with lower := some e.upper, edges } :: stack) =
      .ok (found, stack') ∧ m.Underway K stack' ∧
        m.zonesLeft (frame :: stack) = found.toList ++ m.zonesLeft stack' := by
  obtain ⟨pair, hpair, hpair'⟩ := inside.pair_eq_ok hm
  have underRest : m.Underway K ({ frame with lower := some e.upper, edges } :: stack) :=
    ⟨inside.advance eq, under⟩
  -- The zones of this edge come first, if it is wanted and admitted.
  have zones : m.zonesLeft (frame :: stack) =
      (if (e.item != .zero) && frame.context.admits pair frame.lower e.upper then
        (m.unfold e.item).zones (frame.context.restricted pair frame.lower e.upper) else []) ++
      m.zonesLeft ({ frame with lower := some e.upper, edges } :: stack) := by
    rw [zonesLeft, zonesLeft, List.flatMap_cons, List.flatMap_cons, zonesBelow, zonesBelow, eq]
    simp only [hpair]
    rw [Dbm.feasible]
    split <;> simp
  have mem : (frame.lower, e) ∈ intervals none (m.edgesOf frame.root) :=
    inside.last.mem (by rw [eq]; exact List.mem_cons_self)
  by_cases zero : e.item = .zero
  · exact ⟨none, _, follow_of_eq_zero zero, underRest, by rw [zones, zero]; rfl⟩
  by_cases admitted : frame.context.admits pair frame.lower e.upper
  · have child := inside.met.child hm inside.inner hpair mem admitted
    rw [if_pos (by simp [zero, admitted])] at zones
    rw [follow_of_admits zero hpair' admitted child.isEmpty_eq_false]
    by_cases one : e.item = .one
    · exact ⟨some _, _, if_pos one, underRest, by rw [zones, one, unfold_one]; rfl⟩
    · obtain ⟨inner, -⟩ := hm.exists_pair child.live zero one
      have lt := (hm.child inside.met.live (mem_of_mem_intervals mem)).2
      have above := inside.above_le
      obtain ⟨stack', enter, under', left⟩ := enter_eq_ok hm child inner
        (by rw [List.length_cons]; omega) underRest
      exact ⟨none, stack', (if_neg one).trans (by rw [enter]; rfl), under', zones.trans left.symm⟩
  · rw [if_neg (by simp [admitted])] at zones
    exact ⟨none, _, follow_of_not_admits zero hpair' admitted, underRest, zones⟩

/-- **A turn takes nothing from the zones that are left but the one that it finds.** -/
theorem turn_eq_ok (hm : m.Nodes) (inside : m.Inside K stack.length frame)
    (under : m.Underway K stack) : ∃ found stack', m.turn frame stack = .ok (found, stack') ∧
      m.Underway K stack' ∧ m.zonesLeft (frame :: stack) = found.toList ++ m.zonesLeft stack' := by
  unfold turn
  split
  next eq =>
    refine ⟨none, stack, rfl, under, ?_⟩
    obtain ⟨pair, hpair, -⟩ := inside.pair_eq_ok hm
    rw [zonesLeft, List.flatMap_cons, zonesBelow, eq]
    simp only [hpair]
    rfl
  next e edges eq => exact follow_eq_ok hm inside under eq

/-- A search finds the first zone that is left, and it ends if there is none. -/
theorem search_eq_ok (hm : m.Nodes) (under : m.Underway K stack) :
    ∃ found stack', m.search stack = .ok (found, stack') ∧ m.Underway K stack' ∧
      m.zonesLeft stack = found.toList ++ m.zonesLeft stack' ∧
        (found = none → m.zonesLeft stack = []) := by
  fun_induction search with
  | case1 => exact ⟨none, [], rfl, trivial, rfl, fun _ => rfl⟩
  | case2 frame stack e turn =>
    obtain ⟨found, stack', run, -⟩ := turn_eq_ok hm under.1 under.2
    cases turn.symm.trans run
  | case3 frame stack zone stack' turn =>
    obtain ⟨found, stack'', run, under', left⟩ := turn_eq_ok hm under.1 under.2
    cases turn.symm.trans run
    exact ⟨some zone, stack', rfl, under', left, fun h => absurd h (Option.some_ne_none zone)⟩
  | case4 frame stack stack' turn ih =>
    obtain ⟨found, stack'', run, under', left⟩ := turn_eq_ok hm under.1 under.2
    cases turn.symm.trans run
    rw [left]
    exact ih under'

/-! ## Searches -/

/-- The zones that a search finds before it ends. -/
inductive Yields (m : Manager) : ZoneSearch → List Dbm → Prop
  | done {s s' : ZoneSearch} (h : s.next m = .ok (none, s')) : Yields m s []
  | found {s s' : ZoneSearch} {zone : Dbm} {zones : List Dbm}
      (h : s.next m = .ok (some zone, s')) (rest : Yields m s' zones) : Yields m s (zone :: zones)

/-- A search that is under way finds the zones that are left. -/
theorem Underway.yields (hm : m.Nodes) (under : m.Underway K stack) :
    m.Yields ⟨none, stack⟩ (m.zonesLeft stack) := by
  generalize eq : m.zonesLeft stack = zones
  induction zones generalizing stack with
  | nil =>
    obtain ⟨found, stack', run, -, left, -⟩ := search_eq_ok hm under
    rw [eq] at left
    cases found with
    | some zone => cases left
    | none =>
      have ended : ZoneSearch.next m ⟨none, stack⟩ = .ok (none, ⟨none, stack'⟩) := by
        rw [ZoneSearch.next, run]
        rfl
      exact .done ended
  | cons zone zones ih =>
    obtain ⟨found, stack', run, under', left, ended⟩ := search_eq_ok hm under
    rw [eq] at left ended
    cases found with
    | none => cases ended rfl
    | some zone' =>
      obtain ⟨rfl, rest⟩ := List.cons.inj left
      have next : ZoneSearch.next m ⟨none, stack⟩ = .ok (some zone, ⟨none, stack'⟩) := by
        rw [ZoneSearch.next, run]
        rfl
      exact .found next (ih under' rest.symm)

/-- **A search finds the zones of the tree**, one after the other, and then it ends. -/
theorem start_yields (hm : m.Nodes) (hf : m.MetIn K m.openContext f) :
    ∃ s, ZoneSearch.start m f = .ok s ∧ m.Yields s ((m.unfold f).zones m.openContext) := by
  have underway_nil : m.Underway K [] := trivial
  unfold ZoneSearch.start
  by_cases one : f = .one
  · rw [if_pos one, one, unfold_one]
    exact ⟨_, rfl, .found rfl (underway_nil.yields hm)⟩
  rw [if_neg one]
  by_cases zero : f = .zero
  · rw [if_pos zero, zero, unfold_zero]
    exact ⟨_, rfl, underway_nil.yields hm⟩
  rw [if_neg zero]
  obtain ⟨inner, -⟩ := hm.exists_pair hf.live zero one
  obtain ⟨stack, enter, under, left⟩ := enter_eq_ok hm hf inner (Nat.zero_le _) underway_nil
  rw [enter]
  refine ⟨⟨none, stack⟩, rfl, ?_⟩
  have yields := under.yields hm
  rw [left] at yields
  simpa [zonesLeft] using yields

theorem Yields.all_eq_ok (h : m.Yields s zones) : s.all m = .ok zones := by
  induction h with
  | done h =>
    rw [ZoneSearch.all]
    split
    next eq => cases eq.symm.trans h
    next eq => cases eq.symm.trans h
    next eq => rfl
  | found h _ ih =>
    rw [ZoneSearch.all]
    split
    next eq => cases eq.symm.trans h
    next eq =>
      cases eq.symm.trans h
      rw [ih]
      rfl
    next eq => cases eq.symm.trans h

end ZoneDiagram.Manager

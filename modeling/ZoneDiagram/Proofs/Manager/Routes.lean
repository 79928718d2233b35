import Mathlib.Data.Set.Card
import ZoneDiagram.Proofs.Diagram.PathCount
import ZoneDiagram.Proofs.Manager.Search

/-!
# Counting paths

A route is the sequence of edges on a way from a diagram down to the full federation
(`Manager.Route`). The edges are those of the diagram as it is read, complements pushed down.

**Theorem (`Nodes.pathCount_eq_ok`).** The count of paths is the number of routes.

Counting visits every node once. What it keeps of a node are the counts of its regular diagram to
both ends, so a complement exchanges them (`counts_neg`).
-/

namespace ZoneDiagram

open CutList

/-- No piece is listed twice, as the upper bounds increase. -/
theorem CutList.Ascending.nodup {α : Type} {lower : Option Bound} {ps : CutList α}
    (h : Ascending lower ps) : ps.Nodup := by
  have above {b : Bound} {qs : CutList α} (h : Ascending (some b) qs) : ∀ q ∈ qs, b < q.upper := by
    induction qs generalizing b with
    | nil => simp
    | cons q qs ih =>
      have first := h.1 b rfl
      exact List.forall_mem_cons.2 ⟨first, fun r hr => first.trans (ih h.2.2 r hr)⟩
  induction ps generalizing lower with
  | nil => exact .nil
  | cons p ps ih =>
    exact List.nodup_cons.2 ⟨fun mem => lt_irrefl _ (above h.2.2 p mem), ih h.2.2⟩

namespace Manager

variable {m : Manager} {f : Handle} {e : Edge} {es : List Edge} {depth : Nat}
  {memo : Std.TreeMap Nat PathCounts}

/-! ## Routes -/

/-- The edges on the way from a diagram down to the full federation. -/
inductive Route (m : Manager) : Handle → List Edge → Prop
  | one : Route m .one []
  | edge {f : Handle} {edges : CutList Handle} {e : Edge} {es : List Edge}
      (inner : f.isTerminal = false) (read : m.edges f = .ok edges) (he : e ∈ edges)
      (rest : Route m e.item es) : Route m f (e :: es)

theorem Nodes.route_iff (hm : m.Nodes) (hf : m.Live f) (inner : f.isTerminal = false) :
    m.Route f es ↔ ∃ e ∈ m.edgesOf f, ∃ rest, m.Route e.item rest ∧ e :: rest = es := by
  constructor
  · intro h
    cases h with
    | one => cases inner
    | edge _ read he rest =>
      cases read.symm.trans (hm.edges_eq_ok hf)
      exact ⟨_, he, _, rest, rfl⟩
  · rintro ⟨e, he, rest, route, rfl⟩
    exact .edge inner (hm.edges_eq_ok hf) he route

theorem route_of_isTerminal (h : f.isTerminal = true) : m.Route f es ↔ f = .one ∧ es = [] := by
  constructor
  · intro route
    cases route with
    | one => exact ⟨rfl, rfl⟩
    | edge inner =>
      rw [h] at inner
      cases inner
  · rintro ⟨rfl, rfl⟩
    exact .one

/-- The list has every route once, and there are as many as paths of the tree. -/
structure Lists (m : Manager) (f : Handle) (routes : List (List Edge)) : Prop where
  nodup : routes.Nodup
  mem : ∀ es, es ∈ routes ↔ m.Route f es
  length : routes.length = (m.unfold f).pathCount

theorem lists_one (m : Manager) : m.Lists .one [[]] where
  nodup := List.nodup_singleton _
  mem es := by simp [route_of_isTerminal (m := m) (f := .one) rfl]
  length := by
    rw [unfold_one]
    rfl

theorem lists_zero (m : Manager) : m.Lists .zero [] where
  nodup := .nil
  mem es := by
    have ne : Handle.zero ≠ .one := by decide
    simp [route_of_isTerminal (m := m) (f := .zero) rfl, ne]
  length := by
    rw [unfold_zero]
    rfl

/-- The routes of a decision are those of its edges, one edge after the other. -/
theorem Nodes.lists_flatMap {routes : Edge → List (List Edge)} (hm : m.Nodes) (hf : m.Live f)
    (inner : f.isTerminal = false) (lists : ∀ e ∈ m.edgesOf f, m.Lists e.item (routes e)) :
    m.Lists f ((m.edgesOf f).flatMap fun e => (routes e).map (e :: ·)) where
  nodup := by
    have distinct : (m.edgesOf f).Nodup := (hm.proper_edgesOf hf inner).ascending.nodup
    refine List.nodup_flatMap.2 ⟨fun e he => (lists e he).nodup.map List.cons_injective, ?_⟩
    refine distinct.imp fun {e e'} ne es hes hes' => ?_
    obtain ⟨_, -, rfl⟩ := List.mem_map.1 hes
    obtain ⟨_, -, eq⟩ := List.mem_map.1 hes'
    exact ne (List.cons.inj eq).1.symm
  mem es := by
    rw [hm.route_iff hf inner, List.mem_flatMap]
    refine exists_congr fun e => and_congr_right fun he => ?_
    simp only [List.mem_map, (lists e he).mem]
  length := by
    rw [hm.unfold_of_inner hf inner, Diagram.pathCount_node, List.length_flatMap, mapItems,
      List.map_map]
    refine congrArg List.sum (List.map_congr_left fun e he => ?_)
    rw [List.length_map, (lists e he).length]
    rfl

/-- The routes of a diagram can be listed. -/
theorem Nodes.exists_routes (hm : m.Nodes) (hf : m.Live f) : ∃ routes, m.Lists f routes := by
  refine hm.induct (P := fun f => ∃ routes, m.Lists f routes) (fun f hf ih => ?_) hf
  cases inner : f.isTerminal with
  | true =>
    rcases Handle.eq_one_or_eq_zero inner with rfl | rfl
    exacts [⟨_, m.lists_one⟩, ⟨_, m.lists_zero⟩]
  | false =>
    choose! routes lists using ih
    exact ⟨_, hm.lists_flatMap hf inner lists⟩

/-- There are finitely many routes, as many as paths of the tree. -/
theorem Nodes.ncard_routes (hm : m.Nodes) (hf : m.Live f) :
    {es | m.Route f es}.Finite ∧ {es | m.Route f es}.ncard = (m.unfold f).pathCount := by
  classical
  obtain ⟨routes, lists⟩ := hm.exists_routes hf
  have eq : {es | m.Route f es} = (routes.toFinset : Set (List Edge)) := by
    ext es
    simp [lists.mem]
  rw [eq, Set.ncard_coe_finset, List.toFinset_card_of_nodup lists.nodup]
  exact ⟨Finset.finite_toSet _, lists.length⟩

/-! ## Counts -/

/-- The numbers of paths of the tree to both ends. -/
def counts (m : Manager) (f : Handle) : PathCounts :=
  ⟨(m.unfold f).pathCount, (m.unfold f).neg.pathCount⟩

theorem counts_of_isTerminal (m : Manager) (h : f.isTerminal = true) :
    m.counts f = PathCounts.applySign f ⟨1, 0⟩ := by
  rcases Handle.eq_one_or_eq_zero h with rfl | rfl
  · rw [counts, unfold_one]
    rfl
  · rw [counts, unfold_zero]
    rfl

/-- Complement exchanges the counts. -/
theorem Nodes.counts_neg (hm : m.Nodes) (hf : m.Live f) :
    m.counts (-f) = ⟨(m.counts f).toZero, (m.counts f).toOne⟩ := by
  rw [counts, hm.unfold_neg hf, Diagram.neg_neg]
  rfl

theorem Nodes.applySign_counts (hm : m.Nodes) (hf : m.Live f) :
    (m.counts f.regular).applySign f = m.counts f := by
  have eq := f.applySign_regular
  unfold Handle.applySign at eq
  unfold PathCounts.applySign
  split at eq
  next negated => rw [if_pos negated, ← hm.counts_neg hf.regular, eq]
  next regular => rw [if_neg regular, eq]

/-- The counts of some edges together. -/
def countsAlong (m : Manager) (edges : CutList Handle) : PathCounts :=
  ⟨(edges.map fun e => (m.counts e.item).toOne).sum,
    (edges.map fun e => (m.counts e.item).toZero).sum⟩

/-- The counts of a decision are those of its edges. -/
theorem Nodes.counts_of_inner (hm : m.Nodes) (hf : m.Live f) (inner : f.isTerminal = false) :
    m.counts f = m.countsAlong (m.edgesOf f) := by
  rw [counts, hm.unfold_of_inner hf inner, Diagram.neg_node, Diagram.pathCount_node,
    Diagram.pathCount_node]
  simp [countsAlong, counts, mapItems, Function.comp_def]

/-! ## Counting -/

/-- What is kept of a slot are the counts of its regular diagram. -/
def Counted (m : Manager) (memo : Std.TreeMap Nat PathCounts) : Prop :=
  ∀ f, m.Live f → ∀ c, memo[f.slot]? = some c → c = m.counts f.regular

theorem counted_empty (m : Manager) : m.Counted ∅ := by
  intro f _ c hc
  simp at hc

theorem Counted.insert (h : m.Counted memo) :
    m.Counted (memo.insert f.slot (m.counts f.regular)) := by
  intro g hg c hc
  rw [Std.TreeMap.getElem?_insert] at hc
  split at hc
  next eq =>
    have slot : f.slot = g.slot := Std.LawfulEqOrd.eq_of_compare eq
    rw [← Option.some.inj hc, Handle.regular, Handle.regular, slot]
  next => exact h g hg c hc

/-- The loop over the edges of a decision adds their counts. -/
theorem addCounts_ends {edges : CutList Handle} {c : PathCounts} (hmemo : m.Counted memo)
    (h : ∀ e ∈ edges, ∀ memo, m.Counted memo →
      Ends m.Counted memo (m.countPaths depth e.item) (· = m.counts e.item)) :
    Ends m.Counted memo
      (edges.foldlM (fun c e => do return c.add (← m.countPaths depth e.item)) c)
      (· = c.add (m.countsAlong edges)) := by
  induction edges generalizing c memo with
  | nil => exact .pure hmemo rfl
  | cons e edges ih =>
    obtain ⟨first, rest⟩ := List.forall_mem_cons.1 h
    rw [List.foldlM_cons]
    refine Ends.bind (Q := (· = c.add (m.counts e.item))) ?_ fun c' memo' hmemo' eq => ?_
    · exact (first memo hmemo).bind fun d memo' hmemo' eq => .pure hmemo' (eq ▸ rfl)
    · refine (ih hmemo' rest).imp fun sum eq' => ?_
      rw [eq', eq]
      simp [PathCounts.add, countsAlong, Nat.add_assoc]

/-- **Every diagram is counted right**, whatever was counted before. -/
theorem countPaths_ends (hm : m.Nodes) (hf : m.Live f) (fits : m.Fits depth f)
    (hmemo : m.Counted memo) :
    Ends m.Counted memo (m.countPaths depth f) (· = m.counts f) := by
  induction depth generalizing f memo with
  | zero => exact absurd fits.pos (Nat.lt_irrefl 0)
  | succ depth ih =>
    unfold countPaths
    cases inner : f.isTerminal with
    | true => exact .pure hmemo (m.counts_of_isTerminal inner).symm
    | false =>
      refine .get_bind ?_
      cases known : memo[f.slot]? with
      | some c =>
        refine .pure hmemo ?_
        rw [hmemo f hf c known, hm.applySign_counts hf]
      | none =>
        -- The counts of the regular diagram are kept; a sign exchanges the two numbers.
        have regular := hf.regular
        have innerRegular : f.regular.isTerminal = false := by rwa [Handle.isTerminal_regular]
        have edges : (m.nodeOf f).edges = m.edgesOf f.regular := by
          rw [edgesOf_of_isNegated_eq_false (Handle.isNegated_regular f), nodeOf, nodeOf,
            Handle.slot_regular]
        refine .lift_bind (hm.node_eq_ok hf) ?_
        rw [edges]
        refine (addCounts_ends hmemo fun e he memo hmemo => ?_).bind fun c memo' hmemo' eq => ?_
        · exact ih (hm.child regular he).1 (fits.regular.child hm regular innerRegular he) hmemo
        · have counted : c = m.counts f.regular := by
            rw [eq, hm.counts_of_inner regular innerRegular]
            simp [PathCounts.add]
          rw [counted]
          exact .modify_bind (.pure hmemo'.insert (hm.applySign_counts hf))

/-- **The count of paths is the number of routes.** -/
theorem Nodes.pathCount_eq_ok (hm : m.Nodes) (hf : m.Live f) :
    m.pathCount f = .ok {es | m.Route f es}.ncard := by
  obtain ⟨c, memo, run, -, rfl⟩ := countPaths_ends hm hf (fits_depth m f) (counted_empty m)
  rw [pathCount, run, (hm.ncard_routes hf).2]
  rfl

end Manager

end ZoneDiagram

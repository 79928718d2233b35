import ZoneDiagram.Manager.Contains
import ZoneDiagram.Proofs.Dbm.Block
import ZoneDiagram.Proofs.Dbm.Closing
import ZoneDiagram.Proofs.Manager.Build
import ZoneDiagram.Proofs.Manager.Reduce
import ZoneDiagram.Proofs.Manager.Search

/-!
# The search for a valuation outside

The search decides whether all valuations of a context are in the federation (`Covers`). All that
is left of the context on the admitted branches must be covered by the children, and nothing of
the context is lost. The answers it remembers are right (`Known`).
-/

namespace ZoneDiagram.Manager

open CutList

variable {m : Manager} {f : Handle} {ctx zone : Dbm} {K : Int} {depth : Nat} {memo : ContainsMemo}
  {pair : ClockPair} {branches : CutList (Handle × Dbm)}

/-- All valuations of the context are in the federation. -/
def Covered (m : Manager) (f : Handle) (ctx : Dbm) : Prop := ∀ v, ctx.Holds v → m.Holds f v

/-- The remembered answers are right. -/
def Known (m : Manager) (memo : ContainsMemo) : Prop :=
  ∀ (v : Visit) (b : Bool), memo[v]? = some b → (b = true ↔ m.Covered v.diagram v.context)

/-- The search ends with the answer to a question. -/
abbrev Decides (m : Manager) (memo : ContainsMemo) (x : StateT ContainsMemo (Except Error) Bool)
    (P : Prop) : Prop := Ends m.Known memo x fun b => b = true ↔ P

theorem known_empty (m : Manager) : m.Known ∅ := by
  intro v b h
  simp at h

theorem Known.insert {b : Bool} (hmemo : m.Known memo) (h : b = true ↔ m.Covered f ctx) :
    m.Known (memo.insert ⟨f, ctx⟩ b) := by
  intro v b' found
  rcases getElem?_insert_eq_some found with ⟨rfl, rfl⟩ | old
  · exact h
  · exact hmemo v b' old

theorem allBranches_decides {test : Handle → Dbm → StateT ContainsMemo (Except Error) Bool}
    (hmemo : m.Known memo) (h : ∀ p ∈ branches, p.item.2.isEmpty = false ∧ ∀ memo, m.Known memo →
      m.Decides memo (test p.item.1 p.item.2) (m.Covered p.item.1 p.item.2)) :
    m.Decides memo (allBranches test branches) (∀ p ∈ branches, m.Covered p.item.1 p.item.2) := by
  induction branches generalizing memo with
  | nil => exact .pure hmemo (by simp)
  | cons p ps ih =>
    obtain ⟨inhabited, decides⟩ := h p List.mem_cons_self
    unfold allBranches
    refine .lift_bind (Dbm.inhabited?_eq_ok_iff.2 ⟨inhabited, rfl⟩) ?_
    refine (decides memo hmemo).bind fun b memo' hmemo' answer => ?_
    rw [List.forall_mem_cons]
    cases b with
    | true =>
      have covered := answer.1 rfl
      exact (ih hmemo' fun q hq => h q (List.mem_cons_of_mem p hq)).imp fun b rest => by
        rw [rest]
        exact (and_iff_right covered).symm
    | false =>
      refine .pure hmemo' (iff_of_false (by simp) fun all => ?_)
      exact absurd (answer.2 all.1) (by simp)

/-- A context is covered if what is left of it is covered by every branch. -/
theorem MetIn.covered_iff (hf : m.MetIn K ctx f) (hm : m.Nodes) (inner : f.isTerminal = false)
    (hpair : ClockPair.ofLevel (m.levelOf f) = .ok pair) :
    (∀ p ∈ ctx.feasible pair (fun _ => true) none (m.edgesOf f), m.Covered p.item.1 p.item.2) ↔
      m.Covered f ctx := by
  constructor
  · intro covered v hv
    obtain ⟨p, hp, left, truth⟩ := hf.exists_branch_of_holds hm inner hpair hv
    exact truth.2 (covered p hp v left)
  · intro covered p hp v hv
    obtain ⟨inside, truth⟩ := hf.holds_of_branch hm inner hpair hp hv
    exact truth.1 (covered v inside)

/-- **The search decides whether the context is covered.** -/
theorem containsWithin_decides (hm : m.Nodes) (hf : m.MetIn K ctx f) (fits : m.Fits depth f)
    (hmemo : m.Known memo) :
    m.Decides memo (m.containsWithin depth f ctx) (m.Covered f ctx) := by
  induction depth generalizing f ctx memo with
  | zero => exact absurd fits.pos (Nat.lt_irrefl 0)
  | succ depth ih =>
    unfold containsWithin
    by_cases one : f = .one
    · rw [if_pos one]
      refine .pure hmemo (iff_of_true rfl fun v _ => ?_)
      rw [one]
      exact m.eval_one _
    rw [if_neg one]
    by_cases zero : f = .zero
    · rw [if_pos zero]
      refine .pure hmemo (iff_of_false (by simp) fun covered => ?_)
      -- A context that is met is not empty, so zero misses one of its valuations.
      obtain ⟨v, hv⟩ := hf.ready.settled.exists_holds
      have holds := covered v hv
      rw [zero] at holds
      cases holds
    rw [if_neg zero]
    refine .get_bind ?_
    split
    next answer found => exact .pure hmemo (hmemo ⟨f, ctx⟩ answer found)
    next =>
      obtain ⟨inner, pair, hpair⟩ := hm.exists_pair hf.live zero one
      refine .lift_bind ((hm.pair_eq hf.live inner).trans hpair) ?_
      refine .lift_bind (hm.edges_eq_ok hf.live) ?_
      have decides : m.Decides memo
          (allBranches (m.containsWithin depth) (ctx.feasible pair (fun _ => true) none
            (m.edgesOf f))) (m.Covered f ctx) := by
        rw [← hf.covered_iff hm inner hpair]
        refine allBranches_decides hmemo fun p hp => ?_
        obtain ⟨met, e, he, eq⟩ := hf.branch hm inner hpair hp
        have lower := eq ▸ fits.child hm hf.live inner he
        exact ⟨met.isEmpty_eq_false, fun memo hmemo => ih met lower hmemo⟩
      refine decides.bind fun b memo' hmemo' answer => ?_
      exact .modify_bind (.pure (hmemo'.insert answer) answer)

/-- **A zone lies in a federation exactly if all its valuations do.** -/
theorem contains_eq_ok (hm : m.Nodes) (hf : m.Live f) (room : Dbm.Room m.dim K)
    (small : Diagram.Small K (m.unfold f)) (le : zone.dim ≤ m.dim)
    (zeros : ∀ i < zone.dim, zone.entry i i = .zero)
    (within : ∀ i < zone.dim, ∀ j < zone.dim, (zone.entry i j).Within K) :
    ∃ b, m.contains f zone = .ok b ∧ (b = true ↔ m.Covered f zone) := by
  have closes := Dbm.close_spec (room.mono le) zeros within
  unfold contains
  rw [checkDim_eq_ok_iff.2 le]
  dsimp only
  revert closes
  rcases zone.close with ⟨closed, _ | _⟩ <;> intro closes
  · exact ⟨true, rfl, iff_of_true rfl fun v hv => absurd hv (closes v)⟩
  · obtain ⟨dim, settled, holds⟩ := closes
    have inside : closed.dim ≤ m.dim := dim.le.trans le
    have met : m.MetIn K (closed.extended m.dim m.dim_pos) f :=
      ⟨hf, ⟨settled.extended inside, room, Nat.le_max_left m.clocks 1, hm.few⟩, small⟩
    obtain ⟨b, memo, run, -, answer⟩ :=
      containsWithin_decides hm met (fits_depth m f) (known_empty m)
    refine ⟨b, ?_, answer.trans ?_⟩
    · change (m.containsWithin m.depth f (closed.extended m.dim m.dim_pos)).run ∅ >>= _ = _
      rw [run]
      rfl
    · simp only [Covered, Dbm.holds_extended_iff inside, holds]

end ZoneDiagram.Manager

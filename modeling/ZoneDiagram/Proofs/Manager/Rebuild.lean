import ZoneDiagram.Proofs.Manager.Frontier
import ZoneDiagram.Proofs.Manager.Paths

/-!
# Every visit is found again

The layers of a diagram that is met in a context with room are complete, and each of their visits
can be reduced. So a rebuild, the deepest layer first, finds everything that it looks up.

**Theorem (`MetIn.reduceByLayers_runs`).** In a context with room, a reduction by layers gives the
reduction of the diagram, as the recursion does (`MetIn.reduce_runs`), unless every slot of the
store is taken.
-/

namespace ZoneDiagram.Manager

open CutList

variable {m m' : Manager} {f : Handle} {v w : Visit} {K : Int}

/-! ## Decisions met in a context with room -/

/-- A decision that is met in a context with room for its constants. -/
structure MetVisit (m : Manager) (K : Int) (v : Visit) : Prop
    extends MetIn m K v.context v.diagram where
  inner : v.diagram.isTerminal = false

theorem MetVisit.successor (hv : m.MetVisit K v) (hm : m.Nodes) (hw : w ∈ m.successors v) :
    m.MetVisit K w := by
  obtain ⟨pair, hpair, -⟩ :=
    ClockPair.ofLevel_eq_ok hm.few (hm.canonical_nodeOf hv.live hv.inner).2
  obtain ⟨c, hc, inner, admitted, rfl⟩ := (mem_successors_iff hpair).1 hw
  exact ⟨(hv.child hm hv.inner hpair hc admitted).regular hm,
    (Handle.isTerminal_regular _).trans inner⟩

/-- A property of decisions that are met in contexts with room is carried if edges keep it. -/
theorem carried_of_met {P : Visit → Prop} (met : ∀ {v}, P v → m.MetVisit K v)
    (next : ∀ {v w}, P v → w ∈ m.successors v → P w) : m.Carried P where
  live hv := (met hv).live
  inner hv := (met hv).inner
  next hv hw := next hv hw
  inhabited hv hw := (met (next hv hw)).ready.settled.isEmpty_eq_false

theorem carried_metVisit (hm : m.Nodes) (K : Int) : m.Carried (m.MetVisit K) :=
  carried_of_met (fun hv => hv) fun hv hw => hv.successor hm hw

/-! ## Rebuilding -/

theorem Extends.successors (h : m.Extends m') (hv : m.Live v.diagram) :
    m'.successors v = m.successors v := by
  rw [Manager.successors, Manager.successors, h.levelOf hv, h.edgesOf hv]

/-- A decision that is met in a context with room is rebuilt, if all that its edges lead to is
known. -/
theorem MetVisit.rebuild_passes {memo : ReduceMemo} {known : List Visit} (hv : m.MetVisit K v)
    (hm : m.Sound) (grows : m.Grows m') (hs : Knows known memo m')
    (next : ∀ w ∈ m.successors v, w ∈ known) :
    Passes (Knows (v :: known)) m' memo (rebuild (m.levelOf v.diagram) v) (fun _ _ => True)
      fun _ => False := by
  have met : m.MetAt (m.levelOf v.diagram) v := ⟨hv.live, hv.inner, rfl⟩
  obtain ⟨t, ht, -⟩ := Diagram.reduces_of_ready hv.ready (hm.canonical_unfold hv.live) hv.small
  refine (Manager.rebuild_passes grows.sound hs (met.mono grows.keeps)).imp (fun _ _ _ h => h) ?_
  rw [grows.keeps.successors hv.live, grows.keeps.unfold hm.toNodes hv.live]
  rintro _ (⟨-, w, hw, unknown⟩ | stuck)
  · exact unknown (next w hw)
  · exact stuck.none ⟨t, ht⟩

theorem threads_passes (m : Manager) : Threads fun known x known' =>
    ∀ m' memo, m.Grows m' → Knows known memo m' →
      Passes (Knows known') m' memo x (fun _ _ => True) fun _ => False where
  skip _ _ grows hs := .pure grows.sound hs trivial
  seq hx hy m' memo grows hs := (hx m' memo grows hs).bind fun _ m₁ memo₁ grows' hs' _ =>
    hy m₁ memo₁ (grows.trans grows') hs'
  forget hx sub m' memo grows hs :=
    (hx m' memo grows hs).weaken fun _ _ h => h.of_subset sub

/-- Complete layers are rebuilt. -/
theorem rebuildLayers_passes_of_complete {layers : List Layer} (hm : m.Sound)
    (complete : Complete m (m.MetVisit K) layers) :
    Passes (Knows (visitsOf layers)) m ∅ (rebuildLayers layers) (fun _ _ => True)
      fun _ => False :=
  complete.rebuildLayers (carried_metVisit hm.toNodes K) hm.toNodes (threads_passes m)
    (fun _ hv _ next _ _ grows hs => hv.rebuild_passes hm grows hs next) m ∅ (.refl hm)
    (knows_empty m)

/-- **A diagram that is met in a context with room is reduced**, unless every slot of the store is
taken. -/
theorem MetIn.reduce_runs (hf : m.MetIn K m.openContext f) (hm : m.Sound) :
    Runs m (reduce f) (fun r m' => m'.ReducedIn m.openContext f r) fun _ => False := by
  obtain ⟨t, ht, -⟩ := Diagram.reduces_of_ready hf.ready (hm.canonical_unfold hf.live) hf.small
  exact (Manager.reduce_runs hm hf.live).imp (fun _ _ _ h => h) fun _ stuck => stuck.none ⟨t, ht⟩

/-- **A diagram that is met in a context with room is reduced by layers**, unless every slot of the
store is taken. -/
theorem MetIn.reduceByLayers_runs (hf : m.MetIn K m.openContext f) (hm : m.Sound) :
    Runs m (reduceByLayers f) (fun r m' => m'.ReducedIn m.openContext f r) fun _ => False := by
  unfold reduceByLayers
  split
  next terminal => exact .pure hm (reducedIn_of_isTerminal hf.live terminal)
  next inner =>
    have root : m.MetVisit K ⟨f.regular, m.openContext⟩ :=
      ⟨hf.regular hm.toNodes, (Handle.isTerminal_regular f).trans (Bool.eq_false_iff.2 inner)⟩
    obtain ⟨layers, run, complete, found⟩ :=
      exists_layers (carried_metVisit hm.toNodes K) hm.toNodes hf.live root
    refine .query_bind run (.get_bind ?_)
    refine Runs.bind (Passes.bind (rebuildLayers_passes_of_complete hm complete)
      fun _ m₁ memo₁ grows hs₁ _ =>
        (rebuiltChild_passes grows.sound hs₁ (grows.keeps.live hf.live)).imp (fun _ _ _ h => h)
          fun _ h => h.2.2 found) fun r m₁ grows ⟨_, reduced⟩ => ?_
    exact .pure grows.sound reduced

end ZoneDiagram.Manager

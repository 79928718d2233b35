import ZoneDiagram.Manager.Layers
import ZoneDiagram.Proofs.Wider.Reduce

/-!
# The same layers among more clocks

A reduction by layers collects visits level by level, and rebuilds them from the deepest level up.
Among more clocks it collects the wider visits, in the same order on the same levels, because an
edge is followed in a context if it is in the wider one. So the layers correspond visit by visit,
and they are rebuilt to the same handles (`wider_reduceByLayers`).
-/

namespace ZoneDiagram.Manager

variable {c n : Nat} {m : Manager} {level depth depth' : Nat} {f : Handle} {ctx ctx' : Dbm}
  {v v' : Visit} {fr fr' : Frontier}

/-! ## Collecting -/

/-- Visits to the same diagrams one by one, in contexts of which the second widens the first. -/
abbrev SameVisits (c n : Nat) : List Visit → List Visit → Prop := List.Forall₂ (VisitWidens c n)

/-- Visits correspond, pending ones level by level, and they are pending on levels of pairs. -/
structure SameFrontier (c n : Nat) (fr fr' : Frontier) : Prop where
  seen : SameMembers (VisitWidens c n) fr.seen fr'.seen
  pending : ∀ level : Nat, Option.Rel (fun vs vs' => SameVisits c n vs.toList vs'.toList)
    fr.pending[level]? fr'.pending[level]?
  levels : ∀ level ∈ fr.pending, LevelIn c level

/-- Layers on the same level with corresponding visits. -/
structure SameLayer (c n : Nat) (layer layer' : Layer) : Prop where
  level : layer.level = layer'.level
  levelIn : LevelIn c layer.level
  visits : SameVisits c n layer.visits layer'.visits

theorem SameFrontier.visits (h : SameFrontier c n fr fr') (level : Nat) :
    SameVisits c n (fr.pending.getD level #[]).toList (fr'.pending.getD level #[]).toList := by
  rw [Std.TreeMap.getD_eq_getD_getElem?, Std.TreeMap.getD_eq_getD_getElem?]
  have same := h.pending level
  generalize fr.pending[level]? = vs, fr'.pending[level]? = vs' at same
  cases same with
  | none => exact .nil
  | some same => exact same

theorem SameFrontier.add (h : SameFrontier c n fr fr') (hl : LevelIn c level)
    (hv : VisitWidens c n v v') : SameFrontier c n (fr.add level v) (fr'.add level v') := by
  unfold Frontier.add
  rw [h.seen v v' hv]
  split
  · exact h
  · refine ⟨h.seen.insert biUnique_visitWidens hv, fun l => ?_, fun l hl' => ?_⟩
    · rw [Std.TreeMap.getElem?_insert, Std.TreeMap.getElem?_insert]
      split
      · refine .some ?_
        rw [Array.toList_push, Array.toList_push]
        exact List.rel_append (h.visits level) (.cons hv .nil)
      · exact h.pending l
    · rcases Std.TreeMap.mem_insert.1 hl' with here | old
      · exact Std.LawfulEqOrd.eq_of_compare here ▸ hl
      · exact h.levels l old

theorem SameFrontier.erase (h : SameFrontier c n fr fr') (level : Nat) :
    SameFrontier c n { fr with pending := fr.pending.erase level }
      { fr' with pending := fr'.pending.erase level } := by
  refine ⟨h.seen, fun l => ?_, fun l hl => h.levels l (Std.TreeMap.mem_erase.1 hl).2⟩
  rw [Std.TreeMap.getElem?_erase, Std.TreeMap.getElem?_erase]
  split
  · exact .none
  · exact h.pending l

theorem SameFrontier.minKey?_eq (h : SameFrontier c n fr fr') :
    fr'.pending.minKey? = fr.pending.minKey? := by
  have mem (level : Nat) : level ∈ fr'.pending ↔ level ∈ fr.pending := by
    rw [← Std.TreeMap.isSome_getElem?_iff_mem, ← Std.TreeMap.isSome_getElem?_iff_mem]
    have same := h.pending level
    generalize fr.pending[level]? = vs, fr'.pending[level]? = vs' at same
    cases same <;> simp
  refine Option.ext fun level => ?_
  simp only [Std.TreeMap.minKey?_eq_some_iff_mem_and_forall, mem]

theorem results_expand (hm : Leveled c m) (hc : c ≤ maxClocks)
    (h : SameFrontier c n fr fr') (hv : VisitWidens c n v v') :
    results.Rel (m.expand fr v) ((m.withClocks n).expand fr' v') (SameFrontier c n) := by
  obtain ⟨f, ctx⟩ := v
  obtain ⟨_, ctx'⟩ := v'
  obtain ⟨rfl, w⟩ := hv
  refine results.bind (results_same fun pair => hm.pair hc) ?_
  rintro pair _ ⟨rfl, inside⟩
  refine results.bind (results_same fun _ _ => trivial) ?_
  rintro edges _ ⟨rfl, -⟩
  refine results.foldlM (w.feasible inside _ none edges) (fun fr fr' p p' h same => ?_) h
  obtain ⟨-, item, w⟩ := same
  refine results.bind (fun _ => w.inhabited?) fun sub sub' w' => ?_
  rw [← item]
  refine results.bind (results_same fun level => hm.level_of_ok) ?_
  rintro level _ ⟨rfl, hl⟩
  exact results.pure (h.add hl (visitWidens _ w'))

theorem results_layersFrom {layers layers' : List Layer} (hm : Leveled c m)
    (hc : c ≤ maxClocks) (le : depth ≤ depth') (h : SameFrontier c n fr fr')
    (hl : List.Forall₂ (SameLayer c n) layers layers') :
    results.Rel (m.layersFrom depth fr layers) ((m.withClocks n).layersFrom depth' fr' layers')
      (List.Forall₂ (SameLayer c n)) := by
  induction depth generalizing depth' fr fr' layers layers' with
  | zero => exact fun _ eq => by cases eq
  | succ depth ih =>
    obtain ⟨depth', rfl⟩ : ∃ k, depth' = k + 1 := ⟨depth' - 1, by omega⟩
    rw [layersFrom, layersFrom, h.minKey?_eq]
    cases first : fr.pending.minKey? with
    | none => exact results.pure hl
    | some level =>
      have mem := (Std.TreeMap.minKey?_eq_some_iff_mem_and_forall.1 first).1
      refine results.bind (results.foldlM (h.visits level)
        (fun fr fr' v v' h hv => results_expand hm hc h hv) (h.erase level)) fun fr₁ fr₁' h₁ => ?_
      exact ih (Nat.le_of_succ_le_succ le) h₁
        (.cons ⟨rfl, h.levels level mem, h.visits level⟩ hl)

theorem wider_rebuiltChild (f : Handle) (w : Dbm.Widens c n ctx ctx') :
    (wider c n).Pass (SameEntries (VisitWidens c n)) (rebuiltChild f ctx) (rebuiltChild f ctx')
      Eq := by
  unfold rebuiltChild
  by_cases terminal : f.isTerminal = true
  · rw [if_pos terminal, if_pos terminal]
    exact (wider c n).pass_pure rfl
  · rw [if_neg terminal, if_neg terminal]
    refine (wider c n).pass_get_bind fun memo memo' same => ?_
    rw [same _ _ (visitWidens f.regular w)]
    cases memo[(⟨f.regular, ctx⟩ : Visit)]? with
    | some r => exact (wider c n).pass_pure rfl
    | none => exact wider_pass_throw

theorem wider_rebuild (hc : c ≤ maxClocks) (hl : LevelIn c level) (hv : VisitWidens c n v v') :
    (wider c n).Pass (SameEntries (VisitWidens c n)) (rebuild level v) (rebuild level v')
      fun _ _ => True := by
  obtain ⟨f, ctx⟩ := v
  obtain ⟨_, ctx'⟩ := v'
  obtain ⟨rfl, w⟩ := hv
  refine (wider c n).pass_bind ((wider c n).pass_lift
    (wider_query fun m _ => results_same (P := fun _ => True) fun _ _ => trivial)) ?_
  rintro edges _ ⟨rfl, -⟩
  refine (wider c n).pass_bind (wider_reducePieces hc hl w edges
    fun a sub sub' w' => wider_rebuiltChild a w') ?_
  rintro r _ rfl
  exact (wider c n).pass_modify fun s t same =>
    same.insert biUnique_visitWidens (visitWidens _ w) r

theorem wider_rebuildLayers {layers layers' : List Layer} (hc : c ≤ maxClocks)
    (h : List.Forall₂ (SameLayer c n) layers layers') :
    (wider c n).Pass (SameEntries (VisitWidens c n)) (rebuildLayers layers)
      (rebuildLayers layers') fun _ _ => True :=
  (wider c n).pass_forM h fun layer layer' same => by
    rw [← same.level]
    exact (wider c n).pass_forM same.visits fun v v' hv => wider_rebuild hc same.levelIn hv

/-- **A diagram reduces to the same handle among more clocks, layer by layer.** -/
theorem wider_reduceByLayers (hc : c ≤ maxClocks) (pos : 0 < c) (le : c ≤ n) (f : Handle) :
    (wider c n).Rel (reduceByLayers f) (reduceByLayers f) Eq := by
  unfold reduceByLayers
  by_cases terminal : f.isTerminal = true
  · rw [if_pos terminal]
    exact (wider c n).pure rfl
  rw [if_neg terminal]
  refine (wider c n).bind (R := List.Forall₂ (SameLayer c n)) (wider_query fun m hm => ?_) ?_
  · refine results.bind (results_same fun level => hm.level_of_ok) ?_
    rintro level _ ⟨rfl, hl⟩
    refine results_layersFrom hm hc (hm.depth_le le) (.add ?_ hl
      (visitWidens _ (hm.widens_openContext pos le))) .nil
    exact ⟨sameMembers_empty, fun _ => .none, fun _ h => by simp at h⟩
  · intro layers layers' same
    refine wider_get_bind fun m hm => ?_
    have pass := (wider c n).pass_bind (wider_rebuildLayers hc same)
      fun _ _ _ => wider_rebuiltChild f (hm.widens_openContext pos le)
    exact (wider c n).bind (pass ∅ ∅ sameEntries_empty) fun _ _ same => (wider c n).pure same.1

end ZoneDiagram.Manager

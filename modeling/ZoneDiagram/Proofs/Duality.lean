import ZoneDiagram.Proofs.Combination
import ZoneDiagram.Proofs.Diagram.Duality
import ZoneDiagram.Proofs.Manager.Recall

/-!
# Complement and the order of operands

**Theorem (`Reachable.complement_commutes`).** In every reachable manager, complement commutes with
both ways of reducing. For both ways of combining it turns disjunctions into conjunctions (De Morgan)
and comes out of an exclusive or, and operands can be exchanged. The results are the same handles.

The two sides of such a law are different computations: operands are ordered by their signed slots,
so that complements can exchange them, other shortcuts apply, and results are remembered under other
keys. But what each side gives is described by a relation that has the law (`DescribedBy`), and
a result that is live is found again. So once one side has given its result, the other side gives the
image of it, without a new node (`Recovers`).

A reduction by layers works on the root node without its sign, so that the complement is reduced by
the same steps (`reduceByLayers_neg`).
-/

namespace ZoneDiagram.Manager

variable {m : Manager} {x y : ManagerM Handle} {φ : Handle → Handle} {op op' : Connective}
  {a b : Bool} {f f' g g' r : Handle} {ctx : Dbm} {F : Error → Prop}

/-! ## Results of two computations -/

/-- Where the first computation has given a result, the second one gives the image of the result,
and changes nothing but the cache. -/
def Recovers (m : Manager) (φ : Handle → Handle) (x y : ManagerM Handle) : Prop :=
  ∀ r n, x m = .ok r n → ∃ c, y n = .ok (φ r) { n with cache := c }

/-- Each computation recovers what the other one gave. -/
structure Mirrors (m : Manager) (φ : Handle → Handle) (x y : ManagerM Handle) : Prop where
  forth : m.Recovers φ x y
  back : m.Recovers φ y x

/-- Where both computations give results, one after the other, the second result is the image of the
first one. -/
def Follows (m : Manager) (φ : Handle → Handle) (x y : ManagerM Handle) : Prop :=
  ∀ r n s n', x m = .ok r n → y n = .ok s n' → s = φ r

theorem Runs.recovers {P : Handle → Manager → Prop} (hx : Runs m x P F)
    (hy : ∀ r n, m.Grows n → P r n → n.Recalls y (φ r)) : m.Recovers φ x y := by
  intro r n run
  obtain ⟨grows, result⟩ := hx.result run
  obtain ⟨c, -, again⟩ := hy r n grows result n.cache grows.sound.trusts_cache
  exact ⟨c, again⟩

theorem Runs.follows {P Q : Handle → Manager → Prop} (hx : Runs m x P F)
    (hy : ∀ n, m.Grows n → Runs n y Q F)
    (image : ∀ {r s n n'}, m.Grows n → n.Grows n' → P r n → Q s n' → s = φ r) :
    m.Follows φ x y := by
  intro r n s n' run run'
  obtain ⟨grows, first⟩ := hx.result run
  obtain ⟨grows', second⟩ := (hy n grows).result run'
  exact image grows grows' first second

/-! ## Complements of live diagrams -/

theorem Live.negIf (hf : m.Live f) (b : Bool) : m.Live (f.negIf b) := by
  cases b
  · exact hf
  · exact hf.neg

theorem Nodes.eval_negIf (hm : m.Nodes) (hf : m.Live f) (b : Bool) (d : Assignment) :
    m.eval d (f.negIf b) = (m.eval d f ^^ b) := by
  cases b
  · exact (Bool.xor_false _).symm
  · exact (hm.eval_neg hf d).trans (Bool.xor_true _).symm

theorem Nodes.unfold_negIf (hm : m.Nodes) (hf : m.Live f) (b : Bool) :
    m.unfold (f.negIf b) = (m.unfold f).negIf b := by
  cases b
  · rfl
  · exact hm.unfold_neg hf

theorem Combines.turn (h : m.Combines op f g r) (hm : m.Nodes) (hf : m.Live f) (hg : m.Live g)
    (turns : op.Turns op' a b) : m.Combines op' (f.negIf a) (g.negIf b) (-r) where
  live := h.live.neg
  eval d := by
    rw [hm.eval_neg h.live, h.eval, hm.eval_negIf hf, hm.eval_negIf hg, turns.onBool_eq]

theorem CombinedIn.turn (h : m.CombinedIn op ctx f g r) (hm : m.Nodes) (hf : m.Live f)
    (hg : m.Live g) (turns : op.Turns op' a b) :
    m.CombinedIn op' ctx (f.negIf a) (g.negIf b) (-r) where
  live := h.live.neg
  unfold := by
    rw [hm.unfold_neg h.live, hm.unfold_negIf hf, hm.unfold_negIf hg]
    exact h.unfold.turn turns hm.few (hm.canonical_unfold hf) (hm.canonical_unfold hg)

theorem ReducedIn.neg (h : m.ReducedIn ctx f r) (hm : m.Nodes) (hf : m.Live f) :
    m.ReducedIn ctx (-f) (-r) where
  live := h.live.neg
  unfold := by
    rw [hm.unfold_neg hf, hm.unfold_neg h.live]
    exact Diagram.reduce_neg h.unfold

/-! ## Reducing -/

theorem Sound.recovers_reduce_neg (hm : m.Sound) (hf : m.Live f) :
    m.Recovers Neg.neg (reduce f) (reduce (-f)) := by
  refine (reduce_runs hm hf).recovers fun r n grows reduced => ?_
  have live := grows.keeps.live hf
  rw [← grows.keeps.openContext] at reduced
  exact reduce_recalls grows.sound live.neg (reduced.neg grows.sound.toNodes live)

theorem Sound.follows_reduceByLayers_neg (hm : m.Sound) (hf : m.Live f) :
    m.Follows Neg.neg (reduceByLayers f) (reduceByLayers (-f)) := by
  have later (n) (grows : m.Grows n) : Runs n (reduceByLayers (-f))
      (fun s n' => n'.ReducedIn m.openContext (-f) s) (·.isMaking = false) :=
    grows.keeps.openContext ▸ reduceByLayers_runs grows.sound (grows.keeps.live hf.neg)
  refine (reduceByLayers_runs hm hf).follows later fun grows grows' first second => ?_
  have live := grows.keeps.live hf
  have there := (grows'.keeps.reducedIn grows.sound.toNodes live first).neg grows'.sound.toNodes
    (grows'.keeps.live live)
  exact second.unique there grows'.sound.toNodes

/-! ## Combining -/

/-- What is given for live diagrams is described by a relation, and it is given again where it is
live. The relation has the laws of the connectives. -/
structure DescribedBy (combine : Connective → Handle → Handle → ManagerM Handle)
    (R : Manager → Connective → Handle → Handle → Handle → Prop) : Prop where
  runs : ∀ {m op f g}, m.Sound → m.Live f → m.Live g →
    Runs m (combine op f g) (fun r n => R n op f g r) fun _ => True
  recalls : ∀ {m op f g r}, m.Sound → m.Live f → m.Live g → R m op f g r →
    m.Recalls (combine op f g) r
  comm : ∀ {m op f g r}, R m op f g r → R m op g f r
  turn : ∀ {m op op' a b f g r}, m.Nodes → m.Live f → m.Live g → op.Turns op' a b →
    R m op f g r → R m op' (f.negIf a) (g.negIf b) (-r)

theorem describedBy_apply : DescribedBy apply Combines where
  runs hm hf hg :=
    (apply_runs hm hf hg).imp (fun _ _ _ applied => ⟨applied.live, applied.eval⟩) fun _ h => h
  recalls := apply_recalls
  comm := Combines.comm
  turn hm hf hg turns h := h.turn hm hf hg turns

theorem describedBy_applyReduce : DescribedBy applyReduce fun m op => m.CombinedIn op m.openContext
    where
  runs hm hf hg := (applyReduce_runs hm hf hg).imp
    (fun _ _ grows combined => grows.keeps.openContext ▸ combined) fun _ _ => trivial
  recalls := applyReduce_recalls
  comm := CombinedIn.comm
  turn hm hf hg turns h := h.turn hm hf hg turns

/-- The laws of a way of combining diagrams. -/
structure Commutes (m : Manager) (combine : Connective → Handle → Handle → ManagerM Handle)
    (f g : Handle) : Prop where
  or_eq : m.Mirrors Neg.neg (combine .and (-f) (-g)) (combine .or f g)
  xor_eq : m.Mirrors Neg.neg (combine .xor f g) (combine .xor (-f) g)
  comm : ∀ op, m.Mirrors id (combine op f g) (combine op g f)

namespace DescribedBy

variable {combine : Connective → Handle → Handle → ManagerM Handle}
  {R : Manager → Connective → Handle → Handle → Handle → Prop}

theorem recovers (h : DescribedBy combine R) (hm : m.Sound) (hf : m.Live f) (hg : m.Live g)
    (hf' : m.Live f') (hg' : m.Live g')
    (law : ∀ {n r}, m.Grows n → R n op f g r → R n op' f' g' (φ r)) :
    m.Recovers φ (combine op f g) (combine op' f' g') :=
  (h.runs hm hf hg).recovers fun _ _ grows described =>
    h.recalls grows.sound (grows.keeps.live hf') (grows.keeps.live hg') (law grows described)

theorem recovers_turn (h : DescribedBy combine R) (hm : m.Sound) (hf : m.Live f) (hg : m.Live g)
    (turns : op.Turns op' a b) :
    m.Recovers Neg.neg (combine op f g) (combine op' (f.negIf a) (g.negIf b)) :=
  h.recovers hm hf hg (hf.negIf a) (hg.negIf b) fun grows described =>
    h.turn grows.sound.toNodes (grows.keeps.live hf) (grows.keeps.live hg) turns described

/-- The other connective on the complements mirrors the connective. -/
theorem mirrors_turn (h : DescribedBy combine R) (hm : m.Sound) (hf : m.Live f) (hg : m.Live g)
    (turns : op.Turns op' a b) :
    m.Mirrors Neg.neg (combine op f g) (combine op' (f.negIf a) (g.negIf b)) := by
  refine ⟨h.recovers_turn hm hf hg turns, ?_⟩
  have back := h.recovers_turn hm (hf.negIf a) (hg.negIf b) turns.symm
  rwa [Handle.negIf_negIf, Handle.negIf_negIf] at back

theorem recovers_comm (h : DescribedBy combine R) (hm : m.Sound) (hf : m.Live f) (hg : m.Live g) :
    m.Recovers id (combine op f g) (combine op g f) :=
  h.recovers hm hf hg hg hf fun _ described => h.comm described

theorem commutes (h : DescribedBy combine R) (hm : m.Sound) (hf : m.Live f) (hg : m.Live g) :
    m.Commutes combine f g where
  or_eq := by
    have law := h.mirrors_turn hm hf.neg hg.neg .and
    rwa [Handle.negIf, Handle.negIf, Handle.neg_neg, Handle.neg_neg] at law
  xor_eq := h.mirrors_turn hm hf hg .xor
  comm _ := ⟨h.recovers_comm hm hf hg, h.recovers_comm hm hg hf⟩

end DescribedBy

/-! ## Reachable managers -/

/-- **Complement and the order of operands commute with everything**, by identity of handles. -/
theorem Reachable.complement_commutes (h : m.Reachable) (hf : m.Live f) (hg : m.Live g) :
    m.Mirrors Neg.neg (reduce f) (reduce (-f)) ∧
      ((∀ r n, reduceByLayers f m = .ok r n → reduceByLayers (-f) m = .ok (-r) n) ∧
        m.Follows Neg.neg (reduceByLayers f) (reduceByLayers (-f)) ∧
        m.Follows Neg.neg (reduceByLayers (-f)) (reduceByLayers f)) ∧
      m.Commutes apply f g ∧ m.Commutes applyReduce f g := by
  have hm := h.sound
  -- The way back is the law for the complement, since complements cancel.
  have reduceBack := hm.recovers_reduce_neg hf.neg
  have layersBack := hm.follows_reduceByLayers_neg hf.neg
  rw [Handle.neg_neg] at reduceBack layersBack
  refine ⟨⟨hm.recovers_reduce_neg hf, reduceBack⟩, ⟨fun r n run => ?_, ?_, layersBack⟩, ?_, ?_⟩
  · exact reduceByLayers_neg (hm.slot_ne_zero hf) run
  · exact hm.follows_reduceByLayers_neg hf
  · exact describedBy_apply.commutes hm hf hg
  · exact describedBy_applyReduce.commutes hm hf hg

/-- What is outside of two bands, and then their union. -/
theorem complement_commutes_bands : ∃ n c, apply .and ⟨2⟩ ⟨3⟩ bands = .ok ⟨5⟩ n ∧
    apply .or ⟨-2⟩ ⟨-3⟩ n = .ok ⟨-5⟩ { n with cache := c } := by
  have live : bands.Live ⟨-2⟩ ∧ bands.Live ⟨-3⟩ := by decide +kernel
  obtain ⟨-, -, combine, -⟩ := reachable_bands.complement_commutes live.1 live.2
  obtain ⟨n, run⟩ := exists_of_result? (x := apply .and ⟨2⟩ ⟨3⟩) (m := bands) (a := ⟨5⟩) (by decide +kernel)
  obtain ⟨c, again⟩ := combine.or_eq.forth ⟨5⟩ n run
  exact ⟨n, c, run, again⟩

end ZoneDiagram.Manager

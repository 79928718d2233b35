import ZoneDiagram.Proofs.HistoryIndependence

/-!
# The same request again

A manager answers a request, other requests add nodes to it, and then it gets the same request. If
it answers again, then the answer is the same, handle by handle (`Repeats`): the second result has
the tree of the first, which is still there, and a tree has one handle.

An extraction is a chain of such requests. It starts with a search, which reads nothing that was
added, so it finds the same zone (`Grows.chooseZone_eq`).
-/

namespace ZoneDiagram.Manager

variable {m m' : Manager} {α β : Type} {x : ManagerM α} {op : Connective} {f g : Handle}
  {ctx : Dbm} {depth : Nat}

/-! ## Reading a grown manager -/

theorem Grows.branches_eq (h : m.Grows m') (hm : m.Nodes) (hf : m.Live f) :
    m'.branches f ctx = m.branches f ctx := by
  have node : m'.node f = m.node f := by
    rw [hm.node_eq_ok hf, h.sound.node_eq_ok (h.keeps.live hf), h.keeps.keeps.nodeOf hf]
  unfold branches pair level edges
  rw [node]

theorem Nodes.live_of_branches {ps : CutList (Handle × Dbm)} {p : Piece (Handle × Dbm)}
    (hm : m.Nodes) (hf : m.Live f) (read : m.branches f ctx = .ok ps) (hp : p ∈ ps) :
    m.Live p.item.1 := by
  obtain ⟨pair, -, read⟩ := Except.bind_eq_ok_iff.1 read
  obtain ⟨edges, hedges, read⟩ := Except.bind_eq_ok_iff.1 read
  cases (hm.edges_eq_ok hf).symm.trans hedges
  cases read
  obtain ⟨c, hc, -, -, rfl⟩ := Dbm.mem_feasible_iff.1 hp
  exact (hm.child hf (CutList.mem_of_mem_intervals hc)).1

theorem firstBranch_congr
    {search search' : Handle → Dbm → StateT DeadEnds (Except Error) (Option Dbm)}
    {ps : CutList (Handle × Dbm)}
    (h : ∀ p ∈ ps, ∀ sub, search p.item.1 sub = search' p.item.1 sub) :
    firstBranch search ps = firstBranch search' ps := by
  induction ps with
  | nil => rfl
  | cons p ps ih =>
    unfold firstBranch
    refine bind_congr fun sub => ?_
    rw [h p List.mem_cons_self, ih fun q hq => h q (List.mem_cons_of_mem p hq)]

theorem lift_bind_congr {σ : Type} {r : Except Error α} {k k' : α → StateT σ (Except Error) β}
    (h : ∀ a, r = .ok a → k a = k' a) : liftM r >>= k = liftM r >>= k' := by
  cases r with
  | error e => rfl
  | ok a => exact h a rfl

theorem Grows.findZone_eq (h : m.Grows m') (hm : m.Nodes) (hf : m.Live f) :
    m'.findZone depth f ctx = m.findZone depth f ctx := by
  induction depth generalizing f ctx with
  | zero => rfl
  | succ depth ih =>
    rw [findZone, findZone, h.branches_eq hm hf]
    refine ite_congr rfl (fun _ => rfl) fun _ => ite_congr rfl (fun _ => rfl) fun _ => ?_
    refine bind_congr fun dead => ite_congr rfl (fun _ => rfl) fun _ => ?_
    refine lift_bind_congr fun ps read => ?_
    have below : firstBranch (m'.findZone depth) ps = firstBranch (m.findZone depth) ps :=
      firstBranch_congr fun p hp _ => ih (hm.live_of_branches hf read hp)
    rw [below]

/-- A search finds the same zone when nodes were added. -/
theorem Grows.chooseZone_eq (h : m.Grows m') (hm : m.Nodes) (hf : m.Live f) :
    m'.chooseZone f = m.chooseZone f := by
  have depth : m'.depth = m.depth := congrArg (ClockPair.count · + 1) h.keeps.clocks
  unfold chooseZone
  rw [depth, h.keeps.openContext, h.findZone_eq hm hf]

/-! ## Repeated computations -/

/-- Asked again, when it has more nodes, the manager gives the same result. -/
def Repeats (m : Manager) (x : ManagerM α) : Prop :=
  ∀ ⦃a m₁ m' b m₂⦄, x m = .ok a m₁ → m.Grows m₁ → m₁.Grows m' → x m' = .ok b m₂ → b = a

theorem repeats_pure (a : α) : m.Repeats (pure a) := by
  intro _ _ _ _ _ first _ _ second
  cases first
  cases second
  rfl

theorem Repeats.bind {f : α → ManagerM β} {Q : α → Manager → Prop} {F : Error → Prop}
    (hx : m.Repeats x) (hm : m.Sound) (runs : ∀ m', m.Grows m' → Runs m' x Q F)
    (rest : ∀ a m₁, m.Grows m₁ → Q a m₁ →
      m₁.Repeats (f a) ∧ Runs m₁ (f a) (fun _ _ => True) fun _ => True) :
    m.Repeats (x >>= f) := by
  intro b m₂ m' b' m₂' first grows later second
  obtain ⟨a, m₁, first, next⟩ := exists_of_bind_eq_ok first
  obtain ⟨a', m₁', second, next'⟩ := exists_of_bind_eq_ok second
  obtain ⟨grows₁, result⟩ := (runs m (.refl hm)).result first
  obtain ⟨grows₁', -⟩ := (runs m' (grows.trans later)).result second
  obtain ⟨repeats, restRuns⟩ := rest a m₁ grows₁ result
  have grows₂ := (restRuns.result next).1
  cases hx first grows₁ (grows₂.trans later) second
  exact repeats next grows₂ (later.trans grows₁') next'

theorem repeats_query_bind {read : Manager → Except Error α} {f : α → ManagerM β}
    (same : ∀ m', m.Grows m' → read m' = read m) (rest : ∀ a, m.Repeats (f a)) :
    m.Repeats (query read >>= f) := by
  intro b m₁ m' b' m₂ first grows later second
  have same := same m' (grows.trans later)
  cases eq : read m with
  | error e => cases (bind_of_error (query_of_error eq)).symm.trans first
  | ok a =>
    rw [bind_of_ok (query_of_ok eq)] at first
    rw [bind_of_ok (query_of_ok (same.trans eq))] at second
    exact rest a first grows later second

/-- What is determined alike in all grown managers repeats, if only one tree is possible. -/
theorem repeats_of_determines {x : ManagerM Handle} {R : Diagram → Prop} (hm : m.Sound)
    (determines : ∀ m', m.Grows m' → m'.Determines x R)
    (unique : ∀ {t t'}, R t → R t' → t = t') : m.Repeats x := by
  intro a m₁ m' b m₂ first grows later second
  obtain ⟨-, live, tree⟩ := (determines m (.refl hm)).result first
  obtain ⟨grows', live', tree'⟩ := (determines m' (grows.trans later)).result second
  have more : m₁.Grows m₂ := later.trans grows'
  refine more.sound.toNodes.eq_of_unfold_eq live' (more.keeps.live live) ?_
  rw [more.keeps.unfold grows.sound.toNodes live]
  exact unique tree' tree

/-! ## Operations -/

section Operations

variable (hm : m.Sound) (hf : m.Live f)

include hm

theorem Sound.repeats_ofDbm (zone : Dbm) : m.Repeats (ofDbm zone) := by
  refine repeats_of_determines hm (R := ZoneTree m.dim zone) (fun m' h => ?_)
    fun first second => first.tree.trans second.tree.symm
  rw [← h.keeps.dim]
  exact h.sound.determines_ofDbm zone

include hf

theorem Sound.repeats_reduce : m.Repeats (reduce f) := by
  refine repeats_of_determines hm (R := fun t => (m.unfold f).reduce m.openContext = .ok t)
    (fun m' h => ?_) fun first second => Except.ok.inj (first.symm.trans second)
  rw [← h.keeps.unfold hm.toNodes hf, ← h.keeps.openContext]
  exact h.sound.determines_reduce (h.keeps.live hf)

theorem Sound.repeats_reduceByLayers : m.Repeats (reduceByLayers f) := by
  intro a m₁ m' b m₂ first grows later second
  have grown := grows.trans later
  obtain ⟨-, reduced⟩ := (reduceByLayers_runs hm hf).result first
  obtain ⟨grows', reduced'⟩ :=
    (reduceByLayers_runs grown.sound (grown.keeps.live hf)).result second
  rw [grown.keeps.openContext] at reduced'
  refine reduced'.unique ?_ grows'.sound.toNodes
  exact (later.trans grows').keeps.reducedIn grows.sound.toNodes (grows.keeps.live hf) reduced

theorem Sound.repeats_apply (op : Connective) (hg : m.Live g) : m.Repeats (apply op f g) := by
  refine repeats_of_determines hm
    (R := CombinedTree m.clocks op (m.unfold f) (m.unfold g)) (fun m' h => ?_) CombinedTree.unique
  rw [← h.keeps.unfold hm.toNodes hf, ← h.keeps.unfold hm.toNodes hg, ← h.keeps.clocks]
  exact h.sound.determines_apply op (h.keeps.live hf) (h.keeps.live hg)

theorem Sound.repeats_applyReduce (op : Connective) (hg : m.Live g) :
    m.Repeats (applyReduce op f g) := by
  refine repeats_of_determines hm
    (R := Diagram.ApplyReduces op (m.unfold f) (m.unfold g) m.openContext) (fun m' h => ?_)
    Diagram.ApplyReduces.unique
  rw [← h.keeps.unfold hm.toNodes hf, ← h.keeps.unfold hm.toNodes hg, ← h.keeps.openContext]
  exact h.sound.determines_applyReduce op (h.keeps.live hf) (h.keeps.live hg)

/-- **The same zone is extracted again**, and the same rest is left. -/
theorem Sound.repeats_extract (dim : Nat) : m.Repeats (extract f dim) := by
  refine repeats_query_bind (fun m' h => ?_) fun ⟨dim, dim_pos⟩ =>
    repeats_query_bind (fun m' h => h.chooseZone_eq hm.toNodes hf) fun full => ?_
  · unfold checkExtractDim
    simp only [h.keeps.dim, h.keeps.clocks]
  refine (hm.repeats_ofDbm full).bind hm (fun m' h => ofDbm_runs h.sound full)
    fun zone m₁ grows live => ?_
  have made (m' : Manager) (h : m₁.Grows m') :
      m'.Runs (applyReduce .and f (-zone)) (fun _ _ => True) fun _ => True :=
    (applyReduce_makes h.sound (h.keeps.live (grows.keeps.live hf)) (h.keeps.live live.neg)).imp
      (fun _ _ _ _ => trivial) fun _ _ => trivial
  refine ⟨?_, (made m₁ (.refl grows.sound)).bind fun _ _ grows' _ => .pure grows'.sound trivial⟩
  have again := grows.sound.repeats_applyReduce (grows.keeps.live hf) .and live.neg
  exact again.bind grows.sound made fun _ _ grows' _ =>
    ⟨repeats_pure _, .pure grows'.sound trivial⟩

end Operations

end ZoneDiagram.Manager

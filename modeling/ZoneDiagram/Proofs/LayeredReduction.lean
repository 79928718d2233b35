import ZoneDiagram.Proofs.Reduction

/-!
# Both ways of reducing give the same diagram

A diagram can be reduced by a recursion into its children, or layer by layer: everything that the
recursion meets is collected from the root down and rebuilt from the deepest level up.

**Theorem (`Reachable.reduceByLayers_eq_reduce`).** For diagrams with constants up to
`constantLimit`, both ways give the same handle, in either order, and a reduction by layers finds
everything that it looks up.

The collection follows every edge that a context admits, and the recursion only the first run of
them. The context is convex, so these are the same edges. What is rebuilt is the reduction of the
tree in its context, as for the recursion (`MetIn.reduceByLayers_runs`, `MetIn.reduce_runs`), and
live handles with the same tree are the same handle.
-/

namespace ZoneDiagram.Manager

variable {m m' : Manager} {f r s : Handle} {ctx : Dbm} {K : Int}

/-! ## Evaluating a pass from the root -/

/-- The first pending level is read off the list of all of them. The kernel does not unfold the
recursion of `minKey?`, but that of `keys`. -/
def layersByKeys (m : Manager) : Nat → Frontier → List Layer → Except Error (List Layer)
  | 0, _, _ => throw .tooDeep
  | depth + 1, fr, layers =>
    match fr.pending.keys.head? with
    | none => return layers
    | some level => do
      let visits := (fr.pending.getD level #[]).toList
      let fr ← visits.foldlM m.expand { fr with pending := fr.pending.erase level }
      m.layersByKeys depth fr (⟨level, visits⟩ :: layers)

theorem layersFrom_eq_layersByKeys (depth : Nat) (fr : Frontier) (layers : List Layer) :
    m.layersFrom depth fr layers = m.layersByKeys depth fr layers := by
  induction depth generalizing fr layers with
  | zero => rfl
  | succ depth ih =>
    rw [layersFrom, layersByKeys, Std.TreeMap.minKey?_eq_head?_keys]
    cases fr.pending.keys.head? with
    | none => rfl
    | some level => simp only [ih]

/-! ## Both ways -/

/-- Two computations that reduce a diagram give the same handle. -/
theorem reduced_twice_runs {x y : ManagerM Handle} (hf : m.Live f)
    (hx : Runs m x (fun r m' => m'.ReducedIn ctx f r) fun _ => False)
    (hy : ∀ m', m.Grows m' → Runs m' y (fun r m' => m'.ReducedIn ctx f r) fun _ => False) :
    Runs m (do return (← x, ← y)) (fun p _ => p.1 = p.2) fun _ => False :=
  hx.both hy
    (fun grows grows' first =>
      grows'.keeps.reducedIn grows.sound.toNodes (grows.keeps.live hf) first)
    fun hm first second => first.unique second hm.toNodes

/-- **Both ways of reducing give the same handle**, in either order. They fail only if every slot of
the store is taken, so nothing is looked up that was not rebuilt before. -/
theorem Reachable.reduceByLayers_eq_reduce (h : m.Reachable) (hf : m.Live f)
    (bounds : m.BoundsWithin m.constantLimit f) :
    failure? (reduceByLayers f) m ≠ some .missingState ∧
      m.Gives (do return (← reduceByLayers f, ← reduce f)) (fun p _ => p.1 = p.2) ∧
      m.Gives (do return (← reduce f, ← reduceByLayers f)) (fun p _ => p.1 = p.2) := by
  have hm := h.sound
  have met : m.MetIn m.constantLimit m.openContext f :=
    ⟨hf, hm.ready_openContext m.room_constantLimit, hm.small_unfold hf bounds⟩
  have later {m'} (grows : m.Grows m') : m'.MetIn m.constantLimit m'.openContext f := by
    rw [grows.keeps.openContext]
    exact grows.keeps.metIn hm.toNodes met
  have layers (m') (grows : m.Grows m') : Runs m' (reduceByLayers f)
      (fun r m'' => m''.ReducedIn m.openContext f r) fun _ => False :=
    grows.keeps.openContext ▸ (later grows).reduceByLayers_runs grows.sound
  have recursion (m') (grows : m.Grows m') : Runs m' (reduce f)
      (fun r m'' => m''.ReducedIn m.openContext f r) fun _ => False :=
    grows.keeps.openContext ▸ (later grows).reduce_runs grows.sound
  refine ⟨fun missing => ?_, ?_, ?_⟩
  · obtain ⟨capacity, full⟩ := ((layers m (.refl hm)).gives hm).eq_storeFull missing
    cases full
  · exact (reduced_twice_runs hf (layers m (.refl hm)) recursion).gives hm
  · exact (reduced_twice_runs hf (recursion m (.refl hm)) layers).gives hm

/-- What evaluating both orders on the box shows. -/
theorem evaluate_layers :
    (result? (do return (← reduceByLayers ⟨-7⟩, ← reduce ⟨-7⟩)) box).isSome = true ∧
      (result? (do return (← reduce ⟨-7⟩, ← reduceByLayers ⟨-7⟩)) box).isSome = true := by
  simp only [reduceByLayers, layersFrom_eq_layersByKeys]
  decide +kernel

theorem reduceByLayers_eq_reduce_box :
    failure? (reduceByLayers ⟨-7⟩) box ≠ some .missingState ∧
      (∃ p m', (do return (← reduceByLayers ⟨-7⟩, ← reduce ⟨-7⟩) : ManagerM (Handle × Handle)) box =
        .ok p m' ∧ p.1 = p.2) ∧
      ∃ p m', (do return (← reduce ⟨-7⟩, ← reduceByLayers ⟨-7⟩) : ManagerM (Handle × Handle)) box =
        .ok p m' ∧ p.1 = p.2 := by
  obtain ⟨found, layersFirst, layersLast⟩ :=
    reachable_box.reduceByLayers_eq_reduce live_box small_box
  obtain ⟨first, last⟩ := evaluate_layers
  exact ⟨found, layersFirst.of_isSome first, layersLast.of_isSome last⟩

end ZoneDiagram.Manager

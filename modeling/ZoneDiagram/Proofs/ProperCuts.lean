import ZoneDiagram.Proofs.CacheTransparency
import ZoneDiagram.Proofs.Collection
import ZoneDiagram.Proofs.Construction

/-!
# Cuts increase wherever a node is made

Before a node is made, its cuts are checked: there are some, and they increase up to the end of the
line (`mkNode`).

**Theorem (`Reachable.properCuts`).** No request about live diagrams fails this check, if the
constants from which it makes cuts fit the encoding (`Request.Fits`).

Diagrams are combined on the cuts that they have, and a reduction drops some of the cuts of its
operands. So there the constants do not matter, nor whether sums of them are clamped in a context.
Only the cuts of a matrix are new. They increase if the matrix is tight
(`pathThrough_runs_of_tight`), and its closure is tight while no sum is clamped (`fits_ofDbm`). So
is every zone that is extracted from a diagram with constants up to `constantLimit`
(`fits_extract`). Sums that are clamped can leave a matrix whose cuts do not increase, although it
has valuations (`ofDbm_spiral`).
-/

namespace ZoneDiagram.Manager

variable {m : Manager} {α β : Type} {x : ManagerM α} {f : Handle} {dim : Nat} {zone : Dbm}

/-! ## The check of the cuts -/

/-- If the computation fails, then not because of the cuts of a node. -/
def ProperCuts (m : Manager) (x : ManagerM α) : Prop :=
  failure? x m ≠ some .noEdges ∧ failure? x m ≠ some .improperCuts

theorem properCuts_of_ok {a : α} {m' : Manager} (run : x m = .ok a m') : m.ProperCuts x := by
  rw [ProperCuts, failure?, run]
  exact ⟨(Option.some_ne_none _).symm, (Option.some_ne_none _).symm⟩

theorem properCuts_of_error {e : Error} {m' : Manager} (run : x m = .error e m')
    (h : e.isMaking = false ∨ e.isStoreFull = true) : m.ProperCuts x := by
  have other : e ≠ .noEdges ∧ e ≠ .improperCuts := by
    refine ⟨?_, ?_⟩ <;> rintro rfl <;> rcases h with h | h <;> cases h
  rw [ProperCuts, failure?, run]
  exact other.imp (mt Option.some.inj) (mt Option.some.inj)

theorem Runs.properCuts {Q : α → Manager → Prop} (h : Runs m x Q (·.isMaking = false)) :
    m.ProperCuts x := by
  unfold Runs at h
  split at h
  next run => exact properCuts_of_ok run
  next e m' run =>
    rcases h.2 with exhausted | plain
    · exact properCuts_of_error run (.inr (by rw [exhausted.1]; rfl))
    · exact properCuts_of_error run (.inl plain)

theorem failure?_map (g : α → β) (x : ManagerM α) (m : Manager) :
    failure? (g <$> x) m = failure? x m := by
  change failure? (EStateM.map g x) m = failure? x m
  unfold failure? EStateM.map
  cases x m <;> rfl

theorem ProperCuts.map (h : m.ProperCuts x) (g : α → β) : m.ProperCuts (g <$> x) := by
  rw [ProperCuts, failure?_map]
  exact h

/-- What is made from constants that fit passes the check. -/
theorem Makes.properCuts {x : ManagerM Handle} {fits : Prop} (h : Makes m x fits) (hf : fits) :
    m.ProperCuts x :=
  (h.imp (fun _ _ _ live => live) fun _ making => making hf : Runs m x _ _).properCuts

/-! ## Constants that fit -/

namespace Request

/-- The constants from which the request makes new cuts fit the encoding: a bound that is given
encoded, the closure of a matrix, or the zone that is extracted. Other requests check their
constants, or make no new cuts. -/
def Fits (m : Manager) : Request → Prop
  | act (.constraint _ _ bound) => bound.Within Bound.maxValue
  | act (.ofDbm zone) => zone.close.2 = true → zone.close.1.Tight
  | act (.extract f _) => ∀ full, m.chooseZone f = .ok full → full.Tight
  | _ => True

end Request

/-- **The path through the cuts of a tight matrix is made**, unless the store is full. -/
theorem pathThrough_runs_of_tight (hm : m.Sound) (tight : zone.Tight) (le : zone.dim ≤ m.dim) :
    Runs m (pathThrough (cuts zone)) (fun r m' => m'.Live r ∧
      m'.unfold r = Diagram.pathThrough (cuts zone)) fun _ => False :=
  pathThrough_runs_of_consistent hm le fun _ => consistent_of_tight tight

/-- The closure of a matrix with constants up to `constantLimit` is tight. -/
theorem fits_ofDbm (le : zone.dim ≤ m.dim) (small : zone.Small m.constantLimit) :
    (Request.act (.ofDbm zone)).Fits m := by
  intro inhabited
  have room := m.room_constantLimit.mono le
  obtain ⟨settled, -⟩ := small.settled_close room inhabited
  exact settled.tight (by rwa [Dbm.dim_close])

/-- A zone of a diagram with constants up to `constantLimit` is tight. -/
theorem Reachable.fits_extract (h : m.Reachable) (hf : m.Live f)
    (bounds : m.BoundsWithin m.constantLimit f) : (Request.act (.extract f dim)).Fits m := by
  intro full chosen
  have hm := h.sound
  have met : m.MetIn m.constantLimit m.openContext f :=
    ⟨hf, hm.ready_openContext m.room_constantLimit, hm.small_unfold hf bounds⟩
  rcases chooseZone_cases hm.toNodes met with ⟨none, -⟩ | ⟨full', chosen', zone⟩
  · cases none.symm.trans chosen
  · cases chosen'.symm.trans chosen
    exact zone.ready.settled.tight zone.ready.room

/-! ## Every request -/

theorem properCuts_addClocks (m : Manager) (n : Nat) : m.ProperCuts (addClocks n) := by
  obtain ⟨-, run⟩ | ⟨e, raised, run⟩ := addClocks_cases n m
  · exact properCuts_of_ok run
  · exact properCuts_of_error run (.inl (m.raises_clocksPlus n e raised))

theorem properCuts_query {read : Manager → Except Error α}
    (h : Raises (·.isMaking = false) (read m)) : m.ProperCuts (query read) := by
  cases eq : read m with
  | ok a => exact properCuts_of_ok (query_of_ok eq)
  | error e => exact properCuts_of_error (query_of_error eq) (.inl (h e eq))

/-- **Cuts increase wherever a node is made**, if the constants fit the encoding. -/
theorem Reachable.properCuts (h : m.Reachable) (r : Request) (live : ∀ f ∈ r.operands, m.Live f)
    (fits : r.Fits m) : m.ProperCuts r.perform := by
  have hm := h.sound
  cases r with
  | contains f zone => exact (properCuts_query (m.raises_contains f zone)).map _
  | act action =>
    cases action with
    | addClocks n => exact (m.properCuts_addClocks n).map _
    | interval i j low up => exact ((interval_runs hm i j low up).properCuts trivial).map _
    | lowerBound i j low => exact ((lowerBound_runs hm i j low).properCuts trivial).map _
    | upperBound i j up => exact ((upperBound_runs hm i j up).properCuts trivial).map _
    | constraint i j bound => exact ((constraint_runs hm i j bound).properCuts fits).map _
    | ofDbm zone => exact ((ofDbm_runs hm zone).properCuts fits).map _
    | apply op f g =>
      obtain ⟨hf, hg⟩ := both_live live
      exact (Runs.properCuts (apply_runs hm hf hg)).map _
    | reduce f =>
      exact ((reduce_runs hm (live f List.mem_cons_self)).imp (fun _ _ _ h => h)
        fun _ stuck => stuck.isMaking).properCuts.map _
    | reduceByLayers f =>
      exact (reduceByLayers_runs hm (live f List.mem_cons_self)).properCuts.map _
    | applyReduce op f g =>
      obtain ⟨hf, hg⟩ := both_live live
      exact ((applyReduce_makes hm hf hg).properCuts trivial).map _
    | isEmpty f => exact (isEmpty_runs hm (live f List.mem_cons_self)).properCuts.map _
    | isEquivalent f g =>
      obtain ⟨hf, hg⟩ := both_live live
      exact (isEquivalent_runs hm hf hg).properCuts.map _
    | extract f dim =>
      exact ((extract_runs hm (live f List.mem_cons_self) dim).imp (fun _ _ _ h => h)
        fun _ making => making fits).properCuts.map _
    | removeNegative f =>
      exact ((removeNegative_runs hm (live f List.mem_cons_self)).properCuts trivial).map _
    | collectGarbage roots =>
      obtain ⟨dropped, m', run, -⟩ := hm.collectGarbage_eq_ok live
      exact (properCuts_of_ok run).map _

/-! ## Sums that are clamped -/

/-- A manager with three clocks. -/
def threeClocks : Manager := (Action.addClocks 3).next smallManager

/-- The sum of the last two bounds is clamped to `x₁ - x₀ ≤ M`, which leaves no room above
`M < x₁ - x₀`. The matrix has valuations, and all its constants fit the encoding. -/
theorem ofDbm_spiral : threeClocks.Reachable ∧ Dbm.spiral.dim ≤ threeClocks.dim ∧
    Dbm.spiral.Small Bound.maxValue ∧ (∃ v, Dbm.spiral.Holds v) ∧
    failure? (ofDbm Dbm.spiral) threeClocks = some .improperCuts := by
  have inhabited : Dbm.spiral.Holds fun i =>
      if i = 0 then 0 else if i = 1 then Bound.maxValue + 1 else Bound.maxValue - 1 := by
    change ∀ i < 3, ∀ j < 3, _
    decide +kernel
  exact ⟨(Reachable.create create_smallManager).step (.addClocks 3) nofun, by decide +kernel,
    Dbm.small_ofFn _ (by decide) (by decide), ⟨_, inhabited⟩, by decide +kernel⟩

end ZoneDiagram.Manager

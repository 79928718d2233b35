import ZoneDiagram.Proofs.Containment
import ZoneDiagram.Proofs.RoundTrip

/-!
# Intersections of matrices and of diagrams

**Theorem (`Reachable.extract_intersect`).** The conjunction of the diagrams of two matrices with
constants up to `constantLimit` gives back the closed intersection of the matrices, before and after
a reduction, and nothing remains. It contains the intersection. If the matrices have no valuation in
common, then the conjunction reduces to the constant without valuations, and nothing is extracted.

The path of the conjunction keeps cuts of both matrices that are not tight any more. But it is still
the only path to the full federation (`Diagram.pathCount_and_le`), so the search finds all
valuations at once (`MetIn.chooseZone_of_holds`), in a matrix that is settled like the closed
intersection. Two such matrices with the same valuations are equal (`Dbm.Settled.eq_of_holds_iff`).
-/

namespace ZoneDiagram.Manager

variable {m m' : Manager} {f g : Handle} {a b zone closed : Dbm} {K L : Int}

/-! ## Diagrams of zones -/

/-- The federation is a zone, and its diagram has small constants and one path at most. -/
structure IsZone (m : Manager) (L : Int) (f : Handle) (zone : Dbm) : Prop where
  live : m.Live f
  small : Diagram.Small L (m.unfold f)
  one : (m.unfold f).pathCount ≤ 1
  holds : ∀ v, m.Holds f v ↔ zone.Holds v

theorem IsZone.grow (h : m.IsZone L f zone) (hm : m.Sound) (grows : m.Grows m') :
    m'.IsZone L f zone := by
  have tree : m'.unfold f = m.unfold f := grows.keeps.unfold hm.toNodes h.live
  refine ⟨grows.keeps.live h.live, tree ▸ h.small, tree ▸ h.one, fun v => ?_⟩
  rw [Holds, (hm.preserves grows).eval f h.live]
  exact h.holds v

theorem IsZone.congr (h : m.IsZone L f zone) (same : ∀ v, closed.Holds v ↔ zone.Holds v) :
    m.IsZone L f closed := ⟨h.live, h.small, h.one, fun v => (h.holds v).trans (same v).symm⟩

/-- The matrix has no valuations and the diagram of none, or the diagram is the path through the
cuts of a settled matrix with its valuations. -/
def TreeOf (m : Manager) (K : Int) (f : Handle) (zone : Dbm) : Prop :=
  (f = .zero ∧ ∀ v, ¬zone.Holds v) ∨ ∃ closed : Dbm, closed.dim = zone.dim ∧ closed.Settled K ∧
    (∀ v, closed.Holds v ↔ zone.Holds v) ∧ m.unfold f = Diagram.pathThrough (cuts closed)

/-- A matrix with small constants, closed or not, is closed and has the diagram of its cuts. -/
theorem ofDbm_treeOf_runs (hm : m.Sound) (room : Dbm.Room m.dim K) (le : zone.dim ≤ m.dim)
    (small : zone.Small K) :
    Runs m (ofDbm zone) (fun f m' => m'.Live f ∧ m'.TreeOf K f zone) fun _ => False := by
  have closes := Dbm.close_spec (room.mono le) small.zeros small.within
  rcases close : zone.close with ⟨closed, _ | _⟩ <;> rw [close] at closes
  · exact .of_ok (ofDbm_eq_zero close le) (.refl hm) ⟨hm.live_zero, .inl ⟨rfl, closes⟩⟩
  · obtain ⟨dim, settled, holds⟩ := closes
    exact (ofDbm_runs_of_close_eq hm close settled (room.mono (dim.trans_le le)) le).imp
      (fun f m' _ ⟨live, tree⟩ => ⟨live, .inr ⟨closed, dim, settled, holds, tree⟩⟩) fun _ h => h

/-- The entries of a settled matrix are sums of small constants. -/
theorem within_sums {i j : Nat} (settled : closed.Settled K) (room : Dbm.Room m.dim K)
    (le : closed.dim ≤ m.dim) (hi : i < closed.dim) (hj : j < closed.dim) :
    (closed.entry i j).Within (m.dim * K) := by
  have few : (closed.dim : Int) * K ≤ m.dim * K :=
    mul_le_mul_of_nonneg_right (Int.ofNat_le.2 le) room.nonneg
  exact (settled.within room.nonneg hi hj).mono (by linarith [room.nonneg])

/-- The diagram of a matrix with small constants is that of a zone. -/
theorem ofDbm_isZone_runs (hm : m.Sound) (wide : Dbm.Room m.dim (m.dim * K))
    (room : Dbm.Room m.dim K) (le : zone.dim ≤ m.dim) (small : zone.Small K) :
    Runs m (ofDbm zone) (fun f m' => m'.IsZone (m.dim * K) f zone) fun _ => False := by
  refine (ofDbm_treeOf_runs hm room le small).imp (fun f m' grows ⟨live, tree⟩ => ?_) fun _ h => h
  have few := hm.toNodes.dim_le
  rcases tree with ⟨rfl, empty⟩ | ⟨closed, dim, settled, holds, tree⟩
  · refine ⟨live, ?_, ?_, fun v => iff_of_false (m'.not_holds_zero v) (empty v)⟩
    · rw [unfold_zero]
      exact .leaf false
    · rw [unfold_zero]
      exact Nat.zero_le 1
  · have inside : closed.dim ≤ m.dim := dim.trans_le le
    have within (i : Nat) (hi : i < closed.dim) (j : Nat) (hj : j < closed.dim) :=
      within_sums settled room inside hi hj
    refine ⟨live, ?_, ?_, fun v => ?_⟩
    · rw [tree]
      exact Diagram.small_pathThrough fun c hc => small_of_mem_cuts within hc
    · rw [tree]
      exact Diagram.pathCount_pathThrough_le (cuts closed)
    · rw [← holds v, grows.sound.toNodes.holds_iff live, tree]
      exact Diagram.eval_cuts_iff settled (room.mono inside) (wide.mono inside) within
        (inside.trans few) v

/-- The conjunction of two zones is their intersection. -/
theorem IsZone.apply_runs (hm : m.Sound) (hf : m.IsZone L f a) (hg : m.IsZone L g b)
    (both : ∀ v, zone.Holds v ↔ a.Holds v ∧ b.Holds v) :
    Runs m (apply .and f g) (fun u m' => m'.IsZone L u zone) fun _ => False := by
  refine (Manager.apply_runs hm hf.live hg.live).imp (fun u m' grows applied => ?_) fun _ h => h
  have hm' := grows.sound.toNodes
  have hf' := hf.grow hm grows
  have hg' := hg.grow hm grows
  refine ⟨applied.live, applied.small hf'.small hg'.small, ?_, fun v => ?_⟩
  · have le := Diagram.pathCount_and_le hm'.few (hm'.canonical_unfold hf'.live)
      (hm'.canonical_unfold hg'.live) (hm'.canonical_unfold applied.live) fun d => by
        rw [← hm'.eval_eq applied.live, ← hm'.eval_eq hf'.live, ← hm'.eval_eq hg'.live]
        exact applied.eval d
    exact le.trans (Nat.mul_le_mul hf'.one hg'.one)
  · rw [both v, ← hf'.holds v, ← hg'.holds v, Holds, applied.eval]
    exact Bool.and_eq_true_iff

/-- The reduction of a zone is the zone, and the constant if there is no valuation. -/
theorem IsZone.reduce_runs (hm : m.Sound) (h : m.IsZone L f zone) (room : Dbm.Room m.dim L) :
    Runs m (reduce f) (fun r m' => m'.IsZone L r zone ∧ ((∀ v, ¬zone.Holds v) → r = .zero))
      fun _ => False := by
  refine ((reduce_irredundant_runs hm h.live room h.small).and (Manager.reduce_runs hm h.live)).imp
    (fun r m' grows ⟨⟨irredundant, truth⟩, reduced⟩ => ?_) fun _ h => h
  have tree : (m.unfold f).reduce m.openContext = .ok (m'.unfold r) := by
    rw [← grows.keeps.unfold hm.toNodes h.live]
    exact reduced.unfold
  have holds (v : Valuation) : m'.Holds r v ↔ zone.Holds v := by
    rw [Holds, truth v]
    exact h.holds v
  refine ⟨⟨reduced.live, Diagram.small_of_reduce h.small tree,
    (Diagram.pathCount_le_of_reduce tree).trans h.one, holds⟩, fun empty => ?_⟩
  refine (irredundant.eq_zero_iff grows.sound.toNodes).2 fun v => ?_
  rw [← Bool.not_eq_true]
  exact fun taken => empty v ((holds v).1 taken)

/-! ## Extraction -/

/-- From a zone without valuations nothing is extracted. -/
theorem IsZone.extract_eq_error {dim : Nat} (h : m.IsZone L f zone) (hm : m.Sound)
    (room : Dbm.Room m.dim L) (pos : 0 < dim) (le : dim ≤ m.dim) (empty : ∀ v, ¬zone.Holds v) :
    extract f dim m = .error .emptyFederation m := by
  have met : m.MetIn L m.openContext f := ⟨h.live, hm.ready_openContext room, h.small⟩
  rcases chooseZone_cases hm.toNodes met with ⟨none, -⟩ | ⟨full, -, zoneOf⟩
  · exact Manager.extract_eq_error pos le none
  · obtain ⟨v, hv⟩ := zoneOf.ready.settled.exists_holds
    exact absurd ((h.holds v).1 (zoneOf.holds v hv).2) (empty v)

/-- **From a zone all of it is extracted**, with its closed matrix. -/
theorem IsZone.extract_runs (h : m.IsZone (m.dim * K) f closed) (hm : m.Sound)
    (wide : Dbm.Room m.dim (m.dim * K)) (room : Dbm.Room m.dim K) (le : closed.dim ≤ m.dim)
    (settled : closed.Settled K) :
    Runs m (extract f closed.dim) (fun ex _ => ex.dbm = closed ∧ ex.remainder = .zero)
      fun _ => False := by
  have full : (closed.extended m.dim m.dim_pos).Settled K := settled.extended le
  have met : m.MetIn (m.dim * K) m.openContext f :=
    ⟨h.live, hm.ready_openContext wide, h.small⟩
  have chosen := (met.chooseZone_of_holds hm.toNodes h.one full room rfl fun v =>
    (Dbm.holds_extended_iff le).trans (h.holds v).symm).1
  refine (extract_settled_runs hm h.live h.small wide closed.dim_pos le chosen rfl full
    room).imp (fun ex m' grows ⟨parts, dbm⟩ => ⟨dbm.trans (Dbm.projected_extended le), ?_⟩)
    fun _ h => h
  refine (parts.irredundant.eq_zero_iff grows.sound.toNodes).2 fun v => ?_
  rw [← Bool.not_eq_true]
  intro taken
  obtain ⟨inside, outside⟩ := (parts.rest v).1 taken
  refine outside ((parts.holds_zone_iff grows.sound.toNodes full room wide
    grows.keeps.dim.symm v).2 ?_)
  exact (Dbm.holds_extended_iff le).2 ((h.holds v).1 inside)

/-! ## Matrices and diagrams -/

/-- The matrix is extracted from the diagram, and nothing remains. -/
def GivesBack (m : Manager) (f : Handle) (closed : Dbm) : Prop :=
  m.Gives (extract f closed.dim) fun ex _ => ex.dbm = closed ∧ ex.remainder = .zero

/-- The diagram agrees with a closed matrix, or with one that closing found empty. -/
def AgreesWith (m : Manager) (f : Handle) : Dbm × Bool → Prop
  | (closed, true) => m.contains f closed = .ok true ∧ m.GivesBack f closed ∧
    m.Gives (reduce f) fun r m' => m'.GivesBack r closed
  | (rest, false) => extract f rest.dim m = .error .emptyFederation m ∧
    m.Gives (reduce f) fun r m' => r = .zero ∧
      extract r rest.dim m' = .error .emptyFederation m'

/-- The diagram of a zone agrees with its closed matrix. -/
theorem IsZone.agreesWith (h : m.IsZone (m.dim * K) f zone) (hm : m.Sound)
    (wide : Dbm.Room m.dim (m.dim * K)) (room : Dbm.Room m.dim K) (le : zone.dim ≤ m.dim)
    (closes : Dbm.Closes K zone zone.close) : m.AgreesWith f zone.close := by
  have dim := Dbm.dim_close zone
  revert dim closes
  rcases zone.close with ⟨closed, _ | _⟩ <;> intro closes dim
  · have le : closed.dim ≤ m.dim := dim.trans_le le
    refine ⟨h.extract_eq_error hm wide closed.dim_pos le closes,
      (h.reduce_runs hm wide).gives_of hm fun r m' grows ⟨rest, zero⟩ => ⟨zero closes, ?_⟩⟩
    have dims : m'.dim = m.dim := grows.keeps.dim
    exact rest.extract_eq_error grows.sound (dims ▸ wide) closed.dim_pos (dims ▸ le) closes
  · obtain ⟨-, settled, holds⟩ := closes
    have le : closed.dim ≤ m.dim := dim.trans_le le
    have isClosed := h.congr holds
    have within (i : Nat) (hi : i < closed.dim) (j : Nat) (hj : j < closed.dim) :=
      within_sums settled room le hi hj
    obtain ⟨covered, answer, exact⟩ :=
      contains_eq_ok hm.toNodes h.live wide h.small le settled.diagonal within
    obtain rfl : covered = true := exact.2 fun v hv => (isClosed.holds v).2 hv
    refine ⟨answer, (isClosed.extract_runs hm wide room le settled).gives hm,
      (isClosed.reduce_runs hm wide).gives_of hm fun r m' grows ⟨again, _⟩ => ?_⟩
    have dims : m'.dim = m.dim := grows.keeps.dim
    rw [← dims] at again wide room le
    exact (again.extract_runs grows.sound wide room le settled).gives grows.sound

/-- **The conjunction of two diagrams of matrices agrees with the intersection of the matrices.** -/
theorem Reachable.extract_intersect (h : m.Reachable) (dims : a.dim = b.dim) (le : b.dim ≤ m.dim)
    (ha : a.Small m.constantLimit) (hb : b.Small m.constantLimit) :
    ∃ r : Dbm × Bool, b.intersect a = .ok r ∧ r.1.dim = b.dim ∧
      m.Gives (do apply .and (← ofDbm a) (← ofDbm b)) fun f m' => m'.Live f ∧
        m'.AgreesWith f r := by
  have hm := h.sound
  have room := m.room_constantLimit
  have wide := m.room_sums
  have meet := hb.meet ha dims.symm
  have closes := Dbm.close_spec (m := b.meet a) (room.mono le) meet.zeros meet.within
  have same : b.checkSameDim a = .ok () := if_pos dims.symm
  have both (v : Valuation) : (b.meet a).Holds v ↔ a.Holds v ∧ b.Holds v := by
    rw [hb.holds_meet_iff ha dims.symm (room.le_maxValue m.dim_pos), and_comm]
  refine ⟨(b.meet a).close, by rw [Dbm.intersect, same]; rfl, Dbm.dim_close _, ?_⟩
  refine Runs.gives ?_ hm
  refine (ofDbm_isZone_runs hm wide room (dims.trans_le le) ha).bind fun f m₁ first left => ?_
  have sound₁ := first.sound
  have dim₁ : m₁.dim = m.dim := first.keeps.dim
  rw [← dim₁] at room wide le left
  refine (ofDbm_isZone_runs sound₁ wide room le hb).bind fun g m₂ second right => ?_
  refine ((left.grow sound₁ second).apply_runs second.sound right both).imp
    (fun u m₃ third zone => ⟨zone.live, ?_⟩) fun _ h => h
  have dim₃ : m₃.dim = m₁.dim := third.keeps.dim.trans second.keeps.dim
  rw [← dim₃] at room wide le zone
  exact zone.agreesWith third.sound wide room le closes

/-! ## A corner that is cut off -/

/-- The bound of `1 ≤ x₂ - x₁`. -/
def stairsBound (i j : Nat) : Bound :=
  if i = j then .zero else if i = 1 ∧ j = 2 then .weak (-1) else .infinity

/-- The zone with this bound. In the corner it leaves `x₁ - x₀ < 1` and `1 ≤ x₂ - x₀`. -/
def stairs : Dbm := .ofFn 3 corner_dim_pos stairsBound

theorem small_stairs : stairs.Small 2 where
  zeros i (hi : i < 3) := by
    rw [stairs, Dbm.entry_ofFn hi hi, stairsBound, if_pos rfl]
  within i (hi : i < 3) j (hj : j < 3) := by
    rw [stairs, Dbm.entry_ofFn hi hj]
    exact (by decide : ∀ i < 3, ∀ j < 3, (stairsBound i j).Within 2) i hi j hj

/-- What evaluating the intersection and the extraction shows. -/
theorem evaluate_stairs : (stairs.intersect corner).map Prod.snd = .ok true ∧
    (result? (do
      let f ← (do apply .and (← ofDbm corner) (← ofDbm stairs))
      extract f 3) box).isSome = true := by
  decide +kernel

/-- The cut `x₁ - x₀ < 2` of the corner is not tight any more, and the extraction finds that. -/
theorem extract_intersect_stairs : ∃ c, stairs.intersect corner = .ok (c, true) ∧
    ∃ f m', (do apply .and (← ofDbm corner) (← ofDbm stairs)) box = .ok f m' ∧ m'.Live f ∧
      m'.contains f c = .ok true ∧ (∃ ex m'', extract f 3 m' = .ok ex m'' ∧ ex.dbm = c ∧
        ex.remainder = .zero) ∧ m'.Gives (reduce f) fun r m'' => m''.GivesBack r c := by
  have limit : 2 ≤ box.constantLimit := evaluate_zones.1.2
  have small : corner.Small 2 := ⟨zeros_corner, small_corner⟩
  obtain ⟨answer, extracted⟩ := evaluate_stairs
  obtain ⟨⟨c, inhabited⟩, run, dim, gives⟩ :=
    reachable_box.extract_intersect (a := corner) (b := stairs) rfl dim_box.ge (small.mono limit)
      (small_stairs.mono limit)
  obtain rfl : inhabited = true := by
    rw [run] at answer
    injection answer
  obtain ⟨f, m', made, found⟩ := exists_of_isSome_bind extracted
  obtain ⟨live, contained, back, reduced⟩ := gives.of_ok made
  have dim : c.dim = 3 := dim
  rw [GivesBack, dim] at back
  exact ⟨c, run, f, m', made, live, contained, back.of_isSome found, reduced⟩

end ZoneDiagram.Manager

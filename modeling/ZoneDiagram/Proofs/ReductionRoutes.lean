import Mathlib.Data.List.Chain
import ZoneDiagram.Proofs.Diagram.Merging
import ZoneDiagram.Proofs.LayeredReduction
import ZoneDiagram.Proofs.Manager.Recall

/-!
# Two routes to a reduced combination

Two diagrams can be combined and then reduced, or combined and reduced in one pass. Both routes give
the same federation. The combination merges neighbours with the same child before it is reduced,
though, and the pass afterwards, so the diagrams may differ.

**Theorem (`Reachable.reduce_apply_eq_applyReduce`).** If every visit of the pass is benign, then
both routes give the same handle, whichever is taken first. A visit is benign (`Benign`) if any two
neighbouring pieces with the same combination give a constant, or are not both admitted.

By induction on the levels that are left, the combination of a visit reduces to what the pass gives
there (`reduce_of_applyReduces`): its children are the combinations of the pieces, and where the
visit is benign, they may be merged first (`Diagram.reduce_make`).

A pass makes finitely many visits, so whether all are benign can be computed (`BenignWithin`).
-/

namespace ZoneDiagram.Manager

open CutList

variable {m m' : Manager} {op : Connective} {f g r s u : Handle} {ctx : Dbm} {K : Int}
  {v w x : PairVisit} {level : Nat} {pair : ClockPair} {ps : CutList (Handle × Handle)}

/-! ## Visits -/

/-- A visit without a shortcut goes on with the pieces of its diagrams on their top level. -/
def SplitsInto (m : Manager) (op : Connective) (w : PairVisit) (level : Nat)
    (ps : CutList (Handle × Handle)) : Prop :=
  op.shortcut w.left w.right = none ∧
    m.refine (w.left.ordered w.right).1 (w.left.ordered w.right).2 = .ok (level, ps)

/-- The visits of a pass, from a first one on: after every visit, the pieces that its context
admits, each in what is left of the context. -/
inductive PassVisits (m : Manager) (op : Connective) (v : PairVisit) : PairVisit → Prop
  | first : PassVisits m op v v
  | piece {w : PairVisit} {level : Nat} {ps : CutList (Handle × Handle)} {pair : ClockPair}
      {p : Piece ((Handle × Handle) × Dbm)} (visit : PassVisits m op v w)
      (splits : m.SplitsInto op w level ps) (tests : ClockPair.ofLevel level = .ok pair)
      (run : p ∈ w.context.feasibleRun pair none ps) :
      PassVisits m op v ⟨p.item.1.1, p.item.1.2, p.item.2⟩

theorem PassVisits.trans (h : m.PassVisits op v w) (h' : m.PassVisits op w x) :
    m.PassVisits op v x := by
  induction h' with
  | first => exact h
  | piece _ splits tests run ih => exact .piece ih splits tests run

/-- Two pairs of diagrams are combined to the same handle, one after the other. -/
def CombinesBoth (m : Manager) (op : Connective) (a b : Handle × Handle) (r : Handle) : Prop :=
  result? (do return (← apply op a.1 a.2, ← apply op b.1 b.2)) m = some (r, r)

/-- Any two neighbouring pieces that are combined to the same handle give a constant, or are not
both admitted. -/
def BenignPieces (m : Manager) (op : Connective) (ctx : Dbm) (pair : ClockPair)
    (ps : CutList (Handle × Handle)) : Prop :=
  (intervals none ps).IsChain fun c d => ∀ r, m.CombinesBoth op c.2.item d.2.item r →
    r.isTerminal = true ∨
      ¬(ctx.admits pair c.1 c.2.upper = true ∧ ctx.admits pair d.1 d.2.upper = true)

/-- A visit is benign if it has a shortcut or its pieces are benign. -/
def Benign (m : Manager) (op : Connective) (w : PairVisit) : Prop :=
  ∀ level ps pair, m.SplitsInto op w level ps → ClockPair.ofLevel level = .ok pair →
    m.BenignPieces op w.context pair ps

/-- All visits of the pass that combines and reduces two diagrams are benign. -/
def AllBenign (m : Manager) (op : Connective) (f g : Handle) : Prop :=
  ∀ w, m.PassVisits op ⟨f, g, m.openContext⟩ w → m.Benign op w

theorem Combines.both {a b : Handle × Handle} (hm : m.Sound) (ha : m.Live a.1) (ha' : m.Live a.2)
    (hb : m.Live b.1) (hb' : m.Live b.2) (left : m.Combines op a.1 a.2 r)
    (right : m.Combines op b.1 b.2 r) : m.CombinesBoth op a b r := by
  have recalls : m.Recalls (do return (← apply op a.1 a.2, ← apply op b.1 b.2)) (r, r) :=
    (apply_recalls hm ha ha' left).bind ((apply_recalls hm hb hb' right).bind (recalls_pure _))
  obtain ⟨c, -, run⟩ := recalls m.cache hm.trusts_cache
  rw [CombinesBoth, result?, show m = m.withCache m.cache from rfl, run]

/-! ## The routes meet -/

/-- What the pass gives at a benign visit is what the combination reduces to, if this is so at the
visits that follow. -/
theorem Splits.reduce_of_applyReduces {t : Diagram} (hm : m.Sound) (hf : m.Live f) (hg : m.Live g)
    (splits : m.Splits f g (min (m.levelOf f) (m.levelOf g)) ps)
    (shortcut : op.shortcut f g = none) (hu : m.Combines op f g u)
    (ready : Diagram.Ready m.clocks K ctx) (fSmall : Diagram.Small K (m.unfold f))
    (gSmall : Diagram.Small K (m.unfold g))
    (benign : ∀ pair, ClockPair.ofLevel (min (m.levelOf f) (m.levelOf g)) = .ok pair →
      m.BenignPieces op ctx pair ps)
    (hchild : ∀ pair, ClockPair.ofLevel (min (m.levelOf f) (m.levelOf g)) = .ok pair →
      ∀ p ∈ ctx.feasibleRun pair none ps, ∀ s t, m.Combines op p.item.1.1 p.item.1.2 s →
        Diagram.ApplyReduces op (m.unfold p.item.1.1) (m.unfold p.item.1.2) p.item.2 t →
          (m.unfold s).reduce p.item.2 = .ok t)
    (ht : Diagram.ApplyReduces op (m.unfold f) (m.unfold g) ctx t) :
    (m.unfold u).reduce ctx = .ok t := by
  have fInner := (Connective.inner_of_shortcut_eq_none shortcut).1
  have lt := hm.toNodes.min_levelOf_lt hf fInner g
  -- Every piece has a combination that is there already.
  obtain ⟨combined, combines⟩ : ∃ combined : Handle × Handle → Handle,
      ∀ p ∈ ps, m.Combines op p.item.1 p.item.2 (combined p.item) :=
    ⟨fun c => Classical.epsilon (m.Combines op c.1 c.2), fun p hp =>
      Classical.epsilon_spec (hu.exists_piece hm.toNodes hf hg splits lt hp)⟩
  have edges : SameCuts (fun c s => m.Combines op c.1 c.2 s) ps (mapItems combined ps) :=
    (sameCuts_mapItems combined ps).imp_of_mem fun p hp s eq => eq ▸ combines p hp
  have trees : mapItems m.unfold (mapItems combined ps) =
      mapItems (fun c => m.unfold (combined c)) ps := List.map_map
  rw [splits.unfold_eq_make hm.toNodes lt edges hu, trees]
  have cuts := sameCuts_mapItems (fun c => m.unfold (combined c)) ps
  refine Diagram.reduce_make ready lt (cuts.proper splits.proper) (fun q hq => ?_)
    (fun pair hpair => ?_) ?_
  · obtain ⟨p, hp, rfl⟩ := List.mem_map.1 hq
    exact (splits.small fSmall gSmall p hp).1
  -- Neighbours with one tree have one handle, which is a constant, as the visit is benign.
  · rw [intervals_mapItems, List.isChain_map]
    refine (benign pair hpair).imp_of_mem_imp fun c d hc hd mergeable same first second => ?_
    have hc := mem_of_mem_intervals hc
    have hd := mem_of_mem_intervals hd
    have left := combines c.2 hc
    have right := combines d.2 hd
    have eq : combined c.2.item = combined d.2.item :=
      hm.toNodes.eq_of_unfold_eq left.live right.live same
    obtain ⟨cLeft, cRight⟩ := splits.live c.2 hc
    obtain ⟨dLeft, dRight⟩ := splits.live d.2 hd
    rcases mergeable _ (left.both hm cLeft cRight dLeft dRight (eq ▸ right)) with terminal | apart
    · exact ⟨_, unfold_of_isTerminal terminal⟩
    · exact absurd ⟨first, second⟩ apart
  -- The combinations of the pieces reduce to the children that the pass makes.
  · rw [Diagram.nodeReduces_mapItems_iff]
    refine ((splits.applyReduces_iff hm.toNodes hf hg shortcut).1 ht).imp_of_mem_run
      fun pair hpair q hq t ht => ?_
    obtain ⟨p, hp, item, -⟩ := Diagram.mem_edges_of_mem_run hq
    exact hchild pair hpair q hq _ t (item ▸ combines p hp) ht

/-- **At benign visits the combination reduces to what the pass gives.** -/
theorem reduce_of_applyReduces {t : Diagram} (hm : m.Sound) (hf : m.Live f) (hg : m.Live g)
    (hu : m.Combines op f g u) (ready : Diagram.Ready m.clocks K ctx)
    (fSmall : Diagram.Small K (m.unfold f)) (gSmall : Diagram.Small K (m.unfold g))
    (benign : ∀ w, m.PassVisits op ⟨f, g, ctx⟩ w → m.Benign op w)
    (ht : Diagram.ApplyReduces op (m.unfold f) (m.unfold g) ctx t) :
    (m.unfold u).reduce ctx = .ok t := by
  -- The induction is on the number of levels that are left.
  generalize left : ClockPair.count m.clocks - min (m.levelOf f) (m.levelOf g) = n
  induction n using Nat.strong_induction_on generalizing f g u ctx t with
  | _ n ih =>
    cases shortcut : op.shortcut f g with
    | some s =>
      have applied := hm.toNodes.applied_of_shortcut hf hg shortcut
      rw [hu.unique ⟨applied.live, applied.eval⟩ hm.toNodes]
      exact (hm.toNodes.applyReduces_of_shortcut hf hg shortcut).1 ht
    | none =>
      -- The pass puts the two diagrams in order first, so the step is about either order.
      have step {a b} (order : f.ordered g = (a, b)) (ha : m.Live a) (hb : m.Live b)
          (none : op.shortcut a b = none) (hu : m.Combines op a b u)
          (aSmall : Diagram.Small K (m.unfold a)) (bSmall : Diagram.Small K (m.unfold b))
          (left : ClockPair.count m.clocks - min (m.levelOf a) (m.levelOf b) = n)
          (ht : Diagram.ApplyReduces op (m.unfold a) (m.unfold b) ctx t) :
          (m.unfold u).reduce ctx = .ok t := by
        obtain ⟨aInner, bInner⟩ := Connective.inner_of_shortcut_eq_none none
        obtain ⟨ps, hps, splits⟩ := hm.toNodes.refine_eq_ok ha hb aInner bInner
        have lt := hm.toNodes.min_levelOf_lt ha aInner b
        have into : m.SplitsInto op ⟨f, g, ctx⟩ (min (m.levelOf a) (m.levelOf b)) ps :=
          ⟨shortcut, by rw [order]; exact hps⟩
        refine splits.reduce_of_applyReduces hm ha hb none hu ready aSmall bSmall
          (fun pair hpair => benign _ .first _ ps pair into hpair)
          (fun pair hpair p hp s t hs ht => ?_) ht
        have small := splits.small aSmall bSmall
        have div := ready.divides lt splits.proper (fun p hp => (small p hp).1) hpair
        obtain ⟨e, he, item, ready'⟩ := ready.of_mem_run div hp
        have next : m.PassVisits op ⟨f, g, ctx⟩ ⟨p.item.1.1, p.item.1.2, p.item.2⟩ :=
          .piece .first into hpair hp
        rw [← item] at hs ht next
        obtain ⟨eLeft, eRight⟩ := splits.live e he
        have below := splits.below e he
        exact ih _ (by omega) eLeft eRight hs ready' (small e he).2.1 (small e he).2.2
          (fun w hw => benign w (next.trans hw)) ht rfl
      rcases Handle.ordered_cases f g with order | order
      · exact step order hf hg shortcut hu fSmall gSmall left ht
      · exact step order hg hf (hm.toNodes.shortcut_comm hf hg shortcut) hu.comm gSmall fSmall
          (Nat.min_comm _ _ ▸ left) ht.comm

/-- Two diagrams that are met in a context with room are combined and reduced, unless every slot of
the store is taken. -/
theorem MetIn.applyReduce_runs (hf : m.MetIn K m.openContext f) (hg : m.MetIn K m.openContext g)
    (hm : m.Sound) :
    Runs m (applyReduce op f g) (fun r m' => m'.CombinedIn op m.openContext f g r)
      fun _ => False := by
  have exists_tree : ∃ t, Diagram.ApplyReduces op (m.unfold f) (m.unfold g) m.openContext t :=
    (Diagram.applyReduces_of_ready hm.few hf.ready (hm.canonical_unfold hf.live)
      (hm.canonical_unfold hg.live) hf.small hg.small).1
  exact (Manager.applyReduce_runs hm hf.live hg.live).imp (fun _ _ _ h => h)
    fun _ stuck => stuck.none exists_tree

/-- With all visits benign, what the pass gives is the reduction of the combination, also in later
managers. -/
theorem AllBenign.reducedIn (benign : m.AllBenign op f g) (hm : m.Sound)
    (hf : m.MetIn K m.openContext f) (hg : m.MetIn K m.openContext g) (hu : m.Combines op f g u)
    (grows : m.Grows m') (hr : m'.CombinedIn op m.openContext f g r) :
    m'.ReducedIn m.openContext u r := by
  have tree := hr.unfold
  rw [grows.keeps.unfold hm.toNodes hf.live, grows.keeps.unfold hm.toNodes hg.live] at tree
  refine ⟨hr.live, ?_⟩
  rw [grows.keeps.unfold hm.toNodes hu.live]
  exact reduce_of_applyReduces hm hf.live hg.live hu hf.ready hf.small hg.small benign tree

/-- With all visits benign, the combination is reduced to what the pass has given. -/
theorem AllBenign.reduce_runs (benign : m.AllBenign op f g) (hm : m.Sound)
    (hf : m.MetIn K m.openContext f) (hg : m.MetIn K m.openContext g) (hu : m.Combines op f g u)
    (small : Diagram.Small K (m.unfold u)) (hr : m.CombinedIn op m.openContext f g r) :
    Runs m (reduce u) (fun s _ => s = r) fun _ => False := by
  have reduced := benign.reducedIn hm hf hg hu (.refl hm) hr
  have met : m.MetIn K m.openContext u := ⟨hu.live, hf.ready, small⟩
  refine (met.reduce_runs hm).imp (fun s m' grows again => ?_) fun _ h => h
  exact again.unique (grows.keeps.reducedIn hm.toNodes hu.live reduced) grows.sound.toNodes

/-- In a manager with the combination both routes give the same handle. -/
theorem AllBenign.routes_runs (benign : m.AllBenign op f g) (hm : m.Sound)
    (hf : m.MetIn K m.openContext f) (hg : m.MetIn K m.openContext g) (hu : m.Combines op f g u)
    (small : Diagram.Small K (m.unfold u)) :
    Runs m (do return (← reduce u, ← applyReduce op f g)) (fun p _ => p.1 = p.2)
      fun _ => False := by
  have met : m.MetIn K m.openContext u := ⟨hu.live, hf.ready, small⟩
  refine reduced_twice_runs hu.live (met.reduce_runs hm) fun m' grows => ?_
  have hf' := grows.keeps.metIn hm.toNodes hf
  have hg' := grows.keeps.metIn hm.toNodes hg
  rw [← grows.keeps.openContext] at hf' hg'
  refine (hf'.applyReduce_runs hg' grows.sound).imp (fun r m'' grows' combined => ?_) fun _ h => h
  rw [grows.keeps.openContext] at combined
  exact benign.reducedIn hm hf hg hu (grows.trans grows') combined

/-- **Both routes give the same handle if all visits of the pass are benign**: when the combination
comes first, and when the pass comes first. They fail only if every slot of the store is taken. -/
theorem Reachable.reduce_apply_eq_applyReduce (h : m.Reachable) (op : Connective) (hf : m.Live f)
    (hg : m.Live g) (fBounds : m.BoundsWithin m.constantLimit f)
    (gBounds : m.BoundsWithin m.constantLimit g) :
    (m.Gives (apply op f g) fun u m' => m'.AllBenign op f g →
      m'.Gives (do return (← reduce u, ← applyReduce op f g)) fun p _ => p.1 = p.2) ∧
    m.Gives (do return (← applyReduce op f g, ← apply op f g)) fun p m' =>
      m'.AllBenign op f g → m'.Gives (reduce p.2) fun s _ => s = p.1 := by
  have hm := h.sound
  have ready := hm.ready_openContext m.room_constantLimit
  have fMet : m.MetIn m.constantLimit m.openContext f := ⟨hf, ready, hm.small_unfold hf fBounds⟩
  have gMet : m.MetIn m.constantLimit m.openContext g := ⟨hg, ready, hm.small_unfold hg gBounds⟩
  have later {m'} (grows : m.Grows m') : m'.MetIn m.constantLimit m'.openContext f ∧
      m'.MetIn m.constantLimit m'.openContext g := by
    rw [grows.keeps.openContext]
    exact ⟨grows.keeps.metIn hm.toNodes fMet, grows.keeps.metIn hm.toNodes gMet⟩
  constructor
  · refine Runs.gives_of (Q := fun u m' => m'.Applied op f g u) (apply_runs hm hf hg) hm
      fun u m' grows applied benign => ?_
    obtain ⟨hf', hg'⟩ := later grows
    exact (benign.routes_runs grows.sound hf' hg' ⟨applied.live, applied.eval⟩
      (applied.small hf'.small hg'.small)).gives grows.sound
  · refine Runs.gives ?_ hm
    refine (fMet.applyReduce_runs gMet hm).bind fun r m₁ first combined => ?_
    obtain ⟨hf₁, hg₁⟩ := later first
    refine (apply_runs first.sound hf₁.live hg₁.live).bind fun u m₂ second applied => ?_
    refine .pure second.sound fun benign => ?_
    obtain ⟨hf₂, hg₂⟩ := later (first.trans second)
    have context : m₂.openContext = m.openContext := (first.trans second).keeps.openContext
    have combined₂ : m₂.CombinedIn op m₂.openContext f g r :=
      context ▸ second.keeps.combinedIn first.sound.toNodes hf₁.live hg₁.live combined
    exact (benign.reduce_runs second.sound hf₂ hg₂ ⟨applied.live, applied.eval⟩
      (applied.small hf₂.small hg₂.small) combined₂).gives second.sound

/-! ## Checking the visits -/

/-- The tested pair and the pieces that a visit without a shortcut goes on with. -/
def splits? (m : Manager) (op : Connective) (w : PairVisit) :
    Option (ClockPair × CutList (Handle × Handle)) :=
  if (op.shortcut w.left w.right).isSome then none
  else do
    let (level, ps) ← (m.refine (w.left.ordered w.right).1 (w.left.ordered w.right).2).toOption
    return (← (ClockPair.ofLevel level).toOption, ps)

theorem SplitsInto.splits?_eq_some (splits : m.SplitsInto op w level ps)
    (tests : ClockPair.ofLevel level = .ok pair) : m.splits? op w = some (pair, ps) := by
  rw [splits?, splits.1, splits.2]
  simp [Except.toOption, tests]

/-- A visit and all that follow it are benign, and none is `depth` steps away. -/
def BenignWithin (m : Manager) (op : Connective) : Nat → PairVisit → Prop
  | 0, _ => False
  | depth + 1, w => ∀ c ∈ m.splits? op w, m.BenignPieces op w.context c.1 c.2 ∧
      ∀ p ∈ w.context.feasibleRun c.1 none c.2,
        BenignWithin m op depth ⟨p.item.1.1, p.item.1.2, p.item.2⟩

theorem BenignWithin.of_passVisits {depth : Nat} (h : m.BenignWithin op depth v)
    (visit : m.PassVisits op v w) : ∃ depth, m.BenignWithin op depth w := by
  induction visit with
  | first => exact ⟨depth, h⟩
  | piece _ splits tests run ih =>
    obtain ⟨depth, hw⟩ := ih
    cases depth with
    | zero => exact hw.elim
    | succ depth => exact ⟨depth, (hw _ (splits.splits?_eq_some tests)).2 _ run⟩

theorem BenignWithin.benign {depth : Nat} (h : m.BenignWithin op depth w) : m.Benign op w := by
  intro level ps pair splits tests
  cases depth with
  | zero => exact h.elim
  | succ depth => exact (h _ (splits.splits?_eq_some tests)).1

theorem BenignWithin.allBenign {depth : Nat}
    (h : m.BenignWithin op depth ⟨f, g, m.openContext⟩) : m.AllBenign op f g := by
  intro w visit
  obtain ⟨depth, hw⟩ := h.of_passVisits visit
  exact hw.benign

instance (a b : Handle × Handle) : Decidable (m.CombinesBoth op a b r) :=
  inferInstanceAs (Decidable (result? _ m = some (r, r)))

/-- Only the handle that two computations share can be one that both give. -/
def decideShared (o : Option (Handle × Handle)) (P : Handle → Prop) [DecidablePred P] :
    Decidable (∀ r, o = some (r, r) → P r) :=
  match o with
  | none => .isTrue nofun
  | some (a, b) =>
    if same : a = b then
      decidable_of_iff (P a) ⟨fun h r eq => by cases eq; exact h, fun h => h a (by rw [same])⟩
    else .isTrue fun r eq => absurd (by cases eq; rfl) same

instance : Decidable (m.BenignPieces op ctx pair ps) :=
  have (c d : Option Bound × Piece (Handle × Handle)) :
      Decidable (∀ r, m.CombinesBoth op c.2.item d.2.item r → r.isTerminal = true ∨
        ¬(ctx.admits pair c.1 c.2.upper = true ∧ ctx.admits pair d.1 d.2.upper = true)) :=
    decideShared _ _
  inferInstanceAs (Decidable ((intervals none ps).IsChain _))

def decideBenignWithin (m : Manager) (op : Connective) :
    (depth : Nat) → (w : PairVisit) → Decidable (m.BenignWithin op depth w)
  | 0, _ => .isFalse id
  | depth + 1, w =>
    have := decideBenignWithin m op depth
    inferInstanceAs (Decidable (∀ c ∈ m.splits? op w, m.BenignPieces op w.context c.1 c.2 ∧
      ∀ p ∈ w.context.feasibleRun c.1 none c.2,
        BenignWithin m op depth ⟨p.item.1.1, p.item.1.2, p.item.2⟩))

instance (depth : Nat) : Decidable (m.BenignWithin op depth w) := decideBenignWithin m op depth w

/-! ## A band that is turned over -/

/-- The box with one more clock, and the band `0 ≤ x₃ - x₀ < 3`, which is then turned over where
`x₂ - x₁ < 5`. -/
def twist : Manager :=
  (Action.apply .xor ⟨-4⟩ ⟨-8⟩).next <| (Action.interval 3 0 0 3).next <|
    (Action.addClocks 1).next box

/-- What evaluating both routes shows. -/
theorem evaluate_twist : (∀ f ∈ [⟨-4⟩, ⟨-8⟩], ((Action.interval 3 0 0 3).next <|
      (Action.addClocks 1).next box).Live f) ∧ (∀ f ∈ [⟨-7⟩, ⟨9⟩], twist.Live f) ∧
    (∀ slot < twist.store.slots.size, ∀ node ∈ twist.store.get? slot,
      ∀ e ∈ node.edges, e.upper.Within twist.constantLimit) ∧
    (result? (apply .xor ⟨-7⟩ ⟨9⟩) twist = some ⟨11⟩ ∧
      (after (apply .xor ⟨-7⟩ ⟨9⟩) twist).CombinesBoth .xor (.one, ⟨-8⟩) (.zero, ⟨8⟩) ⟨8⟩ ∧
      (after (apply .xor ⟨-7⟩ ⟨9⟩) twist).BenignWithin .xor 4
        ⟨⟨-7⟩, ⟨9⟩, (after (apply .xor ⟨-7⟩ ⟨9⟩) twist).openContext⟩ ∧
      (result? (do return (← reduce ⟨11⟩, ← applyReduce .xor ⟨-7⟩ ⟨9⟩))
        (after (apply .xor ⟨-7⟩ ⟨9⟩) twist)).isSome = true) := by
  decide +kernel

/-- Within the square both pieces of the turned band are combined to the band itself, but the square
does not admit the second one. So the combination merges them, and the pass takes the first one. -/
theorem reduce_apply_twist : ∃ m', apply .xor ⟨-7⟩ ⟨9⟩ twist = .ok ⟨11⟩ m' ∧
    m'.CombinesBoth .xor (.one, ⟨-8⟩) (.zero, ⟨8⟩) ⟨8⟩ ∧ m'.AllBenign .xor ⟨-7⟩ ⟨9⟩ ∧ ∃ p m'',
      (do return (← reduce ⟨11⟩, ← applyReduce .xor ⟨-7⟩ ⟨9⟩) : ManagerM (Handle × Handle)) m' =
        .ok p m'' ∧ p.1 = p.2 := by
  obtain ⟨parts, live, within, applied, both, benign, routes⟩ := evaluate_twist
  have reachable : twist.Reachable := ((reachable_box.step (.addClocks 1) nofun).step
    (.interval 3 0 0 3) nofun).step (.apply .xor ⟨-4⟩ ⟨-8⟩) parts
  have small (f : Handle) : twist.BoundsWithin twist.constantLimit f :=
    boundsWithin_of_nodes within f
  obtain ⟨meet, -⟩ := reachable.reduce_apply_eq_applyReduce .xor (live ⟨-7⟩ (by simp))
    (live ⟨9⟩ (by simp)) (small _) (small _)
  obtain ⟨m', run, same⟩ := meet.of_result? applied
  rw [after_of_ok run] at both benign routes
  exact ⟨m', run, both, benign.allBenign, (same benign.allBenign).of_isSome routes⟩

end ZoneDiagram.Manager

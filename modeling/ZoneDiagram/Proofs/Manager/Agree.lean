import ZoneDiagram.Proofs.Manager.Recall
import ZoneDiagram.Proofs.Manager.Steady

/-!
# Every operation runs alike with every cache

Two runs of an operation start from managers with the same nodes, whose caches hold right results
only. They have the same result and end with the same nodes again (`Agrees`), also if the store is
full on the way.

Where both runs find a result, or neither does, they go on alike. Where only one run finds it, the
other computes it again, and finds all nodes that it needs (`Recomputes.cached_recalls`). So what
one cache has forgotten is no reason to store a node in another place, or to miss a slot.

**Theorem (`Sound.perform_agrees`).** Every operation on live diagrams runs alike.
-/

namespace ZoneDiagram.Manager

variable {m : Manager} {α β : Type} {x : ManagerM α} {op : Connective} {f g : Handle} {depth : Nat}
  {Q : α → Manager → Prop} {F : Error → Prop}

/-! ## Agreement -/

/-- The computation runs alike with all caches that the manager may have. -/
def Agrees (m : Manager) (x : ManagerM α) : Prop :=
  ∀ c c', m.Trusts c → m.Trusts c' → Matches (x (m.withCache c)) (x (m.withCache c'))

theorem Steady.agrees (h : Steady x) : m.Agrees x := fun c c' _ _ => h (m.withCache c) c'

theorem Agrees.exists_of_ok {c : Cache OpKey Handle} {a : α} {m₁ : Manager} (h : m.Agrees x)
    (hm : m.Sound) (hc : m.Trusts c) (run : x m = .ok a m₁) :
    ∃ c', x (m.withCache c) = .ok a (m₁.withCache c') := by
  have same : Matches (x m) (x (m.withCache c)) := h m.cache c hm.trusts_cache hc
  generalize x (m.withCache c) = r at same
  rw [run] at same
  cases same with
  | ok _ _ c' => exact ⟨c', rfl⟩

/-- Computations that run alike one after the other run alike together, because the first leaves
managers that may have the caches of each other. -/
theorem Agrees.bind {f : α → ManagerM β} (hx : m.Agrees x) (hm : m.Sound)
    (runs : ∀ m', m.Grows m' → Runs m' x Q F)
    (hf : ∀ a m', m.Grows m' → Q a m' → m'.Agrees (f a)) : m.Agrees (x >>= f) := by
  intro c c' hc hc'
  refine (hx c c' hc hc').bind fun a n d run run' => ?_
  obtain ⟨left, result⟩ := (runs _ (hc.grows hm)).result run
  obtain ⟨right, -⟩ := (runs _ (hc'.grows hm)).result run'
  exact hf a n ((hc.grows hm).trans left) result n.cache d left.sound.trusts_cache
    right.sound.trusts_of_withCache

theorem Agrees.bind_steady {f : α → ManagerM β} (hx : m.Agrees x) (hf : ∀ a, Steady (f a)) :
    m.Agrees (x >>= f) := fun c c' hc hc' =>
  (hx c c' hc hc').bind fun a n d _ _ => hf a n d

theorem Agrees.map (hx : m.Agrees x) (g : α → β) : m.Agrees (g <$> x) := by
  rw [map_eq_pure_bind]
  exact hx.bind_steady fun _ => steady_pure _

theorem agrees_query_bind {read : Manager → Except Error α} {f : α → ManagerM β}
    (same : ∀ c, read (m.withCache c) = read m) (hf : ∀ a, read m = .ok a → m.Agrees (f a)) :
    m.Agrees (query read >>= f) := by
  intro c c' hc hc'
  cases eq : read m with
  | ok a =>
    rw [bind_of_ok (query_of_ok ((same c).trans eq)), bind_of_ok (query_of_ok ((same c').trans eq))]
    exact hf a eq c c' hc hc'
  | error e =>
    rw [bind_of_error (query_of_error ((same c).trans eq)),
      bind_of_error (query_of_error ((same c').trans eq))]
    exact .error e (m.withCache c) c'

theorem agrees_get_bind {f : Manager → ManagerM β} (same : ∀ c, f (m.withCache c) = f m)
    (hf : m.Agrees (f m)) : m.Agrees (get >>= f) := by
  intro c c' hc hc'
  rw [get_bind_apply, get_bind_apply, same c, same c']
  exact hf c c' hc hc'

theorem Agrees.mapM {ι : Type} {f : ι → ManagerM β} {xs : List ι} (hm : m.Sound)
    (h : ∀ i ∈ xs, ∀ m', m.Grows m' →
      m'.Agrees (f i) ∧ Runs m' (f i) (fun _ _ => True) fun _ => True) :
    m.Agrees (xs.mapM f) := by
  induction xs generalizing m with
  | nil => exact (steady_pure []).agrees
  | cons i xs ih =>
    rw [List.mapM_cons]
    have head := h i List.mem_cons_self
    refine (head m (.refl hm)).1.bind hm (fun m' grows => (head m' grows).2) fun b m' grows _ => ?_
    exact (ih grows.sound fun j hj m'' grows' =>
      h j (List.mem_cons_of_mem i hj) m'' (grows.trans grows')).bind_steady fun _ => steady_pure _

/-- **A remembered computation runs alike**, whichever run finds a result. -/
theorem Recomputes.cached_agrees {key : OpKey} {x : ManagerM Handle} {P : Handle → Prop}
    (h : m.Recomputes key x P) (hx : m.Agrees x) : m.Agrees (cached key x) := by
  intro c c' hc hc'
  cases found : (c.get key).1 with
  | some r =>
    have held := hc.right _ _ (Cache.holds_of_get_eq_some found)
    obtain ⟨d, -, run⟩ := h.cached_recalls (h.of_right r held) c' hc'
    rw [cached_of_found (m := m.withCache c) found, run]
    exact .ok r _ d
  | none =>
    cases found' : (c'.get key).1 with
    | some r =>
      have held := hc'.right _ _ (Cache.holds_of_get_eq_some found')
      obtain ⟨d, -, run⟩ := h.cached_recalls (h.of_right r held) c hc
      rw [cached_of_found (m := m.withCache c') found', run]
      exact .ok r (m.withCache d) _
    | none =>
      rw [cached_of_missed (m := m.withCache c) found,
        cached_of_missed (m := m.withCache c') found']
      exact hx.bind_steady (fun r => (steady_remember key r).bind fun _ => steady_pure r) _ _
        (hc.get key) (hc'.get key)

/-! ## Combining -/

theorem combinePieces_agrees {child : Handle → Handle → ManagerM Handle} (hm : m.Sound)
    (hf : m.Live f) (hg : m.Live g) (fInner : f.isTerminal = false) (gInner : g.isTerminal = false)
    (fFits : m.Fits (depth + 1) f) (gFits : m.Fits (depth + 1) g)
    (hchild : ∀ {m' a b}, m'.Sound → m'.Live a → m'.Live b → m'.Fits depth a → m'.Fits depth b →
      m'.Agrees (child a b) ∧ Runs m' (child a b) (fun _ _ => True) fun _ => True) :
    m.Agrees (combinePieces child f g) := by
  obtain ⟨ps, hps, splits⟩ := hm.refine_eq_ok hf hg fInner gInner
  have level_lt := hm.min_levelOf_lt hf fInner g
  have pieces : m.Agrees (ps.mapM fun p => do
      return (⟨← child p.item.1 p.item.2, p.upper⟩ : Edge)) := by
    refine .mapM hm fun p hp m' grows => ?_
    obtain ⟨⟨ha, aFits⟩, hb, bFits⟩ := splits.piece grows.keeps level_lt fFits gFits hp
    obtain ⟨agrees, runs⟩ := hchild grows.sound ha hb aFits bFits
    exact ⟨agrees.bind_steady fun _ => steady_pure _,
      runs.bind fun _ _ grows' _ => .pure grows'.sound trivial⟩
  refine agrees_query_bind (fun _ => rfl) fun a eq => ?_
  cases hps.symm.trans eq
  exact pieces.bind_steady fun edges => steady_compositional.mkNode _ edges

theorem applyWithin_agrees (hm : m.Sound) (hf : m.Live f) (hg : m.Live g) (fFits : m.Fits depth f)
    (gFits : m.Fits depth g) : m.Agrees (applyWithin op depth f g) := by
  induction depth generalizing m f g with
  | zero => exact absurd fFits.pos (Nat.lt_irrefl 0)
  | succ depth ih =>
    cases shortcut : op.shortcut f g with
    | some r =>
      rw [applyWithin_of_shortcut depth shortcut]
      exact (steady_pure r).agrees
    | none =>
      obtain ⟨fInner, gInner⟩ := Connective.inner_of_shortcut_eq_none shortcut
      have pieces {a b} (ha : m.Live a) (hb : m.Live b) (aInner : a.isTerminal = false)
          (bInner : b.isTerminal = false) (aFits : m.Fits (depth + 1) a)
          (bFits : m.Fits (depth + 1) b) :
          m.Agrees (cached (.apply op a b) (combinePieces (applyWithin op depth) a b)) :=
        (recomputes_combinePieces hm ha hb aInner bInner aFits bFits
          fun hc hd cFits dFits => applyWithin_recalls hm hc hd cFits dFits).cached_agrees
          (combinePieces_agrees hm ha hb aInner bInner aFits bFits
            fun hm' hc hd cFits dFits => ⟨ih hm' hc hd cFits dFits,
              (applyWithin_runs hm' hc hd cFits dFits).imp (fun _ _ _ _ => trivial) fun _ h => h⟩)
      rcases Handle.ordered_cases f g with order | order <;>
        rw [applyWithin_of_ordered depth shortcut order]
      · exact pieces hf hg fInner gInner fFits gFits
      · exact pieces hg hf gInner fInner gFits fFits

theorem apply_agrees (hm : m.Sound) (hf : m.Live f) (hg : m.Live g) : m.Agrees (apply op f g) :=
  agrees_get_bind (fun _ => rfl)
    (applyWithin_agrees hm hf hg (fits_depth m f) (fits_depth m g))

/-! ## Reducing -/

theorem reduce_agrees (hm : m.Sound) (hf : m.Live f) : m.Agrees (reduce f) := by
  cases inner : f.isTerminal with
  | true =>
    rw [reduce_of_isTerminal inner]
    exact (steady_pure f).agrees
  | false =>
    rw [reduce_of_inner inner]
    exact (recomputes_reducePass hm hf).cached_agrees (steady_compositional.reducePass f).agrees

theorem applyReduce_agrees (hm : m.Sound) (hf : m.Live f) (hg : m.Live g) :
    m.Agrees (applyReduce op f g) := by
  cases shortcut : op.shortcut f g with
  | some u =>
    rw [applyReduce_of_shortcut shortcut]
    exact reduce_agrees hm
      (hm.fits_of_shortcut hf hg (fits_depth m f) (fits_depth m g) shortcut).1
  | none =>
    rcases Handle.ordered_cases f g with order | order <;>
      rw [applyReduce_of_ordered shortcut order]
    · exact (recomputes_applyReducePass hm hf hg).cached_agrees
        (steady_compositional.applyReducePass op f g).agrees
    · exact (recomputes_applyReducePass hm hg hf).cached_agrees
        (steady_compositional.applyReducePass op g f).agrees

/-! ## Further operations -/

theorem nonNegative_agrees (hm : m.Sound) (clocks : List Nat) : m.Agrees (nonNegative clocks) := by
  have fold (f : Handle) (hf : m.Live f) : m.Agrees (clocks.foldlM
      (fun f i => do applyReduce .and f (← lowerBound i 0 0)) f) := by
    induction clocks generalizing m f with
    | nil => exact (steady_pure f).agrees
    | cons i clocks ih =>
      have bound (m') (grows : m.Grows m') : Makes m' (lowerBound i 0 0) True :=
        lowerBound_runs grows.sound i 0 0
      have step : m.Agrees (do applyReduce .and f (← lowerBound i 0 0)) :=
        (steady_lowerBound i 0 0).agrees.bind hm bound fun g m' grows hg =>
          applyReduce_agrees grows.sound (grows.keeps.live hf) hg
      rw [List.foldlM_cons]
      refine step.bind hm (fun m' grows => (bound m' grows).bind fun g m'' grows' hg =>
        applyReduce_makes grows'.sound (grows'.keeps.live (grows.keeps.live hf)) hg)
        fun r m' grows hr => ih grows.sound r hr
  exact fold .one hm.live_one

theorem removeNegative_agrees (hm : m.Sound) (hf : m.Live f) : m.Agrees (removeNegative f) := by
  refine agrees_get_bind (fun _ => rfl) ?_
  dsimp only
  split
  · exact (steady_pure f).agrees
  · exact (nonNegative_agrees hm _).bind hm (fun m' grows => nonNegative_runs grows.sound _)
      fun g m' grows hg => applyReduce_agrees grows.sound (grows.keeps.live hf) hg

theorem chooseZone_withCache (m : Manager) (c : Cache OpKey Handle) (f : Handle) :
    (m.withCache c).chooseZone f = m.chooseZone f := by
  unfold chooseZone
  rw [depth, findZone_withCache]
  rfl

theorem extract_agrees (hm : m.Sound) (hf : m.Live f) (dim : Nat) : m.Agrees (extract f dim) := by
  refine agrees_query_bind (fun _ => rfl) fun _ _ =>
    agrees_query_bind (fun c => chooseZone_withCache m c f) fun full _ => ?_
  refine (steady_ofDbm full).agrees.bind hm (fun m' grows => ofDbm_runs grows.sound full)
    fun zone m' grows hz => ?_
  exact (applyReduce_agrees grows.sound (grows.keeps.live hf) hz.neg).bind_steady
    fun _ => steady_pure _

end ZoneDiagram.Manager

import ZoneDiagram.Manager.Apply
import ZoneDiagram.Proofs.Cache
import ZoneDiagram.Proofs.Diagram.Apply
import ZoneDiagram.Proofs.Manager.Unfold

/-!
# Sound managers and their computations

In a sound manager the nodes are well formed and every remembered result is right: it is what its
key asks for, of diagrams that are live. Results stay right when nodes are added, because the
diagrams that they are about keep their trees.

`Runs m x Q F` says what a computation does from a manager: it keeps all nodes and ends in a sound
manager; if it succeeds, `Q` holds of its result, and if it fails, then with an error that `F`
allows, or because every slot of the store is taken.
-/

namespace ZoneDiagram.Manager

variable {m m' m'' : Manager} {α β σ : Type}

/-! ## Right results -/

/-- A diagram is the combination of two others. -/
structure Applied (m : Manager) (op : Connective) (f g r : Handle) : Prop where
  live : m.Live r
  eval : ∀ d, m.eval d r = op.onBool (m.eval d f) (m.eval d g)
  level_le : min (m.levelOf f) (m.levelOf g) ≤ m.levelOf r
  small : ∀ {K}, Diagram.Small K (m.unfold f) → Diagram.Small K (m.unfold g) →
    Diagram.Small K (m.unfold r)

/-- A diagram is the reduction of another one in a context. -/
structure ReducedIn (m : Manager) (ctx : Dbm) (f r : Handle) : Prop where
  live : m.Live r
  unfold : (m.unfold f).reduce ctx = .ok (m.unfold r)

/-- A diagram is the combination of two others, reduced in a context. -/
structure CombinedIn (m : Manager) (op : Connective) (ctx : Dbm) (f g r : Handle) : Prop where
  live : m.Live r
  unfold : Diagram.ApplyReduces op (m.unfold f) (m.unfold g) ctx (m.unfold r)

/-- The result is what the key asks for. -/
def Right (m : Manager) : OpKey → Handle → Prop
  | .apply op f g, r => m.Live f ∧ m.Live g ∧ m.Applied op f g r
  | .applyReduce op f g, r => m.Live f ∧ m.Live g ∧ m.CombinedIn op m.openContext f g r
  | .reduce f, r => m.Live f ∧ m.ReducedIn m.openContext f r

/-- The invariant of a manager. -/
structure Sound (m : Manager) : Prop extends Nodes m where
  fresh : m.cache.Fresh
  right : ∀ {key r}, m.cache.Holds key r → m.Right key r

theorem Extends.applied (h : m.Extends m') (hm : m.Nodes) (hm' : m'.Nodes) {op : Connective}
    {f g r : Handle} (hf : m.Live f) (hg : m.Live g) (hr : m.Applied op f g r) :
    m'.Applied op f g r where
  live := h.live hr.live
  eval d := by
    rw [h.eval hm hm' hr.live, h.eval hm hm' hf, h.eval hm hm' hg]
    exact hr.eval d
  level_le := by
    rw [h.levelOf hf, h.levelOf hg, h.levelOf hr.live]
    exact hr.level_le
  small := by
    rw [h.unfold hm hf, h.unfold hm hg, h.unfold hm hr.live]
    exact hr.small

theorem Extends.reducedIn (h : m.Extends m') (hm : m.Nodes) {ctx : Dbm} {f r : Handle}
    (hf : m.Live f) (hr : m.ReducedIn ctx f r) : m'.ReducedIn ctx f r where
  live := h.live hr.live
  unfold := by
    rw [h.unfold hm hf, h.unfold hm hr.live]
    exact hr.unfold

theorem Extends.combinedIn (h : m.Extends m') (hm : m.Nodes) {op : Connective} {ctx : Dbm}
    {f g r : Handle} (hf : m.Live f) (hg : m.Live g) (hr : m.CombinedIn op ctx f g r) :
    m'.CombinedIn op ctx f g r where
  live := h.live hr.live
  unfold := by
    rw [h.unfold hm hf, h.unfold hm hg, h.unfold hm hr.live]
    exact hr.unfold

theorem Extends.right (h : m.Extends m') (hm : m.Nodes) (hm' : m'.Nodes) {key : OpKey} {r : Handle}
    (hr : m.Right key r) : m'.Right key r := by
  cases key with
  | apply op f g =>
    obtain ⟨hf, hg, hr⟩ := hr
    exact ⟨h.live hf, h.live hg, h.applied hm hm' hf hg hr⟩
  | applyReduce op f g =>
    obtain ⟨hf, hg, hr⟩ := hr
    exact ⟨h.live hf, h.live hg, h.openContext ▸ h.combinedIn hm hf hg hr⟩
  | reduce f =>
    obtain ⟨hf, hr⟩ := hr
    exact ⟨h.live hf, h.openContext ▸ h.reducedIn hm hf hr⟩

/-! ## Growing managers -/

/-- The second manager has all nodes of the first, and it is sound. -/
structure Grows (m m' : Manager) : Prop where
  keeps : m.Extends m'
  sound : m'.Sound

theorem Grows.refl (hm : m.Sound) : m.Grows m := ⟨Extends.refl m, hm⟩

theorem Grows.trans (h : m.Grows m') (h' : m'.Grows m'') : m.Grows m'' :=
  ⟨h.keeps.trans h'.keeps, h'.sound⟩

theorem Nodes.congr (hm : m.Nodes) (store : m'.store = m.store) (clocks : m'.clocks = m.clocks) :
    m'.Nodes where
  wellFormed := {
    terminal := by rw [store]; exact hm.wellFormed.terminal
    canonical := by rw [store, clocks]; exact hm.wellFormed.canonical
    below := by rw [store]; exact hm.wellFormed.below
    unique := by rw [store]; exact hm.wellFormed.unique }
  store := by rw [store]; exact hm.store
  few := by rw [clocks]; exact hm.few

/-! ## Other caches -/

/-- The manager with another cache. -/
abbrev withCache (m : Manager) (c : Cache OpKey Handle) : Manager := { m with cache := c }

/-- A cache that the manager may have: its entries are not ahead of it, and what it holds is
right. -/
structure Trusts (m : Manager) (c : Cache OpKey Handle) : Prop where
  fresh : c.Fresh
  right : ∀ key r, c.Holds key r → m.Right key r

section Trusts

variable {c : Cache OpKey Handle}

theorem extends_withCache (m : Manager) (c : Cache OpKey Handle) : m.Extends (m.withCache c) :=
  ⟨rfl, rfl, fun h => h⟩

theorem withCache_extends (m : Manager) (c : Cache OpKey Handle) : (m.withCache c).Extends m :=
  ⟨rfl, rfl, fun h => h⟩

theorem Sound.trusts_cache (hm : m.Sound) : m.Trusts m.cache := ⟨hm.fresh, fun _ _ => hm.right⟩

theorem Sound.trusts_clear (hm : m.Sound) : m.Trusts m.cache.clear :=
  ⟨Cache.fresh_clear hm.fresh, fun _ _ h => absurd h (Cache.not_holds_clear hm.fresh)⟩

theorem Trusts.grows (h : m.Trusts c) (hm : m.Sound) : m.Grows (m.withCache c) := by
  have nodes : Nodes (m.withCache c) := hm.toNodes.congr rfl rfl
  exact ⟨extends_withCache m c, nodes, h.fresh,
    fun hr => (extends_withCache m c).right hm.toNodes nodes (h.right _ _ hr)⟩

/-- A manager may have every cache with which it is sound. -/
theorem Sound.trusts_of_withCache (h : (m.withCache c).Sound) : m.Trusts c := by
  have nodes : m.Nodes := h.toNodes.congr rfl rfl
  exact ⟨h.fresh, fun _ _ hr => (withCache_extends m c).right h.toNodes nodes (h.right hr)⟩

theorem Trusts.get (h : m.Trusts c) (key : OpKey) : m.Trusts (c.get key).2 :=
  ⟨Cache.fresh_get key h.fresh, fun _ _ held => h.right _ _ (Cache.holds_of_holds_get held)⟩

theorem Trusts.insert {key : OpKey} {r : Handle} (h : m.Trusts c) (right : m.Right key r) :
    m.Trusts (c.insert key r) := by
  refine ⟨Cache.fresh_insert key r h.fresh, fun key' r' held => ?_⟩
  rcases Cache.holds_of_holds_insert held with ⟨rfl, rfl⟩ | held
  · exact right
  · exact h.right _ _ held

end Trusts

theorem unfoldWithin_withCache (m : Manager) (c : Cache OpKey Handle) (depth : Nat) :
    (m.withCache c).unfoldWithin depth = m.unfoldWithin depth := by
  induction depth with
  | zero => rfl
  | succ depth ih =>
    funext f
    rw [unfoldWithin, unfoldWithin, ih]
    rfl

theorem unfold_withCache (m : Manager) (c : Cache OpKey Handle) :
    (m.withCache c).unfold = m.unfold := unfoldWithin_withCache m c m.depth

/-! ## Computations -/

/-- Every slot of the store is taken. -/
def Exhausted (e : Error) (m : Manager) : Prop :=
  e = .storeFull m.store.capacity ∧ m.store.realSize = m.store.capacity

/-- What a computation does from a manager. -/
def Runs (m : Manager) (x : ManagerM α) (Q : α → Manager → Prop) (F : Error → Prop) : Prop :=
  match x m with
  | .ok a m' => m.Grows m' ∧ Q a m'
  | .error e m' => m.Grows m' ∧ (Exhausted e m' ∨ F e)

/-- The manager after a computation, whether it succeeds or fails. -/
def after (x : ManagerM α) (m : Manager) : Manager :=
  match x m with
  | .ok _ m' => m'
  | .error _ m' => m'

variable {x : ManagerM α} {Q Q' : α → Manager → Prop} {R : β → Manager → Prop}
  {F F' : Error → Prop}

theorem after_of_ok {a : α} (eq : x m = .ok a m') : after x m = m' := by
  rw [after, eq]

theorem after_of_error {e : Error} (eq : x m = .error e m') : after x m = m' := by
  rw [after, eq]

theorem Runs.grows_after (h : Runs m x Q F) : m.Grows (after x m) := by
  unfold Runs at h
  unfold after
  split at h <;> exact h.1

theorem Runs.of_ok {a : α} (eq : x m = .ok a m') (grows : m.Grows m') (h : Q a m') :
    Runs m x Q F := by
  rw [Runs, eq]
  exact ⟨grows, h⟩

theorem Runs.result {a : α} (h : Runs m x Q F) (eq : x m = .ok a m') : m.Grows m' ∧ Q a m' := by
  rw [Runs, eq] at h
  exact h

theorem Runs.of_error {e : Error} (eq : x m = .error e m') (grows : m.Grows m')
    (h : Exhausted e m' ∨ F e) : Runs m x Q F := by
  rw [Runs, eq]
  exact ⟨grows, h⟩

theorem Runs.pure {a : α} (hm : m.Sound) (h : Q a m) : Runs m (pure a) Q F :=
  .of_ok rfl (.refl hm) h

theorem Runs.throw {e : Error} (hm : m.Sound) (h : F e) : Runs m (throw e) Q F :=
  .of_error rfl (.refl hm) (.inr h)

theorem bind_of_ok {f : α → ManagerM β} {a : α} (h : x m = .ok a m') : (x >>= f) m = f a m' := by
  change EStateM.bind x f m = _
  rw [EStateM.bind, h]

theorem bind_of_error {f : α → ManagerM β} {e : Error} (h : x m = .error e m') :
    (x >>= f) m = .error e m' := by
  change EStateM.bind x f m = _
  rw [EStateM.bind, h]

theorem exists_of_bind_eq_ok {f : α → ManagerM β} {b : β} (h : (x >>= f) m = .ok b m'') :
    ∃ a m', x m = .ok a m' ∧ f a m' = .ok b m'' := by
  cases run : x m with
  | ok a m' => exact ⟨a, m', rfl, (bind_of_ok run).symm.trans h⟩
  | error e m' => cases (bind_of_error run).symm.trans h

theorem Runs.bind {f : α → ManagerM β} (hx : Runs m x Q F)
    (hf : ∀ a m', m.Grows m' → Q a m' → Runs m' (f a) R F) : Runs m (x >>= f) R F := by
  unfold Runs at hx
  split at hx
  next a m' eq =>
    have rest := hf a m' hx.1 hx.2
    unfold Runs at rest ⊢
    rw [bind_of_ok eq]
    split at rest
    · exact ⟨hx.1.trans rest.1, rest.2⟩
    · exact ⟨hx.1.trans rest.1, rest.2⟩
  next e m' eq => exact .of_error (bind_of_error eq) hx.1 hx.2

/-- Two things that a computation gives. -/
theorem Runs.and {F' : Error → Prop} (hx : Runs m x Q F) (hx' : Runs m x Q' F') :
    Runs m x (fun a m' => Q a m' ∧ Q' a m') F := by
  unfold Runs at hx hx' ⊢
  split at hx
  next a m' run =>
    rw [run] at hx'
    exact ⟨hx.1, hx.2, hx'.2⟩
  next => exact hx

/-- What is known of a result in any case. -/
theorem Runs.and_of_eq_ok (hx : Runs m x Q F) (h : ∀ a m', x m = .ok a m' → Q' a m') :
    Runs m x (fun a m' => Q a m' ∧ Q' a m') F := by
  unfold Runs at hx ⊢
  split at hx
  next a m' run => exact ⟨hx.1, hx.2, h a m' run⟩
  next => exact hx

theorem Runs.imp (hx : Runs m x Q F) (hQ : ∀ a m', m.Grows m' → Q a m' → Q' a m')
    (hF : ∀ e, F e → F' e) : Runs m x Q' F' := by
  unfold Runs at hx ⊢
  split at hx
  · exact ⟨hx.1, hQ _ _ hx.1 hx.2⟩
  · exact ⟨hx.1, hx.2.imp_right (hF _)⟩

theorem query_apply (read : Manager → Except Error α) (m : Manager) :
    query read m = match read m with
      | .ok a => .ok a m
      | .error e => .error e m := by
  unfold query
  change (match read m with
    | .ok a => fun m => .ok a m
    | .error e => fun m => .error e m : ManagerM α) m = _
  cases read m <;> rfl

theorem query_of_error {read : Manager → Except Error α} {e : Error} (eq : read m = .error e) :
    query read m = .error e m := by
  rw [query_apply, eq]

theorem query_of_ok {read : Manager → Except Error α} {a : α} (eq : read m = .ok a) :
    query read m = .ok a m := by
  rw [query_apply, eq]

theorem Runs.query_bind {read : Manager → Except Error α} {f : α → ManagerM β} {a : α}
    (eq : read m = .ok a) (h : Runs m (f a) R F) : Runs m (query read >>= f) R F := by
  rw [Runs, bind_of_ok (query_of_ok eq)]
  exact h

theorem Runs.query_cases {read : Manager → Except Error α} {f : α → ManagerM β} (hm : m.Sound)
    (ok : ∀ a, read m = .ok a → Runs m (f a) R F) (error : ∀ e, read m = .error e → F e) :
    Runs m (query read >>= f) R F := by
  cases eq : read m with
  | ok a => exact .query_bind eq (ok a eq)
  | error e => exact .of_error (bind_of_error (query_of_error eq)) (.refl hm) (.inr (error e eq))

theorem Runs.lift_cases {r : Except Error α} {f : α → ManagerM β} (hm : m.Sound)
    (ok : ∀ a, r = .ok a → Runs m (f a) R F) (error : ∀ e, r = .error e → F e) :
    Runs m (liftM r >>= f) R F := by
  cases r with
  | ok a => exact ok a rfl
  | error e => exact .of_error (bind_of_error rfl) (.refl hm) (.inr (error e rfl))

theorem get_bind_apply (f : Manager → ManagerM β) (m : Manager) : (get >>= f) m = f m m := rfl

theorem Runs.get_bind {f : Manager → ManagerM β} (h : Runs m (f m) R F) :
    Runs m (get >>= f) R F := by
  rw [Runs, get_bind_apply]
  exact h

theorem remembered?_apply (key : OpKey) (m : Manager) : remembered? key m =
    .ok (m.cache.get key).1 { m with cache := (m.cache.get key).2 } := rfl

theorem remember_apply (key : OpKey) (r : Handle) (m : Manager) : remember key r m =
    .ok ⟨⟩ { m with cache := m.cache.insert key r } := rfl

theorem Runs.remembered? (hm : m.Sound) (key : OpKey) :
    Runs m (remembered? key) (fun r m' => ∀ h, r = some h → m'.Right key h) F := by
  have grows := (hm.trusts_cache.get key).grows hm
  refine .of_ok (remembered?_apply key m) grows fun h found => ?_
  exact grows.keeps.right hm.toNodes grows.sound.toNodes
    (hm.right (Cache.holds_of_get_eq_some found))

theorem Runs.remember {key : OpKey} {r : Handle} (hm : m.Sound) (right : m.Right key r) :
    Runs m (remember key r) (fun _ m' => m'.Right key r) F := by
  have grows := (hm.trusts_cache.insert right).grows hm
  exact .of_ok (remember_apply key r m) grows
    (grows.keeps.right hm.toNodes grows.sound.toNodes right)

/-- The result under a key: the one that is remembered, or else the one that is computed, which is
remembered from then on. -/
def cached (key : OpKey) (x : ManagerM Handle) : ManagerM Handle := do
  match ← remembered? key with
  | some result => return result
  | none =>
    let result ← x
    remember key result
    return result

theorem cached_of_found {key : OpKey} {x : ManagerM Handle} {r : Handle}
    (found : (m.cache.get key).1 = some r) :
    cached key x m = .ok r (m.withCache (m.cache.get key).2) := by
  unfold cached
  rw [bind_of_ok (remembered?_apply key m), found]
  rfl

theorem cached_of_missed {key : OpKey} {x : ManagerM Handle}
    (missed : (m.cache.get key).1 = none) : cached key x m =
      (do let result ← x; remember key result; return result : ManagerM Handle)
        (m.withCache (m.cache.get key).2) := by
  unfold cached
  rw [bind_of_ok (remembered?_apply key m), missed]

/-- What is remembered is right, and so is what is computed otherwise. -/
theorem Runs.cached {key : OpKey} {x : ManagerM Handle} (hm : m.Sound)
    (hx : ∀ m', m.Grows m' → Runs m' x (fun r m'' => m''.Right key r) F) :
    Runs m (cached key x) (fun r m' => m'.Right key r) F := by
  refine (Runs.remembered? hm key).bind fun found m₁ grows hfound => ?_
  cases found with
  | some r => exact .pure grows.sound (hfound r rfl)
  | none =>
    exact (hx m₁ grows).bind fun r m₂ grows' right =>
      (Runs.remember grows'.sound right).bind fun _ m₃ grows'' right => .pure grows''.sound right

theorem Runs.mapM {ι : Type} {f : ι → ManagerM β} {S : Manager → ι → β → Prop} {xs : List ι}
    (hm : m.Sound)
    (mono : ∀ {m₁ m₂ a b}, a ∈ xs → m.Grows m₁ → m₁.Grows m₂ → S m₁ a b → S m₂ a b)
    (h : ∀ a ∈ xs, ∀ m', m.Grows m' → Runs m' (f a) (fun b m'' => S m'' a b) F) :
    Runs m (xs.mapM f) (fun bs m' => List.Forall₂ (S m') xs bs) F := by
  induction xs generalizing m with
  | nil => exact .pure hm .nil
  | cons a xs ih =>
    rw [List.mapM_cons]
    refine (h a List.mem_cons_self m (.refl hm)).bind fun b m₁ grows hb => ?_
    refine (ih grows.sound (fun ha g => mono (List.mem_cons_of_mem _ ha) (grows.trans g))
      fun a ha m' g => h a (List.mem_cons_of_mem _ ha) m' (grows.trans g)).bind
      fun bs m₂ grows' hbs => ?_
    exact .pure grows'.sound (.cons (mono List.mem_cons_self grows grows' hb) hbs)

theorem Runs.foldlM {ι : Type} {f : β → ι → ManagerM β} {xs : List ι} {b : β} (hm : m.Sound)
    (hb : R b m) (h : ∀ b m', m'.Sound → R b m' → ∀ i ∈ xs, Runs m' (f b i) R F) :
    Runs m (xs.foldlM f b) R F := by
  induction xs generalizing m b with
  | nil => exact .pure hm hb
  | cons i xs ih =>
    rw [List.foldlM_cons]
    exact (h b m hm hb i List.mem_cons_self).bind fun b' m' grows hb' =>
      ih grows.sound hb' fun b m' hm' hb j hj => h b m' hm' hb j (List.mem_cons_of_mem i hj)

/-! ## Computations with a memo -/

/-- What a computation with a memo does, if the memo is good in the manager. -/
def Passes (J : σ → Manager → Prop) (m : Manager) (s : σ) (x : StateT σ ManagerM α)
    (Q : α → Manager → Prop) (F : Error → Prop) : Prop :=
  Runs m (x.run s) (fun a m' => J a.2 m' ∧ Q a.1 m') F

section Passes

variable {J : σ → Manager → Prop} {s : σ} {y : StateT σ ManagerM α}

theorem Passes.pure {a : α} (hm : m.Sound) (hs : J s m) (h : Q a m) :
    Passes J m s (pure a) Q F := Runs.pure hm ⟨hs, h⟩

theorem Passes.throw {e : Error} (hm : m.Sound) (h : F e) : Passes J m s (throw e) Q F :=
  .of_error rfl (.refl hm) (.inr h)

theorem Passes.bind {J' : σ → Manager → Prop} {f : α → StateT σ ManagerM β}
    (hy : Passes J m s y Q F)
    (hf : ∀ a m' s', m.Grows m' → J s' m' → Q a m' → Passes J' m' s' (f a) R F) :
    Passes J' m s (y >>= f) R F := by
  unfold Passes
  rw [StateT.run_bind]
  exact Runs.bind hy fun a m' grows h => hf a.1 m' a.2 grows h.1 h.2

theorem Passes.imp (hy : Passes J m s y Q F) (hQ : ∀ a m', m.Grows m' → Q a m' → Q' a m')
    (hF : ∀ e, F e → F' e) : Passes J m s y Q' F' :=
  Runs.imp hy (fun a m' grows h => ⟨h.1, hQ a.1 m' grows h.2⟩) hF

theorem Passes.weaken {J' : σ → Manager → Prop} (hy : Passes J m s y Q F)
    (hJ : ∀ s m', J s m' → J' s m') : Passes J' m s y Q F :=
  Runs.imp hy (fun a m' _ h => ⟨hJ a.2 m' h.1, h.2⟩) fun _ h => h

theorem Passes.lift (mono : ∀ {m'}, m.Grows m' → J s m → J s m') (hs : J s m)
    (hx : Runs m x Q F) : Passes J m s (liftM x) Q F :=
  Runs.bind hx fun _ _ grows h => Runs.pure grows.sound ⟨mono grows hs, h⟩

theorem Passes.lift_bind {f : α → StateT σ ManagerM β} {a : α} (eq : x m = .ok a m)
    (h : Passes J m s (f a) R F) : Passes J m s (liftM x >>= f) R F := by
  have run : (liftM x : StateT σ ManagerM α).run s m = .ok (a, s) m := bind_of_ok eq
  rw [Passes, StateT.run_bind, Runs, bind_of_ok run]
  exact h

theorem Passes.lift_bind_of_error {f : α → StateT σ ManagerM β} {e : Error} (hm : m.Sound)
    (eq : x m = .error e m) (h : F e) : Passes J m s (liftM x >>= f) R F := by
  have run : (liftM x : StateT σ ManagerM α).run s m = .error e m := bind_of_error eq
  rw [Passes, StateT.run_bind]
  exact .of_error (bind_of_error run) (.refl hm) (.inr h)

theorem pass_get_bind_apply (f : σ → StateT σ ManagerM β) (s : σ) (m : Manager) :
    (get >>= f) s m = f s s m := rfl

theorem Passes.get_bind {f : σ → StateT σ ManagerM β} (h : Passes J m s (f s) R F) :
    Passes J m s (get >>= f) R F := h

theorem Passes.of_modify {g : σ → σ} {Q : PUnit → Manager → Prop} (hm : m.Sound) (hs : J (g s) m)
    (h : Q ⟨⟩ m) : Passes J m s (modify g) Q F := Runs.pure hm ⟨hs, h⟩

theorem Passes.modify_bind {g : σ → σ} {f : PUnit → StateT σ ManagerM β}
    (h : Passes J m (g s) (f ⟨⟩) R F) : Passes J m s (modify g >>= f) R F := h

theorem Passes.mapM {ι : Type} {f : ι → StateT σ ManagerM β} {S : Manager → ι → β → Prop}
    {xs : List ι} (hm : m.Sound) (hs : J s m)
    (mono : ∀ {m₁ m₂ a b}, a ∈ xs → m.Grows m₁ → m₁.Grows m₂ → S m₁ a b → S m₂ a b)
    (h : ∀ a ∈ xs, ∀ m' s', m.Grows m' → J s' m' →
      Passes J m' s' (f a) (fun b m'' => S m'' a b) F) :
    Passes J m s (xs.mapM f) (fun bs m' => List.Forall₂ (S m') xs bs) F := by
  induction xs generalizing m s with
  | nil => exact .pure hm hs .nil
  | cons a xs ih =>
    rw [List.mapM_cons]
    refine (h a List.mem_cons_self m s (.refl hm) hs).bind fun b m₁ s₁ grows hs₁ hb => ?_
    refine (ih grows.sound hs₁ (fun ha g => mono (List.mem_cons_of_mem _ ha) (grows.trans g))
      fun a ha m' s' g => h a (List.mem_cons_of_mem _ ha) m' s' (grows.trans g)).bind
      fun bs m₂ s₂ grows' hs₂ hbs => ?_
    exact .pure grows'.sound hs₂ (.cons (mono List.mem_cons_self grows grows' hb) hbs)

theorem Passes.forM {ι : Type} {f : ι → StateT σ ManagerM PUnit} {xs : List ι} (hm : m.Sound)
    (hs : J s m) (h : ∀ a ∈ xs, ∀ m' s', m.Grows m' → J s' m' →
      Passes J m' s' (f a) (fun _ _ => True) F) :
    Passes J m s (xs.forM f) (fun _ _ => True) F := by
  induction xs generalizing m s with
  | nil => exact .pure hm hs trivial
  | cons a xs ih =>
    refine (h a List.mem_cons_self m s (.refl hm) hs).bind fun _ m₁ s₁ grows hs₁ _ => ?_
    exact ih grows.sound hs₁ fun b hb m' s' g =>
      h b (List.mem_cons_of_mem _ hb) m' s' (grows.trans g)

end Passes

end ZoneDiagram.Manager

import ZoneDiagram.Proofs.Manager.ApplyReduce
import ZoneDiagram.Proofs.Manager.Raises

/-!
# Properties of computations that steps pass on

Making a node, a pass of reduction and reduction by layers are composed of the same few steps: they
read nodes, put nodes into the store and throw errors of broken assumptions, and they do not look at
remembered results. So they have every property that these steps have and that a sequence has if its
parts do (`Compositional`). A pass has a memo of its own, and it has the property with every memo
(`OnPass`).
-/

namespace ZoneDiagram.Manager

variable {α β σ : Type}

/-- A property that a sequence has if its parts do, and that all steps have which look at nodes, put
nodes into the store, or throw an error that does not depend on the arguments. -/
structure Compositional (P : ∀ {α : Type}, ManagerM α → Prop) : Prop where
  pure : ∀ {α : Type} (a : α), P (pure a)
  bind : ∀ {α β : Type} {x : ManagerM α} {f : α → ManagerM β}, P x → (∀ a, P (f a)) → P (x >>= f)
  throw : ∀ {α : Type} {e : Error}, e.Broken → P (throw e : ManagerM α)
  query : ∀ {α : Type} {read : Manager → Except Error α}, (∀ m c, read (withCache m c) = read m) →
    (∀ m, Raises Error.Misread (read m)) → P (query read)
  get_bind : ∀ {β : Type} {f : Manager → ManagerM β}, (∀ m c, f (withCache m c) = f m) →
    (∀ m, P (f m)) → P (get >>= f)
  intern : ∀ node, P (intern node)

/-- A pass has the property, whatever its memo. -/
def OnPass (P : ∀ {α : Type}, ManagerM α → Prop) (y : StateT σ ManagerM α) : Prop :=
  ∀ s, P (y.run s)

theorem onPass_get_bind {P : ∀ {α : Type}, ManagerM α → Prop} {f : σ → StateT σ ManagerM β}
    (hf : ∀ s, OnPass P (f s)) : OnPass P (get >>= f) := fun s => hf s s

/-! ## Reads that do not look at the cache -/

section Reads

variable (m : Manager) (c : Cache OpKey Handle) (depth : Nat)

theorem layersFrom_withCache : (m.withCache c).layersFrom depth = m.layersFrom depth := by
  induction depth with
  | zero => rfl
  | succ depth ih =>
    funext fr layers
    rw [layersFrom, layersFrom, ih]
    rfl

theorem findZone_withCache : (m.withCache c).findZone depth = m.findZone depth := by
  induction depth with
  | zero => rfl
  | succ depth ih =>
    funext f ctx
    rw [findZone, findZone, ih]
    rfl

theorem containsWithin_withCache :
    (m.withCache c).containsWithin depth = m.containsWithin depth := by
  induction depth with
  | zero => rfl
  | succ depth ih =>
    funext f ctx
    rw [containsWithin, containsWithin, ih]
    rfl

end Reads

namespace Compositional

variable {P : ∀ {α : Type}, ManagerM α → Prop} (h : Compositional P)

include h

/-! ## Passes -/

section Pass

variable {y : StateT σ ManagerM α} {f : α → StateT σ ManagerM β}

theorem pass_pure (a : α) : OnPass P (Pure.pure a : StateT σ ManagerM α) := fun s =>
  h.pure (a, s)

theorem pass_bind (hy : OnPass P y) (hf : ∀ a, OnPass P (f a)) : OnPass P (y >>= f) := fun s => by
  rw [StateT.run_bind]
  exact h.bind (hy s) fun a => hf a.1 a.2

theorem pass_throw {e : Error} (broken : e.Broken) :
    OnPass P (MonadExcept.throw e : StateT σ ManagerM α) := fun s =>
  h.bind (h.throw broken) fun a => h.pure (a, s)

theorem pass_lift {x : ManagerM α} (hx : P x) : OnPass P (liftM x : StateT σ ManagerM α) :=
  fun s => h.bind hx fun a => h.pure (a, s)

theorem pass_modify (g : σ → σ) : OnPass P (modify g : StateT σ ManagerM PUnit) := fun s =>
  h.pure (PUnit.unit, g s)

theorem pass_mapM {ι : Type} {f : ι → StateT σ ManagerM β} (xs : List ι)
    (hf : ∀ i, OnPass P (f i)) : OnPass P (xs.mapM f) := by
  induction xs with
  | nil => exact h.pass_pure []
  | cons i xs ih =>
    rw [List.mapM_cons]
    exact h.pass_bind (hf i) fun _ => h.pass_bind ih fun _ => h.pass_pure _

theorem pass_forM {ι : Type} {f : ι → StateT σ ManagerM PUnit} (xs : List ι)
    (hf : ∀ i, OnPass P (f i)) : OnPass P (xs.forM f) := by
  induction xs with
  | nil => exact h.pass_pure PUnit.unit
  | cons i xs ih => exact h.pass_bind (hf i) fun _ => ih

end Pass

theorem lift {r : Except Error α} (hr : Raises Error.Misread r) : P (liftM r : ManagerM α) := by
  cases r with
  | ok a => exact h.pure a
  | error e => exact h.throw (hr e rfl).broken

theorem mapM {ι : Type} {f : ι → ManagerM β} (xs : List ι) (hf : ∀ i, P (f i)) :
    P (xs.mapM f) := by
  induction xs with
  | nil => exact h.pure []
  | cons i xs ih =>
    rw [List.mapM_cons]
    exact h.bind (hf i) fun _ => h.bind ih fun _ => h.pure _

/-! ## Making nodes -/

theorem putNode (level : Nat) (edges : CutList Handle) : P (putNode level edges) := by
  unfold Manager.putNode
  split
  · exact h.bind (h.intern _) fun _ => h.pure _
  · exact h.intern _

theorem mkNode (level : Nat) (edges : CutList Handle) : P (mkNode level edges) := by
  unfold Manager.mkNode
  split
  next => exact h.throw ⟨rfl, rfl⟩
  next =>
    split
    next => exact h.throw ⟨rfl, rfl⟩
    next =>
      split
      · exact h.pure _
      · exact h.putNode _ _

theorem pathThrough (cuts : List Cut) : P (pathThrough cuts) := by
  induction cuts with
  | nil => exact h.pure _
  | cons cut cuts ih =>
    unfold Manager.pathThrough
    exact h.bind ih fun _ => h.mkNode _ _

/-- The diagram of a pair of bounds is built after a check of the clocks. -/
theorem range {i j : Nat} {bound opposite : Bound}
    (check : P (Manager.query (·.checkPair i j))) : P (range i j bound opposite) := by
  refine h.bind check fun ⟨pair, swapped⟩ => ?_
  dsimp only
  generalize (if swapped then (opposite, bound) else (bound, opposite)) = ends
  split
  · exact h.pure _
  · exact h.mkNode _ _

theorem combinePieces {child : Handle → Handle → ManagerM Handle} (f g : Handle)
    (hchild : ∀ a b, P (child a b)) : P (combinePieces child f g) :=
  h.bind (h.query (fun _ _ => rfl) fun m => m.raises_refine f g) fun _ =>
    h.bind (h.mapM _ fun _ => h.bind (hchild _ _) fun _ => h.pure _) fun _ => h.mkNode _ _

/-! ## Passes of reduction -/

theorem reducePieces {child : α → Dbm → StateT σ ManagerM Handle} (level : Nat) (ctx : Dbm)
    (pieces : CutList α) (hchild : ∀ a sub, OnPass P (child a sub)) :
    OnPass P (reducePieces level ctx pieces child) := by
  refine h.pass_bind (h.pass_lift (h.lift (ClockPair.raises_ofLevel level))) fun pair => ?_
  have rest : OnPass P (do
      let edges ← (ctx.feasibleRun pair none pieces).mapM fun p => do
        let sub ← (p.item.2.inhabited? : ManagerM Dbm)
        return (⟨← child p.item.1 sub, p.upper⟩ : Edge)
      Manager.mkNode level (CutList.stretch edges) : StateT σ ManagerM Handle) :=
    h.pass_bind (h.pass_mapM _ fun p =>
      h.pass_bind (h.pass_lift (h.lift (Dbm.raises_inhabited? _))) fun sub =>
        h.pass_bind (hchild _ sub) fun _ => h.pass_pure _)
      fun _ => h.pass_lift (h.mkNode _ _)
  dsimp only
  split
  · exact h.pass_bind (h.pass_throw ⟨rfl, rfl⟩) fun _ => rest
  · exact rest

theorem reduceWithin (depth : Nat) (f : Handle) (ctx : Dbm) :
    OnPass P (reduceWithin depth f ctx) := by
  induction depth generalizing f ctx with
  | zero => exact h.pass_throw ⟨rfl, rfl⟩
  | succ depth ih =>
    unfold Manager.reduceWithin
    split
    · exact h.pass_pure _
    · refine onPass_get_bind fun memo => ?_
      split
      · exact h.pass_pure _
      · exact h.pass_bind (h.pass_lift (h.query (fun _ _ => rfl) fun m => m.raises_node _))
          fun node => h.pass_bind (h.reducePieces _ _ _ ih) fun _ =>
            h.pass_bind (h.pass_modify _) fun _ => h.pass_pure _

theorem reduceIn (depth : Nat) (f : Handle) (ctx : Dbm) : OnPass P (reduceIn depth f ctx) :=
  fun memo => h.bind (h.reduceWithin depth f ctx memo.reduced) fun _ => h.pure _

theorem applyReduceWithin (op : Connective) (depth : Nat) (p : Handle × Handle) (ctx : Dbm) :
    OnPass P (applyReduceWithin op depth p ctx) := by
  induction depth generalizing p ctx with
  | zero => exact h.pass_throw ⟨rfl, rfl⟩
  | succ depth ih =>
    obtain ⟨f, g⟩ := p
    unfold Manager.applyReduceWithin
    split
    · exact h.reduceIn _ _ _
    · refine onPass_get_bind fun memo => ?_
      split
      · exact h.pass_pure _
      · exact h.pass_bind (h.pass_lift (h.query (fun _ _ => rfl) fun m => m.raises_refine _ _))
          fun _ => h.pass_bind (h.reducePieces _ _ _ ih) fun _ =>
            h.pass_bind (h.pass_modify _) fun _ => h.pass_pure _

theorem reducePass (f : Handle) : P (reducePass f) :=
  h.get_bind (fun _ _ => rfl) fun m =>
    h.bind (h.reduceWithin m.depth f m.openContext ∅) fun _ => h.pure _

theorem applyReducePass (op : Connective) (f g : Handle) : P (applyReducePass op f g) :=
  h.get_bind (fun _ _ => rfl) fun m =>
    h.bind (h.applyReduceWithin op m.depth (f, g) m.openContext {}) fun _ => h.pure _

/-! ## Reduction by layers -/

theorem rebuiltChild (child : Handle) (ctx : Dbm) : OnPass P (rebuiltChild child ctx) := by
  unfold Manager.rebuiltChild
  split
  · exact h.pass_pure _
  · refine onPass_get_bind fun memo => ?_
    split
    · exact h.pass_pure _
    · exact h.pass_throw ⟨rfl, rfl⟩

theorem rebuildLayers (layers : List Layer) : OnPass P (rebuildLayers layers) :=
  h.pass_forM _ fun layer => h.pass_forM _ fun v =>
    h.pass_bind (h.pass_lift (h.query (fun _ _ => rfl) fun m => m.raises_edges v.diagram)) fun _ =>
      h.pass_bind (h.reducePieces layer.level _ _ h.rebuiltChild) fun _ => h.pass_modify _

theorem reduceByLayers (f : Handle) : P (reduceByLayers f) := by
  unfold Manager.reduceByLayers
  split
  · exact h.pure _
  · refine h.bind (h.query (fun m c => ?_) fun m => ?_) fun layers => ?_
    · dsimp only
      rw [layersFrom_withCache]
      rfl
    · exact (m.raises_level f).bind fun _ => m.raises_layersFrom _ _ _
    · refine h.get_bind (fun _ _ => rfl) fun m => ?_
      exact h.bind (h.pass_bind (h.rebuildLayers layers) (fun _ => h.rebuiltChild f _) ∅)
        fun _ => h.pure _

end Compositional

end ZoneDiagram.Manager

import ZoneDiagram.Manager.Contains
import ZoneDiagram.Manager.Extract
import ZoneDiagram.Manager.Layers

/-!
# What reads raise

An operation refuses arguments that do not fit (`Error.isRefusal`), or it finds the store full
(`Error.isStoreFull`); every other error is a broken assumption (`Error.Broken`). Reading a manager
makes no node, so it never raises what making a node does (`Error.isMaking`), and apart from the
checks at the start of an operation it never refuses (`Error.Misread`).
-/

namespace ZoneDiagram

namespace Error

/-- The arguments of an operation do not fit. -/
def isRefusal : Error → Bool
  | dimensionMismatch .. | clockOutOfRange .. | sameClock _ | valueOutOfRange ..
  | emptyFederation => true
  | _ => false

/-- Every slot of the store is taken. -/
def isStoreFull : Error → Bool
  | storeFull _ => true
  | _ => false

/-- Only making a node raises this error. -/
def isMaking : Error → Bool
  | storeFull _ | noEdges | improperCuts => true
  | _ => false

/-- Neither a refusal nor a full store. -/
structure Broken (e : Error) : Prop where
  isRefusal : e.isRefusal = false
  isStoreFull : e.isStoreFull = false

/-- Something that is read is not there, or not as it should be. -/
structure Misread (e : Error) : Prop where
  isRefusal : e.isRefusal = false
  isMaking : e.isMaking = false

variable {e : Error}

theorem isStoreFull_of_isMaking (h : e.isMaking = false) : e.isStoreFull = false := by
  cases e <;> first | rfl | cases h

theorem Misread.broken (h : e.Misread) : e.Broken :=
  ⟨h.isRefusal, isStoreFull_of_isMaking h.isMaking⟩

end Error

/-! ## Reads -/

section Raises

variable {α β σ : Type} {E E' : Error → Prop}

/-- Whatever error is raised has a property. -/
def Raises (E : Error → Prop) (r : Except Error α) : Prop := ∀ e, r = .error e → E e

theorem raises_ok (a : α) : Raises E (.ok a) := fun _ h => by cases h

theorem raises_error {e : Error} (h : E e) : Raises E (.error e : Except Error α) := fun _ eq => by
  cases eq
  exact h

theorem Raises.bind {r : Except Error α} {f : α → Except Error β} (hr : Raises E r)
    (hf : ∀ a, Raises E (f a)) : Raises E (r >>= f) := by
  cases r with
  | ok a => exact hf a
  | error e => exact raises_error (hr e rfl)

theorem Raises.imp {r : Except Error α} (hr : Raises E r) (h : ∀ e, E e → E' e) : Raises E' r :=
  fun e eq => h e (hr e eq)

theorem raises_foldlM {ι : Type} {f : β → ι → Except Error β} (xs : List ι) (b : β)
    (h : ∀ b i, Raises E (f b i)) : Raises E (xs.foldlM f b) := by
  induction xs generalizing b with
  | nil => exact raises_ok b
  | cons i xs ih => exact (h b i).bind ih

/-- Whatever error a search raises has a property, whatever it remembers. -/
def RaisesPass (E : Error → Prop) (y : StateT σ (Except Error) α) : Prop := ∀ s, Raises E (y.run s)

theorem raisesPass_pure (a : α) : RaisesPass E (pure a : StateT σ (Except Error) α) := fun s =>
  raises_ok (a, s)

theorem raisesPass_throw {e : Error} (h : E e) :
    RaisesPass E (throw e : StateT σ (Except Error) α) := fun _ => raises_error h

theorem RaisesPass.bind {y : StateT σ (Except Error) α} {f : α → StateT σ (Except Error) β}
    (hy : RaisesPass E y) (hf : ∀ a, RaisesPass E (f a)) : RaisesPass E (y >>= f) := fun s => by
  rw [StateT.run_bind]
  exact (hy s).bind fun a => hf a.1 a.2

theorem raisesPass_lift {r : Except Error α} (hr : Raises E r) :
    RaisesPass E (liftM r : StateT σ (Except Error) α) := fun s => hr.bind fun a => raises_ok (a, s)

theorem raisesPass_get_bind {f : σ → StateT σ (Except Error) α} (hf : ∀ s, RaisesPass E (f s)) :
    RaisesPass E (get >>= f) := fun s => hf s s

theorem raisesPass_modify (g : σ → σ) :
    RaisesPass E (modify g : StateT σ (Except Error) PUnit) := fun s => raises_ok (PUnit.unit, g s)

end Raises

namespace ClockPair

theorem raises_triangle? (level i : Nat) : Raises Error.Misread (triangle? level i) := by
  unfold triangle?
  split
  · exact raises_ok _
  · exact raises_error ⟨rfl, rfl⟩

theorem raises_descend (level i : Nat) : Raises Error.Misread (descend level i) := by
  induction i with
  | zero => exact raises_ok 0
  | succ i ih =>
    refine (raises_triangle? level (i + 1)).bind fun t => ?_
    split
    · exact ih
    · exact raises_ok _

theorem raises_climb (level steps i : Nat) : Raises Error.Misread (climb level steps i) := by
  induction steps generalizing i with
  | zero => exact raises_ok i
  | succ steps ih =>
    refine (raises_triangle? level (i + 1)).bind fun t => ?_
    split
    · exact ih (i + 1)
    · exact raises_ok _

theorem raises_ofLevel (level : Nat) : Raises Error.Misread (ofLevel level) := by
  unfold ofLevel
  split
  · exact raises_error ⟨rfl, rfl⟩
  · refine (raises_descend level _).bind fun start => (raises_climb level _ start).bind fun i => ?_
    unfold of?
    split
    · exact raises_ok _
    · exact raises_error ⟨rfl, rfl⟩

end ClockPair

theorem CutList.raises_refine {α β : Type} (ps : CutList α) (qs : CutList β) :
    Raises Error.Misread (refine ps qs) := by
  induction ps, qs using refine.induct with
  | case1 qs =>
    rw [refine]
    exact raises_error ⟨rfl, rfl⟩
  | case2 p ps =>
    rw [refine]
    exact raises_error ⟨rfl, rfl⟩
  | case3 p ps q qs lt ih =>
    rw [refine, if_pos lt]
    exact ih.bind fun _ => raises_ok _
  | case4 p ps q qs nlt lt ih =>
    rw [refine, if_neg nlt, if_pos lt]
    exact ih.bind fun _ => raises_ok _
  | case5 p ps q qs nlt nlt' last =>
    rw [refine, if_neg nlt, if_neg nlt', if_pos last]
    exact raises_ok _
  | case6 p ps q qs nlt nlt' inner ih =>
    rw [refine, if_neg nlt, if_neg nlt', if_neg inner]
    exact ih.bind fun _ => raises_ok _

theorem Dbm.raises_inhabited? (d : Dbm) : Raises Error.Misread d.inhabited? := by
  unfold inhabited?
  split
  · exact raises_error ⟨rfl, rfl⟩
  · exact raises_ok d

theorem SlotTable.raises_cell {α : Type} (t : SlotTable α) (slot : Nat) :
    Raises Error.Misread (t.cell slot) := by
  unfold cell
  split
  · exact raises_error ⟨rfl, rfl⟩
  · split
    · exact raises_error ⟨rfl, rfl⟩
    · exact raises_ok _

theorem SlotTable.raises_walk {α : Type} [BEq α] (t : SlotTable α) (v : α)
    (steps last slot : Nat) : Raises Error.Misread (t.walk v steps last slot) := by
  induction steps generalizing last slot with
  | zero => exact raises_error ⟨rfl, rfl⟩
  | succ steps ih =>
    unfold walk
    split
    · exact raises_ok _
    · refine (t.raises_cell slot).bind fun cell => ?_
      split
      · exact raises_ok _
      · exact ih slot cell.next

namespace Manager

variable (m : Manager) (f g : Handle)

theorem raises_node : Raises Error.Misread (m.node f) :=
  (m.store.raises_cell f.slot).bind fun _ => raises_ok _

theorem raises_level : Raises Error.Misread (m.level f) :=
  (m.raises_node f).bind fun _ => raises_ok _

theorem raises_edges : Raises Error.Misread (m.edges f) :=
  (m.raises_node f).bind fun _ => raises_ok _

theorem raises_pair : Raises Error.Misread (m.pair f) := by
  have rest : Raises Error.Misread (do ClockPair.ofLevel (← m.level f)) :=
    (m.raises_level f).bind ClockPair.raises_ofLevel
  unfold pair
  split
  · exact (raises_error ⟨rfl, rfl⟩ : Raises _ (throw _)).bind fun _ => rest
  · exact rest

theorem raises_cofactors (level : Nat) : Raises Error.Misread (m.cofactors f level) := by
  refine (m.raises_level f).bind fun l => ?_
  split
  · exact m.raises_edges f
  · exact raises_ok _

theorem raises_refine : Raises Error.Misread (m.refine f g) :=
  (m.raises_level f).bind fun _ => (m.raises_level g).bind fun _ =>
    (m.raises_cofactors f _).bind fun _ => (m.raises_cofactors g _).bind fun _ =>
      (CutList.raises_refine _ _).bind fun _ => raises_ok _

theorem raises_expand (fr : Frontier) (v : Visit) : Raises Error.Misread (m.expand fr v) :=
  (m.raises_pair v.diagram).bind fun _ => (m.raises_edges v.diagram).bind fun _ =>
    raises_foldlM _ _ fun _ _ => (Dbm.raises_inhabited? _).bind fun _ =>
      (m.raises_level _).bind fun _ => raises_ok _

theorem raises_layersFrom (depth : Nat) (fr : Frontier) (layers : List Layer) :
    Raises Error.Misread (m.layersFrom depth fr layers) := by
  induction depth generalizing fr layers with
  | zero => exact raises_error ⟨rfl, rfl⟩
  | succ depth ih =>
    unfold layersFrom
    split
    · exact raises_ok layers
    · exact (raises_foldlM _ _ m.raises_expand).bind fun fr => ih fr _

theorem raises_branches (ctx : Dbm) : Raises Error.Misread (m.branches f ctx) :=
  (m.raises_pair f).bind fun _ => (m.raises_edges f).bind fun _ => raises_ok _

theorem raisesPass_firstBranch
    {search : Handle → Dbm → StateT DeadEnds (Except Error) (Option Dbm)}
    (h : ∀ f ctx, RaisesPass Error.Misread (search f ctx)) (ps : CutList (Handle × Dbm)) :
    RaisesPass Error.Misread (firstBranch search ps) := by
  induction ps with
  | nil => exact raisesPass_pure none
  | cons p ps ih =>
    refine (raisesPass_lift (Dbm.raises_inhabited? _)).bind fun sub =>
      (h p.item.1 sub).bind fun found => ?_
    split
    · exact raisesPass_pure _
    · exact ih

theorem raisesPass_findZone (depth : Nat) (ctx : Dbm) :
    RaisesPass Error.Misread (m.findZone depth f ctx) := by
  induction depth generalizing f ctx with
  | zero => exact raisesPass_throw ⟨rfl, rfl⟩
  | succ depth ih =>
    unfold findZone
    split
    · exact raisesPass_pure none
    · split
      · exact raisesPass_pure _
      · refine raisesPass_get_bind fun seen => ?_
        split
        · exact raisesPass_pure none
        · refine (raisesPass_lift (m.raises_branches f ctx)).bind fun branches =>
            (raisesPass_firstBranch (fun f ctx => ih f ctx) branches).bind fun found => ?_
          split
          · exact raisesPass_pure _
          · exact (raisesPass_modify _).bind fun _ => raisesPass_pure none

theorem raises_chooseZone : Raises (·.isMaking = false) (m.chooseZone f) := by
  refine ((m.raisesPass_findZone f _ _ ∅).imp fun _ h => h.isMaking).bind fun found => ?_
  dsimp only
  split
  · exact raises_error rfl
  · split
    · exact raises_error rfl
    · split
      · exact raises_error rfl
      · exact raises_ok _

theorem raisesPass_allBranches {test : Handle → Dbm → StateT ContainsMemo (Except Error) Bool}
    (h : ∀ f ctx, RaisesPass Error.Misread (test f ctx)) (ps : CutList (Handle × Dbm)) :
    RaisesPass Error.Misread (allBranches test ps) := by
  induction ps with
  | nil => exact raisesPass_pure true
  | cons p ps ih =>
    refine (raisesPass_lift (Dbm.raises_inhabited? _)).bind fun sub =>
      (h p.item.1 sub).bind fun passed => ?_
    split
    · exact ih
    · exact raisesPass_pure false

theorem raisesPass_containsWithin (depth : Nat) (ctx : Dbm) :
    RaisesPass Error.Misread (m.containsWithin depth f ctx) := by
  induction depth generalizing f ctx with
  | zero => exact raisesPass_throw ⟨rfl, rfl⟩
  | succ depth ih =>
    unfold containsWithin
    split
    · exact raisesPass_pure true
    · split
      · exact raisesPass_pure false
      · refine raisesPass_get_bind fun memo => ?_
        split
        · exact raisesPass_pure _
        · exact (raisesPass_lift (m.raises_pair f)).bind fun _ =>
            (raisesPass_lift (m.raises_edges f)).bind fun _ =>
              (raisesPass_allBranches (fun f ctx => ih f ctx) _).bind fun _ =>
                (raisesPass_modify _).bind fun _ => raisesPass_pure _

theorem raises_clocksPlus (n : Nat) : Raises (·.isMaking = false) (m.clocksPlus n) := by
  unfold clocksPlus
  split
  · exact raises_error rfl
  · split
    · exact raises_error rfl
    · exact raises_ok _

theorem raises_checkDim (dim : Nat) : Raises (·.isMaking = false) (m.checkDim dim) := by
  unfold checkDim
  split
  · exact raises_ok ()
  · exact raises_error rfl

theorem raises_contains (zone : Dbm) : Raises (·.isMaking = false) (m.contains f zone) := by
  refine (m.raises_checkDim zone.dim).bind fun _ => ?_
  split
  · exact raises_ok true
  · exact ((m.raisesPass_containsWithin f _ _ ∅).imp fun _ h => h.isMaking).bind
      fun _ => raises_ok _

theorem raises_checkExtractDim (dim : Nat) :
    Raises (·.isMaking = false) (m.checkExtractDim dim) := by
  unfold checkExtractDim
  split
  · exact raises_ok _
  · exact raises_error rfl

theorem raises_checkValue (c : Int) : Raises (·.isMaking = false) (Bound.checkValue c) := by
  unfold Bound.checkValue
  split
  · exact raises_ok c
  · exact raises_error rfl

theorem raises_checkClock (clock : Nat) : Raises (·.isMaking = false) (m.checkClock clock) := by
  unfold checkClock
  split
  · exact raises_ok ()
  · exact raises_error rfl

theorem raises_checkPair (i j : Nat) : Raises (·.isMaking = false) (m.checkPair i j) := by
  refine (m.raises_checkClock i).bind fun _ => (m.raises_checkClock j).bind fun _ => ?_
  split
  · exact raises_ok _
  · split
    · exact raises_ok _
    · exact raises_error rfl

end Manager

end ZoneDiagram

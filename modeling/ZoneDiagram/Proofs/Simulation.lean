import Mathlib.Data.List.Forall2
import Mathlib.Logic.Relator
import Std.Data.TreeMap.Lemmas
import Std.Data.TreeSet.Lemmas
import ZoneDiagram.Error

/-!
# Simulations of computations

Two computations may be related by what they give: whenever the first gives a result, the second
gives a related one. Such a relation is given for a monad by a `Simulation`, if sequences are
related when their parts are. It passes on to computations with a state of their own, if the states
stay related (`Simulation.Pass`).

The states here are tables of results. Both computations look up and enter results under keys that
correspond one to one, so tables with the same entries under related keys stay so.
-/

namespace ZoneDiagram

/-- How results of one computation are results of another. -/
structure Simulation (M : Type → Type) [Monad M] where
  Rel : ∀ {α β : Type}, M α → M β → (α → β → Prop) → Prop
  pure : ∀ {α β : Type} {R : α → β → Prop} {a : α} {b : β}, R a b →
    Rel (Pure.pure a) (Pure.pure b) R
  bind : ∀ {α β γ δ : Type} {R : α → β → Prop} {Q : γ → δ → Prop} {x : M α} {y : M β}
    {f : α → M γ} {g : β → M δ}, Rel x y R → (∀ a b, R a b → Rel (f a) (g b) Q) →
      Rel (x >>= f) (y >>= g) Q

namespace Simulation

variable {M : Type → Type} [Monad M] (sim : Simulation M) {α β γ δ ι κ σ τ : Type}
  {R : α → β → Prop} {Q : γ → δ → Prop}

theorem mapM [LawfulMonad M] {f g : ι → M α} (is : List ι) (hf : ∀ i, sim.Rel (f i) (g i) Eq) :
    sim.Rel (is.mapM f) (is.mapM g) Eq := by
  induction is with
  | nil => exact sim.pure rfl
  | cons i is ih =>
    rw [List.mapM_cons, List.mapM_cons]
    exact sim.bind (hf i) fun _ _ first => sim.bind ih fun _ _ rest =>
      sim.pure (by rw [first, rest])

theorem foldlM {P : ι → κ → Prop} {f : α → ι → M α} {g : β → κ → M β} {is : List ι} {ks : List κ}
    (h : List.Forall₂ P is ks) (hf : ∀ a b i k, R a b → P i k → sim.Rel (f a i) (g b k) R) {a : α}
    {b : β} (start : R a b) : sim.Rel (is.foldlM f a) (ks.foldlM g b) R := by
  induction h generalizing a b with
  | nil => exact sim.pure start
  | cons head _ ih => exact sim.bind (hf _ _ _ _ start head) fun _ _ => ih

/-! ## States of their own -/

/-- The computations are related from related states on, and the states are after it. -/
def Pass (S : σ → τ → Prop) (x : StateT σ M α) (y : StateT τ M β) (R : α → β → Prop) : Prop :=
  ∀ s t, S s t → sim.Rel (x.run s) (y.run t) fun a b => R a.1 b.1 ∧ S a.2 b.2

variable {S : σ → τ → Prop} {x : StateT σ M α} {y : StateT τ M β}

theorem pass_pure {a : α} {b : β} (h : R a b) : sim.Pass S (Pure.pure a) (Pure.pure b) R :=
  fun _ _ hs => sim.pure ⟨h, hs⟩

theorem pass_bind {f : α → StateT σ M γ} {g : β → StateT τ M δ} (hx : sim.Pass S x y R)
    (hf : ∀ a b, R a b → sim.Pass S (f a) (g b) Q) : sim.Pass S (x >>= f) (y >>= g) Q :=
  fun s t hs => sim.bind (hx s t hs) fun a b h => hf a.1 b.1 h.1 a.2 b.2 h.2

theorem pass_lift {x : M α} {y : M β} (h : sim.Rel x y R) :
    sim.Pass S (liftM x : StateT σ M α) (liftM y : StateT τ M β) R :=
  fun _ _ hs => sim.bind h fun _ _ related => sim.pure ⟨related, hs⟩

theorem pass_get_bind [LawfulMonad M] {f : σ → StateT σ M α} {g : τ → StateT τ M β}
    (hf : ∀ s t, S s t → sim.Pass S (f s) (g t) R) : sim.Pass S (get >>= f) (get >>= g) R := by
  intro s t hs
  have left : (get >>= f).run s = (f s).run s := by simp
  have right : (get >>= g).run t = (g t).run t := by simp
  rw [left, right]
  exact hf s t hs s t hs

theorem pass_modify {f : σ → σ} {g : τ → τ} (hf : ∀ s t, S s t → S (f s) (g t)) :
    sim.Pass S (modify f) (modify g) fun _ _ => True :=
  fun s t hs => sim.pure ⟨trivial, hf s t hs⟩

theorem pass_mapM [LawfulMonad M] {P : ι → κ → Prop} {f : ι → StateT σ M α} {g : κ → StateT τ M β}
    {is : List ι} {ks : List κ} (h : List.Forall₂ P is ks)
    (hf : ∀ i k, P i k → sim.Pass S (f i) (g k) R) :
    sim.Pass S (is.mapM f) (ks.mapM g) (List.Forall₂ R) := by
  induction h with
  | nil => exact sim.pass_pure .nil
  | @cons i k is ks head _ ih =>
    rw [List.mapM_cons, List.mapM_cons]
    exact sim.pass_bind (hf i k head) fun _ _ first => sim.pass_bind ih fun _ _ rest =>
      sim.pass_pure (.cons first rest)

theorem pass_forM {P : ι → κ → Prop} {f : ι → StateT σ M PUnit} {g : κ → StateT τ M PUnit}
    {is : List ι} {ks : List κ} (h : List.Forall₂ P is ks)
    (hf : ∀ i k, P i k → sim.Pass S (f i) (g k) fun _ _ => True) :
    sim.Pass S (is.forM f) (ks.forM g) fun _ _ => True := by
  induction h with
  | nil => exact sim.pass_pure trivial
  | cons head _ ih => exact sim.pass_bind (hf _ _ head) fun _ _ _ => ih

end Simulation

/-- Plain results, where the first computation succeeds. -/
def results : Simulation (Except Error) where
  Rel r r' R := ∀ a, r = .ok a → ∃ b, r' = .ok b ∧ R a b
  pure h a eq := by
    cases eq
    exact ⟨_, rfl, h⟩
  bind hx hf c eq := by
    obtain ⟨a, first, rest⟩ := Except.bind_eq_ok_iff.1 eq
    obtain ⟨b, first', related⟩ := hx a first
    obtain ⟨d, rest', related'⟩ := hf a b related c rest
    exact ⟨d, Except.bind_eq_ok_iff.2 ⟨b, first', rest'⟩, related'⟩

theorem results_same {α : Type} {r : Except Error α} {P : α → Prop} (h : ∀ a, r = .ok a → P a) :
    results.Rel r r fun a b => a = b ∧ P a := fun a eq => ⟨a, eq, rfl, h a eq⟩

theorem results_pass_throw {α β σ τ : Type} {R : α → β → Prop} {S : σ → τ → Prop} {e : Error}
    {y : StateT τ (Except Error) β} :
    results.Pass S (throw e : StateT σ (Except Error) α) y R := fun _ _ _ _ eq => by cases eq

/-! ## Tables under corresponding keys -/

section Tables

variable {κ ν : Type} [Ord κ] {K : κ → κ → Prop} {k k' l l' : κ}

/-- The tables have the same entries under related keys. -/
def SameEntries (K : κ → κ → Prop) (t t' : Std.TreeMap κ ν) : Prop :=
  ∀ k k', K k k' → t'[k']? = t[k]?

/-- The sets have the same members up to the relation. -/
def SameMembers (K : κ → κ → Prop) (s s' : Std.TreeSet κ) : Prop :=
  ∀ k k', K k k' → s'.contains k' = s.contains k

theorem compare_eq_iff [Std.LawfulEqOrd κ] (unique : Relator.BiUnique K) (hk : K k k')
    (hl : K l l') : compare k' l' = .eq ↔ compare k l = .eq := by
  rw [Std.LawfulEqCmp.compare_eq_iff_eq, Std.LawfulEqCmp.compare_eq_iff_eq]
  exact (Relator.rel_eq unique hk hl).symm

theorem sameMembers_empty : SameMembers K ∅ ∅ := fun k k' _ => by simp

variable [Std.TransOrd κ]

theorem sameEntries_empty : SameEntries K (∅ : Std.TreeMap κ ν) ∅ := fun k k' _ => by simp

variable [Std.LawfulEqOrd κ]

theorem SameEntries.insert {t t' : Std.TreeMap κ ν} (h : SameEntries K t t')
    (unique : Relator.BiUnique K) (hk : K k k') (v : ν) :
    SameEntries K (t.insert k v) (t'.insert k' v) := by
  intro l l' hl
  simp only [Std.TreeMap.getElem?_insert, h l l' hl, compare_eq_iff unique hk hl]

theorem SameMembers.insert {s s' : Std.TreeSet κ} (h : SameMembers K s s')
    (unique : Relator.BiUnique K) (hk : K k k') : SameMembers K (s.insert k) (s'.insert k') := by
  intro l l' hl
  rw [Std.TreeSet.contains_insert, Std.TreeSet.contains_insert, h l l' hl, Bool.eq_iff_iff]
  simp [compare_eq_iff unique hk hl]

end Tables

end ZoneDiagram

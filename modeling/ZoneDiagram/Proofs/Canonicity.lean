import ZoneDiagram.Proofs.Combination
import ZoneDiagram.Proofs.Diagram.Unique

/-!
# Diagrams are canonical up to dependencies between differences

An assignment gives the difference of every level a value of its own, whether or not clocks could
have such differences.

**Theorem (`Reachable.handles_canonical`).** In a reachable manager, live diagrams are the same
handle exactly if they have the same truth under every assignment. So expressions that a law of
Boolean algebra makes equal are built as the same handle, in either order and whatever is
remembered.

The first part is about the nodes alone: the tree of a live handle is canonical, canonical trees are
known by their truth, and live handles by their trees. The second part follows because every step
of the building is exact under every assignment, not only under those that come from clocks.
-/

namespace ZoneDiagram

/-- A Boolean expression in numbered operands. -/
inductive Expression where
  | operand (i : Nat)
  | not (e : Expression)
  | combine (op : Connective) (e e' : Expression)

namespace Expression

/-- The truth of an expression, given that of its operands. -/
def truth (ρ : Nat → Bool) : Expression → Bool
  | operand i => ρ i
  | not e => !e.truth ρ
  | combine op e e' => op.onBool (e.truth ρ) (e'.truth ρ)

/-- Build the diagram of an expression from those of its operands. -/
def build (x : Nat → Handle) : Expression → ManagerM Handle
  | operand i => return x i
  | not e => do return -(← e.build x)
  | combine op e e' => do
    let f ← e.build x
    let g ← e'.build x
    Manager.apply op f g

end Expression

namespace Manager

variable {m : Manager} {f g : Handle} {x : Nat → Handle}

/-- **Live handles with the same truth are the same handle.** -/
theorem Nodes.eq_iff_eval_eq (hm : m.Nodes) (hf : m.Live f) (hg : m.Live g) :
    f = g ↔ ∀ d, m.eval d f = m.eval d g := by
  constructor
  · rintro rfl d
    rfl
  · intro same
    refine hm.eq_of_unfold_eq hf hg ?_
    refine Diagram.eq_of_eval_eq (hm.canonical_unfold hf) (hm.canonical_unfold hg) fun d => ?_
    rw [← hm.eval_eq hf, ← hm.eval_eq hg, same]

/-- Operands keep their truth. -/
theorem Grows.eval_operands {m' : Manager} (grows : m.Grows m') (hm : m.Sound)
    (hx : ∀ i, m.Live (x i)) (d : Assignment) :
    (fun i => m'.eval d (x i)) = fun i => m.eval d (x i) :=
  funext fun i => (hm.preserves grows).eval (x i) (hx i) d

/-- What is built has the truth of the expression under every assignment. -/
theorem build_runs (hm : m.Sound) (hx : ∀ i, m.Live (x i)) (e : Expression) :
    Runs m (e.build x) (fun r m' => m'.Live r ∧
      ∀ d, m'.eval d r = e.truth fun i => m.eval d (x i)) fun _ => False := by
  induction e generalizing m with
  | operand i => exact .pure hm ⟨hx i, fun d => rfl⟩
  | not e ih =>
    refine (ih hm hx).bind fun r m' grows ⟨live, truth⟩ => ?_
    refine .pure grows.sound ⟨live.neg, fun d => ?_⟩
    rw [eval_neg m' d (grows.sound.slot_ne_zero live), truth, Expression.truth]
  | combine op e e' ih ih' =>
    refine (ih hm hx).bind fun r m₁ grows ⟨hr, left⟩ => ?_
    have live (i : Nat) : m₁.Live (x i) := grows.keeps.live (hx i)
    refine (ih' grows.sound live).bind fun s m₂ grows' ⟨hs, right⟩ => ?_
    refine (apply_runs grows'.sound (grows'.keeps.live hr) hs).imp ?_ fun _ h => h
    intro u m₃ grows₃ applied
    refine ⟨applied.live, fun d => ?_⟩
    rw [applied.eval, (grows.sound.preserves (grows'.trans grows₃)).eval r hr, left,
      (grows'.sound.preserves grows₃).eval s hs, right, grows.eval_operands hm hx]
    rfl

/-- Expressions that are equal by Boolean algebra are built as the same handle. -/
theorem build_both_runs (hm : m.Sound) (hx : ∀ i, m.Live (x i)) {e e' : Expression}
    (law : ∀ ρ, e.truth ρ = e'.truth ρ) :
    Runs m (do return (← e.build x, ← e'.build x)) (fun r _ => r.1 = r.2) fun _ => False := by
  refine (build_runs hm hx e).both (fun m₁ grows => ?_) ?_ ?_
  · refine (build_runs grows.sound (fun i => grows.keeps.live (hx i)) e').imp ?_ fun _ h => h
    rintro r m₂ - ⟨live, truth⟩
    refine ⟨live, fun d => ?_⟩
    rw [truth, grows.eval_operands hm hx, law]
  · rintro m₁ m₂ r grows grows' ⟨live, truth⟩
    have preserves := grows.sound.preserves grows'
    exact ⟨preserves.live r live, fun d => (preserves.eval r live d).trans (truth d)⟩
  · rintro m' r s sound ⟨hr, left⟩ ⟨hs, right⟩
    exact (sound.eq_iff_eval_eq hr hs).2 fun d => (left d).trans (right d).symm

/-- **Diagrams are canonical**, and Boolean algebra holds of handles. Building fails only if every
slot of the store is taken. -/
theorem Reachable.handles_canonical (h : m.Reachable) :
    (∀ f g, m.Live f → m.Live g → (f = g ↔ ∀ d, m.eval d f = m.eval d g)) ∧
    ∀ x : Nat → Handle, (∀ i, m.Live (x i)) → ∀ e e' : Expression,
      (∀ ρ, e.truth ρ = e'.truth ρ) →
        m.Gives (do return (← e.build x, ← e'.build x)) fun r _ => r.1 = r.2 :=
  ⟨fun _ _ hf hg => h.sound.eq_iff_eval_eq hf hg,
    fun _ hx _ _ law => (build_both_runs h.sound hx law).gives h.sound⟩

/-! ## Distributivity on three bands -/

/-- The three bands. -/
def band : Nat → Handle
  | 0 => ⟨-2⟩
  | 1 => ⟨-3⟩
  | _ => ⟨-4⟩

/-- The first band within one of the others. -/
def factored : Expression := .combine .and (.operand 0) (.combine .or (.operand 1) (.operand 2))

/-- The first band within the second one, or the first within the third. -/
def expanded : Expression :=
  .combine .or (.combine .and (.operand 0) (.operand 1)) (.combine .and (.operand 0) (.operand 2))

theorem canonical_bands : ((⟨-2⟩ : Handle) = ⟨-3⟩ ↔ ∀ d, bands.eval d ⟨-2⟩ = bands.eval d ⟨-3⟩) ∧
    ∃ r m', (do return (← factored.build band, ← expanded.build band) : ManagerM _) bands =
      .ok r m' ∧ r.1 = r.2 := by
  have stored : ∀ f ∈ [⟨-2⟩, ⟨-3⟩, ⟨-4⟩], bands.Live f := by decide +kernel
  have live (i : Nat) : bands.Live (band i) := stored _ <| by
    unfold band
    split <;> simp
  obtain ⟨unique, laws⟩ := reachable_bands.handles_canonical
  refine ⟨unique _ _ (live 0) (live 1), (laws band live factored expanded fun ρ => ?_).of_isSome ?_⟩
  · exact Bool.and_or_distrib_left (ρ 0) (ρ 1) (ρ 2)
  · decide +kernel

end Manager

end ZoneDiagram

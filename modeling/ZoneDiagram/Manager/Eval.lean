import ZoneDiagram.Valuation
import ZoneDiagram.Manager.Basic

/-!
# The meaning of diagrams

A diagram is evaluated by following, at every decision node, the edge whose interval contains the
value of the difference that the node tests; every complement on the way flips the answer. The
differences may have any values, one for every level. A valuation of the clocks gives them the
values that belong together.
-/

namespace ZoneDiagram

/-- A value for the difference of every level. -/
abbrev Assignment := Nat → Rat

/-- The differences of the clocks. -/
def Valuation.differences (v : Valuation) : Assignment := fun level =>
  match ClockPair.ofLevel level with
  | .ok pair => v pair.i - v pair.j
  | .error _ => 0

namespace Manager

/-- The truth of a diagram whose paths visit fewer nodes than `depth`. -/
def evalWithin (m : Manager) (d : Assignment) : Nat → Handle → Bool
  | 0, _ => false
  | depth + 1, f =>
    let root :=
      if f.isTerminal then true
      else match m.store.get? f.slot with
        | none => false
        | some node =>
          match CutList.itemAt? (d node.level) node.edges with
          | none => false
          | some child => m.evalWithin d depth child
    f.isNegated ^^ root

/-- The truth of a diagram under an assignment of differences. -/
def eval (m : Manager) (d : Assignment) (f : Handle) : Bool := m.evalWithin d m.depth f

/-- The valuation is in the federation of the diagram. -/
def Holds (m : Manager) (f : Handle) (v : Valuation) : Prop := m.eval v.differences f = true

instance (m : Manager) (f : Handle) (v : Valuation) : Decidable (m.Holds f v) :=
  inferInstanceAs (Decidable (m.eval v.differences f = true))

theorem eval_one (m : Manager) (d : Assignment) : m.eval d .one = true := rfl

theorem eval_zero (m : Manager) (d : Assignment) : m.eval d .zero = false := rfl

theorem not_holds_zero (m : Manager) (v : Valuation) : ¬m.Holds .zero v := Bool.false_ne_true

theorem eval_neg (m : Manager) (d : Assignment) {f : Handle} (hf : f.slot ≠ 0) :
    m.eval d (-f) = !m.eval d f := by
  have flip : (-f).isNegated = !f.isNegated := Handle.isNegated_neg hf
  simp [eval, depth, evalWithin, flip, Handle.isTerminal]

end Manager

end ZoneDiagram

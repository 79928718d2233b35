import ZoneDiagram.Handle.Basic

/-!
# Handles and their complements

A handle is its slot and its sign, and complement keeps the slot.
-/

namespace ZoneDiagram.Handle

variable {f g : Handle}

theorem eq_of_slot_of_isNegated (slot : f.slot = g.slot) (sign : f.isNegated = g.isNegated) :
    f = g := by
  have regular : f.regular = g.regular := congrArg ofSlot slot
  rw [← applySign_regular f, ← applySign_regular g, applySign, applySign, regular, sign]

@[simp] theorem slot_applySign (f g : Handle) : (f.applySign g).slot = g.slot := by
  unfold applySign
  split
  · exact slot_neg g
  · rfl

theorem isNegated_applySign (hg : g.slot ≠ 0) :
    (f.applySign g).isNegated = (f.isNegated ^^ g.isNegated) := by
  unfold applySign
  split
  next h => rw [isNegated_neg hg, h, Bool.true_xor]
  next h => rw [eq_false_of_ne_true h, Bool.false_xor]

theorem applySign_of_isNegated_eq_false (h : f.isNegated = false) (g : Handle) :
    f.applySign g = g := if_neg (by rw [h]; exact Bool.false_ne_true)

theorem applySign_of_isNegated (h : f.isNegated = true) (g : Handle) : f.applySign g = -g :=
  if_pos h

/-- The sign of a complement is the other one. -/
theorem applySign_neg (hf : f.slot ≠ 0) (g : Handle) : (-f).applySign g = -f.applySign g := by
  unfold applySign
  rw [isNegated_neg hf]
  cases f.isNegated with
  | true => exact (neg_neg g).symm
  | false => rfl

@[simp] theorem slot_regular (f : Handle) : f.regular.slot = f.slot := slot_ofSlot f.slot

@[simp] theorem isNegated_regular (f : Handle) : f.regular.isNegated = false :=
  decide_eq_false (Int.not_lt.2 (Int.natCast_nonneg f.slot))

@[simp] theorem regular_neg (f : Handle) : (-f).regular = f.regular := congrArg ofSlot (slot_neg f)

theorem neg_injective (h : -f = -g) : f = g := by
  rw [← neg_neg f, h, neg_neg]

/-- The sign of a diagram taken twice is taken off again. -/
@[simp] theorem applySign_applySign (f g : Handle) : f.applySign (f.applySign g) = g := by
  cases sign : f.isNegated with
  | true => rw [applySign_of_isNegated sign, applySign_of_isNegated sign, neg_neg]
  | false =>
    rw [applySign_of_isNegated_eq_false sign, applySign_of_isNegated_eq_false sign]

theorem applySign_injective {h : Handle} (eq : f.applySign g = f.applySign h) : g = h := by
  unfold applySign at eq
  split at eq
  · exact neg_injective eq
  · exact eq

/-- The complement, if the flag is set. -/
def negIf : Bool → Handle → Handle
  | true, f => -f
  | false, f => f

theorem negIf_negIf (b : Bool) (f : Handle) : (f.negIf b).negIf b = f := by
  cases b
  · rfl
  · exact neg_neg f

theorem isTerminal_iff : f.isTerminal = true ↔ f.slot = one.slot := beq_iff_eq

theorem isTerminal_eq_false_iff : f.isTerminal = false ↔ f.slot ≠ one.slot := beq_eq_false_iff_ne

@[simp] theorem isTerminal_neg (f : Handle) : (-f).isTerminal = f.isTerminal := by
  rw [isTerminal, isTerminal, slot_neg]

@[simp] theorem isTerminal_regular (f : Handle) : f.regular.isTerminal = f.isTerminal := by
  rw [isTerminal, isTerminal, slot_regular]

/-- The first slot has two diagrams only. -/
theorem eq_one_or_eq_zero (h : f.isTerminal = true) : f = one ∨ f = zero := by
  have slot := isTerminal_iff.1 h
  cases sign : f.isNegated with
  | false => exact .inl (eq_of_slot_of_isNegated slot (sign.trans (by decide)))
  | true => exact .inr (eq_of_slot_of_isNegated (slot.trans (by decide)) (sign.trans (by decide)))

end ZoneDiagram.Handle

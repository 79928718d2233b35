/-!
# Handles

A diagram is named by the slot of its root node, and a sign that says whether it is complemented.
Both share one integer: the magnitude is the slot, a negative sign the complement. So the
complement of a whole diagram is negation, which is an involution.
-/

namespace ZoneDiagram

/-- A diagram: the slot of its root node, negative if complemented. -/
structure Handle where
  /-- The slot, signed. -/
  raw : Int
  deriving DecidableEq, Inhabited, Repr

namespace Handle

/-- Handles are ordered as signed integers, so complemented diagrams come first. -/
instance : Ord Handle := ⟨compareOn raw⟩

instance : Std.TransOrd Handle := inferInstanceAs (Std.TransCmp (compareOn raw))

instance : Std.LawfulEqOrd Handle where
  eq_of_compare h := congrArg mk (Std.LawfulEqOrd.eq_of_compare h)

instance : LE Handle := ⟨fun f g => f.raw ≤ g.raw⟩

instance (f g : Handle) : Decidable (f ≤ g) := inferInstanceAs (Decidable (f.raw ≤ g.raw))

/-- The diagram rooted at a slot, not complemented. -/
def ofSlot (slot : Nat) : Handle := ⟨slot⟩

/-- The slot of the root node. -/
def slot (f : Handle) : Nat := f.raw.natAbs

/-- The diagram is the complement of its root node. -/
def isNegated (f : Handle) : Bool := decide (f.raw < 0)

/-- Complement of the whole diagram. -/
def neg (f : Handle) : Handle := ⟨-f.raw⟩

instance : Neg Handle := ⟨neg⟩

/-- The same root node without the complement. -/
def regular (f : Handle) : Handle := ofSlot f.slot

/-- Complement `g` if `f` is complemented. -/
def applySign (f g : Handle) : Handle := if f.isNegated then -g else g

/-- The federation of all valuations: the terminal node, which sits in the first slot. -/
def one : Handle := ofSlot 1

/-- The empty federation: the complement of the terminal node. -/
def zero : Handle := -one

/-- The diagram is one of the two constants. -/
def isTerminal (f : Handle) : Bool := f.slot == one.slot

/-- A handle reads `@5`, or `~@5` if complemented. -/
def text (f : Handle) : String := (if f.isNegated then "~@" else "@") ++ toString f.slot

instance : ToString Handle := ⟨text⟩

@[simp] theorem neg_neg (f : Handle) : - -f = f :=
  congrArg Handle.mk (Int.neg_neg f.raw)

@[simp] theorem slot_neg (f : Handle) : (-f).slot = f.slot :=
  Int.natAbs_neg f.raw

@[simp] theorem slot_ofSlot (slot : Nat) : (ofSlot slot).slot = slot :=
  Int.natAbs_natCast slot

theorem isNegated_neg {f : Handle} (hf : f.slot ≠ 0) : (-f).isNegated = !f.isNegated := by
  have nonzero : f.raw ≠ 0 := fun h => hf (by rw [slot, h]; rfl)
  change decide (-f.raw < 0) = !decide (f.raw < 0)
  by_cases h : f.raw < 0
  · rw [decide_eq_true h, decide_eq_false (by omega)]
    rfl
  · rw [decide_eq_false h, decide_eq_true (by omega)]
    rfl

theorem applySign_regular (f : Handle) : f.applySign f.regular = f := by
  obtain ⟨raw⟩ := f
  unfold applySign isNegated
  split
  next h =>
    have : raw < 0 := of_decide_eq_true h
    exact congrArg Handle.mk (show -(raw.natAbs : Int) = raw by omega)
  next h =>
    have : ¬ raw < 0 := fun lt => h (decide_eq_true lt)
    exact congrArg Handle.mk (show (raw.natAbs : Int) = raw by omega)

end Handle

end ZoneDiagram

import ZoneDiagram.Error

/-!
# Difference bounds

A bound says `d < c` or `d ≤ c` of a difference `d` of two clocks. Constant and strictness share
one integer: `2 * c` for the strict bound and `2 * c + 1` for the weak one. So the order of the
integers is the order of tightness: `< c` is tighter than `≤ c`, which is tighter than `< c + 1`.

The largest integer that fits the encoding stands for the missing constraint. Sums are clamped to
the encoding, and a finite sum never becomes infinite.
-/

namespace ZoneDiagram

/-- An upper bound on a difference, strict or weak. -/
structure Bound where
  /-- The constant and the strictness, packed. -/
  raw : Int
  deriving DecidableEq, Inhabited, Repr

namespace Bound

instance : LE Bound := ⟨fun a b => a.raw ≤ b.raw⟩

instance : LT Bound := ⟨fun a b => a.raw < b.raw⟩

instance (a b : Bound) : Decidable (a ≤ b) := inferInstanceAs (Decidable (a.raw ≤ b.raw))

instance (a b : Bound) : Decidable (a < b) := inferInstanceAs (Decidable (a.raw < b.raw))

/-- The tighter bound comes first. -/
instance : Ord Bound := ⟨compareOn raw⟩

instance : Std.TransOrd Bound := inferInstanceAs (Std.TransCmp (compareOn raw))

instance : Std.LawfulEqOrd Bound where
  eq_of_compare h := congrArg mk (Std.LawfulEqOrd.eq_of_compare h)

instance : Min Bound := ⟨fun a b => if a ≤ b then a else b⟩

/-! ## The encoding -/

/-- The largest magnitude of a constant. -/
def maxValue : Int := 1073741822

/-- The least integer of the encoding. -/
def leastRaw : Int := -2147483648

/-- The greatest integer of the encoding. -/
def greatestRaw : Int := 2147483647

/-- The strict bound `< c`. -/
def strict (c : Int) : Bound := ⟨2 * c⟩

/-- The weak bound `≤ c`. -/
def weak (c : Int) : Bound := ⟨2 * c + 1⟩

/-- No constraint. -/
def infinity : Bound := ⟨greatestRaw⟩

/-- The bound `≤ 0`, which stands on the diagonal of a consistent matrix. -/
def zero : Bound := weak 0

/-- The bound `< 0`, which no clock meets against itself. -/
def negative : Bound := strict 0

/-- The constant. -/
def value (b : Bound) : Int := b.raw / 2

/-- The bound excludes its constant. -/
def isStrict (b : Bound) : Bool := b.raw % 2 == 0

/-- The bound is no constraint. -/
def isInfinity (b : Bound) : Bool := b == infinity

/-- The constant fits the encoding. -/
def representable (c : Int) : Bool := decide (-maxValue ≤ c ∧ c ≤ maxValue)

/-- A constant that fits the encoding, or the error that says that it does not. -/
def checkValue (c : Int) : Except Error Int :=
  if representable c then .ok c else .error (.valueOutOfRange c maxValue)

/-! ## Sums and complements -/

/-- Keep a finite sum inside the encoding, below the missing constraint. -/
def clamp (raw : Int) : Int := max leastRaw (min raw (greatestRaw - 2))

/-- The bound along two steps of a path: the constants add up, and the sum is strict if one of the
bounds is. Two weak bounds carry their mark twice, and one mark too many is taken off. -/
def add (a b : Bound) : Bound :=
  if a.isInfinity || b.isInfinity then infinity
  else ⟨clamp (a.raw + b.raw - if a.isStrict && b.isStrict then 0 else 1)⟩

instance : Add Bound := ⟨add⟩

/-- The bound on `-d` that holds exactly when `d` breaks this one: not `d ≤ c` is `-d < -c`, and
not `d < c` is `-d ≤ -c`. Meant for finite bounds. -/
def complement (b : Bound) : Bound := ⟨1 - b.raw⟩

/-- The complement of a finite bound. -/
def complement? (b : Bound) : Except Error Bound :=
  if b.isInfinity then .error .infinityComplement else .ok b.complement

/-! ## Text -/

/-- A bound reads `<=4`, `<-2` or `<=inf`. -/
def text (b : Bound) : String :=
  if b.isInfinity then "<=inf"
  else if b.isStrict then s!"<{b.value}"
  else s!"<={b.value}"

instance : ToString Bound := ⟨text⟩

/-- Read a bound from its text. -/
def ofText? (s : String) : Option Bound :=
  match s.toList with
  | '<' :: '=' :: rest =>
    if rest = ['i', 'n', 'f'] then some infinity else (String.ofList rest).toInt?.map weak
  | '<' :: rest => (String.ofList rest).toInt?.map strict
  | _ => none

/-! ## Small laws -/

@[simp] theorem value_strict (c : Int) : (strict c).value = c := by
  simp only [value, strict]
  omega

@[simp] theorem value_weak (c : Int) : (weak c).value = c := by
  simp only [value, weak]
  omega

@[simp] theorem complement_complement (b : Bound) : b.complement.complement = b :=
  congrArg Bound.mk (by simp only [complement]; omega)

end Bound

end ZoneDiagram

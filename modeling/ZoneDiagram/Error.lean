import ZoneDiagram.Handle.Basic
import ZoneDiagram.ClockPair.Basic

/-!
# Errors

One constructor for each way in which an operation of the library can fail, and the text of each.

Three of them are assertions that only a build for debugging makes: `improperCuts`,
`emptyRestriction` and `emptySample`. Another build goes on where they fail. The library is
described here with its assertions and its checks of overflow.
-/

namespace ZoneDiagram

/-- Why an operation failed. -/
inductive Error where
  /-- A matrix does not match the active clocks, or two matrices differ in dimension. -/
  | dimensionMismatch (expected found : Nat)
  /-- A constraint names a clock that does not exist. -/
  | clockOutOfRange (clock clocks : Nat)
  /-- A constraint relates a clock to itself. -/
  | sameClock (clock : Nat)
  /-- A constant does not fit the encoding of bounds. -/
  | valueOutOfRange (value limit : Int)
  /-- A zone was requested from an empty federation. -/
  | emptyFederation
  /-- Every slot of the store is taken. -/
  | storeFull (capacity : Nat)
  /-- A store cannot have this number of slots. -/
  | badCapacity
  /-- The sentry slot was named. -/
  | sentrySlot
  /-- A position outside an array was named. -/
  | indexOutOfBounds
  /-- A slot was to be dropped that holds nothing. -/
  | notOccupied (slot : Nat)
  /-- A bucket has more slots than there are. -/
  | endlessBucket
  /-- A slot number is too large for a handle. -/
  | slotTooLarge
  /-- A cache cannot have this number of sets. -/
  | badCacheSize (bits : Nat)
  /-- More clocks than a manager can hold. -/
  | tooManyClocks (clocks limit : Nat)
  /-- A sum of two counts does not fit a word. -/
  | sumOverflow
  /-- A matrix without the reference clock. -/
  | noReferenceClock
  /-- A matrix cannot be projected onto no clocks, nor onto more clocks than it has. -/
  | badProjection (dim target : Nat)
  /-- The clocks of a pair are in the wrong order. -/
  | reversedPair (i j : Nat)
  /-- The terminal level tests no difference. -/
  | terminalLevel
  /-- A terminal diagram tests no difference. -/
  | terminalDiagram
  /-- A level whose pair cannot be found with products of 32 bits. -/
  | levelTooLarge (level : Nat)
  /-- No bound describes the complement of a missing constraint. -/
  | infinityComplement
  /-- Random constants cannot be drawn from this range. -/
  | badRange (range limit : Int)
  /-- A generated zone came out empty. -/
  | emptySample
  /-- A node was requested without edges. -/
  | noEdges
  /-- A node was requested whose cuts do not increase up to the end of the line. -/
  | improperCuts
  /-- A context excludes every value of a difference. -/
  | noFeasibleEdge (pair : ClockPair)
  /-- A context became empty although the cut was admitted. -/
  | emptyRestriction
  /-- An extracted zone is empty. -/
  | extractedEmpty (diagram : Handle)
  /-- An extracted zone is not closed. -/
  | extractedOpen (diagram : Handle)
  /-- A reduction looked for a state that was never collected. -/
  | missingState
  /-- A path is longer than there are levels. -/
  | tooDeep
  deriving DecidableEq, Repr

namespace Error

/-- The text of an error. -/
def message : Error → String
  | dimensionMismatch expected found =>
    s!"dimension mismatch: expected {expected} clocks, found {found}"
  | clockOutOfRange clock clocks => s!"clock {clock} is out of range for {clocks} clocks"
  | sameClock clock => s!"constraint relates clock {clock} to itself"
  | valueOutOfRange value limit =>
    s!"constant {value} is out of range, bounds must lie within -{limit}..={limit}"
  | emptyFederation => "cannot extract a zone from an empty federation"
  | storeFull capacity => s!"Node store is full ({capacity} nodes)"
  | badCapacity => "Table capacity should be in the range 1..2^31-1"
  | sentrySlot => "Index is 0"
  | indexOutOfBounds => "index out of bounds"
  | notOccupied slot => s!"Index {slot} is not occupied"
  | endlessBucket => "A bucket has more slots than there are"
  | slotTooLarge => "Node index does not fit into a reference"
  | badCacheSize bits => s!"Cache bits must be in range 0..=31, got {bits}"
  | tooManyClocks clocks limit => s!"Too many clocks: {clocks} (max {limit})"
  | sumOverflow => "attempt to add with overflow"
  | noReferenceClock => "A matrix needs at least the reference clock"
  | badProjection dim target => s!"Cannot project {dim} clocks onto {target}"
  | reversedPair i j => s!"Clock pair must satisfy i > j, got ({i}, {j})"
  | terminalLevel => "Terminal level has no clock pair"
  | terminalDiagram => "Terminal node has no clock pair"
  | levelTooLarge level => s!"Level {level} is too large"
  | infinityComplement => "Infinity has no complement"
  | badRange range limit => s!"Range must be in 1..={limit}, got {range}"
  | emptySample => "The chosen valuation satisfies every constraint"
  | noEdges => "Decision node without edges"
  | improperCuts => "Cuts must increase up to the end of the line"
  | noFeasibleEdge pair => s!"Context admits no interval of {pair}"
  | emptyRestriction => "An admitted cut left no valuation"
  | extractedEmpty diagram => s!"Extracted an empty zone from {diagram}"
  | extractedOpen diagram => s!"Extracted a non-closed zone from {diagram}"
  | missingState => "A visited state was not collected"
  | tooDeep => "A path is longer than the number of levels"

instance : ToString Error := ⟨message⟩

end Error

/-- A sequence succeeds if both of its parts do. -/
theorem Except.bind_eq_ok_iff {ε α β : Type} {x : Except ε α} {f : α → Except ε β} {b : β} :
    x >>= f = .ok b ↔ ∃ a, x = .ok a ∧ f a = .ok b := by
  cases x with
  | error e => exact iff_of_false nofun nofun
  | ok a => exact ⟨fun h => ⟨a, rfl, h⟩, fun ⟨_, eq, h⟩ => by cases eq; exact h⟩

end ZoneDiagram

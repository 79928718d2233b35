import ZoneDiagram.Error

/-!
# From levels back to pairs

The first clock of the pair on a level is the largest `i` with `triangle i ≤ level`. A starting
guess from a square root is corrected downwards, then upwards, so the guess decides only how many
steps are taken. The products on the way must fit into 32 bits; they do for every level that a
pair of clocks below 65536 has.
-/

namespace ZoneDiagram.ClockPair

/-- The pair of two clocks, the later one first. -/
def of? (i j : Nat) : Except Error ClockPair :=
  if lt : j < i then .ok ⟨i, j, lt⟩ else .error (.reversedPair i j)

/-- The number of pairs below `i`, as long as the product fits into 32 bits. -/
def triangle? (level i : Nat) : Except Error Nat :=
  if i * (i - 1) < 4294967296 then .ok (triangle i) else .error (.levelTooLarge level)

/-- Step down from a guess until its triangle no longer exceeds the level. -/
def descend (level : Nat) : Nat → Except Error Nat
  | 0 => .ok 0
  | i + 1 => do
    if level < (← triangle? level (i + 1)) then descend level i else return i + 1

/-- Step up while the next triangle is still within the level. -/
def climb (level : Nat) : Nat → Nat → Except Error Nat
  | 0, i => .ok i
  | steps + 1, i => do
    if (← triangle? level (i + 1)) ≤ level then climb level steps (i + 1) else return i

/-- The pair on a level, found from a starting guess for its first clock. -/
def ofLevelFrom (guess level : Nat) : Except Error ClockPair := do
  let i ← climb level (level + 1) (← descend level guess)
  of? i (level - triangle i)

/-- The integer square root of a number below `4 ^ bits`, one binary digit at a time. -/
def squareRoot (n : Nat) : Nat → Nat → Nat
  | 0, root => root
  | bits + 1, root =>
    let larger := root + 1 <<< bits
    squareRoot n bits (if larger * larger ≤ n then larger else root)

/-- The pair on a level. -/
def ofLevel (level : Nat) : Except Error ClockPair :=
  if level = ClockPair.terminalLevel then .error .terminalLevel
  else ofLevelFrom (max 1 (squareRoot (2 * level) 17 0)) level

end ZoneDiagram.ClockPair

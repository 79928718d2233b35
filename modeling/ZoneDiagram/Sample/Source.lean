import ZoneDiagram.Digest

/-!
# Sources of random draws

A source draws coins, and naturals up to a given limit. Nothing is said about the distribution:
whatever a source draws, the naturals stay within the limit.

A stream of 64-bit words is such a source. It begins with a given list of words and goes on with
the words of a counter that is advanced by a fixed odd step and mixed. A coin is the highest bit of
a word. A natural up to a limit comes from the low 32 bits of a word, scaled to the limit; words
that would favour some values are passed over.
-/

namespace ZoneDiagram.Sample

/-- A way to draw coins and limited naturals, with its own state. -/
structure Source (σ : Type) where
  coin : StateM σ Bool
  upTo (limit : Nat) : StateM σ (Fin (limit + 1))

/-- An endless stream of words: those still listed, then mixed words of a counter. -/
structure Words where
  listed : List UInt64
  counter : UInt64
  /-- The number of words drawn so far. -/
  used : Nat

namespace Words

/-- The step of the counter. -/
def step : UInt64 := 0x9e3779b97f4a7c15

/-- Draw the next word. -/
def next : StateM Words UInt64 := fun ws =>
  match ws.listed with
  | w :: listed => (w, { ws with listed := listed, used := ws.used + 1 })
  | [] =>
    let counter := ws.counter + step
    (Digest.mix counter, { ws with counter := counter, used := ws.used + 1 })

/-- A coin: the highest bit of a word is clear. -/
def coin : StateM Words Bool := do return (← next) < 0x8000000000000000

/-- The low 32 bits of a word. -/
def low32 (w : UInt64) : Nat := w.toNat % 4294967296

/-- Scale 32 bits to a natural up to a limit. -/
def scale (limit v : Nat) : Fin (limit + 1) := Fin.ofNat (limit + 1) (v * (limit + 1) / 4294967296)

/-- The largest remainder of a scaled word that is not passed over: the largest product of
`limit + 1` and a power of two below `2 ^ 32`, less one. -/
def zone (limit : Nat) : Nat := (limit + 1) <<< (31 - (limit + 1).log2) - 1

/-- Draw words until one is not passed over; the last attempt takes what comes. -/
def drawUpTo (limit : Nat) : Nat → StateM Words (Fin (limit + 1))
  | 0 => do return scale limit (low32 (← next))
  | attempts + 1 => do
    let v := low32 (← next)
    if v * (limit + 1) % 4294967296 ≤ zone limit then return scale limit v
    else drawUpTo limit attempts

/-- How many words may be passed over in one draw, beyond those listed. Every mixed word is passed
over with a chance below one half. -/
def patience : Nat := 4096

/-- A natural up to a limit. -/
def upTo (limit : Nat) : StateM Words (Fin (limit + 1)) := do
  drawUpTo limit ((← get).listed.length + patience)

/-- A stream of words as a source. -/
def source : Source Words := ⟨coin, upTo⟩

/-- The stream that lists some words and then counts from a seed. -/
def ofSeed (listed : List UInt64) (seed : UInt64) : Words := ⟨listed, seed, 0⟩

end Words

end ZoneDiagram.Sample

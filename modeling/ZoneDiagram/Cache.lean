import ZoneDiagram.Error

/-!
# Set-associative caches

A cache is a row of sets, and the digest of a key selects its set. A set has four ways, each with
room for one entry. A key that enters a full set takes the place of the entry that was used least
recently. The order of use of the ways is packed into one byte.

Every entry carries the generation in which it was written, and only entries of the present
generation count. So clearing is one step: it begins a new generation. When the generations are used
up, it starts again with the first one, and all entries are marked as written before.

The cache counts its hits, its misses, and as faults the misses in sets that held other keys.
-/

namespace ZoneDiagram

/-! ## The order of use -/

/-- The numbers of the four ways of a set in order of use, the most recent in the lowest two
bits. -/
structure Recency where
  code : UInt8
  deriving DecidableEq, Repr

namespace Recency

/-- The number of ways of a set. -/
def wayCount : Nat := 4

/-- The ways count as used in their order. -/
def initial : Recency := ⟨0b11_10_01_00⟩

/-- The way at a place of the order. -/
def wayAt (r : Recency) (place : Nat) : Nat :=
  ((r.code >>> (2 * place).toUInt8) &&& 0b11).toNat

/-- The way that was not used for the longest time. -/
def leastRecent (r : Recency) : Nat := r.wayAt (wayCount - 1)

/-- The place of a way in the order. -/
def placeOf (r : Recency) (way : Nat) : Nat :=
  ((List.range wayCount).find? (r.wayAt · == way)).getD 0

/-- Move a way to the front of the order. The ways before it move up by one place, and those after
it stay where they are. -/
def promote (r : Recency) (way : Nat) : Recency :=
  let place := r.placeOf way
  if place = 0 then r
  else
    let before := r.code &&& (((1 : UInt16) <<< (2 * place).toUInt16) - 1).toUInt8
    let after := r.code &&& ((0xFF : UInt16) <<< (2 * (place + 1)).toUInt16).toUInt8
    ⟨way.toUInt8 ||| (before <<< 2) ||| after⟩

end Recency

/-! ## Sets -/

/-- A key with its value, and the generation in which it was written. -/
structure CacheEntry (κ ν : Type) where
  key : κ
  value : ν
  generation : UInt64

/-- The ways of a set, and the order in which they were used. -/
structure CacheSet (κ ν : Type) where
  ways : List (Option (CacheEntry κ ν))
  recency : Recency

namespace CacheSet

variable {κ ν : Type}

/-- A set without entries. -/
def empty : CacheSet κ ν := ⟨List.replicate Recency.wayCount none, .initial⟩

instance : Inhabited (CacheSet κ ν) := ⟨empty⟩

/-- What a way holds in a generation. -/
def valid (generation : UInt64) (way : Option (CacheEntry κ ν)) : Option (CacheEntry κ ν) :=
  way.filter (·.generation == generation)

/-- Some way holds an entry of the generation. -/
def isOccupied (s : CacheSet κ ν) (generation : UInt64) : Bool :=
  s.ways.any fun way => (valid generation way).isSome

/-- The way that holds a key in a generation. -/
def wayOf? [BEq κ] (s : CacheSet κ ν) (generation : UInt64) (key : κ) : Option Nat :=
  s.ways.findIdx? fun way => (valid generation way).any (·.key == key)

/-- The first way without an entry of the generation. -/
def freeWay? (s : CacheSet κ ν) (generation : UInt64) : Option Nat :=
  s.ways.findIdx? fun way => (valid generation way).isNone

/-- Make a way the most recently used one. -/
def promote (s : CacheSet κ ν) (way : Nat) : CacheSet κ ν :=
  { s with recency := s.recency.promote way }

/-- Write an entry into a way, which becomes the most recently used one. -/
def write (s : CacheSet κ ν) (way : Nat) (entry : CacheEntry κ ν) : CacheSet κ ν :=
  promote { s with ways := s.ways.set way (some entry) } way

/-- The value of the entry in a way. -/
def valueAt? (s : CacheSet κ ν) (way : Nat) : Option ν :=
  (s.ways[way]?).join.map (·.value)

/-- The way for a key that is written: its own, or else a free one, or else the least recent. -/
def target [BEq κ] (s : CacheSet κ ν) (generation : UInt64) (key : κ) : Nat :=
  ((s.wayOf? generation key).or (s.freeWay? generation)).getD s.recency.leastRecent

/-- Mark all entries as written before any generation. -/
def outdate (s : CacheSet κ ν) : CacheSet κ ν :=
  { s with ways := s.ways.map (·.map fun e => { e with generation := 0 }) }

end CacheSet

/-! ## Caches -/

/-- A bounded store of results that forgets what was not used lately. -/
structure Cache (κ ν : Type) where
  sets : Array (CacheSet κ ν)
  generation : UInt64
  hits : Nat
  misses : Nat
  faults : Nat

namespace Cache

variable {κ ν : Type}

/-- A cache of `2 ^ bits` sets without entries. -/
def empty (bits : Nat) : Cache κ ν := ⟨Array.replicate (1 <<< bits) .empty, 1, 0, 0, 0⟩

/-- The largest number of bits that select a set. -/
def maxBits : Nat := 31

/-- A cache of `2 ^ bits` sets, for a number of bits that is checked. -/
def empty? (bits : Nat) : Except Error (Cache κ ν) :=
  if bits ≤ maxBits then .ok (empty bits) else .error (.badCacheSize bits)

/-- The number of bits that select a set among enough sets for a number of entries. -/
def bitsFor (entries : Nat) : Nat :=
  (max 1 ((entries + Recency.wayCount - 1) / Recency.wayCount)).nextPowerOfTwo.log2

/-- A cache with room for at least a number of entries. -/
def withCapacity? (entries : Nat) : Except Error (Cache κ ν) := empty? (bitsFor entries)

/-- The number of entries that the cache has room for. -/
def capacity (c : Cache κ ν) : Nat := c.sets.size * Recency.wayCount

/-- The number of the set that a key belongs to. -/
def setOf [Hashable κ] (c : Cache κ ν) (key : κ) : Nat := (hash key).toNat % c.sets.size

/-- Look up a key. A hit makes its way the most recently used one. -/
def get [BEq κ] [Hashable κ] (c : Cache κ ν) (key : κ) : Option ν × Cache κ ν :=
  let i := c.setOf key
  let s := c.sets.getD i .empty
  match s.wayOf? c.generation key with
  | some way =>
    (s.valueAt? way, { c with sets := c.sets.setIfInBounds i (s.promote way), hits := c.hits + 1 })
  | none =>
    let fault := if s.isOccupied c.generation then 1 else 0
    (none, { c with misses := c.misses + 1, faults := c.faults + fault })

/-- Store a value under a key. -/
def insert [BEq κ] [Hashable κ] (c : Cache κ ν) (key : κ) (value : ν) : Cache κ ν :=
  let i := c.setOf key
  let generation := c.generation
  { c with
    sets := c.sets.modify i fun s => s.write (s.target generation key) ⟨key, value, generation⟩ }

/-- Forget every entry by beginning a new generation. -/
def clear (c : Cache κ ν) : Cache κ ν :=
  let generation := c.generation + 1
  if generation = 0 then { c with generation := 1, sets := c.sets.map CacheSet.outdate }
  else { c with generation }

end Cache

end ZoneDiagram

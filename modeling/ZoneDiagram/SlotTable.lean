import ZoneDiagram.Error

/-!
# Slot tables

A slot table keeps values in numbered slots, each distinct value once. A value keeps its slot until
it is dropped, and equal values share a slot. Slot zero is a sentry and never holds a value, so its
number also stands for no slot.

Values are found through buckets, selected by the digest of the value. A bucket names its first
slot, and every slot names the one that joined the same bucket next. Dropped slots are handed out
again, the last dropped first, before the table grows.
-/

namespace ZoneDiagram

/-- A slot with its link. -/
structure SlotCell (α : Type) where
  /-- The value; free slots and the sentry hold nothing. -/
  held : Option α
  /-- The next slot of the same bucket; zero if there is none. -/
  next : Nat

/-- A slot that is not in use. -/
def SlotCell.empty {α : Type} : SlotCell α := ⟨none, 0⟩

/-- Values in numbered slots, found again by their digests. -/
structure SlotTable (α : Type) where
  /-- The most values that the table can hold. -/
  capacity : Nat
  /-- The slots; the sentry comes first. -/
  slots : Array (SlotCell α)
  /-- The first slot of every bucket; zero if the bucket is empty. -/
  buckets : Array Nat
  /-- The free slots, last dropped first. -/
  free : List Nat
  /-- The number of values that the table holds. -/
  realSize : Nat

namespace SlotTable

variable {α : Type}

/-- The most buckets that a table has. -/
def maxBuckets : Nat := 262144

/-- One more than the largest capacity that a table can have. -/
def capacityLimit : Nat := 2147483647

/-- A table without values. -/
def empty (capacity : Nat) : SlotTable α where
  capacity := capacity
  slots := #[.empty]
  buckets := Array.replicate (min capacity.nextPowerOfTwo maxBuckets) 0
  free := []
  realSize := 0

/-- A table without values, for a capacity that is checked. -/
def empty? (capacity : Nat) : Except Error (SlotTable α) :=
  if 1 ≤ capacity ∧ capacity < capacityLimit then .ok (empty capacity) else .error .badCapacity

/-! ## Reading -/

/-- The value in a slot, if there is one. -/
def get? (t : SlotTable α) (slot : Nat) : Option α := t.slots[slot]?.bind (·.held)

/-- The number of slots ever handed out. -/
def size (t : SlotTable α) : Nat := t.slots.size - 1

/-- A slot that was ever handed out. -/
def cell (t : SlotTable α) (slot : Nat) : Except Error (SlotCell α) :=
  if slot = 0 then .error .sentrySlot
  else match t.slots[slot]? with
    | none => .error .indexOutOfBounds
    | some cell => .ok cell

/-- The value in a slot. A free slot reads as the default value. -/
def value [Inhabited α] (t : SlotTable α) (slot : Nat) : Except Error α := do
  return (← t.cell slot).held.getD default

/-- The slot holds a value. -/
def isOccupied (t : SlotTable α) (slot : Nat) : Except Error Bool :=
  if slot = 0 then .error .sentrySlot else .ok (t.get? slot).isSome

/-- The slot that joined the same bucket next; zero if there is none. -/
def next (t : SlotTable α) (slot : Nat) : Except Error Nat := do return (← t.cell slot).next

/-- The number of the bucket that a value belongs to. -/
def bucketOf [Hashable α] (t : SlotTable α) (v : α) : Nat := (hash v).toNat % t.buckets.size

/-- The first slot of a bucket. -/
def head (t : SlotTable α) (bucket : Nat) : Nat := t.buckets.getD bucket 0

/-! ## Links -/

/-- Let a slot come next after another one. After no slot, it comes first in its bucket. -/
def link (t : SlotTable α) (bucket last slot : Nat) : SlotTable α :=
  if last = 0 then { t with buckets := t.buckets.setIfInBounds bucket slot }
  else { t with slots := t.slots.modify last fun cell => { cell with next := slot } }

/-- Where a value is in its bucket: in a slot, or else it belongs after the last slot. -/
inductive Place where
  | found (slot : Nat)
  | after (last : Nat)

/-- Look for a value from a slot on. A bucket cannot have more slots than there are. -/
def walk [BEq α] (t : SlotTable α) (v : α) : Nat → Nat → Nat → Except Error Place
  | 0, _, _ => .error .endlessBucket
  | steps + 1, last, slot =>
    if slot = 0 then .ok (.after last)
    else do
      let cell ← t.cell slot
      if cell.held == some v then return .found slot else t.walk v steps slot cell.next

/-! ## Adding values -/

/-- Put a value into a fresh slot, outside of any bucket. The table is unchanged if it is full. -/
def add (t : SlotTable α) (v : α) : Except Error Nat × SlotTable α :=
  match t.free with
  | slot :: free =>
    (.ok slot, { t with
      free := free, slots := t.slots.setIfInBounds slot ⟨some v, 0⟩, realSize := t.realSize + 1 })
  | [] =>
    let slot := t.slots.size
    if t.capacity < slot then (.error (.storeFull t.capacity), t)
    else (.ok slot, { t with slots := t.slots.push ⟨some v, 0⟩, realSize := t.realSize + 1 })

/-- The slot of a value, which is put into a fresh slot if the table does not hold it yet. The table
is unchanged if it would need a slot and is full. -/
def put [BEq α] [Hashable α] (t : SlotTable α) (v : α) : Except Error Nat × SlotTable α :=
  let bucket := t.bucketOf v
  match t.walk v t.slots.size 0 (t.head bucket) with
  | .error e => (.error e, t)
  | .ok (.found slot) => (.ok slot, t)
  | .ok (.after last) =>
    match t.add v with
    | (.error e, t) => (.error e, t)
    | (.ok slot, t) => (.ok slot, t.link bucket last slot)

/-! ## Dropping values -/

/-- Empty a slot, which is free from then on. -/
def drop (t : SlotTable α) (slot : Nat) : Except Error (SlotTable α) := do
  let cell ← t.cell slot
  if cell.held.isNone then throw (.notOccupied slot)
  else return { t with
    slots := t.slots.setIfInBounds slot .empty, free := slot :: t.free, realSize := t.realSize - 1 }

section Retain

variable {σ : Type}

/-- Ask for every slot of a bucket whether it is kept, from a slot on, and drop those that are
rejected. A slot that is kept comes next after the last one that was. -/
def sift (keep : Nat → StateM σ Bool) (bucket : Nat) :
    Nat → Nat → Nat → Nat → SlotTable α → σ → Except Error ((Nat × SlotTable α) × σ)
  | 0, _, _, _, _, _ => .error .endlessBucket
  | steps + 1, dropped, last, slot, t, s =>
    if slot = 0 then .ok ((dropped, t.link bucket last 0), s)
    else do
      let cell ← t.cell slot
      match (keep slot).run s with
      | (true, s) => sift keep bucket steps dropped slot cell.next (t.link bucket last slot) s
      | (false, s) =>
        let t ← t.drop slot
        sift keep bucket steps (dropped + 1) last cell.next t s

/-- Drop every value of a bucket whose slot is rejected. -/
def siftBucket (keep : Nat → StateM σ Bool) (state : (Nat × SlotTable α) × σ) (bucket : Nat) :
    Except Error ((Nat × SlotTable α) × σ) :=
  let ((dropped, t), s) := state
  sift keep bucket t.slots.size dropped 0 (t.head bucket) t s

/-- Drop every value whose slot is rejected, bucket by bucket, by a test that may have a state of
its own. Returns the number of values dropped. -/
def retainWith (t : SlotTable α) (keep : Nat → StateM σ Bool) (start : σ) :
    Except Error ((Nat × SlotTable α) × σ) :=
  (List.range t.buckets.size).foldlM (siftBucket keep) ((0, t), start)

end Retain

/-- Drop every value whose slot is rejected. Returns the number of values dropped. -/
def retain (t : SlotTable α) (keep : Nat → Bool) : Except Error (Nat × SlotTable α) := do
  return (← t.retainWith (fun slot => pure (keep slot)) ()).1

end SlotTable

end ZoneDiagram

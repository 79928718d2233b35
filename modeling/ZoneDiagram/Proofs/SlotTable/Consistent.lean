import Mathlib.Logic.Function.Basic
import ZoneDiagram.Proofs.SlotTable.Chain

/-!
# Slot tables are consistent

The invariant of a slot table (`Consistent`): the free slots are exactly the empty ones, every value
is in the chain of its bucket, and no value is in two slots. One slot may hold a value that no chain
visits; it is loose.

So a value that is put twice gets the same slot and changes nothing, a new value gets a slot that
was empty, and putting a value fails only if every slot is taken (`put_cases`).
-/

namespace ZoneDiagram.SlotTable

variable {α : Type} {t t' : SlotTable α} {v w : α} {s slot loose : Nat} {chain : Nat → List Nat}

/-! ## Slots -/

theorem get?_eq (t : SlotTable α) (s : Nat) : t.get? s = (heldAt t.slots s).join := by
  rw [get?, heldAt]
  cases t.slots[s]? <;> rfl

theorem get?_eq_some_iff : t.get? s = some v ↔ heldAt t.slots s = some (some v) := by
  rw [get?_eq, Option.join_eq_some_iff]

theorem get?_of_getElem? {cell : SlotCell α} (h : t.slots[s]? = some cell) :
    t.get? s = cell.held := by
  rw [get?, h]
  rfl

@[simp] theorem get?_link (t : SlotTable α) (b last slot s : Nat) :
    (t.link b last slot).get? s = t.get? s := by
  rw [get?_eq, heldAt_link, get?_eq]

theorem lt_size_of_get? (h : t.get? s = some v) : s < t.slots.size := by
  obtain ⟨cell, hcell, -⟩ := Option.map_eq_some_iff.1 (get?_eq_some_iff.1 h)
  exact (Array.getElem?_eq_some_iff.1 hcell).1

theorem cell_eq_ok {cell : SlotCell α} (ne : s ≠ 0) (h : t.slots[s]? = some cell) :
    t.cell s = .ok cell := by
  rw [SlotTable.cell, if_neg ne, h]

theorem getElem?_of_cell {cell : SlotCell α} (h : t.cell s = .ok cell) :
    t.slots[s]? = some cell := by
  unfold SlotTable.cell at h
  split at h
  next => cases h
  next =>
    split at h
    next => cases h
    next eq =>
      cases h
      exact eq

theorem get?_of_cell {cell : SlotCell α} (h : t.cell s = .ok cell) : t.get? s = cell.held :=
  get?_of_getElem? (getElem?_of_cell h)

theorem nextAt_of_cell {cell : SlotCell α} (h : t.cell s = .ok cell) :
    nextAt t.slots s = some cell.next := by
  rw [nextAt, getElem?_of_cell h]
  rfl

/-- The sentry is empty, the free slots are the other empty ones, and the size counts the rest. -/
structure Slotted (t : SlotTable α) : Prop where
  sentry : heldAt t.slots 0 = some none
  size_le : t.slots.size ≤ t.capacity + 1
  free_nodup : t.free.Nodup
  mem_free : ∀ {s}, s ∈ t.free ↔ s ≠ 0 ∧ heldAt t.slots s = some none
  count : t.realSize + t.free.length + 1 = t.slots.size

theorem Slotted.size_pos (h : t.Slotted) : 0 < t.slots.size := by
  have := h.count
  omega

theorem Slotted.ne_zero_of_get? (h : t.Slotted) (hs : t.get? s = some v) : s ≠ 0 := by
  rintro rfl
  rw [get?_eq_some_iff, h.sentry] at hs
  cases hs

theorem Slotted.cell_eq_ok (h : t.Slotted) (hs : t.get? s = some v) :
    ∃ next, t.cell s = .ok ⟨some v, next⟩ := by
  obtain ⟨⟨held, next⟩, hcell, eq⟩ := Option.map_eq_some_iff.1 (get?_eq_some_iff.1 hs)
  obtain rfl : held = some v := eq
  exact ⟨next, SlotTable.cell_eq_ok (h.ne_zero_of_get? hs) hcell⟩

/-- The slots that hold values. -/
def occupied (t : SlotTable α) : List Nat :=
  (List.range t.slots.size).filter fun s => (t.get? s).isSome

theorem mem_occupied : s ∈ t.occupied ↔ (t.get? s).isSome := by
  rw [occupied, List.mem_filter, List.mem_range, and_iff_right_iff_imp]
  intro hs
  obtain ⟨v, hv⟩ := Option.isSome_iff_exists.1 hs
  exact lt_size_of_get? hv

theorem nodup_occupied (t : SlotTable α) : t.occupied.Nodup := List.nodup_range.filter _

/-- The size of a table is the number of slots that hold values. -/
theorem Slotted.realSize_eq (h : t.Slotted) : t.realSize = t.occupied.length := by
  have vacant :
      ((List.range t.slots.size).filter fun s => !(t.get? s).isSome).Perm (0 :: t.free) := by
    refine (List.perm_ext_iff_of_nodup (List.nodup_range.filter _) ?_).2 fun s => ?_
    · exact List.nodup_cons.2 ⟨fun hz => (h.mem_free.1 hz).1 rfl, h.free_nodup⟩
    · rw [List.mem_filter, List.mem_range, List.mem_cons, h.mem_free, get?_eq]
      by_cases zero : s = 0
      · have := h.sentry
        have := h.count
        simp only [zero, h.sentry]
        exact iff_of_true ⟨by omega, rfl⟩ (.inl trivial)
      · by_cases lt : s < t.slots.size
        · simp only [heldAt, Array.getElem?_eq_getElem lt, zero, lt]
          cases t.slots[s].held <;> simp [zero]
        · simp only [heldAt, Array.getElem?_eq_none (Nat.not_lt.1 lt), zero, lt]
          simp
  have split := List.length_eq_length_filter_add (l := List.range t.slots.size)
    fun s => (t.get? s).isSome
  have count := h.count
  rw [vacant.length_eq, List.length_range, List.length_cons] at split
  rw [occupied]
  omega

theorem Slotted.realSize_pos (h : t.Slotted) (hs : t.get? s = some v) : 0 < t.realSize := by
  rw [h.realSize_eq]
  exact List.length_pos_of_mem (mem_occupied.2 (by rw [hs]; rfl))

/-! ## Adding a value -/

/-- A value was put into an empty slot, outside of any chain. -/
structure Stored (t : SlotTable α) (v : α) (slot : Nat) (t' : SlotTable α) : Prop where
  ne_zero : slot ≠ 0
  unused : t.get? slot = none
  cell : t'.slots[slot]? = some ⟨some v, 0⟩
  others : ∀ s, s ≠ slot → t'.slots[s]? = t.slots[s]?
  capacity : t'.capacity = t.capacity
  buckets : t'.buckets = t.buckets
  realSize : t'.realSize = t.realSize + 1
  slotted : t'.Slotted

theorem stored_of_free {free : List Nat} (h : t.Slotted) (eq : t.free = slot :: free) (v : α) :
    Stored t v slot { t with
      free := free
      slots := t.slots.setIfInBounds slot ⟨some v, 0⟩
      realSize := t.realSize + 1 } := by
  obtain ⟨ne, empty⟩ := h.mem_free.1 (eq ▸ List.mem_cons_self)
  obtain ⟨fresh, nodup⟩ := List.nodup_cons.1 (eq ▸ h.free_nodup)
  obtain ⟨old, hold, -⟩ := Option.map_eq_some_iff.1 empty
  have lt : slot < t.slots.size := (Array.getElem?_eq_some_iff.1 hold).1
  have cell : (t.slots.setIfInBounds slot ⟨some v, 0⟩)[slot]? = some ⟨some v, 0⟩ := by
    rw [Array.getElem?_setIfInBounds, if_pos rfl, if_pos lt]
  have others (s : Nat) (apart : s ≠ slot) :
      (t.slots.setIfInBounds slot ⟨some v, 0⟩)[s]? = t.slots[s]? := by
    rw [Array.getElem?_setIfInBounds, if_neg (Ne.symm apart)]
  refine {
    ne_zero := ne
    unused := by rw [get?_eq, empty]; rfl
    cell, others
    capacity := rfl
    buckets := rfl
    realSize := rfl
    slotted := {
      sentry := by rw [heldAt, others 0 ne.symm]; exact h.sentry
      size_le := by rw [Array.size_setIfInBounds]; exact h.size_le
      free_nodup := nodup
      mem_free := fun {s} => ?_
      count := ?_ } }
  · by_cases apart : s = slot
    · subst apart
      rw [heldAt, cell]
      simp [fresh]
    · have := h.mem_free (s := s)
      rw [eq, List.mem_cons] at this
      rw [heldAt, others s apart]
      simpa [apart, heldAt] using this
  · have := h.count
    rw [eq, List.length_cons] at this
    rw [Array.size_setIfInBounds]
    dsimp only
    omega

theorem stored_of_push (h : t.Slotted) (room : ¬ t.capacity < t.slots.size) (v : α) :
    Stored t v t.slots.size { t with
      slots := t.slots.push ⟨some v, 0⟩, realSize := t.realSize + 1 } := by
  have count := h.count
  have others (s : Nat) (apart : s ≠ t.slots.size) :
      (t.slots.push ⟨some v, 0⟩)[s]? = t.slots[s]? := by
    rw [Array.getElem?_push, if_neg apart]
  refine {
    ne_zero := by omega
    unused := by rw [get?, Array.getElem?_eq_none (Nat.le_refl _)]; rfl
    cell := by rw [Array.getElem?_push, if_pos rfl]
    others
    capacity := rfl
    buckets := rfl
    realSize := rfl
    slotted := {
      sentry := by rw [heldAt, others 0 (by omega)]; exact h.sentry
      size_le := by rw [Array.size_push]; dsimp only; omega
      free_nodup := h.free_nodup
      mem_free := fun {s} => ?_
      count := by rw [Array.size_push]; dsimp only; omega } }
  rw [h.mem_free, heldAt, heldAt, Array.getElem?_push]
  split
  next e => simp [e]
  next => rfl

/-- A value is added to an empty slot, unless every slot is taken. -/
theorem add_cases (h : t.Slotted) (v : α) :
    (∃ slot t', t.add v = (.ok slot, t') ∧ Stored t v slot t') ∨
      t.add v = (.error (.storeFull t.capacity), t) ∧ t.realSize = t.capacity := by
  cases eq : t.free with
  | cons slot free => exact .inl ⟨slot, _, by rw [add, eq], stored_of_free h eq v⟩
  | nil =>
    by_cases full : t.capacity < t.slots.size
    · refine .inr ⟨by rw [add, eq]; exact if_pos full, ?_⟩
      have size := h.size_le
      have count := h.count
      rw [eq, List.length_nil] at count
      omega
    · exact .inl ⟨_, _, by rw [add, eq]; exact if_neg full, stored_of_push h full v⟩

theorem Slotted.link (h : t.Slotted) (b last slot : Nat) : (t.link b last slot).Slotted where
  sentry := by rw [heldAt_link, h.sentry]
  size_le := by rw [size_slots_link, capacity_link]; exact h.size_le
  free_nodup := by rw [free_link]; exact h.free_nodup
  mem_free := by intro s; rw [free_link, heldAt_link, h.mem_free]
  count := by rw [realSize_link, free_link, size_slots_link, h.count]

theorem Stored.get? (h : Stored t v slot t') (s : Nat) :
    t'.get? s = if s = slot then some v else t.get? s := by
  split
  next eq => rw [eq, get?_of_getElem? h.cell]
  next ne => rw [SlotTable.get?, h.others s ne, SlotTable.get?]

theorem Stored.get?_eq_some_iff (h : Stored t v slot t') :
    t'.get? s = some w ↔ t.get? s = some w ∨ s = slot ∧ w = v := by
  rw [h.get?]
  split
  next e => simp [e, h.unused, eq_comm]
  next e => simp [e]

theorem Stored.ne_slot (h : Stored t v slot t') (hs : t.get? s = some w) : s ≠ slot := by
  rintro rfl
  rw [h.unused] at hs
  cases hs

/-! ## Empty tables -/

theorem slotted_empty (capacity : Nat) : (empty capacity : SlotTable α).Slotted where
  sentry := rfl
  size_le := by simp [empty]
  free_nodup := List.nodup_nil
  mem_free {s} := by
    simp only [empty, List.not_mem_nil, false_iff, not_and]
    intro ne
    rw [heldAt, Array.getElem?_eq_none (by simp; omega)]
    exact nofun
  count := rfl

theorem get?_empty (capacity s : Nat) : (empty capacity : SlotTable α).get? s = none := by
  cases s with
  | zero => rfl
  | succ s =>
    rw [get?, empty, Array.getElem?_eq_none (by simp)]
    rfl

theorem head_empty (capacity b : Nat) : (empty capacity : SlotTable α).head b = 0 := by
  rw [head, Array.getD_eq_getD_getElem?]
  simp only [empty, Array.getElem?_replicate]
  split <;> rfl

theorem buckets_empty_pos (capacity : Nat) :
    0 < (empty capacity : SlotTable α).buckets.size := by
  rw [empty, Array.size_replicate]
  exact Nat.lt_min.2
    ⟨Nat.pos_of_isPowerOfTwo (Nat.isPowerOfTwo_nextPowerOfTwo capacity), by decide⟩

theorem add_empty {capacity : Nat} (pos : 0 < capacity) (v : α) :
    ∃ t, (empty capacity).add v = (.ok 1, t) ∧ Stored (empty capacity) v 1 t := by
  have room :
      ¬ (empty capacity : SlotTable α).capacity < (empty capacity : SlotTable α).slots.size :=
    Nat.not_lt.2 pos
  exact ⟨_, if_neg room, stored_of_push (slotted_empty capacity) room v⟩

theorem get?_of_stored_empty {capacity : Nat} (h : Stored (empty capacity) v slot t) (s : Nat) :
    t.get? s = if s = slot then some v else none := by
  rw [h.get?, get?_empty]

/-! ## Walks -/

/-- A walk along a chain finds the value, or else the end of the chain. -/
theorem walk_eq_ok [BEq α] {l : List Nat} {steps : Nat} (h : Leads t.slots s l 0)
    (enough : l.length < steps) (last : Nat) :
    t.walk v steps last s = .ok (match l.find? (t.get? · == some v) with
      | some slot => .found slot
      | none => .after (l.getLastD last)) := by
  induction l generalizing s steps last with
  | nil =>
    obtain ⟨steps, rfl⟩ := Nat.exists_eq_add_one_of_ne_zero (Nat.ne_zero_of_lt enough)
    cases h
    rw [walk, if_pos rfl]
    rfl
  | cons slot l ih =>
    obtain ⟨steps, rfl⟩ := Nat.exists_eq_add_one_of_ne_zero (Nat.ne_zero_of_lt enough)
    cases h with
    | next ne link rest =>
      obtain ⟨cell, hcell, rfl⟩ := Option.map_eq_some_iff.1 link
      rw [walk, if_neg ne, cell_eq_ok ne hcell, List.find?_cons, get?_of_getElem? hcell,
        List.getLastD_cons]
      change (if cell.held == some v then _ else _) = _
      cases cell.held == some v with
      | true => rfl
      | false => exact ih rest (Nat.lt_of_succ_lt_succ enough) slot

/-! ## The invariant -/

variable [Hashable α]

/-- The chains of the buckets visit the slots that hold values, each in the bucket of its value, but
for the loose slot. -/
structure Listed (t : SlotTable α) (loose : Nat) (chain : Nat → List Nat) : Prop where
  linked : ∀ b, Leads t.slots (t.head b) (chain b) 0
  member : ∀ {b s}, s ∈ chain b → s ≠ loose ∧ ∃ v, t.get? s = some v ∧ t.bucketOf v = b
  found : ∀ {s v}, t.get? s = some v → s ≠ loose → s ∈ chain (t.bucketOf v)

/-- What adding and dropping values keeps. Without a loose slot, zero stands for it. -/
structure Consistent (t : SlotTable α) (loose : Nat) : Prop extends Slotted t where
  nonempty : 0 < t.buckets.size
  loose_used : loose ≠ 0 → (t.get? loose).isSome
  listed : ∃ chain, t.Listed loose chain
  unique : ∀ {s s' v}, t.get? s = some v → t.get? s' = some v → s ≠ loose → s' ≠ loose → s = s'

theorem bucketOf_congr (h : t'.buckets.size = t.buckets.size) (v : α) :
    t'.bucketOf v = t.bucketOf v := by
  rw [bucketOf, bucketOf, h]

theorem Consistent.bucketOf_lt (h : t.Consistent loose) (v : α) :
    t.bucketOf v < t.buckets.size := Nat.mod_lt _ h.nonempty

/-- Chains of different buckets have no slot in common. -/
theorem Listed.eq_of_mem {b b' : Nat} (h : t.Listed loose chain) (hs : s ∈ chain b)
    (hs' : s ∈ chain b') : b = b' := by
  obtain ⟨-, v, hv, eq⟩ := h.member hs
  obtain ⟨-, v', hv', eq'⟩ := h.member hs'
  cases hv.symm.trans hv'
  exact eq.symm.trans eq'

/-! ## Linking the value -/

/-- A value that was added is listed once its slot is linked to the end of its chain. -/
theorem Listed.put (h : t.Listed loose chain) (stored : Stored t v slot t')
    (hb : t.bucketOf v < t.buckets.size) (ne : slot ≠ loose) :
    (t'.link (t.bucketOf v) ((chain (t.bucketOf v)).getLastD 0) slot).Listed loose
      (Function.update chain (t.bucketOf v) (chain (t.bucketOf v) ++ [slot])) := by
  generalize home : t.bucketOf v = b at hb
  have fresh (b' : Nat) : slot ∉ chain b' := fun hs => by
    obtain ⟨-, w, hw, -⟩ := h.member hs
    exact stored.ne_slot hw rfl
  have old (b' : Nat) : Leads t'.slots (t'.head b') (chain b') 0 := by
    rw [head, stored.buckets]
    refine (h.linked b').congr fun x hx => ?_
    rw [nextAt, stored.others x fun eq => fresh b' (eq ▸ hx), nextAt]
  have size : (t'.link b ((chain b).getLastD 0) slot).buckets.size = t.buckets.size := by
    rw [size_buckets_link, stored.buckets]
  have mem {s b' : Nat} : s ∈ Function.update chain b (chain b ++ [slot]) b' ↔
      s ∈ chain b' ∨ s = slot ∧ b' = b := by
    by_cases eq : b' = b
    · subst eq
      simp
    · simp [eq]
  -- Only the chain of the bucket changes: the slot is put behind its last one.
  refine {
    linked := fun b' => ?_
    member := fun {b' s} hs => ?_
    found := fun {s w} hs apart => ?_ }
  · by_cases eq : b' = b
    · subst eq
      have next : nextAt t'.slots slot = some 0 := by rw [nextAt, stored.cell]; rfl
      rw [Function.update_self]
      refine (leads_link (stored.buckets ▸ hb) (h.linked b').nodup (old b')).append ?_
      refine .next stored.ne_zero ?_ (.here 0)
      rw [nextAt_link_getLastD stored.ne_zero (fresh b'), next]
    · rw [Function.update_of_ne eq, head_link_of_ne eq]
      exact leads_link_of_disjoint (old b') fun x hx hx' => eq (h.eq_of_mem hx hx')
  · simp only [get?_link, bucketOf_congr size, stored.get?_eq_some_iff]
    rcases mem.1 hs with hs | ⟨rfl, rfl⟩
    · obtain ⟨apart, w, hw, eq⟩ := h.member hs
      exact ⟨apart, w, .inl hw, eq⟩
    · exact ⟨ne, v, .inr ⟨rfl, rfl⟩, home⟩
  · rw [get?_link] at hs
    rw [mem, bucketOf_congr size]
    rcases stored.get?_eq_some_iff.1 hs with hs | ⟨rfl, rfl⟩
    · exact .inl (h.found hs apart)
    · exact .inr ⟨rfl, home⟩

theorem Consistent.ne_loose (h : t.Consistent loose) (stored : Stored t v slot t') :
    slot ≠ loose := by
  rintro rfl
  obtain ⟨held, hheld⟩ := Option.isSome_iff_exists.1 (h.loose_used stored.ne_zero)
  exact stored.ne_slot hheld rfl

/-- **Adding a new value to its bucket keeps a table consistent.** -/
theorem Consistent.link (h : t.Consistent loose) (listed : t.Listed loose chain)
    (stored : Stored t v slot t') (new : ∀ {s}, t.get? s = some v → s = loose) :
    (t'.link (t.bucketOf v) ((chain (t.bucketOf v)).getLastD 0) slot).Consistent loose where
  toSlotted := stored.slotted.link _ _ _
  nonempty := by
    rw [size_buckets_link, stored.buckets]
    exact h.nonempty
  loose_used ne := by
    obtain ⟨held, hheld⟩ := Option.isSome_iff_exists.1 (h.loose_used ne)
    rw [get?_link, stored.get?_eq_some_iff.2 (.inl hheld)]
    rfl
  listed := ⟨_, listed.put stored (h.bucketOf_lt v) (h.ne_loose stored)⟩
  unique := by
    intro s s' w hs hs' ne ne'
    rw [get?_link] at hs hs'
    rcases stored.get?_eq_some_iff.1 hs with old | ⟨eq, rfl⟩ <;>
      rcases stored.get?_eq_some_iff.1 hs' with old' | ⟨eq', eqv⟩
    · exact h.unique old old' ne ne'
    · exact absurd (new (eqv ▸ old)) ne
    · exact absurd (new old') ne'
    · exact eq.trans eq'.symm

/-! ## The first tables -/

theorem consistent_empty (capacity : Nat) : (empty capacity : SlotTable α).Consistent 0 where
  toSlotted := slotted_empty capacity
  nonempty := buckets_empty_pos capacity
  loose_used := absurd rfl
  listed := by
    refine ⟨fun _ => [], fun b => ?_, fun hs => (List.not_mem_nil hs).elim, fun hs _ => ?_⟩
    · rw [head_empty]
      exact .here 0
    · rw [get?_empty] at hs
      cases hs
  unique hs := by
    rw [get?_empty] at hs
    cases hs

/-- The first value is loose if it is added outside of any bucket. -/
theorem consistent_of_stored_empty {capacity : Nat} (h : Stored (empty capacity) v slot t) :
    t.Consistent slot where
  toSlotted := h.slotted
  nonempty := h.buckets ▸ buckets_empty_pos capacity
  loose_used _ := by rw [h.get?, if_pos rfl]; rfl
  listed := by
    refine ⟨fun _ => [], fun b => ?_, fun hs => (List.not_mem_nil hs).elim, fun hs ne => ?_⟩
    · rw [head, h.buckets]
      have start := head_empty (α := α) capacity b
      rw [head] at start
      rw [start]
      exact .here 0
    · rw [get?_of_stored_empty h, if_neg ne] at hs
      cases hs
  unique hs _ ne _ := by
    rw [get?_of_stored_empty h, if_neg ne] at hs
    cases hs

/-! ## Putting values -/

variable [BEq α] [LawfulBEq α]

/-- A value was put into an empty slot, where it will be found. -/
structure Put (t : SlotTable α) (loose : Nat) (v : α) (slot : Nat) (t' : SlotTable α) : Prop where
  new : ∀ {s}, t.get? s = some v → s = loose
  unused : t.get? slot = none
  get? : ∀ s, t'.get? s = if s = slot then some v else t.get? s
  capacity : t'.capacity = t.capacity
  realSize : t'.realSize = t.realSize + 1
  consistent : t'.Consistent loose

/-- **A value that is there is found. Any other gets an empty slot, unless every slot is taken.** -/
theorem put_cases (h : t.Consistent loose) (v : α) :
    (∃ slot, t.put v = (.ok slot, t) ∧ t.get? slot = some v ∧ slot ≠ loose) ∨
    (∃ slot t', t.put v = (.ok slot, t') ∧ Put t loose v slot t') ∨
    t.put v = (.error (.storeFull t.capacity), t) ∧ t.realSize = t.capacity ∧
      ∀ s, t.get? s = some v → s = loose := by
  obtain ⟨chain, listed⟩ := h.listed
  have chained := listed.linked (t.bucketOf v)
  have walked := walk_eq_ok (v := v) chained (chained.length_lt h.size_pos) 0
  -- A value is listed in the chain of its bucket, so this chain decides whether it is there.
  cases found : (chain (t.bucketOf v)).find? (t.get? · == some v) with
  | some slot =>
    rw [found] at walked
    have ne := (listed.member (List.mem_of_find?_eq_some found)).1
    have holds : (t.get? slot == some v) = true :=
      List.find?_some (p := fun slot => t.get? slot == some v) found
    exact .inl ⟨slot, by simp only [put, walked], beq_iff_eq.1 holds, ne⟩
  | none =>
    rw [found] at walked
    have new (s : Nat) (hs : t.get? s = some v) : s = loose := by
      by_contra ne
      have := List.find?_eq_none.1 found s (listed.found hs ne)
      rw [hs, beq_self_eq_true] at this
      exact this rfl
    rcases add_cases h.toSlotted v with ⟨slot, t', eq, stored⟩ | ⟨eq, full⟩
    · refine .inr (.inl ⟨slot, t'.link (t.bucketOf v) ((chain (t.bucketOf v)).getLastD 0) slot,
        by simp only [put, walked, eq], ?_⟩)
      exact {
        new := new _
        unused := stored.unused
        get? := fun s => by rw [get?_link, stored.get?]
        capacity := by rw [capacity_link, stored.capacity]
        realSize := by rw [realSize_link, stored.realSize]
        consistent := h.link listed stored (new _) }
    · exact .inr (.inr ⟨by simp only [put, walked, eq], full, new⟩)

/-- A value that a bucket lists is found. -/
theorem Consistent.put_of_get? (h : t.Consistent loose) (hs : t.get? s = some v)
    (ne : s ≠ loose) : t.put v = (.ok s, t) := by
  rcases put_cases h v with ⟨slot, eq, found, ne'⟩ | ⟨slot, t', -, put⟩ | ⟨-, -, new⟩
  · rw [eq, h.unique found hs ne' ne]
  · exact absurd (put.new hs) ne
  · exact absurd (new s hs) ne

end ZoneDiagram.SlotTable

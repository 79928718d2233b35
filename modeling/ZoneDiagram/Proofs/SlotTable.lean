import Mathlib.Data.Set.Card
import ZoneDiagram.Proofs.SlotTable.Retain

/-!
# A slot table is a finite set with stable slots

**Theorem (`behaves_as_set`).** After any calls of `put` and `retain` on an empty table, for every
digest of the values, the table holds a finite set of values, each in one slot (`BehavesAsSet`). A
value that is there is found in its slot. Any other value gets a slot that held none, unless there
are as many values as the table can hold; then the table stays as it is. `retain` asks its test once
for every slot that holds a value, drops exactly the values whose slots are rejected, and counts
them. So a value keeps its slot until a test rejects it.

The order in which a test is asked is that of the chains (`order`). What a test with a state of its
own answers to a list of slots is `filterM`: the slots that are kept, and the state in the end.
-/

namespace ZoneDiagram.SlotTable

variable {α : Type} {t t₀ : SlotTable α} {capacity : Nat}

/-- The values that a table holds. -/
def values (t : SlotTable α) : Set α := {v | ∃ s, t.get? s = some v}

variable [Hashable α]

/-- A table with the invariant and no loose slot. -/
structure Settled (t : SlotTable α) (capacity : Nat) : Prop where
  consistent : t.Consistent 0
  capacity : t.capacity = capacity

theorem settled_empty? (h : empty? capacity = .ok t₀) : t₀.Settled capacity := by
  unfold empty? at h
  split at h
  · cases h
    exact ⟨consistent_empty capacity, rfl⟩
  · cases h

namespace Settled

variable {v : α} {s : Nat}

theorem ne_zero (h : t.Settled capacity) (hs : t.get? s = some v) : s ≠ 0 :=
  h.consistent.ne_zero_of_get? hs

theorem unique (h : t.Settled capacity) {s' : Nat} (hs : t.get? s = some v)
    (hs' : t.get? s' = some v) : s = s' :=
  h.consistent.unique hs hs' (h.ne_zero hs) (h.ne_zero hs')

/-- The values of a table correspond to the slots that hold them. -/
theorem bijOn (h : t.Settled capacity) :
    Set.BijOn t.get? {s | s ∈ t.occupied} (some '' t.values) := by
  refine ⟨fun s hs => ?_, fun s hs s' hs' eq => ?_, ?_⟩
  · obtain ⟨v, hv⟩ := Option.isSome_iff_exists.1 (mem_occupied.1 hs)
    exact ⟨v, ⟨s, hv⟩, hv.symm⟩
  · obtain ⟨v, hv⟩ := Option.isSome_iff_exists.1 (mem_occupied.1 hs)
    exact h.unique hv (eq ▸ hv)
  · rintro - ⟨v, ⟨s, hs⟩, rfl⟩
    exact ⟨s, mem_occupied.2 (by rw [hs]; rfl), hs⟩

theorem finite (h : t.Settled capacity) : t.values.Finite := by
  refine Set.Finite.of_finite_image (f := some) ?_ (Option.some_injective α).injOn
  rw [← h.bijOn.image_eq]
  exact (List.finite_toSet t.occupied).image _

theorem realSize_eq (h : t.Settled capacity) : t.realSize = t.values.ncard := by
  have values : (some '' t.values).ncard = t.values.ncard :=
    Set.ncard_image_of_injective _ (Option.some_injective α)
  have slots : {s | s ∈ t.occupied}.ncard = t.occupied.length := by
    classical
    rw [← List.toFinset_card_of_nodup (nodup_occupied t), ← Set.ncard_coe_finset]
    congr 1
    ext s
    simp
  rw [h.consistent.realSize_eq, ← slots, ← values, ← h.bijOn.image_eq]
  exact h.bijOn.injOn.ncard_image.symm

end Settled

/-! ## Runs -/

variable [BEq α]

/-- A use of a table. The test of a collection may have a state of its own. -/
inductive Call (α : Type) : Type 1 where
  | put (v : α)
  | retain {σ : Type} (keep : Nat → StateM σ Bool) (start : σ)

/-- The table after a call. -/
def Call.perform (t : SlotTable α) : Call α → SlotTable α
  | put v => (t.put v).2
  | retain keep start =>
    match t.retainWith keep start with
    | .ok ((_, t'), _) => t'
    | .error _ => t

/-- A call asks for a slot whether it is kept, and the answer is no. -/
def Call.Rejects (t : SlotTable α) (s : Nat) : Call α → Prop
  | put _ => False
  | retain keep start => s ∈ t.order ∧ s ∉ ((t.order.filterM keep).run start).1

/-- The table after some calls. -/
def run (t : SlotTable α) (calls : List (Call α)) : SlotTable α := calls.foldl Call.perform t

/-- A table holds a finite set of values, each in one slot, and so it does whatever is done next. -/
structure BehavesAsSet (t : SlotTable α) (capacity : Nat) : Prop where
  finite : t.values.Finite
  realSize : t.realSize = t.values.ncard
  realSize_le : t.realSize ≤ capacity
  unique : ∀ {s s' v}, t.get? s = some v → t.get? s' = some v → s = s'
  found : ∀ {s v}, t.get? s = some v → t.put v = (.ok s, t)
  added : ∀ {v}, v ∉ t.values → t.realSize < capacity → ∃ slot t', t.put v = (.ok slot, t') ∧
    slot ≠ 0 ∧ t.get? slot = none ∧ ∀ s, t'.get? s = if s = slot then some v else t.get? s
  fails : ∀ v, (∃ e t', t.put v = (.error e, t')) ↔ v ∉ t.values ∧ t.realSize = capacity
  unchanged : ∀ {v e t'}, t.put v = (.error e, t') → e = .storeFull capacity ∧ t' = t
  order_nodup : t.order.Nodup
  mem_order : ∀ {s}, s ∈ t.order ↔ (t.get? s).isSome
  retained : ∀ {σ : Type} (keep : Nat → StateM σ Bool) (start : σ), ∃ count t',
    t.retainWith keep start = .ok ((count, t'), ((t.order.filterM keep).run start).2) ∧
      t.order.length = ((t.order.filterM keep).run start).1.length + count ∧
      ∀ s, t'.get? s = if s ∈ ((t.order.filterM keep).run start).1 then t.get? s else none
  stable : ∀ {s v} (calls : List (Call α)), t.get? s = some v →
    ((t.run calls).get? s = some v ∨
      ∃ before call after, calls = before ++ call :: after ∧ call.Rejects (t.run before) s)

/-! ## What a run keeps -/

variable [LawfulBEq α]

namespace Settled

variable {v : α} {s : Nat}

/-- Putting a value has one of three outcomes. -/
theorem put_cases (h : t.Settled capacity) (v : α) :
    (∃ s, t.get? s = some v ∧ t.put v = (.ok s, t)) ∨
    (v ∉ t.values ∧ t.realSize < capacity ∧ ∃ slot t', t.put v = (.ok slot, t') ∧
      SlotTable.Put t 0 v slot t') ∨
    v ∉ t.values ∧ t.realSize = capacity ∧ t.put v = (.error (.storeFull capacity), t) := by
  obtain ⟨consistent, rfl⟩ := h
  have absent (new : ∀ s, t.get? s = some v → s = 0) : v ∉ t.values := fun ⟨s, hs⟩ =>
    consistent.ne_zero_of_get? hs (new s hs)
  rcases SlotTable.put_cases consistent v with ⟨s, run, hs, -⟩ | ⟨slot, t', run, put⟩ |
    ⟨run, full, new⟩
  · exact .inl ⟨s, hs, run⟩
  · refine .inr (.inl ⟨absent fun s hs => put.new hs, ?_, slot, t', run, put⟩)
    have size := put.consistent.size_le
    have count := put.consistent.count
    rw [put.realSize, put.capacity] at *
    omega
  · exact .inr (.inr ⟨absent new, full, run⟩)

theorem perform (h : t.Settled capacity) (call : Call α) : (call.perform t).Settled capacity := by
  cases call with
  | put v =>
    rcases h.put_cases v with ⟨s, -, run⟩ | ⟨-, -, slot, t', run, put⟩ | ⟨-, -, run⟩
    · rw [Call.perform, run]
      exact h
    · rw [Call.perform, run]
      exact ⟨put.consistent, put.capacity.trans h.capacity⟩
    · rw [Call.perform, run]
      exact h
  | retain keep start =>
    obtain ⟨dropped, t', run, -, less, consistent⟩ := h.consistent.retainWith_eq_ok keep start
    rw [Call.perform, run]
    exact ⟨consistent, less.capacity.trans h.capacity⟩

theorem run (h : t.Settled capacity) (calls : List (Call α)) : (t.run calls).Settled capacity := by
  induction calls generalizing t with
  | nil => exact h
  | cons call calls ih => exact ih (h.perform call)

/-- A value keeps its slot in a call that does not reject it. -/
theorem get?_perform (h : t.Settled capacity) (hs : t.get? s = some v) (call : Call α) :
    (call.perform t).get? s = some v ∨ call.Rejects t s := by
  cases call with
  | put w =>
    rw [Call.perform]
    rcases h.put_cases w with ⟨s', -, run⟩ | ⟨-, -, slot, t', run, put⟩ | ⟨-, -, run⟩
    · rw [run]
      exact .inl hs
    · rw [run, put.get?, if_neg]
      · exact .inl hs
      · rintro rfl
        rw [put.unused] at hs
        cases hs
    · rw [run]
      exact .inl hs
  | retain keep start =>
    obtain ⟨dropped, t', run, perm, less, -⟩ := h.consistent.retainWith_eq_ok keep start
    rw [Call.perform, Call.Rejects, run, less.get?, ← mem_dropped_iff perm h.consistent.nodup_order]
    by_cases here : s ∈ dropped
    · exact .inr here
    · rw [if_neg here]
      exact .inl hs

/-- A value keeps its slot until a call rejects it. -/
theorem stable (h : t.Settled capacity) (hs : t.get? s = some v) (calls : List (Call α)) :
    (t.run calls).get? s = some v ∨
      ∃ before call after, calls = before ++ call :: after ∧ call.Rejects (t.run before) s := by
  induction calls generalizing t with
  | nil => exact .inl hs
  | cons call calls ih =>
    rcases h.get?_perform hs call with hs | rejects
    · rcases ih (h.perform call) hs with hs | ⟨before, later, after, rfl, rejects⟩
      · exact .inl hs
      · exact .inr ⟨call :: before, later, after, rfl, rejects⟩
    · exact .inr ⟨[], call, calls, rfl, rejects⟩

/-- **A table with the invariant behaves as a set.** -/
theorem behavesAsSet (h : t.Settled capacity) : t.BehavesAsSet capacity where
  finite := h.finite
  realSize := h.realSize_eq
  realSize_le := by
    have size := h.consistent.size_le
    have count := h.consistent.count
    rw [h.capacity] at size
    omega
  unique hs hs' := h.unique hs hs'
  found hs := h.consistent.put_of_get? hs (h.ne_zero hs)
  added := by
    intro v new room
    rcases h.put_cases v with ⟨s, hs, -⟩ | ⟨-, -, slot, t', run, put⟩ | ⟨-, full, -⟩
    · exact absurd ⟨s, hs⟩ new
    · have stored : t'.get? slot = some v := by rw [put.get?, if_pos rfl]
      exact ⟨slot, t', run, put.consistent.ne_zero_of_get? stored, put.unused, put.get?⟩
    · omega
  fails := by
    intro v
    rcases h.put_cases v with ⟨s, hs, run⟩ | ⟨-, room, slot, t', run, -⟩ | ⟨new, full, run⟩
    · refine iff_of_false ?_ fun absent => absent.1 ⟨s, hs⟩
      rintro ⟨e, t', eq⟩
      cases run.symm.trans eq
    · refine iff_of_false ?_ fun full => by omega
      rintro ⟨e, t'', eq⟩
      cases run.symm.trans eq
    · exact iff_of_true ⟨_, _, run⟩ ⟨new, full⟩
  unchanged := by
    intro v e t' failed
    rcases h.put_cases v with ⟨s, -, run⟩ | ⟨-, -, slot, t'', run, -⟩ | ⟨-, -, run⟩
    · cases run.symm.trans failed
    · cases run.symm.trans failed
    · cases run.symm.trans failed
      exact ⟨rfl, rfl⟩
  order_nodup := h.consistent.nodup_order
  mem_order := by
    intro s
    rw [h.consistent.mem_order, and_iff_left_iff_imp]
    intro hs
    obtain ⟨v, hv⟩ := Option.isSome_iff_exists.1 hs
    exact h.ne_zero hv
  retained := by
    intro σ keep start
    obtain ⟨dropped, t', run, perm, less, -⟩ := h.consistent.retainWith_eq_ok keep start
    refine ⟨dropped.length, t', run, by rw [← perm.length_eq, List.length_append], fun s => ?_⟩
    rw [less.get?]
    simp only [mem_dropped_iff perm h.consistent.nodup_order, h.consistent.mem_order]
    -- What is dropped is used and not kept; a slot that is not used holds nothing anyway.
    by_cases kept : s ∈ ((t.order.filterM keep).run start).1
    · simp [kept]
    · cases held : t.get? s with
      | none => simp
      | some v => simp [kept, h.ne_zero held]
  stable calls hs := h.stable hs calls

end Settled

/-! ## Main result -/

/-- **A slot table behaves as a finite set with stable slots**, whatever calls came before, and
however the digests of values collide. -/
theorem behaves_as_set (h : empty? capacity = .ok t₀) (calls : List (Call α)) :
    (t₀.run calls).BehavesAsSet capacity :=
  ((settled_empty? h).run calls).behavesAsSet

/-- Numbers that have one digest. -/
structure Collider where
  number : Nat
  deriving DecidableEq

instance : Hashable Collider := ⟨fun _ => 0⟩

/-- Two values fill a table, so the third one has to wait for the slot of the first. -/
theorem behaves_as_set_of_collider : ∃ t₀ : SlotTable Collider, empty? 2 = .ok t₀ ∧
    (t₀.run [.put ⟨5⟩, .put ⟨7⟩, .put ⟨9⟩]).BehavesAsSet 2 ∧
    (t₀.run [.put ⟨5⟩, .put ⟨7⟩, .put ⟨9⟩]).order = [1, 2] ∧
    (t₀.run [.put ⟨5⟩, .put ⟨7⟩, .put ⟨9⟩, .retain (fun s => pure (s != 1)) (), .put ⟨9⟩]).order =
      [2, 1] := by
  have buckets : min (Nat.nextPowerOfTwo 2) maxBuckets = 2 := by decide +kernel
  refine ⟨empty 2, rfl, behaves_as_set rfl _, ?_⟩
  rw [empty, buckets]
  decide

end ZoneDiagram.SlotTable

import ZoneDiagram.Cache

/-!
# What a cache holds

A cache may forget at any time, so all that counts is that it holds nothing wrong. A hit returns a
value that is held, an insertion adds its own value only, and a new generation holds nothing,
because no entry is ahead of its time.
-/

namespace ZoneDiagram.Cache

variable {κ ν : Type} {c : Cache κ ν} {key k : κ} {v w : ν}

/-- Some way of some set has an entry. -/
def HasEntry (c : Cache κ ν) (e : CacheEntry κ ν) : Prop := ∃ s ∈ c.sets, some e ∈ s.ways

/-- The cache has a value for a key. -/
def Holds (c : Cache κ ν) (key : κ) (v : ν) : Prop := c.HasEntry ⟨key, v, c.generation⟩

/-- No entry is of a later generation. -/
def Fresh (c : Cache κ ν) : Prop := ∀ e, c.HasEntry e → e.generation ≤ c.generation

theorem not_hasEntry_empty (bits : Nat) (e : CacheEntry κ ν) :
    ¬ (empty bits : Cache κ ν).HasEntry e := by
  rintro ⟨s, hs, he⟩
  rw [empty, Array.mem_replicate] at hs
  rw [hs.2, CacheSet.empty, List.mem_replicate] at he
  cases he.2

theorem not_hasEntry_of_withCapacity? {entries : Nat} (h : withCapacity? entries = .ok c)
    (e : CacheEntry κ ν) : ¬ c.HasEntry e := by
  unfold withCapacity? empty? at h
  split at h
  · cases h
    exact not_hasEntry_empty _ e
  · cases h

/-- A new generation is later than all before, unless they are used up. -/
theorem lt_succ_of_le {g g' : UInt64} (h : g ≤ g') (more : g' + 1 ≠ 0) : g < g' + 1 := by
  rw [UInt64.le_iff_toNat_le] at h
  rw [ne_eq, ← UInt64.toNat_inj, UInt64.toNat_add] at more
  rw [UInt64.lt_iff_toNat_lt, UInt64.toNat_add]
  have := g'.toNat_lt
  simp only [UInt64.reduceToNat] at more ⊢
  omega

theorem generation_outdate {s : CacheSet κ ν} {e : CacheEntry κ ν} (he : some e ∈ s.outdate.ways) :
    e.generation = 0 := by
  obtain ⟨way, -, eq⟩ := List.mem_map.1 he
  obtain ⟨old, -, rfl⟩ := Option.map_eq_some_iff.1 eq
  rfl

/-- All entries are of an earlier generation when a new one begins. -/
theorem lt_generation_clear (h : c.Fresh) {e : CacheEntry κ ν} (he : c.clear.HasEntry e) :
    e.generation < c.clear.generation := by
  unfold clear at he ⊢
  dsimp only at he ⊢
  split at he
  next used =>
    obtain ⟨s, hs, he⟩ := he
    obtain ⟨s', -, rfl⟩ := Array.mem_map.1 hs
    rw [generation_outdate he, if_pos used]
    change (0 : UInt64) < 1
    decide
  next more =>
    rw [if_neg more]
    exact lt_succ_of_le (h e he) more

theorem not_holds_clear (h : c.Fresh) : ¬ c.clear.Holds key v := fun hv =>
  UInt64.lt_irrefl _ (lt_generation_clear h hv)

theorem fresh_clear (h : c.Fresh) : c.clear.Fresh := fun _ he =>
  UInt64.le_of_lt (lt_generation_clear h he)

/-! ## Looking up -/

theorem hasEntry_of_mem_getD {i : Nat} {e : CacheEntry κ ν}
    (h : some e ∈ (c.sets.getD i .empty).ways) : c.HasEntry e := by
  rw [Array.getD_eq_getD_getElem?] at h
  cases eq : c.sets[i]? with
  | some s =>
    rw [eq] at h
    exact ⟨s, Array.mem_of_getElem? eq, h⟩
  | none =>
    rw [eq] at h
    cases (List.mem_replicate.1 h).2

variable [BEq κ] [Hashable κ]

theorem generation_get (c : Cache κ ν) (key : κ) : (c.get key).2.generation = c.generation := by
  unfold get
  dsimp only
  split <;> rfl

theorem hasEntry_of_hasEntry_get {e : CacheEntry κ ν} (h : (c.get key).2.HasEntry e) :
    c.HasEntry e := by
  unfold get at h
  dsimp only at h
  split at h
  next way _ =>
    obtain ⟨s, hs, he⟩ := h
    rcases Array.mem_or_eq_of_mem_setIfInBounds hs with hs | rfl
    · exact ⟨s, hs, he⟩
    · exact hasEntry_of_mem_getD he
  next => exact h

theorem holds_of_holds_get (h : (c.get key).2.Holds k w) : c.Holds k w := by
  have := hasEntry_of_hasEntry_get h
  rwa [generation_get] at this

theorem fresh_get (key : κ) (h : c.Fresh) : (c.get key).2.Fresh := fun e he =>
  generation_get c key ▸ h e (hasEntry_of_hasEntry_get he)

/-- A hit returns a value that is held. -/
theorem holds_of_get_eq_some [LawfulBEq κ] (h : (c.get key).1 = some v) : c.Holds key v := by
  unfold get at h
  dsimp only at h
  split at h
  next way found =>
    apply hasEntry_of_mem_getD (i := c.setOf key)
    generalize c.sets.getD (c.setOf key) .empty = s at found h
    obtain ⟨lt, matching, -⟩ := List.findIdx?_eq_some_iff_getElem.1 found
    have mem : s.ways[way] ∈ s.ways := List.getElem_mem lt
    rw [CacheSet.valueAt?, List.getElem?_eq_getElem lt] at h
    cases eq : s.ways[way] with
    | none => rw [eq] at h; cases h
    | some e =>
      obtain ⟨key', value, generation⟩ := e
      rw [eq] at h matching mem
      cases h
      simp only [CacheSet.valid, Option.any_filter, Option.any_some, Bool.and_eq_true,
        beq_iff_eq] at matching
      obtain ⟨rfl, rfl⟩ := matching
      exact mem
  next => cases h

/-- A cache that begins a new generation answers no key. -/
theorem get_clear [LawfulBEq κ] (h : c.Fresh) (key : κ) : (c.clear.get key).1 = none :=
  Option.eq_none_iff_forall_ne_some.2 fun _ found => not_holds_clear h (holds_of_get_eq_some found)

/-! ## Storing -/

theorem hasEntry_of_hasEntry_insert {e : CacheEntry κ ν} (h : (c.insert key v).HasEntry e) :
    e = ⟨key, v, c.generation⟩ ∨ c.HasEntry e := by
  obtain ⟨s, hs, he⟩ := h
  obtain ⟨i, hi, rfl⟩ := Array.mem_iff_getElem.1 hs
  simp only [insert, Array.size_modify] at hi
  have old : c.sets[i] ∈ c.sets := Array.getElem_mem hi
  simp only [insert, Array.getElem_modify] at he
  split at he
  · rcases List.mem_or_eq_of_mem_set he with he | eq
    · exact .inr ⟨_, old, he⟩
    · injection eq with eq
      exact .inl eq
  · exact .inr ⟨_, old, he⟩

theorem holds_of_holds_insert (h : (c.insert key v).Holds k w) :
    (k = key ∧ w = v) ∨ c.Holds k w := by
  rcases hasEntry_of_hasEntry_insert h with eq | h
  · injection eq with hk hw
    exact .inl ⟨hk, hw⟩
  · exact .inr h

theorem fresh_insert (key : κ) (v : ν) (h : c.Fresh) : (c.insert key v).Fresh := fun e he => by
  rcases hasEntry_of_hasEntry_insert he with rfl | he
  · exact UInt64.le_refl _
  · exact h e he

end ZoneDiagram.Cache

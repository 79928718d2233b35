import ZoneDiagram.Proofs.LeastRecentlyUsed

/-!
# Which misses count as faults

A set holds an entry for each key that was inserted into it since the last clear, up to four
(`Filled`): an eviction only makes room for another entry, and a clear empties all sets at once. So
the history of the insertions tells how full a set is, without a look at its ways.

**Theorem (`faults_of_occupied`).** For every number of sets, every digest of the keys and all calls
of `get`, `insert` and `clear`, the faults of a cache are the look-ups that miss in a set into which
some key was inserted since the last clear. These are the misses in full sets, where four other keys
are in the way of the key, together with the misses in sets that hold one, two or three entries
(`CountsFaults`).

So the faults are the conflict misses on full sets only if no look-up misses in a set that is partly
filled. With one entry in the only set they differ (`faults_exceed_full_misses`).
-/

namespace ZoneDiagram

namespace CacheSet

open Recency (wayCount)

variable {κ ν : Type} {s : CacheSet κ ν} {g : UInt64}

/-- The entries of a generation, by way. -/
def entries (s : CacheSet κ ν) (g : UInt64) : List (CacheEntry κ ν) := s.ways.filterMap (valid g)

theorem isOccupied_iff : s.isOccupied g = true ↔ 0 < (s.entries g).length := by
  rw [List.length_pos_iff_exists_mem, isOccupied, List.any_eq_true]
  simp only [entries, List.mem_filterMap, Option.isSome_iff_exists]
  exact ⟨fun ⟨way, mem, e, he⟩ => ⟨e, way, mem, he⟩, fun ⟨e, way, mem, he⟩ => ⟨way, mem, e, he⟩⟩

theorem filterMap_range_getElem? {α β : Type} (f : Option α → Option β) (l : List α) :
    (List.range l.length).filterMap (fun i => f l[i]?) = l.filterMap (fun a => f (some a)) := by
  induction l with
  | nil => rfl
  | cons a l ih =>
    rw [List.length_cons, List.range_succ_eq_map, List.filterMap_cons, List.filterMap_map,
      List.filterMap_cons]
    simp only [List.getElem?_cons_zero, Function.comp_def, List.getElem?_cons_succ, ih]

/-- The pairs in order of use are the entries in another order. -/
theorem Proper.contents_perm (h : s.Proper g) :
    (s.contents g).Perm ((s.entries g).map fun e => (e.key, e.value)) := by
  have byWay : (List.range wayCount).filterMap (s.pairAt g) =
      (s.entries g).map fun e => (e.key, e.value) := by
    rw [← h.length, entries, List.map_filterMap]
    exact filterMap_range_getElem?
      (fun way => (way.bind (valid g)).map fun e => (e.key, e.value)) s.ways
  rw [← byWay]
  exact List.Perm.filterMap _ h.order

end CacheSet

namespace Cache

variable {κ ν : Type}

/-! ## The history of insertions -/

section History

variable [BEq κ] (select : κ → Nat)

/-- The keys that were inserted into every set since the last clear, each of them once, after one
more call. -/
def Call.arrive (keys : Nat → List κ) : Call κ ν → Nat → List κ
  | get _ => keys
  | insert key _ => Function.update keys (select key) ((keys (select key)).insert key)
  | clear => fun _ => []

/-- The keys that were inserted into every set since the last clear, each of them once. -/
def arrivals (calls : List (Call κ ν)) : Nat → List κ :=
  calls.foldl (Call.arrive select) fun _ => []

/-- The number of entries of a set, for keys that were inserted into it. -/
def filling (keys : List κ) : Nat := min keys.length Recency.wayCount

variable [Hashable κ]

/-- One for a look-up that misses while its set is filled as wanted. -/
def missWhere (wanted : Nat → Bool) (c : Cache κ ν) (keys : Nat → List κ) : Call κ ν → Nat
  | .get key => if (c.get key).1.isNone && wanted (filling (keys (select key))) then 1 else 0
  | _ => 0

/-- The number of look-ups that miss while their set is filled as wanted, in a run that starts after
some keys were inserted. -/
def missesFrom (wanted : Nat → Bool) : Cache κ ν → (Nat → List κ) → List (Call κ ν) → Nat
  | _, _, [] => 0
  | c, keys, call :: calls =>
    missWhere select wanted c keys call +
      missesFrom wanted (c.perform call).2 (call.arrive select keys) calls

/-- The number of look-ups of a run that miss while their set is filled as wanted. -/
def missesWhere (wanted : Nat → Bool) (c : Cache κ ν) (calls : List (Call κ ν)) : Nat :=
  missesFrom c.setOf wanted c (fun _ => []) calls

/-- The entries that count in the set of a key. -/
def entriesFor (c : Cache κ ν) (key : κ) : List (CacheEntry κ ν) :=
  (c.sets.getD (c.setOf key) .empty).entries c.generation

/-- What the faults of a run are, and how full its sets are in the end. -/
structure CountsFaults (c : Cache κ ν) (calls : List (Call κ ν)) : Prop where
  held : ∀ key, ((c.run calls).2.entriesFor key).length =
    filling (arrivals c.setOf calls (c.setOf key))
  since : ∀ key, ∀ e ∈ (c.run calls).2.entriesFor key, latest calls e.key = some e.value
  others : ∀ key, ((c.run calls).2.get key).1 = none →
    ∀ e ∈ (c.run calls).2.entriesFor key, e.key ≠ key
  faults : (c.run calls).2.faults = c.missesWhere (fun n => 0 < n) calls
  full : (c.run calls).2.faults =
    c.missesWhere (fun n => n = 4) calls + c.missesWhere (fun n => 0 < n ∧ n < 4) calls

end History

/-! ## How full a set is -/

/-- A set of the reference has a pair for each key that was inserted into it, up to four. -/
structure Filled (r : RecentPairs κ ν) (keys : Nat → List κ) : Prop where
  distinct : ∀ i, ((r i).map Prod.fst).Nodup
  arrived : ∀ i, ∀ pair ∈ r i, pair.1 ∈ keys i
  length : ∀ i, (r i).length = filling (keys i)

theorem filling_le (keys : List κ) : filling keys ≤ 4 := Nat.min_le_right _ _

theorem filled_empty : Filled (.empty : RecentPairs κ ν) fun _ => [] where
  distinct _ := List.nodup_nil
  arrived _ _ mem := by cases mem
  length _ := rfl

section Filled

variable {select : κ → Nat} {r : RecentPairs κ ν} {keys : Nat → List κ} {i : Nat} {key : κ}

/-- The pairs of one set and the keys that arrived there may change together. -/
theorem Filled.update (h : Filled r keys) {pairs : List (κ × ν)} {here : List κ}
    (distinct : (pairs.map Prod.fst).Nodup) (arrived : ∀ pair ∈ pairs, pair.1 ∈ here)
    (length : pairs.length = filling here) :
    Filled (Function.update r i pairs) (Function.update keys i here) := by
  refine ⟨fun j => ?_, fun j => ?_, fun j => ?_⟩ <;> by_cases eq : j = i
  · rwa [eq, Function.update_self]
  · rw [Function.update_of_ne eq]
    exact h.distinct j
  · rwa [eq, Function.update_self, Function.update_self]
  · rw [Function.update_of_ne eq, Function.update_of_ne eq]
    exact h.arrived j
  · rwa [eq, Function.update_self, Function.update_self]
  · rw [Function.update_of_ne eq, Function.update_of_ne eq]
    exact h.length j

/-- A key that is not there was driven out by four others if it was ever inserted. -/
theorem Filled.full_of_missing (h : Filled r keys) (missing : key ∉ (r i).map Prod.fst)
    (arrived : key ∈ keys i) : filling (keys i) = 4 := by
  have distinct : (key :: (r i).map Prod.fst).Nodup := List.nodup_cons.2 ⟨missing, h.distinct i⟩
  have sub : key :: (r i).map Prod.fst ⊆ keys i := by
    refine List.cons_subset.2 ⟨arrived, fun k mem => ?_⟩
    obtain ⟨pair, hpair, rfl⟩ := List.mem_map.1 mem
    exact h.arrived i pair hpair
  have more : (r i).length + 1 ≤ (keys i).length := by
    simpa using (List.subperm_of_subset distinct sub).length_le
  have length := h.length i
  unfold filling Recency.wayCount at length ⊢
  omega

variable [BEq κ] [LawfulBEq κ]

theorem Filled.get (h : Filled r keys) (key : κ) : Filled (r.get select key).2 keys := by
  cases known : (r (select key)).lookup key with
  | none =>
    rw [RecentPairs.get_of_unknown known]
    exact h
  | some v =>
    obtain ⟨before, after, eq, -⟩ := List.lookup_eq_some_iff.1 known
    have mem : (key, v) ∈ r (select key) := eq ▸ List.mem_append_right _ List.mem_cons_self
    have same : Function.update keys (select key) (keys (select key)) = keys :=
      Function.update_eq_self _ _
    rw [RecentPairs.get_of_known known, ← same]
    refine h.update (distinct_cons_eraseP (h.distinct _) key v) (fun pair hpair => ?_) ?_
    · rcases List.mem_cons.1 hpair with rfl | old
      · exact h.arrived _ _ mem
      · exact h.arrived _ _ (List.mem_of_mem_eraseP old)
    · have pos := List.length_pos_of_mem mem
      rw [List.length_cons, List.length_eraseP_of_mem mem (beq_self_eq_true key),
        Nat.sub_add_cancel pos, h.length]

theorem Filled.insert (h : Filled r keys) (key : κ) (v : ν) :
    Filled (r.insert select key v)
      (Function.update keys (select key) ((keys (select key)).insert key)) := by
  refine h.update ((distinct_cons_eraseP (h.distinct _) key v).sublist
    ((List.take_sublist _ _).map _)) (fun pair hpair => ?_) ?_
  · rw [List.mem_insert_iff]
    rcases List.mem_cons.1 (List.mem_of_mem_take hpair) with rfl | old
    · exact .inl rfl
    · exact .inr (h.arrived _ pair (List.mem_of_mem_eraseP old))
  · have length := h.length (select key)
    have few := filling_le (keys (select key))
    rw [List.length_take, List.length_cons]
    by_cases present : key ∈ (r (select key)).map Prod.fst
    · -- The pair takes the place of the one with its key.
      obtain ⟨pair, mem, rfl⟩ := List.mem_map.1 present
      have pos := List.length_pos_of_mem mem
      rw [List.insert_of_mem (h.arrived _ pair mem),
        List.length_eraseP_of_mem mem (beq_self_eq_true pair.1)]
      omega
    · have apart : ∀ pair ∈ r (select key), ¬ (pair.1 == key) = true := by
        intro pair mem eq
        exact present (List.mem_map.2 ⟨pair, mem, beq_iff_eq.1 eq⟩)
      rw [List.eraseP_of_forall_not apart]
      by_cases arrived : key ∈ keys (select key)
      · have full := h.full_of_missing present arrived
        rw [List.insert_of_mem arrived]
        omega
      · unfold filling Recency.wayCount at length ⊢
        rw [List.length_insert_of_not_mem arrived]
        omega

theorem Filled.perform (h : Filled r keys) (call : Call κ ν) :
    Filled (r.perform select call).2 (call.arrive select keys) := by
  cases call with
  | get key => exact h.get key
  | insert key v => exact h.insert key v
  | clear => exact filled_empty

end Filled

/-! ## Counting along a run -/

theorem faults_clear (c : Cache κ ν) : c.clear.faults = c.faults := by
  unfold Cache.clear
  dsimp only
  split <;> rfl

section Counting

variable [Hashable κ] {select : κ → Nat} {c : Cache κ ν} {r : RecentPairs κ ν}
  {keys : Nat → List κ} {key : κ}

/-- The entries that count in the set of a key, in order of use. -/
theorem Mirrors.entriesFor_perm (h : Mirrors select c r) (key : κ) :
    (r (select key)).Perm ((c.entriesFor key).map fun e => (e.key, e.value)) := by
  obtain ⟨s, -, here, proper, contents⟩ := h.set key
  rw [entriesFor, here, ← contents]
  exact proper.contents_perm

/-- **A set holds an entry for each key that was inserted since the last clear, up to four.** -/
theorem Mirrors.length_entriesFor (h : Mirrors select c r) (filled : Filled r keys) (key : κ) :
    (c.entriesFor key).length = filling (keys (select key)) := by
  rw [← filled.length, (h.entriesFor_perm key).length_eq, List.length_map]

theorem Mirrors.mem_of_mem_entriesFor (h : Mirrors select c r) {e : CacheEntry κ ν}
    (he : e ∈ c.entriesFor key) : (e.key, e.value) ∈ r (select key) :=
  (h.entriesFor_perm key).mem_iff.2 (List.mem_map_of_mem he)

variable [BEq κ]

/-- The misses in sets that are filled in one of two ways. -/
theorem missesFrom_add {wanted first second : Nat → Bool}
    (split : ∀ n ≤ 4, (if wanted n then 1 else 0) =
      (if first n then 1 else 0) + if second n then 1 else 0)
    (c : Cache κ ν) (keys : Nat → List κ) (calls : List (Call κ ν)) :
    missesFrom select wanted c keys calls =
      missesFrom select first c keys calls + missesFrom select second c keys calls := by
  induction calls generalizing c keys with
  | nil => rfl
  | cons call calls ih =>
    have here : missWhere select wanted c keys call =
        missWhere select first c keys call + missWhere select second c keys call := by
      cases call with
      | get key =>
        have := split _ (filling_le (keys (select key)))
        cases missed : (c.get key).1.isNone
        · simp [missWhere, missed]
        · simpa [missWhere, missed] using this
      | insert key v => rfl
      | clear => rfl
    simp only [missesFrom, here, ih]
    omega

variable [LawfulBEq κ]

namespace Mirrors

/-- The entries in the way of a key that is missed are under other keys. -/
theorem key_ne_of_missed (h : Mirrors select c r) (missed : (c.get key).1 = none)
    {e : CacheEntry κ ν} (he : e ∈ c.entriesFor key) : e.key ≠ key := by
  rintro rfl
  have mem := h.mem_of_mem_entriesFor he
  have unknown : (r.get select e.key).1 = none := (h.get e.key).1.symm.trans missed
  cases known : (r (select e.key)).lookup e.key with
  | none => exact bne_iff_ne.1 (List.lookup_eq_none_iff.1 known _ mem) rfl
  | some v =>
    rw [RecentPairs.get_of_known known] at unknown
    cases unknown

/-- A call is a fault if it is a look-up that misses in a set that is not empty. -/
theorem faults_perform (h : Mirrors select c r) (filled : Filled r keys) (call : Call κ ν) :
    (c.perform call).2.faults = c.faults + missWhere select (fun n => 0 < n) c keys call := by
  cases call with
  | get key =>
    have occupied := h.length_entriesFor filled key
    obtain ⟨s, -, here, -, -⟩ := h.set key
    rw [entriesFor, here] at occupied
    change (c.get key).2.faults = _
    cases found : s.wayOf? c.generation key with
    | some way =>
      obtain ⟨v, -, -, value⟩ := CacheSet.pairAt_of_wayOf? found
      rw [missWhere, get_of_hit here found, value]
      rfl
    | none =>
      rw [missWhere, get_of_miss here found, ← occupied]
      simp only [Option.isNone_none, Bool.true_and, CacheSet.isOccupied_iff, decide_eq_true_eq]
  | insert key v => rfl
  | clear => exact faults_clear c

/-- The faults of a run, and how full its sets are in the end. -/
theorem faults_run (h : Mirrors select c r) (filled : Filled r keys) (calls : List (Call κ ν)) :
    (c.run calls).2.faults = c.faults + missesFrom select (fun n => 0 < n) c keys calls ∧
      Filled (runCalls (RecentPairs.perform select) r calls).2
        (calls.foldl (Call.arrive select) keys) := by
  induction calls generalizing c r keys with
  | nil => exact ⟨rfl, filled⟩
  | cons call calls ih =>
    obtain ⟨-, mirrors, -⟩ := h.perform call
    obtain ⟨faults, filled'⟩ := ih mirrors (filled.perform call)
    refine ⟨?_, filled'⟩
    change ((c.perform call).2.run calls).2.faults = _
    rw [faults, h.faults_perform filled, missesFrom, Nat.add_assoc]

end Mirrors

end Counting

/-! ## Main result -/

variable [BEq κ] [LawfulBEq κ] [Hashable κ] {c : Cache κ ν}

/-- **The faults are the misses in sets that hold some entry**, full or not. -/
theorem faults_of_occupied {bits : Nat} (h : empty? bits = .ok c) (calls : List (Call κ ν)) :
    c.CountsFaults calls := by
  unfold empty? at h
  split at h
  · cases h
    have start : Mirrors _ (empty bits : Cache κ ν) .empty := mirrors_empty bits
    obtain ⟨-, mirrors, -⟩ := start.run calls
    obtain ⟨faults, filled⟩ := start.faults_run filled_empty calls
    have occupied : ((empty bits).run calls).2.faults =
        (empty bits).missesWhere (fun n => 0 < n) calls := faults.trans (Nat.zero_add _)
    refine ⟨mirrors.length_entriesFor filled, fun key e he => ?_,
      fun key missed e he => mirrors.key_ne_of_missed missed he, occupied, ?_⟩
    · exact ((newest_empty _).run calls).newest (mirrors.mem_of_mem_entriesFor he)
    · rw [occupied]
      refine missesFrom_add (fun n few => ?_) _ _ calls
      by_cases none : n = 0
      · simp [none]
      · by_cases all : n = 4
        · simp [all]
        · have : 0 < n ∧ n < 4 := by omega
          simp [this, all]
  · cases h

/-- Five keys for the only set. The first miss finds two entries, the second one finds four, and
after the clear there is nothing to find. -/
theorem faults_of_occupied_one_set : ∃ c : Cache Nat Nat, empty? 0 = .ok c ∧
    c.CountsFaults [.insert 1 10, .insert 2 20, .get 3, .insert 3 30, .insert 4 40, .insert 5 50,
      .get 1, .get 5, .clear, .get 5] ∧
    (c.run [.insert 1 10, .insert 2 20, .get 3, .insert 3 30, .insert 4 40, .insert 5 50,
      .get 1, .get 5, .clear, .get 5]).2.faults = 2 :=
  have start : empty? 0 = .ok (empty 0 : Cache Nat Nat) := rfl
  ⟨empty 0, start, faults_of_occupied start _, by decide⟩

/-- One entry is in the only set, and a look-up of another key is a fault. No set is full. -/
theorem faults_exceed_full_misses :
    ((empty 0 : Cache Nat Nat).run [.insert 1 10, .get 2]).2.faults = 1 ∧
      (empty 0 : Cache Nat Nat).missesWhere (fun n => n = 4) [.insert 1 10, .get 2] = 0 := by
  decide

end Cache

end ZoneDiagram

import Mathlib.Logic.Function.Basic
import ZoneDiagram.Proofs.Cache
import ZoneDiagram.Proofs.Cache.Recency

/-!
# A cache replaces what was used least recently

The reference (`RecentPairs`) has a list of at most four pairs for each set, in order of last use. A
hit moves its pair to the front. A pair that is inserted takes the place of the pair with the same
key, comes first, and drives out the last of four others. A clear empties all lists.

**Theorem (`least_recently_used`).** For every number of sets, every digest of the keys and all
calls of `get`, `insert` and `clear`, a cache gives the answers of the reference (`Matches`). So a
hit returns the value that was inserted last for its key since the last clear. The cache counts as
hits exactly the answers with a value, and hits and misses are all answers.

The relation between the two (`Mirrors`): the list of a set is what the ways hold in the present
generation, in the order of the packed byte. The byte and the ways of earlier generations survive a
clear, but nothing in them counts.
-/

namespace ZoneDiagram.Cache

variable {κ ν : Type}

/-! ## The reference -/

/-- A use of a cache. -/
inductive Call (κ ν : Type) where
  | get (key : κ)
  | insert (key : κ) (v : ν)
  | clear

/-- The call asks for a key. -/
def Call.isGet : Call κ ν → Bool
  | get _ => true
  | _ => false

/-- The answers to some calls, and the state after them. -/
def runCalls {σ : Type} (perform : σ → Call κ ν → List (Option ν) × σ) :
    σ → List (Call κ ν) → List (Option ν) × σ
  | s, [] => ([], s)
  | s, call :: calls =>
    let rest := runCalls perform (perform s call).2 calls
    ((perform s call).1 ++ rest.1, rest.2)

/-- The pairs of every set in order of last use. -/
abbrev RecentPairs (κ ν : Type) : Type := Nat → List (κ × ν)

namespace RecentPairs

variable [BEq κ] (select : κ → Nat) (r : RecentPairs κ ν)

/-- No pairs. -/
def empty : RecentPairs κ ν := fun _ => []

/-- A key that is there moves to the front of its set. -/
def get (key : κ) : Option ν × RecentPairs κ ν :=
  match (r (select key)).lookup key with
  | some v =>
    (some v, Function.update r (select key) ((key, v) :: (r (select key)).eraseP (·.1 == key)))
  | none => (none, r)

/-- A pair comes to the front of its set, and the set is cut to four pairs. -/
def insert (key : κ) (v : ν) : RecentPairs κ ν :=
  Function.update r (select key) (((key, v) :: (r (select key)).eraseP (·.1 == key)).take 4)

/-- The answers to a call, and the pairs after it. -/
def perform : Call κ ν → List (Option ν) × RecentPairs κ ν
  | .get key => ([(r.get select key).1], (r.get select key).2)
  | .insert key v => ([], r.insert select key v)
  | .clear => ([], empty)

variable {select r} {key : κ}

theorem get_of_known {v : ν} (known : (r (select key)).lookup key = some v) :
    r.get select key = (some v, Function.update r (select key)
      ((key, v) :: (r (select key)).eraseP (·.1 == key))) := by
  rw [get, known]

theorem get_of_unknown (unknown : (r (select key)).lookup key = none) :
    r.get select key = (none, r) := by
  rw [get, unknown]

end RecentPairs

/-! ## The newest values -/

/-- Every pair of the reference is in the set of its key, once, with the newest value. -/
structure Newest (select : κ → Nat) (r : RecentPairs κ ν) (latest : κ → Option ν) : Prop where
  home : ∀ {i key v}, (key, v) ∈ r i → select key = i
  distinct : ∀ i, ((r i).map Prod.fst).Nodup
  newest : ∀ {i key v}, (key, v) ∈ r i → latest key = some v

theorem newest_empty (select : κ → Nat) : Newest select .empty fun _ => (none : Option ν) where
  home mem := by cases mem
  distinct _ := List.nodup_nil
  newest mem := by cases mem

section Newest

variable [BEq κ]

/-- The value that was inserted last for every key since the last clear, after one more call. -/
def Call.record (latest : κ → Option ν) : Call κ ν → κ → Option ν
  | get _ => latest
  | insert key v => fun k => if k == key then some v else latest k
  | clear => fun _ => none

/-- The value that was inserted last for every key since the last clear. -/
def latest (calls : List (Call κ ν)) : κ → Option ν := calls.foldl Call.record fun _ => none

variable [LawfulBEq κ] {select : κ → Nat} {r : RecentPairs κ ν} {latest : κ → Option ν} {key : κ}
  {v : ν}

theorem Newest.of_known (h : Newest select r latest)
    (known : (r (select key)).lookup key = some v) : latest key = some v := by
  obtain ⟨before, after, eq, -⟩ := List.lookup_eq_some_iff.1 known
  refine h.newest (i := select key) ?_
  rw [eq]
  exact List.mem_append_right _ List.mem_cons_self

/-- A pair stays in the set of its key, once, when it comes to the front. -/
theorem Newest.update (h : Newest select r latest) (key : κ) (v : ν) {pairs : List (κ × ν)}
    (sub : pairs.Sublist ((key, v) :: (r (select key)).eraseP (·.1 == key))) :
    Newest select (Function.update r (select key) pairs)
      fun k => if k == key then some v else latest k := by
  have distinct : ((((key, v) :: (r (select key)).eraseP (·.1 == key))).map Prod.fst).Nodup :=
    distinct_cons_eraseP (h.distinct _) key v
  -- A pair is the new one, or an old one with another key.
  have cases {i : Nat} {k : κ} {w : ν} (mem : (k, w) ∈ Function.update r (select key) pairs i) :
      (k = key ∧ w = v ∧ i = select key) ∨ (k ≠ key ∧ (k, w) ∈ r i) := by
    by_cases here : i = select key
    · subst here
      rw [Function.update_self] at mem
      rcases List.mem_cons.1 (sub.subset mem) with eq | old
      · cases eq
        exact .inl ⟨rfl, rfl, rfl⟩
      · refine .inr ⟨?_, List.mem_of_mem_eraseP old⟩
        rintro rfl
        exact (List.nodup_cons.1 distinct).1 (List.mem_map.2 ⟨_, old, rfl⟩)
    · rw [Function.update_of_ne here] at mem
      refine .inr ⟨?_, mem⟩
      rintro rfl
      exact here (h.home mem).symm
  refine ⟨fun mem => ?_, fun i => ?_, fun mem => ?_⟩
  · rcases cases mem with ⟨rfl, -, rfl⟩ | ⟨-, old⟩
    · rfl
    · exact h.home old
  · by_cases here : i = select key
    · rw [here, Function.update_self]
      exact distinct.sublist (sub.map _)
    · rw [Function.update_of_ne here]
      exact h.distinct i
  · rcases cases mem with ⟨rfl, rfl, -⟩ | ⟨ne, old⟩
    · rw [beq_self_eq_true]
      rfl
    · rw [beq_eq_false_iff_ne.2 ne]
      exact h.newest old

theorem Newest.perform (h : Newest select r latest) (call : Call κ ν) :
    Newest select (r.perform select call).2 (call.record latest) := by
  cases call with
  | get key =>
    rw [RecentPairs.perform]
    cases known : (r (select key)).lookup key with
    | none =>
      rw [RecentPairs.get_of_unknown known]
      exact h
    | some v =>
      rw [RecentPairs.get_of_known known]
      have same : (fun k => if k == key then some v else latest k) = latest := by
        funext k
        split
        next here => rw [beq_iff_eq.1 here, h.of_known known]
        next => rfl
      have moved := h.update key v (List.Sublist.refl _)
      rwa [same] at moved
  | insert key v => exact h.update key v (List.take_sublist _ _)
  | clear => exact newest_empty select

theorem Newest.run (h : Newest select r latest) (calls : List (Call κ ν)) :
    Newest select (runCalls (RecentPairs.perform select) r calls).2
      (calls.foldl Call.record latest) := by
  induction calls generalizing r latest with
  | nil => exact h
  | cons call calls ih => exact ih (h.perform call)

theorem Newest.get (h : Newest select r latest) (found : (r.get select key).1 = some v) :
    latest key = some v := by
  cases known : (r (select key)).lookup key with
  | none =>
    rw [RecentPairs.get_of_unknown known] at found
    cases found
  | some w =>
    rw [RecentPairs.get_of_known known] at found
    cases found
    exact h.of_known known

end Newest

/-! ## The relation -/

theorem setOf_congr [Hashable κ] {c c' : Cache κ ν} (h : c'.sets.size = c.sets.size) (key : κ) :
    c'.setOf key = c.setOf key := by
  rw [setOf, setOf, h]

section Reading

variable [BEq κ] [Hashable κ] {c : Cache κ ν} {s : CacheSet κ ν} {key : κ}

theorem get_of_hit {way : Nat} (here : c.sets.getD (c.setOf key) .empty = s)
    (found : s.wayOf? c.generation key = some way) : c.get key = (s.valueAt? way, { c with
      sets := c.sets.setIfInBounds (c.setOf key) (s.promote way), hits := c.hits + 1 }) := by
  subst here
  rw [get, found]

theorem get_of_miss (here : c.sets.getD (c.setOf key) .empty = s)
    (missed : s.wayOf? c.generation key = none) : c.get key = (none, { c with
      misses := c.misses + 1
      faults := c.faults + if s.isOccupied c.generation then 1 else 0 }) := by
  subst here
  rw [get, missed]

end Reading

/-- A set without entries of the generation has no pairs. -/
theorem contents_eq_nil {s : CacheSet κ ν} {g : UInt64}
    (h : ∀ e, some e ∈ s.ways → e.generation ≠ g) : s.contents g = [] := by
  refine List.filterMap_eq_nil_iff.2 fun way _ => ?_
  rw [CacheSet.pairAt, Option.map_eq_none_iff, Option.bind_eq_none_iff]
  intro held hheld
  cases held with
  | none => rfl
  | some e =>
    have ne := h e (List.mem_of_getElem? hheld)
    simp [CacheSet.valid, ne]

section Mirrors

variable [Hashable κ] {select : κ → Nat} {c : Cache κ ν} {r : RecentPairs κ ν}

/-- The pairs of the present generation, in the order of use of their ways, are those of the
reference. -/
structure Mirrors (select : κ → Nat) (c : Cache κ ν) (r : RecentPairs κ ν) : Prop where
  fresh : c.Fresh
  setOf : ∀ key, c.setOf key = select key
  inside : ∀ key, select key < c.sets.size
  sets : ∀ {i s}, c.sets[i]? = some s → s.Proper c.generation ∧ s.contents c.generation = r i

theorem mirrors_empty (bits : Nat) :
    Mirrors (empty bits : Cache κ ν).setOf (empty bits : Cache κ ν) .empty where
  fresh e he := absurd he (not_hasEntry_empty bits e)
  setOf _ := rfl
  inside key := by
    refine Nat.mod_lt _ ?_
    rw [empty, Array.size_replicate, Nat.one_shiftLeft]
    exact Nat.two_pow_pos bits
  sets {i s} hs := by
    obtain ⟨-, rfl⟩ : i < 1 <<< bits ∧ CacheSet.empty = s := by
      simpa [empty, Array.getElem?_replicate] using hs
    have none : (CacheSet.empty : CacheSet κ ν).contents (empty bits : Cache κ ν).generation = [] :=
      contents_eq_nil fun e he => by cases List.eq_of_mem_replicate he
    exact ⟨⟨rfl, Recency.proper_initial, by rw [none]; exact List.nodup_nil⟩, none⟩

/-- The set of a key. -/
theorem Mirrors.set (h : Mirrors select c r) (key : κ) : ∃ s, c.sets[select key]? = some s ∧
    c.sets.getD (c.setOf key) .empty = s ∧ s.Proper c.generation ∧
      s.contents c.generation = r (select key) := by
  have hs := Array.getElem?_eq_getElem (h.inside key)
  refine ⟨_, hs, ?_, h.sets hs⟩
  rw [h.setOf, Array.getD_eq_getD_getElem?, hs, Option.getD_some]

/-- A cache goes on mirroring the reference if the pairs of one set change in both. -/
theorem Mirrors.update {c' : Cache κ ν} {i : Nat} {pairs : List (κ × ν)} (h : Mirrors select c r)
    (fresh : c'.Fresh) (generation : c'.generation = c.generation)
    (size : c'.sets.size = c.sets.size) (others : ∀ j, j ≠ i → c'.sets[j]? = c.sets[j]?)
    (here : ∀ s, c'.sets[i]? = some s → s.Proper c.generation ∧ s.contents c.generation = pairs) :
    Mirrors select c' (Function.update r i pairs) where
  fresh
  setOf k := (setOf_congr size k).trans (h.setOf k)
  inside k := size ▸ h.inside k
  sets {j s} hs := by
    rw [generation]
    by_cases eq : j = i
    · rw [eq, Function.update_self]
      exact here s (eq ▸ hs)
    · rw [Function.update_of_ne eq]
      exact h.sets ((others j eq).symm.trans hs)

/-- **A clear leaves nothing that counts.** -/
theorem Mirrors.clear (h : Mirrors select c r) : Mirrors select c.clear .empty := by
  have before {e : CacheEntry κ ν} (he : c.clear.HasEntry e) : e.generation ≠ c.clear.generation :=
    fun eq => UInt64.lt_irrefl _ (eq ▸ lt_generation_clear h.fresh he)
  have size : c.clear.sets.size = c.sets.size := by
    unfold Cache.clear
    dsimp only
    split
    · exact Array.size_map
    · rfl
  -- The ways are as many as before, and their order is kept.
  have kept {i : Nat} {s : CacheSet κ ν} (hs : c.clear.sets[i]? = some s) :
      s.ways.length = Recency.wayCount ∧ s.recency.Proper := by
    unfold Cache.clear at hs
    dsimp only at hs
    split at hs
    · rw [Array.getElem?_map] at hs
      obtain ⟨old, hold, rfl⟩ := Option.map_eq_some_iff.1 hs
      have proper := (h.sets hold).1
      exact ⟨by rw [CacheSet.outdate, List.length_map, proper.length], proper.order⟩
    · exact ⟨(h.sets hs).1.length, (h.sets hs).1.order⟩
  refine ⟨fresh_clear h.fresh, fun k => (setOf_congr size k).trans (h.setOf k),
    fun k => size ▸ h.inside k, fun {i s} hs => ?_⟩
  have none : s.contents c.clear.generation = [] :=
    contents_eq_nil fun e he => before ⟨s, Array.mem_of_getElem? hs, he⟩
  exact ⟨⟨(kept hs).1, (kept hs).2, by rw [none]; exact List.nodup_nil⟩, none⟩

end Mirrors

/-! ## Runs -/

variable [BEq κ] [Hashable κ]

/-- The answers to a call, and the cache after it. -/
def perform (c : Cache κ ν) : Call κ ν → List (Option ν) × Cache κ ν
  | .get key => ([(c.get key).1], (c.get key).2)
  | .insert key v => ([], c.insert key v)
  | .clear => ([], c.clear)

/-- The answers of a cache to some calls, and the cache after them. -/
def run (c : Cache κ ν) (calls : List (Call κ ν)) : List (Option ν) × Cache κ ν :=
  runCalls perform c calls

/-- A cache answers calls as the reference does, and it counts its answers. -/
structure Matches (c : Cache κ ν) (calls : List (Call κ ν)) : Prop where
  answers : (c.run calls).1 = (runCalls (RecentPairs.perform c.setOf) .empty calls).1
  newest : ∀ {key v}, ((c.run calls).2.get key).1 = some v → latest calls key = some v
  total : (c.run calls).2.hits + (c.run calls).2.misses = calls.countP Call.isGet
  hits : (c.run calls).2.hits = (c.run calls).1.countP Option.isSome

/-! ## What a run keeps -/

variable [LawfulBEq κ] {select : κ → Nat} {c : Cache κ ν} {r : RecentPairs κ ν} {key : κ} {v : ν}

namespace Mirrors

/-- **A look-up has the answer of the reference**, moves the same pair to the front, and is counted
by its answer. -/
theorem get (h : Mirrors select c r) (key : κ) :
    (c.get key).1 = (r.get select key).1 ∧ Mirrors select (c.get key).2 (r.get select key).2 ∧
      (c.get key).2.hits = c.hits + [(c.get key).1].countP Option.isSome ∧
      (c.get key).2.hits + (c.get key).2.misses = c.hits + c.misses + 1 := by
  obtain ⟨s, hs, here, proper, contents⟩ := h.set key
  have fresh := fresh_get key h.fresh
  cases found : s.wayOf? c.generation key with
  | some way =>
    obtain ⟨v, lt, pair, value⟩ := CacheSet.pairAt_of_wayOf? found
    have hway : way < Recency.wayCount := proper.length ▸ lt
    have known : (r (select key)).lookup key = some v := by
      rw [← contents, ← value, (proper.lookup_of_wayOf? found).1]
    rw [get_of_hit here found, value] at fresh ⊢
    rw [RecentPairs.get_of_known known]
    rw [h.setOf] at fresh ⊢
    refine ⟨rfl, h.update fresh rfl Array.size_setIfInBounds (fun i ne => ?_) fun s' hs' => ?_,
      rfl, by dsimp only; omega⟩
    -- Only the set of the key is changed, in the order of its ways.
    · exact Array.getElem?_setIfInBounds_ne ne.symm
    · cases (Array.getElem?_setIfInBounds_self_of_lt (h.inside key)).symm.trans hs'
      rw [proper.contents_promote hway pair, contents]
      exact ⟨proper.promote hway pair, rfl⟩
  | none =>
    have unknown : (r (select key)).lookup key = none := by
      rw [← contents, proper.lookup_of_wayOf?_eq_none found]
    rw [get_of_miss here found] at fresh ⊢
    rw [RecentPairs.get_of_unknown unknown]
    exact ⟨rfl, ⟨fresh, h.setOf, h.inside, h.sets⟩, rfl, by dsimp only; omega⟩

/-- **An insertion puts the pair where the reference does.** -/
theorem insert (h : Mirrors select c r) (key : κ) (v : ν) :
    Mirrors select (c.insert key v) (r.insert select key v) := by
  obtain ⟨s, hs, -, proper, contents⟩ := h.set key
  refine h.update (fresh_insert key v h.fresh) rfl Array.size_modify (fun i ne => ?_)
    fun s' hs' => ?_
  · rw [Cache.insert, Array.getElem?_modify, h.setOf, if_neg ne.symm]
  · rw [Cache.insert, Array.getElem?_modify, h.setOf, if_pos rfl, hs] at hs'
    cases hs'
    rw [proper.contents_write_target, contents]
    exact ⟨proper.write_target key v, rfl⟩

/-- What a call keeps, and what it counts. -/
theorem perform (h : Mirrors select c r) (call : Call κ ν) :
    (c.perform call).1 = (r.perform select call).1 ∧
      Mirrors select (c.perform call).2 (r.perform select call).2 ∧
      (c.perform call).2.hits = c.hits + (c.perform call).1.countP Option.isSome ∧
      (c.perform call).2.hits + (c.perform call).2.misses =
        c.hits + c.misses + [call].countP Call.isGet := by
  cases call with
  | get key =>
    obtain ⟨answer, mirrors, hits, total⟩ := h.get key
    exact ⟨congrArg ([·]) answer, mirrors, hits, total⟩
  | insert key v => exact ⟨rfl, h.insert key v, rfl, rfl⟩
  | clear =>
    have counters : c.clear.hits = c.hits ∧ c.clear.misses = c.misses := by
      unfold Cache.clear
      dsimp only
      split <;> exact ⟨rfl, rfl⟩
    refine ⟨rfl, h.clear, counters.1, ?_⟩
    change c.clear.hits + c.clear.misses = c.hits + c.misses
    rw [counters.1, counters.2]

/-- What a run keeps, and what it counts. -/
theorem run (h : Mirrors select c r) (calls : List (Call κ ν)) :
    (c.run calls).1 = (runCalls (RecentPairs.perform select) r calls).1 ∧
      Mirrors select (c.run calls).2 (runCalls (RecentPairs.perform select) r calls).2 ∧
      (c.run calls).2.hits = c.hits + (c.run calls).1.countP Option.isSome ∧
      (c.run calls).2.hits + (c.run calls).2.misses =
        c.hits + c.misses + calls.countP Call.isGet := by
  induction calls generalizing c r with
  | nil => exact ⟨rfl, h, rfl, rfl⟩
  | cons call calls ih =>
    obtain ⟨answer, mirrors, hits, total⟩ := h.perform call
    obtain ⟨answers, mirrors', hits', total'⟩ := ih mirrors
    have first : (c.run (call :: calls)).1 =
        (c.perform call).1 ++ ((c.perform call).2.run calls).1 := rfl
    refine ⟨congrArg₂ (· ++ ·) answer answers, mirrors', ?_, ?_⟩
    · rw [first, List.countP_append, ← Nat.add_assoc, ← hits]
      exact hits'
    · rw [← List.singleton_append, List.countP_append, ← Nat.add_assoc, ← total]
      exact total'

end Mirrors

/-! ## Main result -/

/-- **A cache answers as lists of at most four pairs in order of last use do**, for every number of
sets, every digest and all calls. -/
theorem least_recently_used {bits : Nat} (h : empty? bits = .ok c) (calls : List (Call κ ν)) :
    c.Matches calls := by
  unfold empty? at h
  split at h
  · cases h
    obtain ⟨answers, mirrors, hits, total⟩ := (mirrors_empty bits).run calls
    refine ⟨answers, fun found => ?_, total.trans (Nat.zero_add _), hits.trans (Nat.zero_add _)⟩
    rw [(mirrors.get _).1] at found
    exact ((newest_empty _).run calls).get found
  · cases h

/-- Four keys fill the only set. The first one is used again, so the fifth drives out the second. -/
theorem least_recently_used_one_set : ∃ c : Cache Nat Nat, empty? 0 = .ok c ∧
    c.Matches [.insert 1 10, .insert 2 20, .insert 3 30, .insert 4 40, .get 1, .insert 5 50,
      .get 2, .get 3, .clear, .get 5] ∧
    (c.run [.insert 1 10, .insert 2 20, .insert 3 30, .insert 4 40, .get 1, .insert 5 50,
      .get 2, .get 3, .clear, .get 5]).1 = [some 10, none, some 30, none] :=
  have start : empty? 0 = .ok (empty 0 : Cache Nat Nat) := rfl
  ⟨empty 0, start, least_recently_used start _, by decide⟩

end ZoneDiagram.Cache

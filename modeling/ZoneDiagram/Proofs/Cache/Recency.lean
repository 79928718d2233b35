import Mathlib.Data.List.Nodup
import Mathlib.Data.List.Perm.Basic
import ZoneDiagram.Cache

/-!
# The order of use in a set

A proper byte encodes an arrangement of the four ways, and promoting a way moves it to the front of
the arrangement (`order_promote`).

The pairs that count in a set are those of the present generation, in the order of use of their ways
(`CacheSet.contents`). A way that does not count may stand anywhere in the order. So a hit moves a
pair to the front, and a pair that is written comes to the front and drives out the last of four
others, whichever way it is written into (`contents_promote`, `contents_write_target`).
-/

namespace ZoneDiagram

namespace Recency

variable {r : Recency} {way : Nat}

/-- The ways in order of use, the most recent first. -/
def order (r : Recency) : List Nat := (List.range wayCount).map r.wayAt

/-- The byte arranges the four ways. -/
def Proper (r : Recency) : Prop := r.order.Perm (List.range wayCount)

theorem proper_initial : initial.Proper := by
  rw [Proper]
  decide

set_option maxRecDepth 1000 in
/-- The arrangement after a promotion, for every byte. -/
theorem order_promote_ofNat : ∀ n < 256, ∀ way < wayCount,
    (⟨.ofNat n⟩ : Recency).order.Perm (List.range wayCount) →
      (Recency.promote ⟨.ofNat n⟩ way).order = way :: (⟨.ofNat n⟩ : Recency).order.erase way := by
  decide

/-- **Promoting a way moves it to the front.** -/
theorem order_promote (h : r.Proper) (hway : way < wayCount) :
    (r.promote way).order = way :: r.order.erase way := by
  obtain ⟨code⟩ := r
  have := order_promote_ofNat code.toNat code.toNat_lt way hway
  rw [UInt8.ofNat_toNat] at this
  exact this h

theorem Proper.mem_order (h : r.Proper) : way ∈ r.order ↔ way < wayCount := by
  rw [List.Perm.mem_iff h, List.mem_range]

theorem Proper.nodup (h : r.Proper) : r.order.Nodup := (List.Perm.nodup_iff h).2 List.nodup_range

theorem Proper.promote (h : r.Proper) (hway : way < wayCount) : (r.promote way).Proper := by
  rw [Proper, order_promote h hway]
  exact (List.perm_cons_erase (h.mem_order.2 hway)).symm.trans h

theorem order_eq (r : Recency) :
    r.order = [r.wayAt 0, r.wayAt 1, r.wayAt 2] ++ [r.leastRecent] := rfl

/-- Without the way that was used least recently, the others are as they were. -/
theorem Proper.erase_leastRecent (h : r.Proper) :
    r.order.erase r.leastRecent = [r.wayAt 0, r.wayAt 1, r.wayAt 2] := by
  have apart := (List.nodup_append.1 (order_eq r ▸ h.nodup)).2.2
  have fresh : r.leastRecent ∉ [r.wayAt 0, r.wayAt 1, r.wayAt 2] := fun mem =>
    apart _ mem _ (List.mem_singleton_self _) rfl
  rw [order_eq, List.erase_append_right _ fresh, List.erase_cons_head, List.append_nil]

end Recency

/-! ## Lists of pairs -/

section Pairs

variable {κ ν : Type} [BEq κ] [LawfulBEq κ] {key : κ} {v : ν} {pairs : List (κ × ν)}

theorem lookup_eq_some_of_mem (distinct : (pairs.map Prod.fst).Nodup) (h : (key, v) ∈ pairs) :
    pairs.lookup key = some v := by
  obtain ⟨before, after, rfl⟩ := List.append_of_mem h
  refine List.lookup_eq_some_iff.2 ⟨before, after, rfl, fun pair mem => ?_⟩
  rw [List.map_append, List.map_cons] at distinct
  have apart := (List.nodup_append.1 distinct).2.2 pair.1 (List.mem_map_of_mem mem) key
    List.mem_cons_self
  exact bne_iff_ne.2 (Ne.symm apart)

/-- A key in front of the pairs of other keys occurs once. -/
theorem distinct_cons_eraseP (distinct : (pairs.map Prod.fst).Nodup) (key : κ) (v : ν) :
    (((key, v) :: pairs.eraseP (·.1 == key)).map Prod.fst).Nodup := by
  have keys : (pairs.eraseP (·.1 == key)).map Prod.fst = (pairs.map Prod.fst).erase key := by
    rw [List.erase_eq_eraseP', List.eraseP_map]
    rfl
  rw [List.map_cons, keys]
  exact List.nodup_cons.2 ⟨distinct.not_mem_erase, distinct.erase key⟩

/-- The pairs of the other ways are the other pairs. -/
theorem filterMap_erase_of_some {f : Nat → Option (κ × ν)} {l : List Nat} {way : Nat}
    (hway : way ∈ l) (hf : f way = some (key, v))
    (distinct : ((l.filterMap f).map Prod.fst).Nodup) :
    (l.erase way).filterMap f = (l.filterMap f).eraseP (·.1 == key) := by
  induction l with
  | nil => cases hway
  | cons x l ih =>
    by_cases eq : x = way
    · subst eq
      rw [List.erase_cons_head, List.filterMap_cons_some hf, List.eraseP_cons, beq_self_eq_true,
        cond_true]
    · have hway := (List.mem_cons.1 hway).resolve_left (Ne.symm eq)
      have mem : (key, v) ∈ l.filterMap f := List.mem_filterMap.2 ⟨way, hway, hf⟩
      rw [List.erase_cons_tail (by simpa using eq)]
      cases hx : f x with
      | none =>
        rw [List.filterMap_cons_none hx] at distinct ⊢
        rw [List.filterMap_cons_none hx, ih hway distinct]
      | some pair =>
        rw [List.filterMap_cons_some hx] at distinct ⊢
        rw [List.filterMap_cons_some hx]
        obtain ⟨fresh, distinct⟩ := List.nodup_cons.1 distinct
        have ne : (pair.1 == key) = false := by
          rw [beq_eq_false_iff_ne]
          exact fun eq => fresh (List.mem_map.2 ⟨_, mem, eq.symm⟩)
        rw [List.eraseP_cons, ne, cond_false, ih hway distinct]

end Pairs

/-- A way without a pair can be left out. -/
theorem filterMap_erase_of_none {β : Type} {f : Nat → Option β} {way : Nat} (hf : f way = none)
    (l : List Nat) : (l.erase way).filterMap f = l.filterMap f := by
  induction l with
  | nil => rfl
  | cons x l ih =>
    by_cases eq : x = way
    · subst eq
      rw [List.erase_cons_head, List.filterMap_cons_none hf]
    · rw [List.erase_cons_tail (by simpa using eq), List.filterMap_cons, List.filterMap_cons, ih]

namespace CacheSet

open Recency (wayCount)

variable {κ ν : Type} {s : CacheSet κ ν} {g : UInt64} {key : κ} {v : ν} {way : Nat}

/-- The pair in a way, if it is of the generation. -/
def pairAt (s : CacheSet κ ν) (g : UInt64) (way : Nat) : Option (κ × ν) :=
  (s.ways[way]?.bind (valid g)).map fun e => (e.key, e.value)

/-- The pairs of the generation in order of use. -/
def contents (s : CacheSet κ ν) (g : UInt64) : List (κ × ν) :=
  s.recency.order.filterMap (s.pairAt g)

/-- A set has four ways, an arrangement of them, and a key at most once in a generation. -/
structure Proper (s : CacheSet κ ν) (g : UInt64) : Prop where
  length : s.ways.length = wayCount
  order : s.recency.Proper
  distinct : ((s.contents g).map Prod.fst).Nodup

/-- At most three ways are others. -/
theorem Proper.length_others_le (h : s.Proper g) (hway : way < wayCount) :
    ((s.recency.order.erase way).filterMap (s.pairAt g)).length ≤ wayCount - 1 := by
  have ways : (s.recency.order.erase way).length = wayCount - 1 := by
    rw [List.length_erase_of_mem (h.order.mem_order.2 hway), h.order.length_eq, List.length_range]
  exact ways ▸ List.length_filterMap_le _ _

theorem Proper.mem_contents (h : s.Proper g) :
    (key, v) ∈ s.contents g ↔ ∃ way < wayCount, s.pairAt g way = some (key, v) := by
  rw [contents, List.mem_filterMap]
  simp only [h.order.mem_order]

/-! ## Writing into a way -/

theorem pairAt_write {w : Nat} (hway : way < s.ways.length) :
    (s.write way ⟨key, v, g⟩).pairAt g w = if w = way then some (key, v) else s.pairAt g w := by
  rw [write, CacheSet.promote, pairAt, pairAt]
  dsimp only
  rw [List.getElem?_set]
  by_cases eq : way = w
  · subst eq
    rw [if_pos rfl, if_pos hway, if_pos rfl]
    simp [valid]
  · rw [if_neg eq, if_neg (Ne.symm eq)]

/-- A pair that is written comes first, and the way loses the pair that it had. -/
theorem Proper.contents_write (h : s.Proper g) (hway : way < wayCount) :
    (s.write way ⟨key, v, g⟩).contents g =
      (key, v) :: (s.recency.order.erase way).filterMap (s.pairAt g) := by
  have lt : way < s.ways.length := h.length ▸ hway
  have order : (s.write way ⟨key, v, g⟩).recency.order = way :: s.recency.order.erase way :=
    Recency.order_promote h.order hway
  rw [contents, order, List.filterMap_cons_some (by rw [pairAt_write lt, if_pos rfl])]
  refine congrArg _ (List.filterMap_congr fun w hw => ?_)
  rw [pairAt_write lt, if_neg]
  rintro rfl
  exact h.order.nodup.not_mem_erase hw

/-! ## Reading a set -/

theorem pairAt_of_freeWay? (h : s.freeWay? g = some way) :
    way < s.ways.length ∧ s.pairAt g way = none := by
  obtain ⟨lt, vacant, -⟩ := List.findIdx?_eq_some_iff_getElem.1 h
  refine ⟨lt, ?_⟩
  rw [pairAt, List.getElem?_eq_getElem lt, Option.bind_some, Option.isNone_iff_eq_none.1 vacant]
  rfl

theorem pairAt_isSome_of_freeWay? (h : s.freeWay? g = none) (hway : way < s.ways.length) :
    (s.pairAt g way).isSome := by
  have := List.findIdx?_eq_none_iff.1 h s.ways[way] (List.getElem_mem hway)
  rw [pairAt, List.getElem?_eq_getElem hway, Option.bind_some, Option.isSome_map]
  rwa [Option.isNone_eq_false_iff] at this

/-- The pairs without the last one, if all ways have pairs. -/
theorem Proper.others_of_freeWay?_eq_none (h : s.Proper g) (free : s.freeWay? g = none) :
    (s.recency.order.erase s.recency.leastRecent).filterMap (s.pairAt g) =
      (s.contents g).take (wayCount - 1) := by
  have all (place : Nat) (hplace : place < wayCount) :
      ∃ pair, s.pairAt g (s.recency.wayAt place) = some pair := by
    have mem : s.recency.wayAt place ∈ s.recency.order :=
      List.mem_map_of_mem (List.mem_range.2 hplace)
    exact Option.isSome_iff_exists.1
      (pairAt_isSome_of_freeWay? free (h.length ▸ h.order.mem_order.1 mem))
  obtain ⟨p₀, h₀⟩ := all 0 (by decide)
  obtain ⟨p₁, h₁⟩ := all 1 (by decide)
  obtain ⟨p₂, h₂⟩ := all 2 (by decide)
  obtain ⟨p₃, h₃⟩ := all 3 (by decide)
  have last : s.pairAt g s.recency.leastRecent = some p₃ := h₃
  have full : s.contents g = [p₀, p₁, p₂, p₃] := by
    rw [contents, Recency.order_eq]
    simp [h₀, h₁, h₂, last]
  rw [full, h.order.erase_leastRecent]
  simp [h₀, h₁, h₂, wayCount]

section Keys

variable [BEq κ]

theorem target_of_wayOf? (found : s.wayOf? g key = some way) : s.target g key = way := by
  rw [target, found, Option.some_or, Option.getD_some]

theorem target_of_wayOf?_eq_none (missed : s.wayOf? g key = none) :
    s.target g key = (s.freeWay? g).getD s.recency.leastRecent := by
  rw [target, missed, Option.none_or]

variable [LawfulBEq κ]

theorem pairAt_of_wayOf? (h : s.wayOf? g key = some way) :
    ∃ v, way < s.ways.length ∧ s.pairAt g way = some (key, v) ∧ s.valueAt? way = some v := by
  obtain ⟨lt, matching, -⟩ := List.findIdx?_eq_some_iff_getElem.1 h
  rw [Option.any_eq_true] at matching
  obtain ⟨e, he, hkey⟩ := matching
  obtain ⟨held, -⟩ := Option.filter_eq_some_iff.1 he
  refine ⟨e.value, lt, ?_, ?_⟩
  · rw [pairAt, List.getElem?_eq_getElem lt, Option.bind_some, he, Option.map_some,
      beq_iff_eq.1 hkey]
  · rw [valueAt?, List.getElem?_eq_getElem lt, held]
    rfl

theorem pairAt_ne_of_wayOf? (h : s.wayOf? g key = none) (way : Nat) (v : ν) :
    s.pairAt g way ≠ some (key, v) := by
  intro eq
  obtain ⟨e, he, pair⟩ := Option.map_eq_some_iff.1 eq
  obtain ⟨held, hheld, he⟩ := Option.bind_eq_some_iff.1 he
  have := List.findIdx?_eq_none_iff.1 h held (List.mem_of_getElem? hheld)
  rw [he, Option.any_some, beq_eq_false_iff_ne] at this
  exact this (congrArg Prod.fst pair)

/-- The way of a key has what the contents have under the key. -/
theorem Proper.lookup_of_wayOf? (h : s.Proper g) (found : s.wayOf? g key = some way) :
    s.valueAt? way = (s.contents g).lookup key ∧ ((s.contents g).lookup key).isSome := by
  obtain ⟨v, lt, pair, value⟩ := pairAt_of_wayOf? found
  have mem := h.mem_contents.2 ⟨way, h.length ▸ lt, pair⟩
  rw [lookup_eq_some_of_mem h.distinct mem, value]
  exact ⟨rfl, rfl⟩

theorem Proper.key_ne_of_wayOf? (h : s.Proper g) (missed : s.wayOf? g key = none) :
    ∀ pair ∈ s.contents g, pair.1 ≠ key := by
  rintro ⟨k, v⟩ mem rfl
  obtain ⟨way, -, pair⟩ := h.mem_contents.1 mem
  exact pairAt_ne_of_wayOf? missed way v pair

theorem Proper.lookup_of_wayOf?_eq_none (h : s.Proper g) (missed : s.wayOf? g key = none) :
    (s.contents g).lookup key = none := by
  refine List.lookup_eq_none_iff.2 fun pair mem => ?_
  exact bne_iff_ne.2 (Ne.symm (h.key_ne_of_wayOf? missed pair mem))

/-! ## Using a set -/

/-- **A way that is used comes first, and so does its pair.** -/
theorem Proper.contents_promote (h : s.Proper g) (hway : way < wayCount)
    (pair : s.pairAt g way = some (key, v)) :
    (s.promote way).contents g = (key, v) :: (s.contents g).eraseP (·.1 == key) := by
  have same : (s.promote way).pairAt g = s.pairAt g := rfl
  rw [contents, same, promote, Recency.order_promote h.order hway,
    List.filterMap_cons_some pair,
    filterMap_erase_of_some (h.order.mem_order.2 hway) pair h.distinct]
  rfl

theorem Proper.promote (h : s.Proper g) (hway : way < wayCount)
    (pair : s.pairAt g way = some (key, v)) : (s.promote way).Proper g where
  length := h.length
  order := h.order.promote hway
  distinct := by
    rw [h.contents_promote hway pair]
    exact distinct_cons_eraseP h.distinct key v

/-- The way for a key is one of the set. -/
theorem Proper.target_lt (h : s.Proper g) (key : κ) : s.target g key < wayCount := by
  cases found : s.wayOf? g key with
  | some way =>
    obtain ⟨-, lt, -⟩ := pairAt_of_wayOf? found
    rw [target_of_wayOf? found]
    exact h.length ▸ lt
  | none =>
    rw [target_of_wayOf?_eq_none found]
    cases free : s.freeWay? g with
    | some way => exact h.length ▸ (pairAt_of_freeWay? free).1
    | none =>
      refine h.order.mem_order.1 ?_
      rw [Recency.order_eq]
      exact List.mem_append_right _ (List.mem_singleton_self _)

/-- The other pairs, if the key has a way. -/
theorem Proper.others_of_wayOf? (h : s.Proper g) (found : s.wayOf? g key = some way) :
    (s.recency.order.erase way).filterMap (s.pairAt g) =
      (s.contents g).eraseP (·.1 == key) := by
  obtain ⟨v, lt, pair, -⟩ := pairAt_of_wayOf? found
  exact filterMap_erase_of_some (h.order.mem_order.2 (h.length ▸ lt)) pair h.distinct

/-- **A pair that is written comes first, and the pair that was used least recently goes if there
are four others.** -/
theorem Proper.contents_write_target (h : s.Proper g) (key : κ) (v : ν) :
    (s.write (s.target g key) ⟨key, v, g⟩).contents g =
      ((key, v) :: (s.contents g).eraseP (·.1 == key)).take wayCount := by
  rw [h.contents_write (h.target_lt key)]
  refine congrArg ((key, v) :: ·) ?_
  have few := h.length_others_le (h.target_lt key)
  cases found : s.wayOf? g key with
  | some way =>
    -- The key has a way already.
    rw [target_of_wayOf? found, h.others_of_wayOf? found] at few ⊢
    exact (List.take_of_length_le few).symm
  | none =>
    have others : (s.contents g).eraseP (·.1 == key) = s.contents g :=
      List.eraseP_of_forall_not fun pair mem => by
        rw [beq_iff_eq]
        exact h.key_ne_of_wayOf? found pair mem
    rw [target_of_wayOf?_eq_none found] at few ⊢
    rw [others]
    cases free : s.freeWay? g with
    | some way =>
      -- A way is free, so at most three pairs count.
      have same : (s.recency.order.erase way).filterMap (s.pairAt g) = s.contents g :=
        filterMap_erase_of_none (pairAt_of_freeWay? free).2 s.recency.order
      rw [free, Option.getD_some, same] at few
      exact same.trans (List.take_of_length_le few).symm
    | none => exact h.others_of_freeWay?_eq_none free

theorem Proper.write_target (h : s.Proper g) (key : κ) (v : ν) :
    (s.write (s.target g key) ⟨key, v, g⟩).Proper g where
  length := by
    rw [write, CacheSet.promote]
    dsimp only
    rw [List.length_set, h.length]
  order := h.order.promote (h.target_lt key)
  distinct := by
    rw [h.contents_write_target]
    exact (distinct_cons_eraseP h.distinct key v).sublist ((List.take_sublist _ _).map _)

end Keys

end CacheSet

end ZoneDiagram

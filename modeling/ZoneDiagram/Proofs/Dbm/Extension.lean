import Mathlib.Data.Finset.Max
import ZoneDiagram.Proofs.Dbm.Settled

/-!
# Valuations of closed matrices

A valuation of some of the clocks that meets a closed matrix extends to all clocks. The new clock
must stay between bounds given by the clocks before it; any upper and any lower one of them leave
room, because the matrix is closed, and so do the tightest ones.

So every difference that the two entries of a pair allow is the difference of some valuation
(`Settled.exists_difference`).
-/

namespace ZoneDiagram

open Finset

/-- The differences of some clocks are allowed. -/
def Meets (d : Nat → Nat → LowerSet ℚ) (S : Finset Nat) (v : Valuation) : Prop :=
  ∀ k ∈ S, ∀ l ∈ S, v k - v l ∈ d k l

/-- The numbers that are allowed after a shift. -/
def shifted (s : LowerSet ℚ) (c : ℚ) : LowerSet ℚ where
  carrier := { x | x + c ∈ s }
  lower' _ _ hab ha := s.lower (by gcongr) ha

variable {n : Nat} {d : Nat → Nat → LowerSet ℚ} {S : Finset Nat} {v : Valuation} {k : Nat}

theorem mem_shifted {s : LowerSet ℚ} {c x : ℚ} : x ∈ shifted s c ↔ x + c ∈ s := Iff.rfl

/-- Two clocks of the valuation leave room for one more clock. -/
theorem Closed.exists_between (hd : Closed n d) (hS : ∀ s ∈ S, s < n) (hk : k < n)
    (hv : Meets d S v) {s t : Nat} (hs : s ∈ S) (ht : t ∈ S) :
    ∃ x, x - v s ∈ d k s ∧ v t - x ∈ d t k := by
  have through := hd.triangle t (hS t ht) k hk s (hS s hs)
  obtain ⟨a, ha, b, hb, hab⟩ := through (hv t ht s hs)
  have sum : a + b = v t - v s := hab
  refine ⟨v t - a, ?_, ?_⟩
  · rwa [show v t - a - v s = b by linarith]
  · rwa [show v t - (v t - a) = a by ring]

/-- All clocks of the valuation leave room for one more clock. -/
theorem Closed.exists_value (hd : Closed n d) (hS : ∀ s ∈ S, s < n) (hk : k < n)
    (hv : Meets d S v) : ∃ x, (∀ s ∈ S, x - v s ∈ d k s) ∧ ∀ t ∈ S, v t - x ∈ d t k := by
  rcases S.eq_empty_or_nonempty with rfl | nonempty
  · exact ⟨0, by simp, by simp⟩
  obtain ⟨s, hs, least⟩ := exists_min_image S (fun s => shifted (d k s) (-v s)) nonempty
  obtain ⟨t, ht, greatest⟩ := exists_min_image S (fun t => shifted (d t k) (v t)) nonempty
  obtain ⟨x, hxs, hxt⟩ := hd.exists_between hS hk hv hs ht
  refine ⟨x, fun r hr => ?_, fun r hr => ?_⟩
  · have hx : x ∈ shifted (d k s) (-v s) := by rwa [mem_shifted, ← sub_eq_add_neg]
    have := Bound.mem_of_le (least r hr) hx
    rwa [mem_shifted, ← sub_eq_add_neg] at this
  · have hx : -x ∈ shifted (d t k) (v t) := by rwa [mem_shifted, neg_add_eq_sub]
    have := Bound.mem_of_le (greatest r hr) hx
    rwa [mem_shifted, neg_add_eq_sub] at this

theorem Closed.meets_insert (hd : Closed n d) (hS : ∀ s ∈ S, s < n) (hk : k < n) (new : k ∉ S)
    (hv : Meets d S v) : ∃ w, Meets d (insert k S) w ∧ ∀ s ∈ S, w s = v s := by
  obtain ⟨x, upper, lower⟩ := hd.exists_value hS hk hv
  have old : ∀ s ∈ S, Function.update v k x s = v s := fun s hs =>
    Function.update_of_ne (ne_of_mem_of_not_mem hs new) x v
  refine ⟨Function.update v k x, fun s hs t ht => ?_, old⟩
  rcases mem_insert.1 hs with hs | hs <;> rcases mem_insert.1 ht with ht | ht
  · rw [hs, ht, sub_self, hd.self k hk]
    exact Bound.zero_le_iff_mem.1 le_rfl
  · rw [hs, Function.update_self, old t ht]
    exact upper t ht
  · rw [ht, Function.update_self, old s hs]
    exact lower s hs
  · rw [old s hs, old t ht]
    exact hv s hs t ht

/-- A valuation of some clocks extends to all of them. -/
theorem Closed.exists_extension (hd : Closed n d) (hS : ∀ s ∈ S, s < n) (hv : Meets d S v) :
    ∃ w, Meets d (range n) w ∧ ∀ s ∈ S, w s = v s := by
  -- The clocks are added one after the other; those already there keep their values.
  have all : ∀ T : Finset Nat, (∀ t ∈ T, t < n) →
      ∃ w, Meets d (T ∪ S) w ∧ ∀ s ∈ S, w s = v s := by
    intro T
    induction T using Finset.induction_on with
    | empty => exact fun _ => ⟨v, by rwa [empty_union], fun _ _ => rfl⟩
    | insert k T _ ih =>
      intro hT
      have hTS : ∀ s ∈ T ∪ S, s < n := fun s hs => by
        rcases mem_union.1 hs with hs | hs
        · exact hT s (mem_insert_of_mem hs)
        · exact hS s hs
      obtain ⟨w, hw, agree⟩ := ih fun t ht => hT t (mem_insert_of_mem ht)
      rw [insert_union]
      by_cases old : k ∈ T ∪ S
      · exact ⟨w, by rwa [insert_eq_of_mem old], agree⟩
      · obtain ⟨u, hu, keep⟩ := hd.meets_insert hTS (hT k (mem_insert_self k T)) old hw
        exact ⟨u, hu, fun s hs => (keep s (mem_union_right T hs)).trans (agree s hs)⟩
  obtain ⟨w, hw, agree⟩ := all (range n) fun t => mem_range.1
  exact ⟨w, fun k hk l hl => hw k (mem_union_left S hk) l (mem_union_left S hl), agree⟩

/-! ## Settled matrices -/

namespace Dbm

variable {K : Int} {m : Dbm} {i j : Nat} {x : ℚ}

theorem holds_of_meets (h : Meets m.weight (range m.dim) v) : m.Holds v := fun k hk l hl =>
  h k (mem_range.2 hk) l (mem_range.2 hl)

theorem Settled.exists_holds (h : m.Settled K) : ∃ v, m.Holds v := by
  have start : Meets m.weight ∅ fun _ => 0 := by simp [Meets]
  obtain ⟨w, hw, -⟩ := h.closed.exists_extension (by simp) start
  exact ⟨w, holds_of_meets hw⟩

/-- **Every difference that the entries of a pair allow is taken by a valuation.** -/
theorem Settled.exists_difference (h : m.Settled K) (hi : i < m.dim) (hj : j < m.dim) (ne : i ≠ j)
    (upper : x ∈ m.weight i j) (lower : -x ∈ m.weight j i) :
    ∃ v, m.Holds v ∧ v i - v j = x := by
  have self {k : Nat} (hk : k < m.dim) : (0 : ℚ) ∈ m.weight k k := by
    rw [h.closed.self k hk]
    exact Bound.zero_le_iff_mem.1 le_rfl
  have start : Meets m.weight {i, j} fun k => if k = i then x else 0 := by
    intro k hk l hl
    rw [mem_insert, mem_singleton] at hk hl
    rcases hk with hk | hk <;> rcases hl with hl | hl
    · simpa [hk, hl] using self hi
    · simpa [hk, hl, ne.symm] using upper
    · simpa [hk, hl, ne.symm] using lower
    · simpa [hk, hl, ne.symm] using self hj
  have bounded : ∀ s ∈ ({i, j} : Finset Nat), s < m.dim := by
    simp [hi, hj]
  obtain ⟨w, hw, agree⟩ := h.closed.exists_extension bounded start
  refine ⟨w, holds_of_meets hw, ?_⟩
  rw [agree i (by simp), agree j (by simp)]
  simp [ne.symm]

end Dbm

end ZoneDiagram

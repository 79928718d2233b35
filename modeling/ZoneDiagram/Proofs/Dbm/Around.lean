import ZoneDiagram.Proofs.Comparison

/-!
# Closing around a valuation

A sum that is clamped is smaller than the sum of the bounds, but it never falls below the greatest
constant. So it still holds of every difference that the encoding reaches (`Bound.holds_add`). A
valuation with such differences that meets a matrix therefore meets it after every detour that is
taken, whatever the constants of the matrix and however many of its sums are clamped.

**Theorem (`isValid_of_holds`).** A matrix passes for inhabited if a valuation meets it whose
differences are within the encoding.
-/

namespace ZoneDiagram

namespace Bound

variable {a b : Bound} {d e : ℚ} {r : Int}

/-- Clamping does not exclude a difference within the encoding. -/
theorem holds_clamp (h : r < greatestRaw → (⟨r⟩ : Bound).Holds d) (reach : d ≤ maxValue) :
    (⟨clamp r⟩ : Bound).Holds d := by
  by_cases fits : r < greatestRaw - 1
  · have finite : (⟨clamp r⟩ : Bound) ≤ infinity := by
      change clamp r ≤ greatestRaw
      unfold clamp leastRaw greatestRaw
      omega
    have le : (⟨r⟩ : Bound) ≤ ⟨clamp r⟩ := by
      change r ≤ clamp r
      unfold clamp
      omega
    exact mem_of_le (below_mono finite le) (h (by omega))
  · have greatest : (⟨clamp r⟩ : Bound) = weak maxValue := by
      simp only [clamp, leastRaw, greatestRaw, weak, maxValue, mk.injEq] at fits ⊢
      omega
    rw [greatest]
    exact (holds_weak_iff le_rfl).2 reach

/-- A sum of bounds, clamped or not, holds of the sums of differences within the encoding. -/
theorem holds_add (ha : a.Holds d) (hb : b.Holds e) (reach : d + e ≤ maxValue) :
    (a + b).Holds (d + e) := by
  by_cases fa : a = infinity
  · rw [fa, infinity_add]
    exact holds_infinity _
  by_cases fb : b = infinity
  · rw [fb, add_infinity]
    exact holds_infinity _
  rw [add_of_finite fa fb]
  refine holds_clamp (fun fits => ?_) reach
  have finite : sum a b ≠ infinity := fun top => absurd (congrArg raw top) (ne_of_lt fits)
  have both : d + e ∈ a.below + b.below := ⟨d, ha, e, hb, rfl⟩
  rwa [← below_sum fa fb finite] at both

end Bound

namespace Dbm

variable {m o : Dbm} {v : Valuation} {first b : Bound} {i j k : Nat} {ds : List (Nat × Nat)}

/-- No difference of the first `n` clocks exceeds the encoding. -/
def Near (n : Nat) (v : Valuation) : Prop := ∀ i < n, ∀ j < n, v i - v j ≤ Bound.maxValue

/-- What tightening around a valuation keeps: the valuation meets the matrix, and no entry grows. -/
structure Around (v : Valuation) (o m : Dbm) : Prop where
  dim : m.dim = o.dim
  holds : m.Holds v
  le : ∀ i < o.dim, ∀ j < o.dim, m.entry i j ≤ o.entry i j

theorem Holds.around (h : m.Holds v) : Around v m m := ⟨rfl, h, fun _ _ _ _ => le_rfl⟩

theorem Holds.isEmpty_eq_false (h : m.Holds v) : m.isEmpty = false :=
  Bool.eq_false_iff.2 fun empty => not_holds_of_isEmpty empty h

namespace Around

theorem tighten (h : Around v o m) (hi : i < o.dim) (hj : j < o.dim) (hb : b.Holds (v i - v j)) :
    Around v o (m.tighten i j b) := by
  have hi' : i < m.dim := h.dim ▸ hi
  have hj' : j < m.dim := h.dim ▸ hj
  refine ⟨(dim_tighten ..).trans h.dim, fun k hk l hl => ?_, fun k hk l hl => ?_⟩
  · rw [dim_tighten] at hk hl
    rw [entry_tighten hi' hj' hl]
    split
    next at_ij =>
      rw [at_ij.1, at_ij.2]
      rcases min_choice (m.entry i j) b with eq | eq <;> rw [eq]
      exacts [h.holds i hi' j hj', hb]
    next => exact h.holds k hk l hl
  · rw [entry_tighten hi' hj' (h.dim ▸ hl)]
    split
    next at_ij =>
      rw [at_ij.1, at_ij.2]
      exact (min_le_left _ _).trans (h.le i hi j hj)
    next => exact h.le k hk l hl

theorem foldl {α : Type} {f : Dbm → α → Dbm} {as : List α} (h : Around v o m)
    (step : ∀ m, Around v o m → ∀ a ∈ as, Around v o (f m a)) : Around v o (as.foldl f m) := by
  induction as generalizing m with
  | nil => exact h
  | cons a as ih =>
    exact ih (step m h a List.mem_cons_self)
      fun m hm a' ha' => step m hm a' (List.mem_cons_of_mem a ha')

/-- The detours of one row. -/
theorem relaxRow (h : Around v o m) (near : Near o.dim v) (hk : k < o.dim) (hi : i < o.dim)
    (hf : first.Holds (v i - v k)) : Around v o (m.relaxRow first k i) := by
  refine h.foldl fun m' h' j hj => ?_
  have hj : j < o.dim := h.dim ▸ List.mem_range.1 hj
  have rest := h'.holds k (h'.dim ▸ hk) j (h'.dim ▸ hj)
  have way : v i - v k + (v k - v j) = v i - v j := sub_add_sub_cancel ..
  have through := Bound.holds_add hf rest (way ▸ near i hi j hj)
  exact h'.tighten hi hj (way ▸ through)

/-- **Closing keeps the valuation**, so it does not stop. -/
theorem closeAlong (h : Around v o m) (near : Near o.dim v)
    (inside : ∀ d ∈ ds, d.1 < o.dim ∧ d.2 < o.dim) :
    (Dbm.closeAlong ds m).2 = true ∧ Around v o (Dbm.closeAlong ds m).1 := by
  induction ds generalizing m with
  | nil => exact ⟨rfl, h⟩
  | cons d ds ih =>
    obtain ⟨k, i⟩ := d
    obtain ⟨⟨hk, hi⟩, rest⟩ := List.forall_mem_cons.1 inside
    have row := h.relaxRow near hk hi (h.holds i (h.dim ▸ hi) k (h.dim ▸ hk))
    have nonneg := isEmpty_eq_false_iff.1 row.holds.isEmpty_eq_false i (row.dim ▸ hi)
    unfold Dbm.closeAlong
    dsimp only
    split
    · exact ih h rest
    · rw [if_neg (not_lt.2 nonneg)]
      exact ih row rest

end Around

/-- Closing around a valuation. -/
theorem Holds.close (h : m.Holds v) (near : Near m.dim v) :
    m.close.2 = true ∧ Around v m m.close.1 := h.around.closeAlong near fun _ => mem_detours.1

/-- **A matrix passes for inhabited if a valuation within the encoding meets it.** -/
theorem isValid_of_holds (h : m.Holds v) (near : Near m.dim v) : m.isValid = true := by
  rw [isValid, h.isEmpty_eq_false, (h.close near).1]
  rfl

end Dbm

end ZoneDiagram

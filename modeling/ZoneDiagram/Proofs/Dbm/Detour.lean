import Mathlib.Algebra.Order.Monoid.Defs
import Mathlib.Algebra.Group.Basic
import Mathlib.Data.Finset.Basic
import Mathlib.Tactic.GCongr
import Mathlib.Tactic.Abel

/-!
# One more direct way

Weights between clocks in any ordered commutative monoid. They are closed if no detour is shorter
than the direct way. When one direct way becomes shorter, the weights are closed again after every
entry has been compared once with the detour through that way (`Closed.shortened`).

Closed weights do not tell along which ways they came about, but a bound on the constants needs to
know that no way is used twice. So every weight is given with a set of clocks at which it splits
without loss. If a detour through the new way is really shorter, then the clocks before the new
way and the clocks after it are disjoint (`Closed.disjoint_of_lt`): from a common clock one could
leave out the cycle in between.
-/

namespace ZoneDiagram

variable {W : Type} [AddCommMonoid W] [LinearOrder W] {n : Nat} {d : Nat → Nat → W}
  {i j k l : Nat} {b : W} {S T : Finset Nat}

/-- Among the first `n` clocks, a clock is at no distance from itself and no detour is shorter than
the direct way. -/
structure Closed (n : Nat) (d : Nat → Nat → W) : Prop where
  self : ∀ i < n, d i i = 0
  triangle : ∀ i < n, ∀ k < n, ∀ j < n, d i j ≤ d i k + d k j

/-- The weights after the way from `i` to `j` has been shortened to `b`. -/
def shortened (d : Nat → Nat → W) (i j : Nat) (b : W) (k l : Nat) : W :=
  min (d k l) (d k i + b + d j l)

theorem shortened_le (d : Nat → Nat → W) (i j : Nat) (b : W) (k l : Nat) :
    shortened d i j b k l ≤ d k l := min_le_left _ _

/-- The weight from `k` to `l` splits without loss at every clock of `S`. -/
structure SplitsAt (n : Nat) (d : Nat → Nat → W) (S : Finset Nat) (k l : Nat) : Prop where
  lt : ∀ w ∈ S, w < n
  first : k ∈ S
  last : l ∈ S
  split : ∀ w ∈ S, d k w + d w l ≤ d k l

/-- A direct way splits at its two ends. -/
theorem splitsAt_pair (self : ∀ i < n, d i i = 0) (hk : k < n) (hl : l < n) :
    SplitsAt n d {k, l} k l where
  lt w hw := by
    rcases Finset.mem_insert.1 hw with rfl | hw
    · exact hk
    · exact Finset.mem_singleton.1 hw ▸ hl
  first := Finset.mem_insert_self _ _
  last := Finset.mem_insert_of_mem (Finset.mem_singleton_self _)
  split w hw := by
    rcases Finset.mem_insert.1 hw with rfl | hw
    · rw [self _ hk, zero_add]
    · rw [Finset.mem_singleton.1 hw, self _ hl, add_zero]

/-- How a weight splits depends on the weights of the first clocks only. -/
theorem SplitsAt.congr {d' : Nat → Nat → W} (hS : SplitsAt n d S k l)
    (eq : ∀ r < n, ∀ s < n, d' r s = d r s) : SplitsAt n d' S k l where
  lt := hS.lt
  first := hS.first
  last := hS.last
  split w hw := by
    have hk := hS.lt k hS.first
    have hl := hS.lt l hS.last
    rw [eq k hk w (hS.lt w hw), eq w (hS.lt w hw) l hl, eq k hk l hl]
    exact hS.split w hw

/-! ## The new way -/

variable [IsOrderedAddMonoid W]

/-- The new way and back is no negative cycle, and neither is a longer way back. -/
theorem Closed.zero_le_cycle (h : Closed n d) (hi : i < n) (hj : j < n) (hb : 0 ≤ b + d j i)
    (hk : k < n) : 0 ≤ d k i + b + d j k := by
  calc 0 ≤ b + d j i := hb
    _ ≤ b + (d j k + d k i) := by gcongr; exact h.triangle j hj k hk i hi
    _ = d k i + b + d j k := by abel

theorem Closed.shortened (h : Closed n d) (hi : i < n) (hj : j < n) (hb : 0 ≤ b + d j i) :
    Closed n (shortened d i j b) where
  self k hk := by
    rw [ZoneDiagram.shortened, h.self k hk]
    exact min_eq_left (h.zero_le_cycle hi hj hb hk)
  triangle k hk m hm l hl := by
    rcases min_choice (d k m) (d k i + b + d j m) with hkm | hkm <;>
      rcases min_choice (d m l) (d m i + b + d j l) with hml | hml <;>
      simp only [ZoneDiagram.shortened, hkm, hml]
    · exact (min_le_left _ _).trans (h.triangle k hk m hm l hl)
    · refine (min_le_right _ _).trans ?_
      calc d k i + b + d j l ≤ d k m + d m i + b + d j l := by
            gcongr; exact h.triangle k hk m hm i hi
        _ = d k m + (d m i + b + d j l) := by abel
    · refine (min_le_right _ _).trans ?_
      calc d k i + b + d j l ≤ d k i + b + (d j m + d m l) := by
            gcongr; exact h.triangle j hj m hm l hl
        _ = d k i + b + d j m + d m l := by abel
    · refine (min_le_right _ _).trans ?_
      calc d k i + b + d j l = d k i + b + 0 + d j l := by rw [add_zero]
        _ ≤ d k i + b + (d m i + b + d j m) + d j l := by
            gcongr; exact h.zero_le_cycle hi hj hb hm
        _ = d k i + b + d j m + (d m i + b + d j l) := by abel

/-! ## Clocks on the way -/

theorem SplitsAt.shortened_of_le (hS : SplitsAt n d S k l)
    (hle : d k l ≤ d k i + b + d j l) : SplitsAt n (shortened d i j b) S k l where
  lt := hS.lt
  first := hS.first
  last := hS.last
  split w hw := by
    calc shortened d i j b k w + shortened d i j b w l ≤ d k w + d w l :=
          add_le_add (shortened_le ..) (shortened_le ..)
      _ ≤ d k l := hS.split w hw
      _ = shortened d i j b k l := (min_eq_left hle).symm

/-- A detour through the new way that is shorter than the direct way meets no clock twice. -/
theorem Closed.disjoint_of_lt (h : Closed n d) (hi : i < n) (hj : j < n) (hb : 0 ≤ b + d j i)
    (hk : k < n) (hl : l < n) (hS : SplitsAt n d S k i) (hT : SplitsAt n d T j l)
    (hlt : d k i + b + d j l < d k l) : Disjoint S T := by
  rw [Finset.disjoint_left]
  intro w hwS hwT
  have hw := hS.lt w hwS
  refine absurd hlt (not_lt.2 ?_)
  calc d k l ≤ d k w + d w l := h.triangle k hk w hw l hl
    _ = d k w + 0 + d w l := by rw [add_zero]
    _ ≤ d k w + (d w i + b + d j w) + d w l := by
        gcongr; exact h.zero_le_cycle hi hj hb hw
    _ = (d k w + d w i) + b + (d j w + d w l) := by abel
    _ ≤ d k i + b + d j l := by
        gcongr
        · exact hS.split w hwS
        · exact hT.split w hwT

theorem SplitsAt.shortened_of_lt (hS : SplitsAt n d S k i) (hT : SplitsAt n d T j l)
    (hlt : d k i + b + d j l < d k l) : SplitsAt n (shortened d i j b) (S ∪ T) k l where
  lt w hw := (Finset.mem_union.1 hw).elim (hS.lt w) (hT.lt w)
  first := Finset.mem_union_left _ hS.first
  last := Finset.mem_union_right _ hT.last
  split w hw := by
    rw [shortened, shortened, shortened, min_eq_right (le_of_lt hlt)]
    rcases Finset.mem_union.1 hw with hw | hw
    · calc min (d k w) _ + min _ (d w i + b + d j l) ≤ d k w + (d w i + b + d j l) :=
            add_le_add (min_le_left _ _) (min_le_right _ _)
        _ = (d k w + d w i) + b + d j l := by abel
        _ ≤ d k i + b + d j l := by gcongr; exact hS.split w hw
    · calc min _ (d k i + b + d j w) + min (d w l) _ ≤ (d k i + b + d j w) + d w l :=
            add_le_add (min_le_right _ _) (min_le_left _ _)
        _ = d k i + b + (d j w + d w l) := by abel
        _ ≤ d k i + b + d j l := by gcongr; exact hT.split w hw

end ZoneDiagram

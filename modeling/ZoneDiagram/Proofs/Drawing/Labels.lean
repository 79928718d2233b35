import Std.Data.String.ToNat
import ZoneDiagram.Proofs.CutList.Intervals
import ZoneDiagram.Proofs.Drawing.Reading

/-!
# The labels of a drawing are read back

**Theorem (`Drawing.covers_dotEdge_iff`).** The label of an edge contains exactly the values of its
interval: those that break the bound below it and meet its own bound.

The label of a node names the two clocks of its pair (`clocks?_text`).
-/

namespace ZoneDiagram.Drawing

open DotGraph

variable {lower : Option Bound} {d : ℚ}

/-! ## Numbers -/

/-- A number is written with digits, after a sign if it is negative. -/
theorem mem_toString_int {c : Int} {x : Char} (h : x ∈ (toString c).toList) :
    x = '-' ∨ x.isDigit = true := by
  cases c with
  | ofNat n => exact .inr (isDigit_of_mem_toString h)
  | negSucc n =>
    change x ∈ ("-" ++ toString (n + 1)).toList at h
    rw [String.toList_append] at h
    rcases List.mem_append.1 h with sign | digit
    · exact .inl (List.mem_singleton.1 sign)
    · exact .inr (isDigit_of_mem_toString digit)

theorem notMem_toString_int {c : Int} {x : Char} (sign : x ≠ '-') (digit : x.isDigit = false) :
    x ∉ (toString c).toList := fun mem => by
  rcases mem_toString_int mem with h | h
  · exact sign h
  · rw [digit] at h
    cases h

theorem value?_toString (infinity : String) (c : Int) (h : 'n' ∈ infinity.toList) :
    value? infinity (toString c).toList = some (some c) := by
  have ne : (toString c).toList ≠ infinity.toList := fun eq =>
    notMem_toString_int (c := c) (by decide) (by decide) (eq ▸ h)
  rw [value?, if_neg ne, String.ofList_toList, Int.toString_eq_repr, Int.toInt?_repr]
  rfl

/-! ## Intervals -/

/-- The lower end of the interval above a bound that fails. -/
def lowerEnd (lower : Option Bound) : End := ⟨lower.map Bound.value, lower.any Bound.isStrict⟩

/-- The upper end of the interval within a bound that holds. -/
def upperEnd (upper : Bound) : End :=
  ⟨if upper.isInfinity then none else some upper.value, !upper.isInfinity && !upper.isStrict⟩

theorem lowerEnd?_lowerText (lower : Option Bound) :
    lowerEnd? (lowerText lower).toList = some (lowerEnd lower) := by
  cases lower with
  | none => rfl
  | some b =>
    have number := value?_toString "-inf" b.value (by decide)
    cases strict : b.isStrict <;> simpa [lowerText, lowerEnd, lowerEnd?, strict] using number

theorem upperEnd?_upperText (upper : Bound) :
    upperEnd? (upperText upper).toList = some (upperEnd upper) := by
  have number := value?_toString "inf" upper.value (by decide)
  cases infinite : upper.isInfinity with
  | true => simp [upperText, upperEnd, upperEnd?, value?, infinite]
  | false =>
    cases strict : upper.isStrict <;>
      simpa [upperText, upperEnd, upperEnd?, infinite, strict] using number

theorem comma_notMem_lowerText (lower : Option Bound) : ',' ∉ (lowerText lower).toList := by
  cases lower with
  | none => decide
  | some b =>
    have number := notMem_toString_int (c := b.value) (x := ',') (by decide) (by decide)
    cases strict : b.isStrict <;> simpa [lowerText, strict] using number

theorem comma_notMem_upperText (upper : Bound) : ',' ∉ (upperText upper).toList := by
  have number : ',' ∉ (toString upper.value).toList := notMem_toString_int (by decide) (by decide)
  unfold upperText
  split
  · decide
  · split <;> simpa using number

theorem interval?_intervalLabel (lower : Option Bound) (upper : Bound) :
    interval? (intervalLabel lower upper) = some (lowerEnd lower, upperEnd upper) := by
  have text : (intervalLabel lower upper).toList =
      (lowerText lower).toList ++ ',' :: ' ' :: (upperText upper).toList := by
    simp [intervalLabel_eq]
  have rest : ',' ∉ ' ' :: (upperText upper).toList := by
    simpa using comma_notMem_upperText upper
  rw [interval?, text, List.splitOn_append_cons_self_of_not_mem (comma_notMem_lowerText lower),
    List.splitOn_eq_singleton rest]
  simp [lowerEnd?_lowerText, upperEnd?_upperText]

theorem below_lowerEnd_iff (finite : ∀ b ∈ lower, b.isInfinity = false) (d : ℚ) :
    (lowerEnd lower).Below d ↔ ∀ b ∈ lower, ¬ b.Holds d := by
  cases lower with
  | none => simp [lowerEnd, End.Below]
  | some b =>
    cases strict : b.isStrict <;>
      simp [lowerEnd, End.Below, Bound.Holds, finite b rfl, strict]

theorem above_upperEnd_iff (upper : Bound) (d : ℚ) : (upperEnd upper).Above d ↔ upper.Holds d := by
  cases infinite : upper.isInfinity <;> cases strict : upper.isStrict <;>
    simp [upperEnd, End.Above, Bound.Holds, infinite, strict]

/-- The label of an edge contains the values of its interval. -/
theorem covers_dotEdge_iff {slot : Nat} {e : DrawnEdge}
    (finite : ∀ b ∈ e.lower, b.isInfinity = false) :
    (dotEdge slot e).Covers d ↔ Between e.lower e.upper d := by
  have read := interval?_intervalLabel e.lower e.upper
  have ends := and_congr (below_lowerEnd_iff finite d) (above_upperEnd_iff e.upper d)
  constructor
  · rintro ⟨label, low, up, eq, ok, contains⟩
    cases eq
    rw [read] at ok
    cases ok
    exact (ends.1 contains).symm
  · intro between
    exact ⟨_, _, _, rfl, read, ends.2 between.symm⟩

/-! ## Differences -/

theorem clocks?_text (p : ClockPair) : clocks? p.text = some (p.i, p.j) := by
  have text : p.text.toList =
      'x' :: (toString p.i).toList ++ '-' :: 'x' :: (toString p.j).toList := by
    have self (s : String) : toString s = s := rfl
    simp [ClockPair.text, self]
  have digits (n : Nat) : '-' ∉ 'x' :: (toString n).toList := fun mem => by
    rcases List.mem_cons.1 mem with h | h
    · cases h
    · exact absurd (isDigit_of_mem_toString h) (by decide)
  have number (n : Nat) : clock? ('x' :: (toString n).toList) = some n := by
    rw [clock?, String.ofList_toList, Nat.toString_eq_repr, Nat.toNat?_repr]
  rw [clocks?, text, List.splitOn_append_cons_self_of_not_mem (digits p.i),
    List.splitOn_eq_singleton (digits p.j)]
  simp only [number]
  rfl

/-- Without a minus a label stands for no difference. -/
theorem clocks?_eq_none {label : String} (h : '-' ∉ label.toList) : clocks? label = none := by
  rw [clocks?, List.splitOn_eq_singleton h]

theorem clocks?_text_handle (f : Handle) : clocks? f.text = none := by
  refine clocks?_eq_none fun mem => ?_
  rw [Handle.text, String.toList_append] at mem
  rcases List.mem_append.1 mem with sign | digit
  · revert sign
    cases f.isNegated <;> decide
  · exact absurd (isDigit_of_mem_toString digit) (by decide)

end ZoneDiagram.Drawing

import Mathlib.Algebra.Group.Units.Equiv
import Mathlib.Data.Nat.Pairing
import Mathlib.Data.Set.Function
import Mathlib.Data.UInt
import ZoneDiagram.Node
import ZoneDiagram.Operation

/-!
# Digests of pairs lose nothing

**Theorem (`loses_nothing`).** For `n` up to `2³²`, the pairing numbers the pairs of words below `n`
by the integers below `n * n`, each pair by one and each integer of one pair, and it does not wrap
around. Mixing is a bijection of the 64-bit words. So the digests of pairs of words below `2³²` are
all different, as long as no bits of them are masked. Such pairs are the keys of remembered
reductions (`OpKey.digest_reduce_injective`).

Modulo `2⁶⁴` the pairing is that of naturals (`Nat.pair`), which fills the squares one after another
(`pair_lt_mul_self_iff`). Mixing is a chain of five steps. Two of them multiply by an odd word,
which has an inverse. The others fold the high bits of a word into its low ones: to fold twice is to
fold once with twice the shift (`toBitVec_iterate_foldHigh`), so after 64 times nothing is left to
fold.
-/

namespace ZoneDiagram

namespace Digest

variable {n : Nat} {a b c d shift : UInt64}

/-! ## Pairing -/

/-- The pairs of words below a number. -/
def square (n : Nat) : Set (UInt64 × UInt64) := {p | p.1.toNat < n ∧ p.2.toNat < n}

/-- Up to multiples of `2⁶⁴`, words are paired as naturals are. -/
theorem toNat_pair (a b : UInt64) :
    (pair a b).toNat = Nat.pair a.toNat b.toNat % 18446744073709551616 := by
  rw [pair, Nat.pair]
  simp only [UInt64.lt_iff_toNat_lt]
  split
  · rw [UInt64.toNat_add, UInt64.toNat_mul, Nat.mod_add_mod]
  · rw [UInt64.toNat_add, UInt64.toNat_add, UInt64.toNat_mul, Nat.mod_add_mod, Nat.add_assoc,
      Nat.mod_add_mod, ← Nat.add_assoc]

/-- The pairs of naturals below `n` are those with the numbers below `n * n`. -/
theorem pair_lt_mul_self_iff {k l : Nat} : Nat.pair k l < n * n ↔ k < n ∧ l < n := by
  rw [← max_lt_iff, ← Nat.pow_two]
  constructor
  · intro below
    have least : max k l ^ 2 ≤ Nat.pair k l :=
      le_trans (Nat.le_add_right _ _) (Nat.max_sq_add_min_le_pair k l)
    exact (Nat.pow_lt_pow_iff_left (by decide)).1 (lt_of_le_of_lt least below)
  · intro below
    exact lt_of_lt_of_le (Nat.pair_lt_max_add_one_sq k l) (Nat.pow_le_pow_left below 2)

/-- Words below `2³²` are paired as naturals are. -/
theorem toNat_pair_of_mem (hn : n ≤ 4294967296) {p : UInt64 × UInt64} (hp : p ∈ square n) :
    (pair p.1 p.2).toNat = Nat.pair p.1.toNat p.2.toNat := by
  rw [toNat_pair]
  refine Nat.mod_eq_of_lt (pair_lt_mul_self_iff (n := 4294967296) |>.2 ?_)
  exact ⟨lt_of_lt_of_le hp.1 hn, lt_of_lt_of_le hp.2 hn⟩

/-- As naturals, the pairs of words below `n` have the numbers below `n * n`. -/
theorem bijOn_natPair (hn : n ≤ 4294967296) :
    Set.BijOn (fun p : UInt64 × UInt64 => Nat.pair p.1.toNat p.2.toNat) (square n)
      (Set.Iio (n * n)) := by
  refine ⟨fun p hp => pair_lt_mul_self_iff.2 hp, fun p _ q _ same => ?_, fun k hk => ?_⟩
  · obtain ⟨first, second⟩ := Nat.pair_eq_pair.1 same
    exact Prod.ext (UInt64.toNat_inj.1 first) (UInt64.toNat_inj.1 second)
  · obtain ⟨first, second⟩ := pair_lt_mul_self_iff.1 ((Nat.pair_unpair k).symm ▸ hk)
    have word {l : Nat} (hl : l < n) : (UInt64.ofNat l).toNat = l :=
      UInt64.toNat_ofNat_of_lt' (lt_of_lt_of_le hl (hn.trans (by decide)))
    refine ⟨(.ofNat k.unpair.1, .ofNat k.unpair.2), ?_, ?_⟩
    · exact ⟨(word first).trans_lt first, (word second).trans_lt second⟩
    · simp only [word first, word second, Nat.pair_unpair]

theorem bijOn_pair (hn : n ≤ 4294967296) :
    Set.BijOn (fun p : UInt64 × UInt64 => (pair p.1 p.2).toNat) (square n) (Set.Iio (n * n)) :=
  (bijOn_natPair hn).congr fun _ hp => (toNat_pair_of_mem hn hp).symm

/-! ## Mixing -/

theorem toBitVec_foldHigh (shift x : UInt64) :
    (foldHigh shift x).toBitVec = x.toBitVec ^^^ x.toBitVec >>> (shift.toNat % 64) := by
  rw [foldHigh, UInt64.toBitVec_xor, UInt64.toBitVec_shiftRight]
  rfl

/-- To fold twice is to fold once with twice the shift. -/
theorem toBitVec_iterate_foldHigh (shift : UInt64) (k : Nat) (x : UInt64) :
    ((foldHigh shift)^[2 ^ k] x).toBitVec =
      x.toBitVec ^^^ x.toBitVec >>> (2 ^ k * (shift.toNat % 64)) := by
  induction k generalizing x with
  | zero =>
    rw [Nat.pow_zero, Nat.one_mul]
    exact toBitVec_foldHigh shift x
  | succ k ih =>
    -- the copies with the shift so far cancel, and the copies of the copies remain
    rw [Nat.pow_succ, Nat.mul_two, Function.iterate_add_apply, ih, ih,
      BitVec.ushiftRight_xor_distrib, ← BitVec.shiftRight_add, ← Nat.add_mul, BitVec.xor_assoc,
      ← BitVec.xor_assoc (_ >>> _), BitVec.xor_self, BitVec.zero_xor]

/-- After 64 times nothing is left to fold. -/
theorem iterate_foldHigh (h : 0 < shift.toNat % 64) (x : UInt64) :
    (foldHigh shift)^[64] x = x := by
  have beyond : 64 ≤ 2 ^ 6 * (shift.toNat % 64) := Nat.le_mul_of_pos_right 64 h
  apply UInt64.toBitVec_inj.1
  calc _ = x.toBitVec ^^^ x.toBitVec >>> (2 ^ 6 * (shift.toNat % 64)) :=
        toBitVec_iterate_foldHigh shift 6 x
    _ = x.toBitVec := by rw [BitVec.ushiftRight_eq_zero beyond, BitVec.xor_zero]

theorem foldHigh_bijective (h : 0 < shift.toNat % 64) : Function.Bijective (foldHigh shift) := by
  refine Function.bijective_iff_has_inverse.2 ⟨(foldHigh shift)^[63], fun x => ?_, fun x => ?_⟩
  · exact iterate_foldHigh h x
  · exact (Function.iterate_succ_apply' (foldHigh shift) 63 x).symm.trans (iterate_foldHigh h x)

/-- Multiplication by a word with an inverse. -/
theorem mul_bijective (h : c * d = 1) : Function.Bijective (fun x : UInt64 => x * c) :=
  Units.mulRight_bijective ⟨c, d, h, (UInt64.mul_comm d c).trans h⟩

/-- **Mixing is a bijection of the words.** -/
theorem mix_bijective : Function.Bijective mix := by
  have first : Function.Bijective (fun x : UInt64 => x * 0xbf58476d1ce4e5b9) :=
    mul_bijective (d := 0x96de1b173f119089) (by decide)
  have second : Function.Bijective (fun x : UInt64 => x * 0x94d049bb133111eb) :=
    mul_bijective (d := 0x319642b2d24d8ec3) (by decide)
  have fold {s : UInt64} (h : 0 < s.toNat % 64) := foldHigh_bijective h
  exact (fold (s := 31) (by decide)).comp <| second.comp <| (fold (s := 27) (by decide)).comp <|
    first.comp (fold (s := 30) (by decide))

/-! ## Digests -/

theorem injOn_ofPair :
    Set.InjOn (fun p : UInt64 × UInt64 => ofPair p.1 p.2) (square 4294967296) := by
  intro p hp q hq same
  refine (bijOn_pair le_rfl).injOn hp hq ?_
  exact congrArg UInt64.toNat (mix_bijective.injective same)

/-- **Digests of pairs of 32-bit words lose nothing**: pairs are numbered without a gap, and no two
words mix to the same one. -/
theorem loses_nothing (hn : n ≤ 4294967296) :
    (∀ p ∈ square n, (pair p.1 p.2).toNat = Nat.pair p.1.toNat p.2.toNat) ∧
    Set.BijOn (fun p : UInt64 × UInt64 => (pair p.1 p.2).toNat) (square n) (Set.Iio (n * n)) ∧
    Function.Bijective mix ∧
    Set.InjOn (fun p : UInt64 × UInt64 => ofPair p.1 p.2) (square 4294967296) :=
  ⟨fun _ => toNat_pair_of_mem hn, bijOn_pair hn, mix_bijective, injOn_ofPair⟩

/-- The largest square fills the words up to the last one, `2⁶⁴ - 1`. -/
theorem loses_nothing_largest : 4294967296 ≤ 4294967296 ∧
    Set.BijOn (fun p : UInt64 × UInt64 => (pair p.1 p.2).toNat) (square 4294967296)
      (Set.Iio 18446744073709551616) ∧
    (pair 4294967295 4294967295).toNat = 18446744073709551615 ∧
    (pair 4294967295 4294967295).toNat = Nat.pair 4294967295 4294967295 := by
  obtain ⟨exact, numbered, -⟩ := loses_nothing (Nat.le_refl 4294967296)
  exact ⟨le_rfl, numbered, by decide, exact (4294967295, 4294967295) ⟨by decide, by decide⟩⟩

/-! ## Keys of reductions -/

theorem toNat_word32 (z : Int) : (word32 z).toNat = (z % 4294967296).toNat :=
  UInt64.toNat_ofNat_of_lt' (by change _ < 18446744073709551616; omega)

end Digest

/-- Remembered reductions have different digests, since 32 bits tell handles apart. -/
theorem OpKey.digest_reduce_injective {f g : Handle} (hf : f.slot ≤ Handle.maxSlot)
    (hg : g.slot ≤ Handle.maxSlot) (same : (reduce f).digest = (reduce g).digest) : f = g := by
  have tag : (Digest.triple 2 0 0).toNat < 4294967296 := by decide
  have word (z : Int) : (Digest.word32 z).toNat < 4294967296 := by
    rw [Digest.toNat_word32]
    omega
  have pairs : (Digest.triple 2 0 0, Digest.word32 f.raw) =
      (Digest.triple 2 0 0, Digest.word32 g.raw) :=
    Digest.injOn_ofPair ⟨tag, word f.raw⟩ ⟨tag, word g.raw⟩ same
  have words : (f.raw % 4294967296).toNat = (g.raw % 4294967296).toNat := by
    rw [← Digest.toNat_word32, ← Digest.toNat_word32, (Prod.mk.inj pairs).2]
  have raw : f.raw = g.raw := by
    unfold Handle.slot Handle.maxSlot at hf hg
    omega
  exact (Handle.mk.injEq ..).mpr raw

end ZoneDiagram

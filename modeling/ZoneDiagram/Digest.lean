/-!
# Digests

Structural digests of nodes and cache keys are 64-bit words. Two words are folded into one by the
pairing function of Szudzik, which numbers the pairs of naturals along growing squares and wraps
around past 64 bits. A last mixing step spreads every input bit over the low bits that select a
bucket: three times a shifted copy is added in, with two multiplications by odd words between, so
no two words mix to the same one.
-/

namespace ZoneDiagram.Digest

/-- Number the pair of two words: the squares below `max a b` come first. -/
def pair (a b : UInt64) : UInt64 := if a < b then b * b + a else a * a + a + b

/-- Number the triple of three words. -/
def triple (a b c : UInt64) : UInt64 := pair (pair a b) c

/-- Add a copy of the word, shifted to the right. -/
def foldHigh (shift x : UInt64) : UInt64 := x ^^^ (x >>> shift)

/-- Spread every bit of a word over all its bits. -/
def mix (x : UInt64) : UInt64 :=
  foldHigh 31 (foldHigh 27 (foldHigh 30 x * 0xbf58476d1ce4e5b9) * 0x94d049bb133111eb)

/-- The digest of two words. -/
def ofPair (a b : UInt64) : UInt64 := mix (pair a b)

/-- The digest of three words. -/
def ofTriple (a b c : UInt64) : UInt64 := mix (triple a b c)

/-- A signed integer as a word, by its low 32 bits. -/
def word32 (n : Int) : UInt64 := (n % 4294967296).toNat.toUInt64

end ZoneDiagram.Digest

/-!
# Binary floating-point numbers

A number is kept as the 64-bit word of its IEEE 754 double format.  Nothing here computes with
numbers: they are read, compared as words, and written, so the word is all there is to know, and
reading a decimal is rounding an exact fraction.

## Main definitions

* `Binary64` — a number, by its word.
* `Binary64.ofParts` — the number with a given sign, exponent and fraction.
* `Binary64.magnitude` — the exact size `m * 2 ^ e` of a finite number.
* `Binary64.ofFraction` — the number nearest to a fraction, ties to even.
* `Binary64.ofDecimal` — the number nearest to a decimal.
-/

namespace TwigAlgebra

/-- A double, by its word. -/
structure Binary64 where
  /-- Sign, eleven bits of exponent, fifty-two bits of fraction. -/
  bits : UInt64
  deriving DecidableEq, Repr, Inhabited

namespace Binary64

/-- The weight of the sign bit. -/
def signWeight : Nat := Nat.pow 2 63

/-- The number of fractions: they have fifty-two bits. -/
def fractionCount : Nat := Nat.pow 2 52

/-- The greatest exponent, which stands for no finite number. -/
def topBiased : Nat := 2047

/-- The sign bit. -/
def isNegative (x : Binary64) : Bool := x.bits.toNat / signWeight == 1

/-- The biased exponent. -/
def biased (x : Binary64) : Nat := x.bits.toNat / fractionCount % (topBiased + 1)

/-- The fraction bits. -/
def fraction (x : Binary64) : Nat := x.bits.toNat % fractionCount

/-- Infinities and the words that are no number have the greatest exponent. -/
def isFinite (x : Binary64) : Bool := x.biased != topBiased

/-- The words that are no number. -/
def isNaN (x : Binary64) : Bool := x.biased == topBiased && x.fraction != 0

/-- The word with the given sign, biased exponent and fraction. -/
def ofParts (negative : Bool) (biased fraction : Nat) : Binary64 :=
  ⟨UInt64.ofNat ((if negative then signWeight else 0) + biased * fractionCount + fraction)⟩

/-- The infinities. -/
def infinity (negative : Bool) : Binary64 := ofParts negative topBiased 0

/-- The words that are no number have the highest bit of the fraction, as computed ones do. -/
def notANumber (negative : Bool) : Binary64 := ofParts negative topBiased (fractionCount / 2)

/-- The least exponent of two in a finite number. -/
def minExponent : Int := -1074

/-- The size of a finite number: `(m, e)` stands for `m * 2 ^ e`. -/
def magnitude (x : Binary64) : Nat × Int :=
  if x.biased = 0 then (x.fraction, minExponent)
  else (fractionCount + x.fraction, (x.biased : Int) - 1075)

/-- The number with a sign and the size `m * 2 ^ e`, where `m` has at most 53 bits, and all of them
unless `e` is least; a size beyond the greatest is infinite. -/
def pack (negative : Bool) (m : Nat) (e : Int) : Binary64 :=
  let biased := (e + 1075).toNat
  if m < fractionCount then ofParts negative 0 m
  else if biased < topBiased then ofParts negative biased (m - fractionCount)
  else infinity negative

/-- `n / d` rounded to the nearest natural number, a half to the even one. -/
def roundDiv (n d : Nat) : Nat :=
  let q := n / d
  let r := n % d
  if 2 * r < d then q else if 2 * r = d then q + q % 2 else q + 1

/-- The fraction `n / d` over `2 ^ e`, as a fraction again. -/
def scaled (n d : Nat) (e : Int) : Nat × Nat :=
  if e < 0 then (n * Nat.pow 2 (-e).toNat, d) else (n, d * Nat.pow 2 e.toNat)

/-- The number nearest to `n / d`, which has the given sign. -/
def ofFraction (negative : Bool) (n d : Nat) : Binary64 :=
  -- the quotient has 53 or 54 bits at this exponent, so the right one is this or the next
  let e₀ := max minExponent ((n.log2 : Int) - d.log2 - 53)
  let (a, b) := scaled n d e₀
  let e := if a / b < 2 * fractionCount then e₀ else e₀ + 1
  let (a, b) := scaled n d e
  let m := roundDiv a b
  if m < 2 * fractionCount then pack negative m e else pack negative (m / 2) (e + 1)

/-- The number nearest to `digits * 10 ^ exponent`.  Far outside the range of doubles the power is
not computed. -/
def ofDecimal (negative : Bool) (digits : Nat) (exponent : Int) : Binary64 :=
  let top := (digits.log2 : Int) * 3 / 10 + exponent
  if digits = 0 ∨ top < -400 then pack negative 0 minExponent
  else if 400 < top then infinity negative
  else if exponent < 0 then ofFraction negative digits (Nat.pow 10 (-exponent).toNat)
  else ofFraction negative (digits * Nat.pow 10 exponent.toNat) 1

/-- The number nearest to an integer. -/
def ofInt (i : Int) : Binary64 := ofDecimal (i < 0) i.natAbs 0

end Binary64

end TwigAlgebra

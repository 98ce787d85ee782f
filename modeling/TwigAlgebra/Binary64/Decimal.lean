import TwigAlgebra.Binary64.Basic

/-!
# Shortest decimals

The written form of a number has the fewest digits that still read back as that number, and of the
decimals with so few digits the nearest; a tie goes to the greater.  It is written out in full,
without an exponent and without a point after whole numbers.

The decimals with `n` digits around the number form a grid, and if a point of the grid reads back
then so does one of the number's two neighbours on it.  So one to seventeen digits are tried in
turn, and on each grid only the two neighbours.

## Main definitions

* `Binary64.shortest` — the digits and the power of ten of a positive number.
* `Binary64.text` — the written form.
-/

namespace TwigAlgebra.Binary64

/-- The decimals that read back as one number: all `p` with `low ≤ p * den ≤ high`, the ends being
included only if `closed`; `mid` stands for the number itself. -/
structure Interval where
  /-- The lower end. -/
  low : Nat
  /-- The number itself. -/
  mid : Nat
  /-- The upper end. -/
  high : Nat
  /-- The common denominator. -/
  den : Nat
  /-- Whether the ends read back, too. -/
  closed : Bool
  deriving DecidableEq, Repr

/-- The interval of `m * 2 ^ e`.  Half the way to either neighbour still reads back, and below a
power of two the lower neighbour is only half as far. -/
def interval (m : Nat) (e : Int) : Interval :=
  let gap := if m = fractionCount ∧ minExponent < e then 1 else 2
  let scale := if e < 0 then 1 else Nat.pow 2 e.toNat
  ⟨(4 * m - gap) * scale, 4 * m * scale, (4 * m + 2) * scale,
    if e < 0 then 4 * Nat.pow 2 (-e).toNat else 4, m % 2 == 0⟩

/-- Multiplies everything in an interval by a fraction. -/
def Interval.times (i : Interval) (num den : Nat) : Interval :=
  ⟨i.low * num, i.mid * num, i.high * num, i.den * den, i.closed⟩

/-- Whether the whole number `d` lies in the interval. -/
def Interval.contains (i : Interval) (d : Nat) : Bool :=
  if i.closed then i.low ≤ d * i.den && d * i.den ≤ i.high
  else i.low < d * i.den && d * i.den < i.high

/-- The neighbour of the number on the grid of whole numbers that lies in the interval, the nearer
if both do, the greater if both are as near. -/
def Interval.pick (i : Interval) : Option Nat :=
  let d := i.mid / i.den
  match i.contains d, i.contains (d + 1) with
  | true, true => some (if 2 * (i.mid % i.den) < i.den then d else d + 1)
  | true, false => some d
  | false, true => some (d + 1)
  | false, false => none

/-- The interval in units of `10 ^ k`. -/
def Interval.inUnits (i : Interval) (k : Int) : Interval :=
  if k < 0 then i.times (Nat.pow 10 (-k).toNat) 1 else i.times 1 (Nat.pow 10 k.toNat)

/-- The first hit on the grids of spacing `10 ^ k`, `10 ^ (k - 1)`, …, of which `fuel` are tried. -/
def Interval.search (i : Interval) : Nat → Int → Nat × Int
  | 0, k => (i.mid / i.den, k)
  | fuel + 1, k =>
    match (i.inUnits k).pick with
    | some d => if d = 0 then search i fuel (k - 1) else (d, k)
    | none => search i fuel (k - 1)

/-- The number of digits of a natural number. -/
def digitCount (n : Nat) : Nat := (Nat.toDigits 10 n).length

/-- The shortest decimal that reads back as `m * 2 ^ e`: `(d, k)` stands for `d * 10 ^ k`.  The
first grid lies above the number, so none with fewer digits is left out. -/
def shortest (m : Nat) (e : Int) : Nat × Int :=
  let i := interval m e
  let whole := i.mid / i.den
  let top : Int := if whole = 0 then -((digitCount (i.den / i.mid) : Int) - 1) else digitCount whole
  i.search 19 top

/-- `d * 10 ^ k` written out in full; `d` is not zero. -/
def positional (d : Nat) (k : Int) : String :=
  let digits := Nat.toDigits 10 d
  if 0 ≤ k then String.ofList (digits ++ List.replicate k.toNat '0')
  else
    let places := (-k).toNat
    if places < digits.length then
      String.ofList (digits.take (digits.length - places)) ++ "."
        ++ String.ofList (digits.drop (digits.length - places))
    else "0." ++ String.ofList (List.replicate (places - digits.length) '0' ++ digits)

/-- The written form of a number. -/
def text (x : Binary64) : String :=
  if x.isNaN then "NaN"
  else
    let (m, e) := x.magnitude
    let size :=
      if !x.isFinite then "inf"
      else if m = 0 then "0"
      else
        let (d, k) := shortest m e
        positional d k
    if x.isNegative then "-" ++ size else size

end TwigAlgebra.Binary64

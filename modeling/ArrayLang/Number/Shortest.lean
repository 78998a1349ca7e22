import ArrayLang.Number.Binary64

/-!
# Shortest decimals

The decimal that stands for a double is the one with the fewest digits among those that read back
as the double, and of several the nearest; a tie goes up. Everything is decided on integers.

The reals that round to `m · 2 ^ e` form an interval around it, whose ends belong to it iff `m` is
even. The coarsest decimal grid `10 ^ k` with a point in the interval gives the fewest digits, and
if any of its points lies inside, one of the two neighbours of the number does.
-/

namespace ArrayLang

/-- The decimal number `digits · 10 ^ exponent`. -/
structure Decimal where
  digits : Nat
  exponent : Int
deriving DecidableEq, Repr

/-- The positive reals that round to one double: `value` and the two ends are numerators over
`denominator`. -/
structure RoundingInterval where
  value : Nat
  low : Nat
  high : Nat
  denominator : Nat
  /-- Whether the ends belong to the interval. -/
  closed : Bool

namespace RoundingInterval

/-- The interval of a positive finite double. The lower neighbour of a power of two is only half
as far away as the upper one, unless it is subnormal as well. -/
def ofBinary64 (x : Binary64) : RoundingInterval :=
  let m := x.mantissa
  let below := if x.fraction == 0 && 1 < x.biased then 1 else 2
  let scale := Nat.pow 2 (x.exponent - 2).toNat
  { value := 4 * m * scale
    low := (4 * m - below) * scale
    high := (4 * m + 2) * scale
    denominator := Nat.pow 2 (2 - x.exponent).toNat
    closed := m % 2 == 0 }

/-- Numerator of `d · 10 ^ k` once both sides of a comparison are multiplied by
`denominator · 10 ^ (-k)`. -/
def point (i : RoundingInterval) (k : Int) (d : Nat) : Nat :=
  d * (Nat.pow 10 k.toNat * i.denominator)

/-- The matching factor of the interval's own numerators. -/
def refine (k : Int) (n : Nat) : Nat := n * Nat.pow 10 (-k).toNat

/-- Whether `d · 10 ^ k` reads back as the number. -/
def contains (i : RoundingInterval) (k : Int) (d : Nat) : Bool :=
  let p := i.point k d
  if i.closed then refine k i.low ≤ p && p ≤ refine k i.high
  else refine k i.low < p && p < refine k i.high

/-- The digits of the best point of the grid `10 ^ k` in the interval, if there is one: the nearer
of the two neighbours, and the upper one if both are equally near. -/
def digitsOn (i : RoundingInterval) (k : Int) : Option Nat :=
  let v := refine k i.value
  let d := v / (Nat.pow 10 k.toNat * i.denominator)
  match i.contains k d, i.contains k (d + 1) with
  | true, true => if v - i.point k d < i.point k (d + 1) - v then some d else some (d + 1)
  | true, false => some d
  | false, true => some (d + 1)
  | false, false => none

/-- The first grid with a point in the interval, from `10 ^ k` to `count` grids further down. -/
def search (i : RoundingInterval) : (count : Nat) → (k : Int) → Option Decimal
  | 0, _ => none
  | count + 1, k =>
    match i.digitsOn k with
    | some d => some ⟨d, k⟩
    | none => i.search count (k - 1)

/-- An exponent whose grid is too coarse for the number: `10 ^ k` is above it. -/
def coarse (i : RoundingInterval) : Int :=
  if i.denominator ≤ i.value then ((i.value / i.denominator).log2 : Int) / 3 + 1
  else 1 - ((i.denominator / i.value).log2 : Int) / 4

end RoundingInterval

/-- The fewest digits that read back as a positive finite double. -/
def Binary64.shortest (x : Binary64) : Decimal :=
  let i := RoundingInterval.ofBinary64 x
  (i.search 400 i.coarse).getD ⟨0, 0⟩

namespace Decimal

/-- The decimal written out without an exponent. -/
def positional (d : Decimal) : String :=
  let ds := toString d.digits
  if 0 ≤ d.exponent then
    if d.digits == 0 then "0" else ds ++ "".pushn '0' d.exponent.toNat
  else
    let places := (-d.exponent).toNat
    let padded := ("".pushn '0' (places + 1 - ds.length) ++ ds).toList
    let whole := padded.length - places
    String.ofList (padded.take whole ++ '.' :: padded.drop whole)

end Decimal

/-- The text of a double: shortest digits, never an exponent, no point in a whole number, and a
minus in front whenever the sign bit is set, also of zero. -/
def Binary64.text (x : Binary64) : String :=
  if x.isNaN then "NaN"
  else
    let body :=
      if x.isInfinite then "inf"
      else if x.isZero then "0"
      else x.shortest.positional
    if x.signBit then "-" ++ body else body

end ArrayLang

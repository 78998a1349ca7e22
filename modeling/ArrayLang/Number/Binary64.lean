/-!
# Binary64

Double precision numbers as their 64 bits, read with integer arithmetic alone. A finite number is
`± mantissa · 2 ^ exponent`; comparison, the test for an integral value and the choice of decimal
digits are all exact statements about that integer pair.
-/

namespace ArrayLang

/-- An IEEE double, given by its bits. -/
structure Binary64 where
  bits : UInt64
deriving DecidableEq, Repr

namespace Binary64

/-- Whether the sign bit is set; zeros and NaNs have one too. -/
def signBit (x : Binary64) : Bool := Nat.pow 2 63 ≤ x.bits.toNat

def magnitude (x : Binary64) : Nat := x.bits.toNat % Nat.pow 2 63

/-- The stored exponent, eleven bits. -/
def biased (x : Binary64) : Nat := x.magnitude / Nat.pow 2 52

/-- The stored fraction, fifty-two bits. -/
def fraction (x : Binary64) : Nat := x.magnitude % Nat.pow 2 52

def isNaN (x : Binary64) : Bool := x.biased == 2047 && x.fraction != 0

def isInfinite (x : Binary64) : Bool := x.biased == 2047 && x.fraction == 0

def isFinite (x : Binary64) : Bool := x.biased < 2047

def isZero (x : Binary64) : Bool := x.magnitude == 0

/-- Whether the number is below zero: not so for a NaN and for the negative zero. -/
def isNegative (x : Binary64) : Bool := x.signBit && !x.isNaN && !x.isZero

def abs (x : Binary64) : Binary64 := ⟨UInt64.ofNat x.magnitude⟩

/-- Numeric equality: a NaN differs from everything and the two zeros are equal. -/
def equal (x y : Binary64) : Bool :=
  !x.isNaN && !y.isNaN && (x.bits == y.bits || (x.isZero && y.isZero))

/-- The integer `m` in the absolute value `m · 2 ^ e` of a finite number. -/
def mantissa (x : Binary64) : Nat :=
  if x.biased == 0 then x.fraction else Nat.pow 2 52 + x.fraction

/-- The integer `e` in the absolute value `m · 2 ^ e` of a finite number. -/
def exponent (x : Binary64) : Int :=
  if x.biased == 0 then -1074 else (x.biased : Int) - 1075

/-- The value of a number that is a whole number. -/
def toInt? (x : Binary64) : Option Int :=
  if !x.isFinite then none
  else
    let whole? : Option Nat :=
      if 0 ≤ x.exponent then some (x.mantissa * Nat.pow 2 x.exponent.toNat)
      else if x.mantissa % Nat.pow 2 (-x.exponent).toNat == 0 then
        some (x.mantissa / Nat.pow 2 (-x.exponent).toNat)
      else none
    whole?.map fun n => if x.signBit then -(n : Int) else n

def one : Binary64 := ⟨0x3FF0000000000000⟩

end Binary64

end ArrayLang

import ArrayLang.Number.Shortest

/-!
# Numbers

A number is an integer word or a double. Both are written with the high minus `¯` in front of the
magnitude when they are below zero, so the minus sign stays free for the function.

The numeric model proper lies outside of the language; the evaluator asks it two questions, which
a `Tower` answers: whether a number is a truth value, and whether it is an index.
-/

namespace ArrayLang

inductive Number where
  | int (n : Int64)
  | float (x : Binary64)
deriving DecidableEq, Repr

def clampInt64 (n : Int) : Int64 :=
  Int64.ofInt (max (-9223372036854775808) (min n 9223372036854775807))

/-- Nothing is cut off from what an integer word can hold. -/
theorem toInt_clampInt64 {n : Int} (hlo : -9223372036854775808 ≤ n)
    (hhi : n ≤ 9223372036854775807) : (clampInt64 n).toInt = n := by
  have hmid : max (-9223372036854775808) (min n 9223372036854775807) = n := by omega
  rw [clampInt64, hmid]
  apply Int64.toInt_ofInt_of_le
  · exact hlo
  · omega

namespace Number

/-- A number below zero is the high minus and the text of its magnitude. -/
def text : Number → String
  | .int n => if n < 0 then "¯" ++ toString n.toInt.natAbs else toString n.toInt
  | .float x => if x.isNegative then "¯" ++ x.abs.text else x.text

/-- Numeric equality within one kind; integers and doubles are never equal. -/
def equal : Number → Number → Bool
  | .int a, .int b => a == b
  | .float x, .float y => x.equal y
  | _, _ => false

end Number

/-- What the evaluator asks of the numeric model. -/
structure Tower where
  /-- The truth value of a number, if it has one. -/
  toBool? : Number → Option Bool
  /-- The index that a number stands for, if it is one. -/
  toIndex? : Number → Option Int64

namespace Tower

/-- The largest magnitude at which every whole double is exact. -/
def maxExactIndex : Int := 9007199254740992

/-- Zero and one are the truth values; the indexes are the integers and the whole doubles in the
exact range. -/
def standard : Tower where
  toBool?
    | .int n => if n == 0 then some false else if n == 1 then some true else none
    | .float x => if x.isZero then some false else if x == .one then some true else none
  toIndex?
    | .int n => some n
    | .float x =>
      match x.toInt? with
      | some n => if n.natAbs ≤ maxExactIndex then some (Int64.ofInt n) else none
      | none => none

/-- Everything but zero is true, also a NaN; only integers are indexes. -/
def nonzero : Tower where
  toBool?
    | .int n => some (n != 0)
    | .float x => some !x.isZero
  toIndex?
    | .int n => some n
    | .float _ => none

/-- No number is a truth value or an index. -/
def never : Tower where
  toBool? _ := none
  toIndex? _ := none

end Tower

end ArrayLang

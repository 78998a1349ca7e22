import ArrayLang.Library.Arguments
import ArrayLang.Registry.Basic

/-!
# The core library

Integer arithmetic, comparison and a few structural primitives, and the operators *each* and
*reduce*.

Two primitives make arrays as long as their argument says. No array has more than 2⁶³ - 1 bytes, and
asking for more is a panic. Short of that an array is taken to have room.
-/

namespace ArrayLang.Library

/-! ### Primitives -/

/-- A body that combines the integers of its arguments. -/
def arithmetic (combine : Int64 → Int64 → Value) : PrimitiveBody := fun _ left right =>
  .ofExcept do
    let (a, b) ← integers left right
    return combine a b

def add : PrimitiveBody := arithmetic fun a b => .int (a + b)

def subtract : PrimitiveBody := arithmetic fun a b => .int (a - b)

def greater : PrimitiveBody := arithmetic fun a b => .bool (b < a)

def identity : PrimitiveBody := fun _ _ right => pure right

def negate : PrimitiveBody := fun _ _ right =>
  .ofExcept do return .int (-(← integer right))

/-- The most integers that an array may have, which take eight bytes each. -/
def maxIntegers : Nat := 9223372036854775807 / 8

/-- The most cells that an array of values may have, which take 48 bytes each. -/
def maxCells : Nat := 9223372036854775807 / 48

/-- The numbers from one up to the right argument. -/
def iota : PrimitiveBody := fun _ _ right => do
  let n ← .ofExcept (count right)
  if n ≤ maxIntegers then return .indexes (.iota [n]) else .panics

def shapeOf : PrimitiveBody := fun _ _ right =>
  pure (.indexes (.vector ((right.shape?.getD []).map fun (n : Nat) => clampInt64 n)))

/-- The elements from last to first, with one axis. -/
def reverse : PrimitiveBody := fun _ _ right => pure (.vector (right.cells?.getD []).reverse)

/-- The first elements, as many as the left argument says, with zeros behind if there are fewer. -/
def take : PrimitiveBody := fun _ left right => do
  let n ← .ofExcept (leftArgument left >>= count)
  if n ≤ maxCells then
    let cells := right.cells?.getD []
    return .vector (cells.take n ++ List.replicate (n - cells.length) (.int 0))
  else .panics

/-! ### Operators -/

/-- The results of a function on values from first to last, behind those in `done` reversed. -/
def callEach (f : Callable) (left : Option Value) (done : List Value) : List Value → Body Value
  | [] => pure (.vector done.reverse)
  | v :: vs => do
    let w ← Body.apply f left v
    callEach f left (w :: done) vs

/-- Calls the operand on every element of the right argument. -/
def each : OperatorBody := fun _ operand _ left right => do
  let f ← .ofExcept (callable operand)
  callEach f left [] right.cellsOrSelf

/-- Calls a function on each value, from the first of the list on, and the result so far. -/
def foldOnto (f : Callable) (result : Value) : List Value → Body Value
  | [] => pure result
  | v :: vs => do
    let w ← Body.apply f (some v) result
    foldOnto f w vs

/-- Puts the operand between the elements of the right argument and evaluates from the right. -/
def reduce : OperatorBody := fun _ operand _ _ right => do
  let f ← .ofExcept (callable operand)
  match right.cellsOrSelf.reverse with
  | [] => .failWith "reduce of an empty array"
  | last :: before => foldOnto f last before

/-! ### Registration -/

def number : Domain := .leaf .isNumber none

def array : Domain := .leaf .isArray none

def function : Domain := .leaf .isFunction none

/-- The primitives in the order of their registration. -/
def primitives : List (String × PairDomain × PrimitiveBody) :=
  [ ("+", .both (some number), add),
    ("+", .monadic none, identity),
    ("-", .monadic (some number), negate),
    ("-", .both (some number), subtract),
    (">", .both (some number), greater),
    ("⍳", .monadic (some number), iota),
    ("⍴", .monadic (some array), shapeOf),
    ("⌽", .monadic (some array), reverse),
    ("↑", .split (some number) (some array), take) ]

def operators : List (String × OperatorBody) := [("¨", each), ("/", reduce)]

def core (names : Interner) : Registry :=
  let r := primitives.foldl (fun r (symbol, domain, body) =>
    (r.registerPrimitive symbol domain body).2) (Registry.empty names)
  operators.foldl (fun r (symbol, body) =>
    (r.registerOperator symbol .monadic (.monadic (some function)) body).2) r

end ArrayLang.Library

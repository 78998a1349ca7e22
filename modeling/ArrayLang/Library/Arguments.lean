import ArrayLang.Registry.Body

/-!
# Reading arguments

What bodies ask of their arguments before they compute, and the errors they raise when an argument
is not of the kind they need.
-/

namespace ArrayLang.Library

/-- The left argument of a body that cannot do without. -/
def leftArgument : Option Value → Except EvalError Value
  | some v => .ok v
  | none => .error (.custom "missing left argument")

/-- The right operand of a body that cannot do without. -/
def rightOperand : Option Value → Except EvalError Value
  | some v => .ok v
  | none => .error (.custom "missing right operand")

/-- The integer in a value; a boolean counts as zero or one. -/
def integer : Value → Except EvalError Int64
  | .number (.int n) => .ok n
  | .bool b => .ok (if b then 1 else 0)
  | v => .error (.custom ("expected an integer, got " ++ v.kind.name))

/-- The integer in a value, as a number of elements. -/
def count (v : Value) : Except EvalError Nat := do
  let n ← integer v
  if n < 0 then .error (.custom "negative count") else return n.toNatClampNeg

/-- The integers of two arguments, the left one first. -/
def integers (left : Option Value) (right : Value) : Except EvalError (Int64 × Int64) := do
  let a ← integer (← leftArgument left)
  let b ← integer right
  return (a, b)

def indexes : Value → Except EvalError (List Int64)
  | .indexes g => .ok g.cells
  | v => .error (.custom ("expected an index array, got " ++ v.kind.name))

def callable (v : Value) : Except EvalError Callable :=
  match v.callable? with
  | some f => .ok f
  | none => .error (.custom "operand is not a function")

end ArrayLang.Library

import ArrayLang.Value.Basic

/-!
# Bodies

The body of a primitive or an operator is a small program: it ends in a value or an error, or it
calls a function and goes on with what comes back. Calling is all it can do to the interpreter that
runs it, so whatever a body computes depends on its arguments and on the answers to its calls
alone. A body may also panic, and with it the whole program, as one does that asks for more memory
than there can be.

* `Body.answer` runs a body given an answer for every call.
* `Body.PassesErrors` is said of bodies that end with the error of a call that failed.
-/

namespace ArrayLang

/-- A program whose only effect is to call functions. -/
inductive Body (α : Type) where
  | done (result : Except EvalError α)
  /-- Calls a function and goes on with its value or its error. -/
  | call (f : Callable) (left : Option Value) (right : Value)
      (resume : Except EvalError Value → Body α)
  /-- Stops for good, with neither a value nor an error. -/
  | panics

namespace Body

variable {α β : Type}

/-- The first program, and then the second one unless the first failed. -/
def bind (b : Body α) (next : α → Body β) : Body β :=
  match b with
  | .done (.ok a) => next a
  | .done (.error e) => .done (.error e)
  | .call f left right resume => .call f left right fun r => (resume r).bind next
  | .panics => .panics

instance : Monad Body where
  pure a := .done (.ok a)
  bind := bind

def fail (e : EvalError) : Body α := .done (.error e)

/-- Ends with an error that has a message of its own. -/
def failWith (message : String) : Body α := fail (.custom message)

def ofExcept (r : Except EvalError α) : Body α := .done r

/-- Calls a function and ends as the call ends. -/
def apply (f : Callable) (left : Option Value) (right : Value) : Body Value :=
  .call f left right .done

/-- The result of a program for given answers to its calls; `none` if a call has no answer, or if
the program panics. -/
def answer (calls : Callable → Option Value → Value → Option (Except EvalError Value)) :
    Body α → Option (Except EvalError α)
  | .done r => some r
  | .call f left right resume =>
    match calls f left right with
    | some r => (resume r).answer calls
    | none => none
  | .panics => none

/-- Whether the program ends with the error of any call that fails. -/
def PassesErrors : Body α → Prop
  | .done _ | .panics => True
  | .call _ _ _ resume =>
    (∀ e, resume (.error e) = .done (.error e)) ∧ ∀ r, (resume r).PassesErrors

end Body

/-- The body of a primitive: the arguments come as the handler's domain converted them. -/
abbrev PrimitiveBody :=
  (tower : Tower) → (left : Option Value) → (right : Value) → Body Value

/-- The body of an operator: it runs once the derived function is called, on the operands and the
arguments. -/
abbrev OperatorBody :=
  (tower : Tower) → (leftOperand : Value) → (rightOperand : Option Value) →
    (left : Option Value) → (right : Value) → Body Value

end ArrayLang

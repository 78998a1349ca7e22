import ArrayLang.Source.Span
import ArrayLang.Value.Kind

/-!
# Evaluation errors

An error is a cause, the place where it arose as far as that is known, and notes. The wording is a
function of the cause. A domain that does not accept its arguments is no error; only running out
of handlers is one.
-/

namespace ArrayLang

inductive Cause where
  /-- Every handler of the symbol rejected the arguments; `tried` describes their domains. -/
  | noMatchingDomain (symbol : String) (left : Option Kind) (right : Kind) (tried : List String)
  | unknownPrimitive (symbol : String)
  | unknownOperator (symbol : String)
  | undefinedVariable (name : String)
  /-- The condition of a statement is no truth value. -/
  | guardType (got : Kind)
  /-- A statement that could never let the following ones run. -/
  | unreachableCode (statement : String)
  /-- More closure calls than the limit allows. -/
  | stackOverflow (limit : Nat)
  | notCallable (kind : Kind)
  | conversion (source : Kind) (target : String)
  | shapeMismatch (shape : List Nat) (length : Nat)
  | notAnArray (kind : Kind)
  | lengthMismatch (expected got : Nat)
  | indexOutOfBounds (index : Int64) (length : Nat)
  | file (path : String) (reason : String)
  /-- Raised by the body of a primitive or an operator. -/
  | custom (message : String)
deriving DecidableEq, Repr

namespace Cause

def message : Cause → String
  | .noMatchingDomain symbol left right tried =>
    let arguments := match left with
      | some left => "L " ++ left.name ++ " R " ++ right.name
      | none => "R " ++ right.name
    let attempts := if tried.isEmpty then "" else " (tried: " ++ "; ".intercalate tried ++ ")"
    "domain error: " ++ symbol ++ " does not accept " ++ arguments ++ attempts
  | .unknownPrimitive symbol => "unknown primitive: " ++ symbol
  | .unknownOperator symbol => "unknown operator: " ++ symbol
  | .undefinedVariable name => "undefined variable: " ++ name
  | .guardType got => "λ condition does not return a bool: " ++ got.name
  | .unreachableCode statement => "λ contains non-reachable code: " ++ statement
  | .stackOverflow limit => "maximum recursion depth exceeded (limit: " ++ toString limit ++ ")"
  | .notCallable kind => kind.name ++ " is not callable"
  | .conversion source target => "cannot convert " ++ source.name ++ " to " ++ target
  | .shapeMismatch shape length =>
    "shape [" ++ " ".intercalate (shape.map toString) ++ "] does not match " ++ toString length ++
      " elements"
  | .notAnArray kind => "cannot select from " ++ kind.name
  | .lengthMismatch expected got =>
    "length error: expected " ++ toString expected ++ " values, got " ++ toString got
  | .indexOutOfBounds index length =>
    "index " ++ toString index.toInt ++ " out of bounds for length " ++ toString length
  | .file path reason => path ++ ": " ++ reason
  | .custom message => message

end Cause

/-- Secondary information on an error. -/
structure Note where
  message : String
  span : Option Span := none
deriving DecidableEq, Repr

structure EvalError where
  cause : Cause
  span : Option Span := none
  notes : List Note := []
deriving DecidableEq, Repr

namespace EvalError

/-- An error without a place. -/
def of (cause : Cause) : EvalError := { cause }

/-- An error that a body raises with a message of its own. -/
def custom (message : String) : EvalError := of (.custom message)

def message (e : EvalError) : String := e.cause.message

/-- Locates an error that has no place yet. Errors travel outward and the innermost place is the
useful one; the dummy span is no place. -/
def locate (e : EvalError) (s : Span) : EvalError :=
  if e.span.isNone && !s.isDummy then { e with span := some s } else e

def addNote (e : EvalError) (n : Note) : EvalError := { e with notes := e.notes ++ [n] }

/-- The message with the place and one line for each note. -/
def text (e : EvalError) : String :=
  let place := match e.span with
    | some s => " at " ++ s.text
    | none => ""
  e.message ++ place ++ String.join (e.notes.map fun n => "\n  note: " ++ n.message)

end EvalError

end ArrayLang

import ArrayLang.Eval.Context
import ArrayLang.Eval.Progress
import ArrayLang.Eval.Selection

/-!
# Evaluation steps

Evaluation goes from right to left: in `L f R` the right argument comes first, then the function,
then the left argument, and the elements of a strand follow the same order. Every evaluation is
given the scope it takes place in. A closure call makes a child of the scope that was active where
the call was made, and runs the statements of the closure there, against the closure's own arena.

A statement of a closure whose condition is false is skipped. An assignment lets the next statement
run; any other statement gives the result. So a statement that is neither conditional nor an
assignment nor the last one could never let the others run, and is refused when it is reached.

`Eval.step` is the whole evaluator, one step for each kind of request.
-/

namespace ArrayLang.Eval

variable (c : Context)

/-! ### Reading the machine -/

/-- Which arena's expressions are being evaluated. -/
def currentArenaId : Eval ArenaId := fun m => .finished (.ok m.arena) m

def currentArena : Eval Arena := do
  found (c.arena? (← currentArenaId))

def expr (e : ExprId) : Eval Expr := do
  found ((← currentArena c).expr? e)

/-- The source text of something in the current arena. -/
def printed (print : Arena → Except TreeFault String) : Eval String := do
  found (print (← currentArena c)).toOption

def variableValue (x : Name) (scope : ScopeId) : Eval Value := fun m =>
  match m.scopes.lookup? scope x with
  | some v => .finished (.ok v) m
  | none => .finished (.error (.of (.undefinedVariable (c.names.lookup x)))) m

/-! ### Parts of expressions -/

/-- Evaluates a part that may be missing. -/
def evaluateOptional (e : Option ExprId) (scope : ScopeId) : Eval (Option Value) :=
  match e with
  | none => pure none
  | some e => some <$> evaluate e scope

/-- Evaluates expressions one after the other and puts their values in front of `behind`, so the
values come in the opposite order. -/
def evaluateOnto (scope : ScopeId) (behind : List Value) : List ExprId → Eval (List Value)
  | [] => pure behind
  | e :: es => do
    let v ← evaluate e scope
    evaluateOnto scope (v :: behind) es

/-- The elements of a strand, evaluated from right to left. -/
def strand (items : List ExprId) (scope : ScopeId) : Eval Value := do
  if items.isEmpty then pure .emptyArray
  else return .vector (← evaluateOnto scope [] items.reverse)

/-- Evaluates an expression that has to give a function. -/
def evaluateCallable (e : ExprId) (scope : ScopeId) : Eval Callable := do
  let v ← evaluate e scope
  match v.callable? with
  | some f => pure f
  | none => fail (.of (.notCallable v.kind))

/-- Evaluates the operands of an operator, the right one first. -/
def operands (left : ExprId) (right : Option ExprId) (scope : ScopeId) :
    Eval (Value × Option Value) := do
  let right ← evaluateOptional right scope
  let left ← evaluate left scope
  return (left, right)

def derive (operator : Name) (left : Value) (right : Option Value) : Except EvalError Derived :=
  c.registry.derive c.tower operator left right

/-! ### Assignments -/

def define (x : Name) (v : Value) (scope : ScopeId) : Eval Unit :=
  modify fun m => { m with scopes := m.scopes.define scope x v }

/-- Stores a value in the nearest scope that declares the name. -/
def store (x : Name) (v : Value) (scope : ScopeId) : Eval Unit := fun m =>
  match m.scopes.assign? scope x v with
  | some scopes => .finished (.ok ()) { m with scopes }
  | none => .finished (.error (.of (.undefinedVariable (c.names.lookup x)))) m

/-- The positions of `current` that a function expression selects. An operator application makes
its function as part of the selection. -/
def selected (function : ExprId) (left : Option Value) (current : Value) (scope : ScopeId) :
    Eval (Grid Int64) := do
  match (← expr c function).node with
  | .derived operator leftOperand rightOperand =>
    let (leftOperand, rightOperand) ← operands leftOperand rightOperand scope
    ofBody scope
      (Selection.derivedPositions c.tower (derive c operator leftOperand rightOperand) left current)
  | _ =>
    let f ← evaluateCallable function scope
    ofBody scope (Selection.positions c.tower (Body.apply f) left current)

/-- A selective assignment before anything is stored: the new value, the array that the target
held, and the positions that are to be replaced. -/
structure Replacement where
  value : Value
  current : Value
  positions : Grid Int64

/-- Evaluates all parts of `(left function target)←value`, the right side first. -/
def replacement (target : Name) (function : ExprId) (left : Option ExprId) (value : ExprId)
    (scope : ScopeId) : Eval Replacement := do
  let value ← evaluate value scope
  let left ← evaluateOptional left scope
  let current ← variableValue c target scope
  let positions ← selected c function left current scope
  return ⟨value, current, positions⟩

/-- Stores the array with its positions replaced; the value is that of the right side. -/
def replaceIn (target : Name) (scope : ScopeId) (r : Replacement) : Eval Value := do
  let updated ← ofExcept (Selection.replace r.current r.positions r.value)
  store c target updated scope
  return r.value

def selectiveAssign (target : Name) (function : ExprId) (left : Option ExprId) (value : ExprId)
    (scope : ScopeId) : Eval Value := do
  replaceIn c target scope (← replacement c target function left value scope)

/-! ### Expressions -/

/-- What a node gives in a scope. -/
def node (scope : ScopeId) : Node → Eval Value
  | .int n => pure (.int n)
  | .float x => pure (.float x)
  | .bool b => pure (.bool b)
  | .text s => pure (.text (c.names.lookup s))
  | .strand items => do
    let items ← found ((← currentArena c).strand? items)
    strand items scope
  | .variable x => variableValue c x scope
  | .primitive symbol => pure (.primitive symbol)
  | .closure body => return .closure ⟨← currentArenaId, body⟩
  | .derived operator left right => do
    let (left, right) ← operands left right scope
    let f ← ofExcept (derive c operator left right)
    return (Callable.derived f).toValue
  | .call function left right => do
    let right ← evaluate right scope
    let function ← evaluateCallable function scope
    let left ← evaluateOptional left scope
    call function left right scope
  | .assign target value => do
    let value ← evaluate value scope
    define target value scope
    return value
  | .selectiveAssign target function left value =>
    selectiveAssign c target function left value scope

/-! ### Closures -/

/-- Says which statement of which closure an error belongs to. -/
def statementNote (body : BodyRange) (index : Nat) : Eval Note := do
  let closure ← printed c fun a => a.printClosure c.names body
  return { message := "guard " ++ toString (index + 1) ++ " of " ++ closure }

/-- The error of a statement, with its place and the note on where it stands. -/
def failAt {α : Type} (cause : Cause) (e : ExprId) (body : BodyRange) (index : Nat) : Eval α := do
  let span := (← expr c e).span
  let note ← statementNote c body index
  fail (((EvalError.of cause).locate span).addNote note)

/-- The truth value of a value: a boolean, or a number that the tower takes for one. -/
def truth? : Value → Option Bool
  | .bool b => some b
  | .number n => c.tower.toBool? n
  | _ => none

def holds (condition : Option ExprId) (scope : ScopeId) (body : BodyRange) (index : Nat) :
    Eval Bool := do
  match condition with
  | none => pure true
  | some e =>
    let v ← evaluate e scope
    match truth? c v with
    | some b => pure b
    | none => failAt c (.guardType v.kind) e body index

/-- Refuses a statement that could never let the following ones run. -/
def refuseUnreachable {α : Type} (statement : ExprId) (body : BodyRange) (index : Nat) :
    Eval α := do
  let text ← printed c fun a => a.print c.names statement
  failAt c (.unreachableCode text) statement body index

/-- Runs the statements of a closure from the one at `index` on; `result` is the value of the last
assignment so far. -/
def statements (scope : ScopeId) (body : BodyRange) : (index : Nat) → (result : Value) →
    List Guard → Eval Value
  | _, result, [] => pure result
  | index, result, g :: rest => do
    let isAssignment := (← expr c g.body).node.isAssignment
    if g.condition.isNone && !rest.isEmpty && !isAssignment then
      refuseUnreachable c g.body body index
    else if ← holds c g.condition scope body index then
      let v ← evaluate g.body scope
      if isAssignment then statements scope body (index + 1) v rest else return v
    else statements scope body (index + 1) result rest

/-- A new scope for a closure called from `scope`, with the arguments in it. A missing left
argument is declared absent, so that the caller's one is not seen. -/
def argumentScope (left : Option Value) (right : Value) (scope : ScopeId) : Eval ScopeId := fun m =>
  let (inner, scopes) := m.scopes.child scope
  let scopes := match left with
    | some left => scopes.define inner .leftArgument left
    | none => scopes.defineAbsent inner .leftArgument
  .finished (.ok inner) { m with scopes := scopes.define inner .rightArgument right }

/-- Runs a closure body of the current arena. A closure without statements gives the empty array. -/
def runBody (body : BodyRange) (left : Option Value) (right : Value) (scope : ScopeId) :
    Eval Value := do
  if body.isEmpty then pure .emptyArray
  else
    let inner ← argumentScope left right scope
    let guards ← found ((← currentArena c).body? body)
    statements c inner body 0 .emptyArray guards

/-- Enters a closure: one frame more, and the closure's own arena. -/
def enter (f : Closure) : Eval Unit := fun ⟨arena, calls, scopes⟩ =>
  match calls.push ⟨f.body⟩ with
  | (.ok (), calls) => .finished (.ok ()) ⟨f.arena, calls, scopes⟩
  | (.error e, calls) => .finished (.error e) ⟨arena, calls, scopes⟩

/-- Calls a closure. However the call ends, it leaves its frame and goes back to the arena of the
caller. -/
def callClosure (f : Closure) (left : Option Value) (right : Value) (scope : ScopeId) :
    Eval Value := do
  let caller ← currentArenaId
  enter f
  (runBody c f.body left right scope).restoring fun m =>
    { m with arena := caller, calls := m.calls.pop }

/-- Calls a function from a scope. The calls that a primitive or an operator makes in turn come
from the same scope. -/
def callFunction (f : Callable) (left : Option Value) (right : Value) (scope : ScopeId) :
    Eval Value := do
  match f with
  | .primitive symbol =>
    let d ← ofExcept (c.registry.resolve c.tower symbol left right)
    ofBody scope (d.body c.tower d.left d.right)
  | .closure f => callClosure c f left right scope
  | .derived f =>
    let body ← found (c.registry.body? f.body)
    ofBody scope (body c.tower f.left f.right left right)

/-- One step of the evaluator. An error without a place gets that of the expression that was being
evaluated. -/
def step : Request → Eval Value
  | .evaluate e scope => do
    let x ← expr c e
    (node c scope x.node).locating x.span
  | .call f left right scope => callFunction c f left right scope

end ArrayLang.Eval

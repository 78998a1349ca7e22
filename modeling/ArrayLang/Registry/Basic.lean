import ArrayLang.Domain.Pair
import ArrayLang.Registry.Body
import ArrayLang.Source.Name

/-!
# The registry

Every primitive symbol has a list of handlers and every operator symbol a list of definitions, in
the order of their registration. The first whose domain accepts the arguments is the one that is
used, with the arguments as the domain converted them; a later registration only ever takes over
what all earlier ones rejected.

The lists stand in two dictionaries whose keys are the names of the symbols, and the interner that
gives these names is kept beside them. Operator bodies stand in a table of their own, because
derived functions refer to them.
-/

namespace ArrayLang

/-- A body for the pairs of arguments that a domain accepts. -/
structure PrimitiveHandler where
  domain : PairDomain
  body : PrimitiveBody

inductive Arity where
  /-- One operand, on the left. -/
  | monadic
  /-- An operand on either side. -/
  | dyadic
deriving DecidableEq, Repr

/-- A handler that was found for a call, with the converted arguments. -/
structure Dispatch where
  body : PrimitiveBody
  left : Option Value
  right : Value

/-- The call that the handler makes of the arguments, if it accepts them. -/
def PrimitiveHandler.dispatch? (h : PrimitiveHandler) (tower : Tower) (left : Option Value)
    (right : Value) : Option Dispatch :=
  (h.domain.convert? tower left right).map fun (left, right) => ⟨h.body, left, right⟩

/-- A body for the operands that a domain accepts. -/
structure OperatorDefinition where
  arity : Arity
  domain : PairDomain
  body : BodyId

/-- The function that the definition makes of the operands of an operator, if they are as many as it
takes and its domain accepts them. A single operand is the right side of the pair. -/
def OperatorDefinition.derive? (d : OperatorDefinition) (tower : Tower) (operator : Name)
    (left : Value) (right : Option Value) : Option Derived :=
  match d.arity, right with
  | .monadic, none =>
    (d.domain.convert? tower none left).map fun (_, left) => ⟨operator, d.body, left, none⟩
  | .dyadic, some right =>
    match d.domain.convert? tower (some left) right with
    | some (some left, right) => some ⟨operator, d.body, left, some right⟩
    | _ => none
  | _, _ => none

/-- The handlers and definitions of all symbols. -/
structure Registry where
  names : Interner
  primitives : Dictionary Name (List PrimitiveHandler)
  operators : Dictionary Name (List OperatorDefinition)
  bodies : Array OperatorBody

namespace Registry

def empty (names : Interner) : Registry := ⟨names, .empty, .empty, #[]⟩

/-- The name of a text, which is added if it is new. -/
def intern (r : Registry) (s : String) : Name × Registry :=
  let (name, names) := r.names.intern s
  (name, { r with names })

/-! ### Registration -/

/-- Adds a handler behind those that the symbol has. -/
def registerPrimitive (r : Registry) (symbol : String) (domain : PairDomain)
    (body : PrimitiveBody) : Name × Registry :=
  let (symbol, r) := r.intern symbol
  (symbol, { r with primitives := r.primitives.append symbol ⟨domain, body⟩ })

/-- Adds an operator body to which derived functions may refer. -/
def addBody (r : Registry) (body : OperatorBody) : BodyId × Registry :=
  (⟨r.bodies.size⟩, { r with bodies := r.bodies.push body })

/-- Adds a definition behind those that the symbol has. -/
def registerOperator (r : Registry) (symbol : String) (arity : Arity) (domain : PairDomain)
    (body : OperatorBody) : Name × Registry :=
  let (symbol, r) := r.intern symbol
  let (body, r) := r.addBody body
  (symbol, { r with operators := r.operators.append symbol ⟨arity, domain, body⟩ })

/-! ### Finding -/

/-- The handlers of a symbol in the order in which they are tried. -/
def handlersOf (r : Registry) (symbol : Name) : List PrimitiveHandler :=
  (r.primitives.find? symbol).getD []

/-- The definitions of an operator in the order in which they are tried. -/
def definitionsOf (r : Registry) (symbol : Name) : List OperatorDefinition :=
  (r.operators.find? symbol).getD []

/-- The handlers of all symbols. -/
def handlers (r : Registry) : List PrimitiveHandler := r.primitives.values.flatten

/-- The definitions of all symbols. -/
def definitions (r : Registry) : List OperatorDefinition := r.operators.values.flatten

def isPrimitive (r : Registry) (symbol : Name) : Bool := r.primitives.contains symbol

def isOperator (r : Registry) (symbol : Name) : Bool := r.operators.contains symbol

def body? (r : Registry) (b : BodyId) : Option OperatorBody := r.bodies[b.index]?

/-- The body that the first accepting handler of a symbol has for a pair of arguments. -/
def resolve (r : Registry) (tower : Tower) (symbol : Name) (left : Option Value) (right : Value) :
    Except EvalError Dispatch :=
  let text := r.names.lookup symbol
  match r.primitives.find? symbol with
  | none => .error (.of (.unknownPrimitive text))
  | some handlers =>
    match handlers.findSome? fun h => h.dispatch? tower left right with
    | some d => .ok d
    | none =>
      .error (.of (.noMatchingDomain text (left.map Value.kind) right.kind
        (handlers.map fun h => h.domain.text)))

/-- The function that the first accepting definition of an operator makes of the operands. -/
def derive (r : Registry) (tower : Tower) (symbol : Name) (left : Value) (right : Option Value) :
    Except EvalError Derived :=
  let text := r.names.lookup symbol
  match r.operators.find? symbol with
  | none => .error (.of (.unknownOperator text))
  | some definitions =>
    match definitions.findSome? fun d => d.derive? tower symbol left right with
    | some f => .ok f
    | none =>
      let tried := definitions.map fun d => d.domain.text
      .error (.of (match right with
        | none => .noMatchingDomain text none left.kind tried
        | some right => .noMatchingDomain text (some left.kind) right.kind tried))

/-! ### Reports -/

/-- The domains of a symbol, those of its handlers first, each in the order of registration. -/
def describe (r : Registry) (symbol : String) : List String :=
  match r.names.get? symbol with
  | none => []
  | some symbol =>
    (r.handlersOf symbol).map (fun h => h.domain.text) ++
      (r.definitionsOf symbol).map fun d => d.domain.text

/-- The texts of names in alphabetical order, each once. -/
def textsOf (r : Registry) (names : List Name) : List String :=
  dropRepeats (sortTexts (names.map r.names.lookup))

/-- The registered symbols in alphabetical order, each once. -/
def symbols (r : Registry) : List String := r.textsOf (r.primitives.keys ++ r.operators.keys)

/-! ### Without an interpreter -/

/-- The result of calling a function where there is no interpreter, with calls nested at most
`depth` levels deep. All that a derived function needs is the body that its operator gave it;
calling anything else is an error. -/
def callAlone (r : Registry) (tower : Tower) :
    (depth : Nat) → Callable → Option Value → Value → Option (Except EvalError Value)
  | 0, _, _, _ => none
  | depth + 1, .derived f, left, right => do
    let body ← r.body? f.body
    (body tower f.left f.right left right).answer (r.callAlone tower depth)
  | _ + 1, _, _, _ => some (.error (.custom "only derived functions here"))

/-- Deeper than any value is nested in practice. -/
def nesting : Nat := Nat.pow 2 62

/-- The result of a body whose calls can only reach derived functions. -/
def runAlone {α : Type} (r : Registry) (tower : Tower) (b : Body α) :
    Option (Except EvalError α) :=
  b.answer (r.callAlone tower nesting)

end Registry

end ArrayLang

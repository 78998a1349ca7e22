import ArrayLang.Files.MemoryTree
import ArrayLang.Files.MountTable
import ArrayLang.Library.Arguments

/-!
# Stock bodies and protocols

Plain bodies for trying out domains, operators and selections: they hand back what they were given,
fail, or rearrange cells. Each is named, and some carry a text or a value of their own. Two
protocols are there for trying out mounts by name.
-/

namespace ArrayLang.Library

inductive StockPrimitive where
  | left
  | right
  /-- All arguments there are. -/
  | args
  | tag (label : String)
  | fail (label : String)
  | const (v : Value)
  | same
  | multiply
  | catenate
  | reshape
  | pick
  /-- Calls the left argument on the right one. -/
  | call
  /-- What the tower makes of a number. -/
  | truth

namespace StockPrimitive

/-- The body of a name, with the text and the value that it may carry. -/
def ofName? (name label : String) (v : Value) : Option StockPrimitive :=
  match name with
  | "left" => some .left
  | "right" => some .right
  | "args" => some .args
  | "tag" => some (.tag label)
  | "fail" => some (.fail label)
  | "const" => some (.const v)
  | "same" => some .same
  | "mul" => some .multiply
  | "cat" => some .catenate
  | "reshape" => some .reshape
  | "pick" => some .pick
  | "call" => some .call
  | "tobool" => some .truth
  | _ => none

def product (left right : Value) : Except EvalError Value :=
  match left, right with
  | .number (.int a), .number (.int b) =>
    let p := a.toInt * b.toInt
    if (clampInt64 p).toInt = p then .ok (.int (clampInt64 p)) else .error (.custom "overflow")
  | _, _ => .error (.custom "expected integers")

def reshaped (shape : List Int64) (v : Value) : Except EvalError Value :=
  if shape.any (· < 0) then .error (.custom "negative dimension")
  else
    let shape := shape.map Int64.toNatClampNeg
    match v with
    | .indexes g => .indexes <$> Grid.ofShape shape g.cells
    | .strings g => .strings <$> Grid.ofShape shape g.cells
    | v => Value.arrayOfShape shape v.cellsOrSelf

/-- The cell at a position counted from one; zero stands for a cell that is not there. -/
def cellAt (cells : Array Value) (n : Int64) : Value :=
  if n < 1 then .int 0 else cells[n.toNatClampNeg - 1]?.getD (.int 0)

def truthOf (tower : Tower) : Value → Except EvalError Value
  | .number n =>
    match tower.toBool? n with
    | some b => .ok (.bool b)
    | none => .error (.custom (n.text ++ " is not a bool"))
  | _ => .error (.custom "expected a number")

def body (p : StockPrimitive) : PrimitiveBody := fun tower left right =>
  match p with
  | .left => .ofExcept (leftArgument left)
  | .right => pure right
  | .args => pure (.vector (left.toList ++ [right]))
  | .tag label => pure (.text label)
  | .fail label => .failWith label
  | .const v => pure v
  | .same => .ofExcept do return .bool ((← leftArgument left).equal right)
  | .multiply => .ofExcept do product (← leftArgument left) right
  | .catenate => .ofExcept do
    return .vector ((← leftArgument left).cellsOrSelf ++ right.cellsOrSelf)
  | .reshape => .ofExcept do reshaped (← indexes (← leftArgument left)) right
  | .pick => .ofExcept do
    let cells := right.cellsOrSelf.toArray
    return .vector ((← indexes (← leftArgument left)).map (cellAt cells))
  | .call => do
    let f ← .ofExcept (leftArgument left >>= callable)
    .apply f none right
  | .truth => .ofExcept (truthOf tower right)

end StockPrimitive

inductive StockOperator where
  | right
  /-- All operands and arguments there are. -/
  | args
  | tag (label : String)
  | fail (label : String)
  | const (v : Value)
  /-- The left operand as it is. -/
  | apply
  /-- The left operand behind the right one. -/
  | compose
  /-- The left operand with its arguments exchanged. -/
  | commute
  /-- The left operand as often as the right one says. -/
  | power

namespace StockOperator

/-- The body of a name, with the text and the value that it may carry. -/
def ofName? (name label : String) (v : Value) : Option StockOperator :=
  match name with
  | "right" => some .right
  | "args" => some .args
  | "tag" => some (.tag label)
  | "fail" => some (.fail label)
  | "const" => some (.const v)
  | "apply" => some .apply
  | "compose" => some .compose
  | "commute" => some .commute
  | "power" => some .power
  | _ => none

/-- Calls the operand `n` times, each time on the result so far. -/
def iterate (operand : Value) (left : Option Value) : Nat → Value → Body Value
  | 0, result => pure result
  | n + 1, result => do
    let f ← .ofExcept (callable operand)
    let next ← Body.apply f left result
    iterate operand left n next

def body (o : StockOperator) : OperatorBody := fun _ leftOperand rightOperand? left right =>
  match o with
  | .right => pure right
  | .args => pure (.vector (leftOperand :: rightOperand?.toList ++ left.toList ++ [right]))
  | .tag label => pure (.text label)
  | .fail label => .failWith label
  | .const v => pure v
  | .apply => do
    let f ← .ofExcept (callable leftOperand)
    .apply f left right
  | .compose => do
    let g ← .ofExcept (rightOperand rightOperand? >>= callable)
    let inner ← Body.apply g none right
    let f ← .ofExcept (callable leftOperand)
    .apply f left inner
  | .commute => do
    let f ← .ofExcept (callable leftOperand)
    .apply f (some right) (left.getD right)
  | .power => do
    let times ← .ofExcept (rightOperand rightOperand? >>= indexes)
    iterate leftOperand left (times.headD 0).toNatClampNeg right

end StockOperator

/-! ### Protocols -/

/-- One file `/arg` that holds the argument. -/
def fixedProtocol : Protocol := fun argument =>
  .ok (MemoryTree.empty.insert "/arg" argument.toUTF8).provider

/-- Finds nothing, whatever the argument. -/
def brokenProtocol : Protocol := fun argument => .error (.notFound argument)

end ArrayLang.Library

import ArrayLang.Source.Arena
import ArrayLang.Value.Grid

/-!
# Values

What expressions evaluate to: scalars, arrays and functions. Values never change; an operation on
one builds another.

A closure is named by its arena and its statements, and a derived function by its operator, its
operands and the body that the operator's definition gave it, so that values hold no code. Which
body a number stands for is the registry's business.
-/

namespace ArrayLang

/-- Which arena a handle belongs to. -/
structure ArenaId where
  index : Nat
deriving DecidableEq, Repr

/-- Which operator body a derived function runs. -/
structure BodyId where
  index : Nat
deriving DecidableEq, Repr

/-- A closure: its statements and the arena they live in, whichever arena calls it. -/
structure Closure where
  arena : ArenaId
  body : BodyRange
deriving DecidableEq, Repr

inductive Value where
  | bool (b : Bool)
  | number (n : Number)
  | text (s : String)
  | array (shape : Shape) (cells : List Value)
  | strings (g : Grid String)
  | indexes (g : Grid Int64)
  /-- What closures without a result give. -/
  | emptyArray
  /-- A function that the registry knows by its symbol. -/
  | primitive (symbol : Name)
  | closure (c : Closure)
  /-- An operator applied to its operands. -/
  | derived (operator : Name) (body : BodyId) (left : Value) (right : Option Value)

/-- A function that an operator made. -/
structure Derived where
  operator : Name
  body : BodyId
  left : Value
  right : Option Value

inductive Callable where
  | primitive (symbol : Name)
  | closure (c : Closure)
  | derived (d : Derived)

def Callable.toValue : Callable → Value
  | .primitive symbol => .primitive symbol
  | .closure c => .closure c
  | .derived d => .derived d.operator d.body d.left d.right

namespace Value

def int (n : Int64) : Value := .number (.int n)

def float (x : Binary64) : Value := .number (.float x)

def vector (cells : List Value) : Value := .array [cells.length] cells

/-- An array in a given shape, which has to fit. -/
def arrayOfShape (s : Shape) (cells : List Value) : Except EvalError Value := do
  checkShape s cells.length
  return .array s cells

/-- Induction on values, with the cells of an array and the operands of a derived function for
parts. -/
@[elab_as_elim]
theorem ind {P : Value → Prop} (bool : ∀ b, P (.bool b)) (number : ∀ n, P (.number n))
    (text : ∀ s, P (.text s)) (array : ∀ s cells, (∀ v ∈ cells, P v) → P (.array s cells))
    (strings : ∀ g, P (.strings g)) (indexes : ∀ g, P (.indexes g)) (emptyArray : P .emptyArray)
    (primitive : ∀ symbol, P (.primitive symbol)) (closure : ∀ f, P (.closure f))
    (derived : ∀ operator body left right, P left → (∀ v ∈ right, P v) →
      P (.derived operator body left right)) (v : Value) : P v := by
  refine Value.rec (motive_1 := P) (motive_2 := fun cells => ∀ v ∈ cells, P v)
    (motive_3 := fun right => ∀ v ∈ right, P v) bool number text array strings indexes emptyArray
    primitive closure derived ?_ ?_ ?_ ?_ v
  · intro v hv
    cases hv
  · intro v vs hv hvs w hw
    rcases List.mem_cons.mp hw with rfl | hw
    · exact hv
    · exact hvs w hw
  · intro v hv
    cases hv
  · intro v hv w hw
    cases hw
    exact hv

/-! ### Views -/

def kind : Value → Kind
  | .bool _ => .bool
  | .number (.int _) => .int
  | .number (.float _) => .float
  | .text _ => .text
  | .array .. => .array
  | .strings _ => .stringArray
  | .indexes _ => .indexArray
  | .emptyArray => .emptyArray
  | .primitive _ => .primitive
  | .closure _ => .closure
  | .derived .. => .derived

def isArray : Value → Bool
  | .array .. | .strings _ | .indexes _ | .emptyArray => true
  | _ => false

/-- The shape of an array; scalars and functions have none. -/
def shape? : Value → Option Shape
  | .array s _ => some s
  | .strings g => some g.shape
  | .indexes g => some g.shape
  | .emptyArray => some [0]
  | _ => none

/-- The cells of an array as values of their own. -/
def cells? : Value → Option (List Value)
  | .array _ cells => some cells
  | .strings g => some (g.cells.map .text)
  | .indexes g => some (g.cells.map .int)
  | .emptyArray => some []
  | _ => none

/-- The cells of an array; anything else counts as its own single cell. -/
def cellsOrSelf (v : Value) : List Value := v.cells?.getD [v]

def text? : Value → Option String
  | .text s => some s
  | _ => none

def number? : Value → Option Number
  | .number n => some n
  | _ => none

def callable? : Value → Option Callable
  | .primitive symbol => some (.primitive symbol)
  | .closure c => some (.closure c)
  | .derived operator body left right => some (.derived ⟨operator, body, left, right⟩)
  | _ => none

/-! ### Equality -/

mutual

/-- Equality of values: kind by kind and cell by cell. Doubles compare as numbers, so a value that
holds a NaN differs from itself; closures are equal when they are the same place of the same
arena. -/
def equal : Value → Value → Bool
  | .bool a, .bool b => a == b
  | .number a, .number b => a.equal b
  | .text a, .text b => a == b
  | .array s a, .array t b => s == t && equalCells a b
  | .strings a, .strings b => a == b
  | .indexes a, .indexes b => a == b
  | .emptyArray, .emptyArray => true
  | .primitive a, .primitive b => a == b
  | .closure a, .closure b => a == b
  | .derived o i l none, .derived p j m none => o == p && i == j && equal l m
  | .derived o i l (some r), .derived p j m (some s) =>
    o == p && i == j && equal l m && equal r s
  | _, _ => false

def equalCells : List Value → List Value → Bool
  | [], [] => true
  | a :: as, b :: bs => equal a b && equalCells as bs
  | _, _ => false

end

/-! ### The shape invariant -/

mutual

/-- Every array in the value has as many cells as its shape asks for. -/
def WellShaped : Value → Prop
  | .array s cells => s.size = cells.length ∧ WellShapedCells cells
  | .strings g => g.Fits
  | .indexes g => g.Fits
  | .derived _ _ left none => WellShaped left
  | .derived _ _ left (some right) => WellShaped left ∧ WellShaped right
  | _ => True

def WellShapedCells : List Value → Prop
  | [] => True
  | v :: vs => WellShaped v ∧ WellShapedCells vs

end

end Value

end ArrayLang

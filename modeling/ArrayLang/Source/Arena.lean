import ArrayLang.Number.Basic
import ArrayLang.Source.Name
import ArrayLang.Source.Span

/-!
# Arenas

The expressions of one source live in an arena: a table of nodes that refer to each other by
position, and two side tables for the parts of which there may be many, the elements of strands
and the statements of closure bodies. Handles are bare positions and ranges, so reading one may
fail; a handle that the arena itself gave out never does, and what it names never changes.
-/

namespace ArrayLang

/-- Position of a node in its arena. -/
structure ExprId where
  index : Nat
deriving DecidableEq, Repr

/-- The elements of a strand, as a range of the arena's element table. -/
structure StrandRange where
  start : Nat
  length : Nat
deriving DecidableEq, Repr

/-- The statements of a closure body, as a range of the arena's statement table. -/
structure BodyRange where
  start : Nat
  length : Nat
deriving DecidableEq, Repr

namespace BodyRange

def isEmpty (r : BodyRange) : Bool := r.length == 0

end BodyRange

/-- What an expression says. Functions are expressions like others: a symbol, a closure, an
operator applied to operands, or anything that evaluates to a function. -/
inductive Node where
  | int (n : Int64)
  | float (x : Binary64)
  | bool (b : Bool)
  | text (s : Name)
  /-- Juxtaposed expressions, `1 2 3`. -/
  | strand (items : StrandRange)
  | variable (name : Name)
  | primitive (symbol : Name)
  /-- A closure literal, `{…}`. -/
  | closure (body : BodyRange)
  /-- An operator with its operands, `+/` or `f∘g`. -/
  | derived (operator : Name) (left : ExprId) (right : Option ExprId)
  /-- A call with one or two arguments. -/
  | call (function : ExprId) (left : Option ExprId) (right : ExprId)
  /-- `target←value`. -/
  | assign (target : Name) (value : ExprId)
  /-- `(left function target)←value`. -/
  | selectiveAssign (target : Name) (function : ExprId) (left : Option ExprId) (value : ExprId)
deriving DecidableEq, Repr

namespace Node

/-- Whether the node assigns. Such a statement of a closure body lets the next one run. -/
def isAssignment : Node → Bool
  | .assign .. | .selectiveAssign .. => true
  | _ => false

end Node

/-- A node and the place it was read from. -/
structure Expr where
  node : Node
  span : Span
deriving DecidableEq, Repr

/-- One statement of a closure body: `condition:body` or `body`. -/
structure Guard where
  condition : Option ExprId
  body : ExprId
deriving DecidableEq, Repr

/-- The expressions of one source. -/
structure Arena where
  exprs : Array Expr
  items : Array ExprId
  guards : Array Guard
deriving DecidableEq, Repr

namespace Arena

def empty : Arena := ⟨#[], #[], #[]⟩

/-- Number of expressions. -/
def size (a : Arena) : Nat := a.exprs.size

/-! ### Allocation -/

def addExpr (a : Arena) (e : Expr) : ExprId × Arena :=
  (⟨a.exprs.size⟩, { a with exprs := a.exprs.push e })

def addStrand (a : Arena) (es : List ExprId) : StrandRange × Arena :=
  (⟨a.items.size, es.length⟩, { a with items := a.items ++ es })

def addBody (a : Arena) (gs : List Guard) : BodyRange × Arena :=
  (⟨a.guards.size, gs.length⟩, { a with guards := a.guards ++ gs })

/-! ### Reading -/

/-- The expression at a position, if the arena has one there. -/
def expr? (a : Arena) (e : ExprId) : Option Expr := a.exprs[e.index]?

/-- A range that ends within the table, as a list; an empty range has to start within it too. -/
def slice? {α : Type} (table : Array α) (start length : Nat) : Option (List α) :=
  if start + length ≤ table.size then some (table.extract start (start + length)).toList else none

def strand? (a : Arena) (r : StrandRange) : Option (List ExprId) := slice? a.items r.start r.length

def body? (a : Arena) (r : BodyRange) : Option (List Guard) := slice? a.guards r.start r.length

end Arena

end ArrayLang

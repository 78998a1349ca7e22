import ArrayLang.Source.Arena

/-!
# Source trees

A `Tree` is an expression on its own, with its parts in place of handles and its names in place of
positions. Reading one out of an arena fails where a handle leads nowhere; printing is then a
total function of the tree.

The text follows the notation of the language: high minus on numbers below zero, texts in single
quotes with inner quotes doubled, `⋄` between statements. Calls, assignments and strands are put
into parentheses where an operand is expected, which is tighter than a call.
-/

namespace ArrayLang

/-- An expression with all its parts. A closure is the list of its statements, each with its
condition if it has one. -/
inductive Tree where
  | number (n : Number)
  | bool (b : Bool)
  | text (s : String)
  | strand (items : List Tree)
  | variable (name : String)
  | primitive (symbol : String)
  | closure (statements : List (Option Tree × Tree))
  | derived (operator : String) (left : Tree) (right : Option Tree)
  | call (function : Tree) (left : Option Tree) (right : Tree)
  | assign (target : String) (value : Tree)
  | selectiveAssign (target : String) (function : Tree) (left : Option Tree) (value : Tree)

/-! ### Printing -/

/-- An integer literal, which is written as the value is. -/
def integerLiteral (n : Int64) : String :=
  if n < 0 then "¯" ++ toString n.toInt.natAbs else toString n.toInt

def floatLiteral (x : Binary64) : String :=
  if x.isNegative then "¯" ++ x.abs.text else x.text

/-- A text literal: a quote inside is written twice. -/
def quote (s : String) : String :=
  "'" ++ String.ofList (s.toList.flatMap fun c => if c = '\'' then ['\'', '\''] else [c]) ++ "'"

namespace Tree

/-- Whether the tree needs parentheses as an operand. -/
def isLoose : Tree → Bool
  | .call .. | .assign .. | .selectiveAssign .. | .strand _ => true
  | _ => false

/-- Parentheses around the text of a loose tree. -/
def asOperand (t : Tree) (text : String) : String :=
  if t.isLoose then "(" ++ text ++ ")" else text

mutual

/-- The source text of a tree. -/
def print : Tree → String
  | .number (.int n) => integerLiteral n
  | .number (.float x) => floatLiteral x
  | .bool b => if b then "1" else "0"
  | .text s => quote s
  | .strand items => " ".intercalate (printItems items)
  | .variable name => name
  | .primitive symbol => symbol
  | .closure statements => "\x7b" ++ "⋄".intercalate (printStatements statements) ++ "\x7d"
  | .derived operator left none => asOperand left (print left) ++ operator
  | .derived operator left (some right) =>
    asOperand left (print left) ++ operator ++ asOperand right (print right)
  | .call function none right => print function ++ " " ++ print right
  | .call function (some left) right =>
    asOperand left (print left) ++ " " ++ print function ++ " " ++ print right
  | .assign target value => target ++ "←" ++ print value
  | .selectiveAssign target function none value =>
    "(" ++ print function ++ " " ++ target ++ ")←" ++ print value
  | .selectiveAssign target function (some left) value =>
    "(" ++ asOperand left (print left) ++ " " ++ print function ++ " " ++ target ++ ")←" ++
      print value

/-- The elements of a strand. -/
def printItems : List Tree → List String
  | [] => []
  | t :: ts => asOperand t (print t) :: printItems ts

/-- The statements of a closure. -/
def printStatements : List (Option Tree × Tree) → List String
  | [] => []
  | s :: ss => printStatement s :: printStatements ss

/-- A statement with its condition in front. -/
def printStatement : Option Tree × Tree → String
  | (none, body) => print body
  | (some condition, body) => print condition ++ ":" ++ print body

end

/-- Numbers are printed as they are rendered. -/
theorem print_number (n : Number) : print (.number n) = n.text := by
  cases n with
  | int n => rw [print, integerLiteral, Number.text]
  | float x => rw [print, floatLiteral, Number.text]

theorem printItems_eq_map (items : List Tree) :
    printItems items = items.map fun t => asOperand t (print t) := by
  induction items with
  | nil => rfl
  | cons t ts ih => rw [printItems, ih, List.map_cons]

end Tree

/-! ### Reading trees out of an arena -/

/-- Why no tree could be read. -/
inductive TreeFault where
  /-- A handle outside of its table. -/
  | dangling
  /-- An expression that contains itself. -/
  | cyclic
deriving DecidableEq, Repr

namespace Arena

/-- The result of a reading step, or a dangling handle. -/
def found {α : Type} : Option α → Except TreeFault α
  | some a => .ok a
  | none => .error .dangling

/-- The tree at a position, at most `depth` levels deep. -/
def treeWithin (a : Arena) (names : Interner) : (depth : Nat) → ExprId → Except TreeFault Tree
  | 0, _ => .error .cyclic
  | depth + 1, e => do
    let part := a.treeWithin names depth
    let optional : Option ExprId → Except TreeFault (Option Tree)
      | none => pure none
      | some e => some <$> part e
    match (← found (a.expr? e)).node with
    | .int n => pure (.number (.int n))
    | .float x => pure (.number (.float x))
    | .bool b => pure (.bool b)
    | .text s => pure (.text (names.lookup s))
    | .strand items => return .strand (← (← found (a.strand? items)).mapM part)
    | .variable name => pure (.variable (names.lookup name))
    | .primitive symbol => pure (.primitive (names.lookup symbol))
    | .closure body =>
      return .closure (← (← found (a.body? body)).mapM fun g =>
        return (← optional g.condition, ← part g.body))
    | .derived operator left right =>
      return .derived (names.lookup operator) (← part left) (← optional right)
    | .call function left right =>
      return .call (← part function) (← optional left) (← part right)
    | .assign target value => return .assign (names.lookup target) (← part value)
    | .selectiveAssign target function left value =>
      return .selectiveAssign (names.lookup target) (← part function) (← optional left)
        (← part value)

/-- The tree at a position. Without cycles no tree is deeper than its arena has expressions. -/
def tree (a : Arena) (names : Interner) (e : ExprId) : Except TreeFault Tree :=
  a.treeWithin names (a.size + 1) e

/-- The closure whose statements stand in a range. -/
def closureTree (a : Arena) (names : Interner) (r : BodyRange) : Except TreeFault Tree := do
  let statements ← (← found (a.body? r)).mapM fun g => do
    let condition ← match g.condition with
      | none => pure none
      | some e => some <$> a.tree names e
    return (condition, ← a.tree names g.body)
  return .closure statements

/-- The source text of an expression. -/
def print (a : Arena) (names : Interner) (e : ExprId) : Except TreeFault String :=
  Tree.print <$> a.tree names e

/-- The source text of a closure, braces included. -/
def printClosure (a : Arena) (names : Interner) (r : BodyRange) : Except TreeFault String :=
  Tree.print <$> a.closureTree names r

end Arena

end ArrayLang

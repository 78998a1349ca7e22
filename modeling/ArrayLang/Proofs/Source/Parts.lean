import ArrayLang.Source.Arena

/-!
# Parts of expressions

The parts of a node are the expressions that are evaluated along with it, in its own scope. A
closure literal has none: its statements are evaluated in another scope, once the closure is called.
What an expression encloses are its parts, their parts, and so on, and so it never reaches into a
closure body.
-/

namespace ArrayLang

namespace Arena

/-- The expressions that a node is evaluated from. -/
def parts (a : Arena) : Node → List ExprId
  | .strand items => (a.strand? items).getD []
  | .derived _ left right => left :: right.toList
  | .call function left right => function :: right :: left.toList
  | .assign _ value => [value]
  | .selectiveAssign _ function left value => function :: value :: left.toList
  | .int _ | .float _ | .bool _ | .text _ | .variable _ | .primitive _ | .closure _ => []

/-- `e'` is `e` or stands in it, outside of all closure bodies. -/
inductive Encloses (a : Arena) (e : ExprId) : ExprId → Prop
  | self : Encloses a e e
  | part {e' e'' : ExprId} {x : Expr} (h : Encloses a e e') (hx : a.expr? e' = some x)
      (hpart : e'' ∈ a.parts x.node) : Encloses a e e''

variable {a : Arena} {e e' e'' : ExprId}

/-- Parts of parts are enclosed. -/
theorem Encloses.trans (h : a.Encloses e e') (h' : a.Encloses e' e'') : a.Encloses e e'' := by
  induction h' with
  | self => exact h
  | part _ hx hpart ih => exact ih.part hx hpart

end Arena

/-- The expressions of a statement. -/
def Guard.exprs (g : Guard) : List ExprId := g.body :: g.condition.toList

end ArrayLang

import ArrayLang.Value.Basic
import ArrayLang.Value.Layout

/-!
# Text of values

Scalars have their own text, arrays are laid out by shape with inner arrays in parentheses, and
functions are written as their source. A `Glossary` supplies what values only point to: the text
of a name and the source of a closure.
-/

namespace ArrayLang

/-- How the parts of a value that live elsewhere are written. -/
structure Glossary where
  name : Name → String
  closure : Closure → String

namespace Value

/-- The text of a cell of an array, given its text as a value. -/
def asCell (v : Value) (text : String) : String :=
  if v.isArray then "(" ++ text ++ ")" else text

mutual

/-- The text of a value. -/
def render (g : Glossary) : Value → String
  | .bool b => if b then "1" else "0"
  | .number n => n.text
  | .text s => s
  | .array s cells => Layout.layout s (renderCells g cells)
  | .strings a => Layout.layout a.shape a.cells
  | .indexes a => Layout.layout a.shape (a.cells.map fun i => (Number.int i).text)
  | .emptyArray => ""
  | .primitive symbol => g.name symbol
  | .closure c => g.closure c
  | .derived operator _ left none => render g left ++ g.name operator
  | .derived operator _ left (some right) => render g left ++ g.name operator ++ render g right

/-- The texts of the cells of an array. -/
def renderCells (g : Glossary) : List Value → List String
  | [] => []
  | v :: vs => asCell v (render g v) :: renderCells g vs

end

theorem renderCells_eq_map (g : Glossary) (cells : List Value) :
    renderCells g cells = cells.map fun v => asCell v (render g v) := by
  induction cells with
  | nil => rfl
  | cons v vs ih => rw [renderCells, ih, List.map_cons]

end Value

end ArrayLang

import ArrayLang.Domain.Basic
import ArrayLang.Registry.Body

/-!
# Selections

`(L f X)←V` replaces the elements of `X` that `L f X` would select. To find them, `f` is applied to
the numbers from one up in the shape of `X`, and whatever comes back names the positions. Fill
elements come back as zero; counted from zero they are negative, and such a position takes its
value without effect.

* `Selection.positions` finds the positions as a body that calls `f`.
* `Selection.replace` puts values into these positions of an array.
-/

namespace ArrayLang.Selection

/-- The positions, counted from zero, that a function selects in an array. It is called on the
numbers of the cells, and for these there is room: they take no more of it than the cells do, which
are there already. -/
def positions (tower : Tower) (select : Option Value → Value → Body Value) (left : Option Value)
    (target : Value) : Body (Grid Int64) := do
  match target.shape? with
  | none => .fail (.of (.notAnArray target.kind))
  | some shape =>
    let selected ← select left (.indexes (.iota shape))
    match (Domain.leaf .toIndexArray none).convert? tower selected with
    | some (.indexes g) => return g.offset (-1)
    | _ => .fail (.of (.conversion selected.kind "index array"))

/-- The positions that a derived function selects, which is made first. -/
def derivedPositions (tower : Tower) (derive : Except EvalError Derived) (left : Option Value)
    (target : Value) : Body (Grid Int64) := do
  let f ← .ofExcept derive
  positions tower (fun left right => .apply (.derived f) left right) left target

/-- The values to put in, one for each of `count` positions: the cells of an array, which must be
as many, or anything else again and again. -/
def replacements (count : Nat) (values : Value) : Except EvalError (List Value) :=
  match values.cells? with
  | some cells =>
    if cells.length = count then .ok cells
    else .error (.of (.lengthMismatch count cells.length))
  | none => .ok (List.replicate count values)

/-- Puts each value into its position. Negative positions are passed over. -/
def place (cells : Array Value) : List (Int64 × Value) → Except EvalError (Array Value)
  | [] => .ok cells
  | (i, v) :: rest =>
    if i < 0 then place cells rest
    else if h : i.toNatClampNeg < cells.size then place (cells.set i.toNatClampNeg v h) rest
    else .error (.of (.indexOutOfBounds i cells.size))

/-- The integer in a cell that holds one. -/
def cellInt? : Value → Option Int64
  | .number (.int i) => some i
  | _ => none

/-- An array of the kind of `like` if all cells still fit that kind, and a general one if not. -/
def rebuild (like : Value) (shape : Shape) (cells : List Value) : Except EvalError Value :=
  match like with
  | .emptyArray => if cells.isEmpty then .ok .emptyArray else Value.arrayOfShape shape cells
  | .strings _ =>
    match cells.mapM Value.text? with
    | some texts => .strings <$> Grid.ofShape shape texts
    | none => Value.arrayOfShape shape cells
  | .indexes _ =>
    match cells.mapM cellInt? with
    | some ints => .indexes <$> Grid.ofShape shape ints
    | none => Value.arrayOfShape shape cells
  | _ => Value.arrayOfShape shape cells

/-- The array with `values` in the given positions. -/
def replace (target : Value) (positions : Grid Int64) (values : Value) :
    Except EvalError Value := do
  match target.shape? with
  | none => .error (.of (.notAnArray target.kind))
  | some shape =>
    let values ← replacements positions.size values
    let cells ← place (target.cells?.getD []).toArray (positions.cells.zip values)
    rebuild target shape cells.toList

end ArrayLang.Selection

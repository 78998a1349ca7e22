import ArrayLang.Value.Grid

/-!
# Layout of cells

A vector is one line with a space between two cells, a matrix one line for each row, and an array
of higher rank its matrices with a blank line between two.
-/

namespace ArrayLang.Layout

/-- The list cut into pieces of `n`; the last one may be shorter. -/
def chunks {α : Type} (n : Nat) (l : List α) : List (List α) :=
  go l.length l
where
  /-- At most `fuel` pieces; the length of the list is enough. -/
  go : (fuel : Nat) → List α → List (List α)
    | 0, _ => []
    | _ + 1, [] => []
    | fuel + 1, a :: as => (a :: as).take n :: go fuel ((a :: as).drop n)

def line (cells : List String) : String := " ".intercalate cells

/-- Lines of `columns` cells each. -/
def plane (columns : Nat) (cells : List String) : String :=
  "\n".intercalate ((chunks columns cells).map line)

/-- Cells laid out by a shape. An array without rows or columns has no text. -/
def layout (s : Shape) (cells : List String) : String :=
  match s.reverse with
  | columns :: rows :: _ =>
    if columns == 0 || rows == 0 then ""
    else "\n\n".intercalate ((chunks (rows * columns) cells).map (plane columns))
  | _ => line cells

end ArrayLang.Layout

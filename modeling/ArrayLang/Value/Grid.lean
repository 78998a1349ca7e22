import ArrayLang.EvalError
import ArrayLang.Number.Basic

/-!
# Grids

A grid is a shape together with its cells in row-major order. Grids that are built through
`ofShape`, `vector` and `iota` have as many cells as their shape asks for, which `Grid.Fits` states.

That is a predicate, and no field of the grid, for the sake of arrays of values: their cells are of
the type that is being defined, and a constructor cannot hold a proof about the length of such a
list. So all kinds of arrays have the one invariant `Value.WellShaped`, and that evaluation keeps it
is a theorem about the evaluator.
-/

namespace ArrayLang

/-- The lengths of an array along its axes. -/
abbrev Shape := List Nat

/-- Number of cells of an array; an array without axes has one. -/
def Shape.size (s : Shape) : Nat := s.foldr (· * ·) 1

/-- The cells are as many as the shape asks for. -/
def checkShape (s : Shape) (length : Nat) : Except EvalError Unit :=
  if s.size = length then .ok () else .error (.of (.shapeMismatch s length))

/-- Cells laid out by a shape. -/
structure Grid (α : Type) where
  shape : Shape
  cells : List α
deriving DecidableEq, Repr

namespace Grid

variable {α : Type}

/-- There are as many cells as the shape asks for. Sizes are not bounded here. If no axis is empty,
each product of lengths on the way to the size is at most the number of cells, and these are all
there in memory, so machine words hold them. -/
def Fits (g : Grid α) : Prop := g.shape.size = g.cells.length

def vector (cells : List α) : Grid α := ⟨[cells.length], cells⟩

/-- Cells in a given shape, which has to fit. -/
def ofShape (s : Shape) (cells : List α) : Except EvalError (Grid α) := do
  checkShape s cells.length
  return ⟨s, cells⟩

def size (g : Grid α) : Nat := g.cells.length

/-- The numbers from one up, in a given shape. Whoever asks for them sees to it that there is room
for so many. -/
def iota (s : Shape) : Grid Int64 :=
  ⟨s, (List.range s.size).map fun (i : Nat) => clampInt64 (i + 1 : Nat)⟩

/-- Every number shifted by `delta`, as far as the integer words reach. -/
def offset (g : Grid Int64) (delta : Int64) : Grid Int64 :=
  { g with cells := g.cells.map fun i => clampInt64 (i.toInt + delta.toInt) }

/-! ### Grids that fit -/

theorem fits_vector (cells : List α) : (vector cells).Fits := List.prod_singleton

theorem fits_iota (s : Shape) : (iota s).Fits := by simp [Fits, iota]

theorem Fits.offset {g : Grid Int64} (h : g.Fits) (delta : Int64) : (g.offset delta).Fits := by
  simpa [Fits, Grid.offset] using h

end Grid

end ArrayLang

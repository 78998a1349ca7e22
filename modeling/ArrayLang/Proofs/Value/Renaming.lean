import ArrayLang.Value.Text

/-!
# Renaming arenas in values

A closure names its arena, and a renaming of arenas carries over to all closures in a value, at any
depth. Nothing but the text of a closure depends on its arena: the kind of a value, its shape, and
its numbers and texts are the same before and after.
-/

namespace ArrayLang

variable {ρ : ArenaId → ArenaId}

/-! ## Renaming -/

/-- The same statements in another arena. -/
def Closure.rename (ρ : ArenaId → ArenaId) (f : Closure) : Closure := { f with arena := ρ f.arena }

namespace Value

mutual

/-- The value with every arena that a closure in it names renamed. -/
def rename (ρ : ArenaId → ArenaId) : Value → Value
  | .array s cells => .array s (renameCells ρ cells)
  | .closure f => .closure (f.rename ρ)
  | .derived operator body left right =>
    .derived operator body (rename ρ left) (renameOptional ρ right)
  | v => v

def renameCells (ρ : ArenaId → ArenaId) : List Value → List Value
  | [] => []
  | v :: vs => rename ρ v :: renameCells ρ vs

def renameOptional (ρ : ArenaId → ArenaId) : Option Value → Option Value
  | none => none
  | some v => some (rename ρ v)

end

theorem renameCells_eq_map (cells : List Value) : renameCells ρ cells = cells.map (rename ρ) := by
  induction cells with
  | nil => rfl
  | cons v vs ih =>
      rw [renameCells, ih]
      rfl

@[simp] theorem rename_array (s : Shape) (cells : List Value) :
    (array s cells).rename ρ = .array s (cells.map (rename ρ)) := by
  rw [rename, renameCells_eq_map]

@[simp] theorem rename_vector (cells : List Value) :
    (vector cells).rename ρ = vector (cells.map (rename ρ)) := by
  simp [vector]

theorem renameOptional_eq_map (v : Option Value) : renameOptional ρ v = v.map (rename ρ) := by
  cases v <;> rfl

@[simp] theorem rename_derived (operator : Name) (body : BodyId) (left : Value)
    (right : Option Value) :
    (derived operator body left right).rename ρ =
      .derived operator body (left.rename ρ) (right.map (rename ρ)) := by
  rw [rename, renameOptional_eq_map]

end Value

/-! ## Functions -/

def Derived.rename (ρ : ArenaId → ArenaId) (d : Derived) : Derived :=
  { d with left := d.left.rename ρ, right := d.right.map (Value.rename ρ) }

def Callable.rename (ρ : ArenaId → ArenaId) : Callable → Callable
  | .primitive symbol => .primitive symbol
  | .closure f => .closure (f.rename ρ)
  | .derived d => .derived (d.rename ρ)

/-- A function is renamed as the value that it is. -/
@[simp] theorem Callable.toValue_rename (f : Callable) :
    (f.rename ρ).toValue = f.toValue.rename ρ := by
  cases f with
  | primitive symbol => rfl
  | closure f => rfl
  | derived d => exact (Value.rename_derived ..).symm

/-! ## Views -/

namespace Value

variable (v : Value)

@[simp] theorem kind_rename : (v.rename ρ).kind = v.kind := by
  cases v <;> rfl

@[simp] theorem isArray_rename : (v.rename ρ).isArray = v.isArray := by
  cases v <;> rfl

@[simp] theorem shape?_rename : (v.rename ρ).shape? = v.shape? := by
  cases v <;> rfl

@[simp] theorem text?_rename : (v.rename ρ).text? = v.text? := by
  cases v <;> rfl

@[simp] theorem number?_rename : (v.rename ρ).number? = v.number? := by
  cases v <;> rfl

@[simp] theorem cells?_rename : (v.rename ρ).cells? = v.cells?.map (List.map (rename ρ)) := by
  cases v with
  | array s cells =>
      rw [rename_array]
      rfl
  | strings g =>
      show some (g.cells.map text) = some ((g.cells.map text).map (rename ρ))
      rw [List.map_map]
      rfl
  | indexes g =>
      show some (g.cells.map int) = some ((g.cells.map int).map (rename ρ))
      rw [List.map_map]
      rfl
  | _ => rfl

@[simp] theorem cellsOrSelf_rename :
    (v.rename ρ).cellsOrSelf = v.cellsOrSelf.map (rename ρ) := by
  unfold cellsOrSelf
  rw [cells?_rename]
  cases v.cells? <;> rfl

@[simp] theorem callable?_rename : (v.rename ρ).callable? = v.callable?.map (.rename ρ) := by
  cases v with
  | derived operator body left right =>
      rw [rename_derived]
      rfl
  | _ => rfl

/-! ## Texts -/

mutual

/-- **A value is written in the same way** if every closure in it is. -/
theorem render_rename {g g' : Glossary} (hname : g'.name = g.name)
    (hclosure : ∀ f, g'.closure (f.rename ρ) = g.closure f) :
    ∀ v : Value, (v.rename ρ).render g' = v.render g
  | .array s cells => by
      simp only [rename, render, renderCells_rename hname hclosure cells]
  | .closure f => hclosure f
  | .derived operator body left none => by
      simp only [rename, renameOptional, render, hname, render_rename hname hclosure left]
  | .derived operator body left (some right) => by
      simp only [rename, renameOptional, render, hname, render_rename hname hclosure left,
        render_rename hname hclosure right]
  | .primitive symbol => congrFun hname symbol
  | .bool _ | .number _ | .text _ | .strings _ | .indexes _ | .emptyArray => rfl

/-- Texts show closures as they are printed, so a glossary that follows the renaming gives the same
text. -/
theorem renderCells_rename {g g' : Glossary} (hname : g'.name = g.name)
    (hclosure : ∀ f, g'.closure (f.rename ρ) = g.closure f) :
    ∀ vs : List Value, renderCells g' (renameCells ρ vs) = renderCells g vs
  | [] => rfl
  | v :: vs => by
      simp only [renameCells, renderCells, asCell, isArray_rename,
        render_rename hname hclosure v, renderCells_rename hname hclosure vs]

end

end Value

end ArrayLang

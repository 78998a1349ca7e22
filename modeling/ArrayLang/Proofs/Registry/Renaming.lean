import ArrayLang.Proofs.Domain.Renaming
import ArrayLang.Proofs.Evaluation.Alike

/-!
# Dispatch of renamed arguments

Domains accept and convert alike, so a symbol resolves to the same body for arguments and for their
renaming, an operator makes the renamed function of renamed operands, and where all domains reject,
the errors are the same. What is left to ask of a registry is that its bodies do not look at arenas
(`Registry.Blind`).
-/

namespace ArrayLang

variable {ρ : ArenaId → ArenaId} (tower : Tower)

def Dispatch.rename (ρ : ArenaId → ArenaId) (d : Dispatch) : Dispatch :=
  { d with left := d.left.map (.rename ρ), right := d.right.rename ρ }

/-- A handler accepts renamed arguments as it did the others, and hands on what is renamed. -/
theorem PrimitiveHandler.dispatch?_rename (h : PrimitiveHandler) (left : Option Value)
    (right : Value) :
    h.dispatch? tower (left.map (.rename ρ)) (right.rename ρ) =
      (h.dispatch? tower left right).map (.rename ρ) := by
  unfold dispatch?
  rw [PairDomain.convert?_rename, Option.map_map, Option.map_map]
  rfl

/-- Deriving keeps the operands, in which functions are renamed. -/
theorem OperatorDefinition.derive?_rename (d : OperatorDefinition) (symbol : Name) (left : Value)
    (right : Option Value) :
    d.derive? tower symbol (left.rename ρ) (right.map (.rename ρ)) =
      (d.derive? tower symbol left right).map (.rename ρ) := by
  unfold derive?
  cases d.arity <;> cases right
  · -- one operand
    have hconvert := d.domain.convert?_rename (ρ := ρ) tower none left
    simp only [Option.map_none] at hconvert ⊢
    rw [hconvert, Option.map_map, Option.map_map]
    rfl
  · rfl
  · rfl
  · -- two operands
    next right =>
      have hconvert := d.domain.convert?_rename (ρ := ρ) tower (some left) right
      simp only [Option.map_some] at hconvert ⊢
      rw [hconvert]
      rcases d.domain.convert? tower (some left) right with _ | ⟨_ | left', right'⟩ <;> rfl

namespace Registry

variable (r : Registry) (symbol : Name)

/-- **A symbol resolves alike** for arguments and their renaming. -/
theorem resolve_alike (left : Option Value) (right : Value) :
    ResultsAlike (.rename ρ) (r.resolve tower symbol left right)
      (r.resolve tower symbol (left.map (.rename ρ)) (right.rename ρ)) := by
  have hfind : ∀ handlers : List PrimitiveHandler, (handlers.findSome? fun h =>
        h.dispatch? tower (left.map (.rename ρ)) (right.rename ρ)) =
      (handlers.findSome? fun h => h.dispatch? tower left right).map (.rename ρ) := by
    intro handlers
    rw [List.map_findSome?]
    congr 1
    funext h
    exact h.dispatch?_rename tower left right
  have hkind : (left.map (Value.rename ρ)).map Value.kind = left.map Value.kind := by
    cases left with
    | none => rfl
    | some left => exact congrArg some left.kind_rename
  unfold resolve
  simp only [hfind, hkind, Value.kind_rename]
  split
  · exact .of _
  · next handlers _ =>
    cases handlers.findSome? fun h => h.dispatch? tower left right with
    | none => exact .of _
    | some d => exact .ok d

/-- **An operator makes the renamed function** of renamed operands. -/
theorem derive_alike (left : Value) (right : Option Value) :
    ResultsAlike (.rename ρ) (r.derive tower symbol left right)
      (r.derive tower symbol (left.rename ρ) (right.map (.rename ρ))) := by
  have hfind : ∀ definitions : List OperatorDefinition, (definitions.findSome? fun d =>
        d.derive? tower symbol (left.rename ρ) (right.map (.rename ρ))) =
      (definitions.findSome? fun d => d.derive? tower symbol left right).map (.rename ρ) := by
    intro definitions
    rw [List.map_findSome?]
    congr 1
    funext d
    exact d.derive?_rename tower symbol left right
  unfold derive
  simp only [hfind]
  split
  · exact .of _
  · next definitions _ =>
    cases definitions.findSome? fun d => d.derive? tower symbol left right with
    | some f => exact .ok f
    | none =>
        cases right with
        | none =>
            simp only [Option.map_none, Value.kind_rename]
            exact .of _
        | some right =>
            simp only [Option.map_some, Value.kind_rename]
            exact .of _

/-- No registered body looks at the arenas of the closures that it is given. -/
structure Blind (r : Registry) : Prop where
  primitive : ∀ h ∈ r.handlers, ∀ ρ tower left right,
    (h.body tower left right).Alike ρ (.rename ρ)
      (h.body tower (left.map (.rename ρ)) (right.rename ρ))
  operator : ∀ b ∈ r.bodies, ∀ ρ tower leftOperand rightOperand left right,
    (b tower leftOperand rightOperand left right).Alike ρ (.rename ρ)
      (b tower (leftOperand.rename ρ) (rightOperand.map (.rename ρ)) (left.map (.rename ρ))
        (right.rename ρ))

end Registry

end ArrayLang

import ArrayLang.Proofs.Domain.Renaming
import ArrayLang.Proofs.Evaluation.Alike
import ArrayLang.Proofs.Selection.Phases

/-!
# Selections in renamed arrays

Which positions a selection names is read off shapes and numbers, and putting values into positions
moves them as they are. So the array that is to be stored can be renamed before the replacement or
after it (`Selected.updated_alike`).
-/

namespace ArrayLang

variable {ρ : ArenaId → ArenaId}

namespace Value

variable (s : Shape)

theorem alike_checkShape (length : Nat) :
    ResultsAlike id (checkShape s length) (checkShape s length) := by
  unfold checkShape
  split
  · exact .ok ()
  · exact .of _

theorem alike_arrayOfShape (cells : List Value) :
    ResultsAlike (.rename ρ) (arrayOfShape s cells) (arrayOfShape s (cells.map (.rename ρ))) := by
  unfold arrayOfShape
  rw [List.length_map]
  exact (alike_checkShape s _).bind fun _ => .ok_of_eq (rename_array s cells).symm

/-- A grid holds no functions. -/
theorem alike_ofShape {α : Type} {f : Grid α → Value} (hf : ∀ g, (f g).rename ρ = f g)
    (cells : List α) :
    ResultsAlike (.rename ρ) (f <$> Grid.ofShape s cells) (f <$> Grid.ofShape s cells) := by
  have hgrid : ResultsAlike id (Grid.ofShape s cells) (Grid.ofShape s cells) :=
    (alike_checkShape s cells.length).bind fun _ => .ok _
  exact hgrid.map fun g => (hf g).symm

end Value

namespace Selection

/-! ## Positions -/

/-- Positions are numbers. -/
theorem alike_positionsOf (tower : Tower) (current : Value) (picked : Option Value) :
    ResultsAlike id (positionsOf tower current picked)
      (positionsOf tower (current.rename ρ) (picked.map (.rename ρ))) := by
  cases picked with
  | none =>
      simp only [Option.map_none, positionsOf, Value.kind_rename]
      exact .of _
  | some picked =>
      simp only [Option.map_some, positionsOf, Value.kind_rename, Domain.convert?_rename]
      cases (Domain.leaf .toIndexArray none).convert? tower picked with
      | none => exact .of _
      | some w =>
          cases w with
          | indexes g => exact .ok _
          | _ => exact .of _

/-! ## Replacing -/

theorem alike_replacements (count : Nat) (values : Value) :
    ResultsAlike (.map (.rename ρ)) (replacements count values)
      (replacements count (values.rename ρ)) := by
  unfold replacements
  rw [Value.cells?_rename]
  cases values.cells? with
  | none => exact .ok_of_eq List.map_replicate.symm
  | some cells =>
      simp only [Option.map_some, List.length_map]
      split
      · exact .ok cells
      · exact .of _

theorem alike_place (cells : Array Value) (l : List (Int64 × Value)) :
    ResultsAlike (.map (.rename ρ)) (place cells l)
      (place (cells.map (.rename ρ)) (l.map fun p => (p.1, p.2.rename ρ))) := by
  induction l generalizing cells with
  | nil => exact .ok cells
  | cons p l ih =>
      obtain ⟨i, v⟩ := p
      simp only [List.map_cons, place, Array.size_map]
      split
      · exact ih cells
      · split
        · rw [← Array.map_set]
          exact ih _
        · exact .of _

theorem cellInt?_rename (v : Value) : cellInt? (v.rename ρ) = cellInt? v := by
  cases v <;> rfl

/-- The kind of the rebuilt array is found on both sides alike, since no text or number is a
function. -/
theorem alike_rebuild (like : Value) (s : Shape) (cells : List Value) :
    ResultsAlike (.rename ρ) (rebuild like s cells)
      (rebuild (like.rename ρ) s (cells.map (.rename ρ))) := by
  have hgeneral := Value.alike_arrayOfShape (ρ := ρ) s cells
  cases like with
  | emptyArray =>
      simp only [Value.rename, rebuild, List.isEmpty_map]
      split
      · exact .ok Value.emptyArray
      · exact hgeneral
  | strings g =>
      simp only [Value.rename, rebuild, mapM_map_rename Value.text?_rename]
      cases cells.mapM Value.text? with
      | none => exact hgeneral
      | some texts => exact Value.alike_ofShape s (fun _ => rfl) texts
  | indexes g =>
      simp only [Value.rename, rebuild, mapM_map_rename cellInt?_rename]
      cases cells.mapM cellInt? with
      | none => exact hgeneral
      | some ints => exact Value.alike_ofShape s (fun _ => rfl) ints
  | _ => exact hgeneral

theorem zip_rename (positions : List Int64) (values : List Value) :
    positions.zip (values.map (Value.rename ρ)) =
      (positions.zip values).map fun p => (p.1, p.2.rename ρ) := by
  rw [List.zip_map_right]
  rfl

/-- **Replacing and renaming** can be done in either order. -/
theorem alike_replace (target : Value) (positions : Grid Int64) (values : Value) :
    ResultsAlike (.rename ρ) (replace target positions values)
      (replace (target.rename ρ) positions (values.rename ρ)) := by
  unfold replace
  simp only [Value.shape?_rename, Value.kind_rename]
  cases target.shape? with
  | none => exact .of _
  | some shape =>
      refine (alike_replacements positions.size values).bind fun vs => ?_
      have hcells : ((target.rename ρ).cells?.getD []).toArray =
          (target.cells?.getD []).toArray.map (.rename ρ) := by
        rw [Value.cells?_rename]
        cases target.cells? <;> simp
      rw [hcells, zip_rename]
      refine (alike_place _ _).bind fun cells => ?_
      rw [Array.toList_map]
      exact alike_rebuild target shape cells.toList

end Selection

/-! ## Assignments -/

def Selected.rename (ρ : ArenaId → ArenaId) (p : Selected) : Selected where
  value := p.value.rename ρ
  current := p.current.rename ρ
  picked := p.picked.map (.rename ρ)

theorem Selected.updated_alike (tower : Tower) (p : Selected) :
    ResultsAlike (.rename ρ) (p.updated tower) ((p.rename ρ).updated tower) :=
  (Selection.alike_positionsOf tower p.current p.picked).bind fun positions =>
    Selection.alike_replace p.current positions p.value

end ArrayLang

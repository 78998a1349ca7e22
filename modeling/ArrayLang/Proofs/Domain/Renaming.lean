import ArrayLang.Proofs.Domain.Content
import ArrayLang.Proofs.Registry.Keeping
import ArrayLang.Proofs.Value.Renaming

/-!
# Conversions of renamed values

A domain looks at kinds, numbers and texts, so it accepts a value if it accepts the renamed one, and
what it makes of the one is the renaming of what it makes of the other.
-/

namespace ArrayLang

variable {ρ : ArenaId → ArenaId}

/-! ## Leaves -/

theorem mapM_map_rename {α : Type} {f : Value → Option α} (h : ∀ v : Value, f (v.rename ρ) = f v)
    (cells : List Value) : (cells.map (Value.rename ρ)).mapM f = cells.mapM f := by
  induction cells with
  | nil => rfl
  | cons v vs ih => simp only [List.map_cons, List.mapM_cons, h, ih]

namespace Leaf

variable (tower : Tower) (v : Value)

/-- Arrays of texts hold no functions. -/
theorem stringArray?_rename : stringArray? (v.rename ρ) = stringArray? v := by
  cases v with
  | array s cells =>
      rw [Value.rename_array]
      simp only [stringArray?, mapM_map_rename Value.text?_rename]
  | _ => rfl

@[simp] theorem index?_rename : index? tower (v.rename ρ) = index? tower v := by
  cases v <;> rfl

theorem indexArray?_rename : indexArray? tower (v.rename ρ) = indexArray? tower v := by
  cases v with
  | array s cells =>
      rw [Value.rename_array]
      simp only [indexArray?, mapM_map_rename (index?_rename tower)]
  | _ => rfl

/-- A leaf that lets values through as they are. -/
theorem ite_rename (b : Bool) :
    (if b then some (v.rename ρ) else none) = (if b then some v else none).map (.rename ρ) := by
  cases b <;> rfl

/-- No leaf looks into a function, so each accepts the renamed value as it did the value. -/
theorem accept?_rename (l : Leaf) :
    l.accept? tower (v.rename ρ) = (l.accept? tower v).map (.rename ρ) := by
  cases l with
  | isText => simp only [accept?, Value.text?_rename, ite_rename]
  | isNumber => simp only [accept?, Value.number?_rename, ite_rename]
  | isArray => simp only [accept?, Value.isArray_rename, ite_rename]
  | isFunction =>
      simp only [accept?, Value.callable?_rename, Option.isSome_map, ite_rename]
  | isBool => cases v <;> rfl
  | isStringArray => cases v <;> rfl
  | isIndexArray => cases v <;> rfl
  | toStringArray =>
      have hconvert : (stringArray? (v.rename ρ)).map Value.strings =
          ((stringArray? v).map Value.strings).map (.rename ρ) := by
        rw [stringArray?_rename, Option.map_map]
        rfl
      cases v with
      | strings g => rfl
      | _ => exact hconvert
  | toIndexArray =>
      have hconvert : (indexArray? tower (v.rename ρ)).map Value.indexes =
          ((indexArray? tower v).map Value.indexes).map (.rename ρ) := by
        rw [indexArray?_rename, Option.map_map]
        rfl
      cases v with
      | indexes g => rfl
      | _ => exact hconvert

end Leaf

/-! ## Domains -/

namespace Domain

variable (tower : Tower)

/-- **Domains accept and convert alike.** -/
theorem convert?_rename (d : Domain) (v : Value) :
    d.convert? tower (v.rename ρ) = (d.convert? tower v).map (.rename ρ) := by
  fun_induction convert? tower d v with
  | case1 l v => exact l.accept?_rename tower v
  | case2 l child v ih =>
      show (l.accept? tower (v.rename ρ)).bind _ = _
      rw [Leaf.accept?_rename]
      cases l.accept? tower v with
      | none => rfl
      | some w => exact ih w
  | case3 v => rfl
  -- the child decides alike on both sides, and a negation gives the value itself
  | case4 child v w hsome ih =>
      rw [hsome] at ih
      simp only [convert?, ih]
      rfl
  | case5 child v hnone ih =>
      rw [hnone] at ih
      simp only [convert?, ih]
      rfl
  | case6 first second v w hsome ih =>
      rw [hsome] at ih
      simp only [convert?, ih]
      rfl
  | case7 first second v hnone ih₁ ih₂ =>
      rw [hnone] at ih₁
      simp only [convert?, ih₁]
      exact ih₂
  | case8 first second v hmissing =>
      rw [convert?]
      · rfl
      · exact hmissing

/-- A missing argument stays missing. -/
theorem convertOptional?_rename (d : Domain) (v : Option Value) :
    d.convertOptional? tower (v.map (.rename ρ)) =
      (d.convertOptional? tower v).map (.rename ρ) := by
  cases v with
  | none => rfl
  | some v => exact d.convert?_rename tower v

end Domain

namespace PairDomain

variable (tower : Tower)

/-- On each side conversion and renaming commute, with and without a domain. -/
theorem convertSide?_rename (d : Option Domain) (v : Option Value) :
    convertSide? tower d (v.map (.rename ρ)) =
      (convertSide? tower d v).map (.map (.rename ρ)) := by
  cases d with
  | none => rfl
  | some d =>
      simp only [convertSide?, Domain.convertOptional?_rename, Option.map_map]
      rfl

theorem convertRight?_rename (d : Option Domain) (v : Value) :
    convertRight? tower d (v.rename ρ) = (convertRight? tower d v).map (.rename ρ) := by
  cases d with
  | none => rfl
  | some d => exact d.convert?_rename tower v

/-- **Pair domains accept and convert alike.** -/
theorem convert?_rename (d : PairDomain) (left : Option Value) (right : Value) :
    d.convert? tower (left.map (.rename ρ)) (right.rename ρ) =
      (d.convert? tower left right).map (.map (.map (.rename ρ)) (.rename ρ)) := by
  fun_induction PairDomain.convert? tower d left right with
  | case1 left right => rfl
  | case2 child left right =>
      simp only [convert?, Domain.convertOptional?_rename, Domain.convert?_rename]
      cases child.convertOptional? tower left <;> cases child.convert? tower right <;> rfl
  | case3 child left right l hsome =>
      simp only [convert?, Domain.convertOptional?_rename, hsome]
      rfl
  | case4 child left right hnone =>
      simp only [convert?, Domain.convertOptional?_rename, hnone, Domain.convert?_rename]
      cases child.convert? tower right <;> rfl
  | case5 leftDomain rightDomain left right =>
      simp only [convert?, convertSide?_rename, convertRight?_rename]
      cases convertSide? tower leftDomain left <;>
        cases convertRight? tower rightDomain right <;> rfl
  | case6 => rfl
  | case7 child right =>
      simp only [convert?, Option.map_none, convertRight?_rename]
      cases convertRight? tower child right <;> rfl
  | case8 => rfl
  | case9 => rfl
  | case10 child left right ih => exact ih

end PairDomain

end ArrayLang

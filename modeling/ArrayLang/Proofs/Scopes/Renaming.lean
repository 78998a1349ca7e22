import ArrayLang.Proofs.Scopes.Chain
import ArrayLang.Proofs.Value.Renaming

/-!
# Renaming arenas in scopes

The same scopes with the same names, and every value in them renamed. Which scope a name is found in
does not depend on values, so a lookup finds the renamed value, and every operation on scopes can be
done before the renaming or after it.
-/

namespace ArrayLang

variable {ρ : ArenaId → ArenaId}

/-! ## One scope -/

def Binding.rename (ρ : ArenaId → ArenaId) : Binding → Binding
  | .bound v => .bound (v.rename ρ)
  | .absent => .absent

theorem Binding.value?_rename (b : Binding) : (b.rename ρ).value? = b.value?.map (.rename ρ) := by
  cases b <;> rfl

namespace Scope

def rename (ρ : ArenaId → ArenaId) (s : Scope) : Scope :=
  { s with bindings := s.bindings.map fun p => (p.1, p.2.rename ρ) }

@[simp] theorem parent_rename (s : Scope) : (s.rename ρ).parent = s.parent := rfl

theorem find?_rename (s : Scope) (x : Name) :
    (s.rename ρ).find? x = (s.find? x).map (.rename ρ) := by
  show (s.bindings.map fun p => (p.1, p.2.rename ρ)).lookup x = (s.bindings.lookup x).map _
  induction s.bindings with
  | nil => rfl
  | cons p l ih =>
      rw [List.map_cons, List.lookup_cons, List.lookup_cons, ih]
      cases x == p.1 <;> rfl

theorem declares_rename (s : Scope) (x : Name) : (s.rename ρ).declares x = s.declares x := by
  unfold declares
  rw [find?_rename, Option.isSome_map]

theorem bind_rename (s : Scope) (x : Name) (b : Binding) :
    (s.bind x b).rename ρ = (s.rename ρ).bind x (b.rename ρ) := by
  simp only [rename, bind, List.map_cons, List.filter_map]
  rfl

end Scope

/-! ## All scopes -/

namespace Scopes

def rename (ρ : ArenaId → ArenaId) (s : Scopes) : Scopes where
  all := s.all.map (.rename ρ)
  parent_lt i hi p hp := by
    rw [Array.size_map] at hi
    rw [Array.getElem_map] at hp
    exact s.parent_lt i hi p hp

variable (s : Scopes) (e : ScopeId) (x : Name)

theorem eq_of_all_eq {s t : Scopes} (h : s.all = t.all) : s = t := by
  cases s
  cases t
  cases h
  rfl

@[simp] theorem size_rename : (s.rename ρ).size = s.size := Array.size_map

theorem get?_rename : (s.rename ρ).get? e = (s.get? e).map (.rename ρ) := Array.getElem?_map

theorem find?_rename : (s.rename ρ).find? e x = (s.find? e x).map (.rename ρ) := by
  unfold find?
  rw [get?_rename]
  cases s.get? e with
  | none => rfl
  | some scope => exact scope.find?_rename x

/-! ### Lookups -/

theorem holderWithin?_rename (bound : Nat) :
    (s.rename ρ).holderWithin? x bound e = s.holderWithin? x bound e := by
  induction bound generalizing e with
  | zero => rfl
  | succ bound ih =>
      simp only [holderWithin?, get?_rename]
      cases s.get? e with
      | none => rfl
      | some scope =>
          simp only [Option.map_some, Scope.declares_rename, Scope.parent_rename, ih]

theorem holder?_rename : (s.rename ρ).holder? e x = s.holder? e x := holderWithin?_rename s e x _

/-- **A lookup finds the renamed value.** -/
theorem lookup?_rename : (s.rename ρ).lookup? e x = (s.lookup? e x).map (.rename ρ) := by
  unfold lookup?
  rw [holder?_rename]
  cases s.holder? e x with
  | none => rfl
  | some holder =>
      show ((s.rename ρ).find? holder x).bind _ = ((s.find? holder x).bind _).map _
      rw [find?_rename]
      cases s.find? holder x with
      | none => rfl
      | some b => exact b.value?_rename

/-! ### Changes -/

theorem bind_rename (b : Binding) :
    (s.bind e x b).rename ρ = (s.rename ρ).bind e x (b.rename ρ) := by
  refine eq_of_all_eq (Array.ext ?_ fun i hi hi' => ?_)
  · simp only [rename, bind, Array.size_map, Array.size_modify]
  · simp only [rename, bind, Array.getElem_map, Array.getElem_modify]
    split
    · exact Scope.bind_rename ..
    · rfl

theorem define_rename (v : Value) :
    (s.define e x v).rename ρ = (s.rename ρ).define e x (v.rename ρ) :=
  s.bind_rename e x (.bound v)

/-- **An assignment changes the renamed scopes as it changes the scopes.** -/
theorem assign?_rename (v : Value) :
    (s.rename ρ).assign? e x (v.rename ρ) = (s.assign? e x v).map (.rename ρ) := by
  unfold assign?
  rw [holder?_rename]
  cases s.holder? e x with
  | none => rfl
  | some holder => exact congrArg some (s.define_rename holder x v).symm

theorem child_rename : (s.child e).2.rename ρ = ((s.rename ρ).child e).2 := by
  refine eq_of_all_eq ?_
  unfold child
  have hsize : (s.rename ρ).all.size = s.all.size := s.size_rename
  by_cases h : e.index < s.all.size
  · rw [dif_pos h, dif_pos (hsize ▸ h)]
    exact Array.map_push
  · rw [dif_neg h, dif_neg (hsize ▸ h)]
    exact Array.map_push

/-- The new scope of a closure call declares the renamed arguments. -/
theorem withArguments_rename (left : Option Value) (right : Value) :
    (s.withArguments left right e).rename ρ =
      (s.rename ρ).withArguments (left.map (.rename ρ)) (right.rename ρ) e := by
  have hleft : (left.elim .absent .bound : Binding).rename ρ =
      (left.map (Value.rename ρ)).elim .absent .bound := by
    cases left <;> rfl
  unfold withArguments
  rw [define_rename, bind_rename, child_rename, hleft, size_rename]

end Scopes

end ArrayLang

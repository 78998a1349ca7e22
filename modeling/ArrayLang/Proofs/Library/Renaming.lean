import ArrayLang.Proofs.Library.Core
import ArrayLang.Proofs.Registry.Renaming

/-!
# The core library does not look at arenas

The bodies of the core library look at the cells of their arguments, at integers and at kinds, and
call their operand. None of that depends on the arena of a closure, so they do the same with renamed
arguments (`Registry.OfCore.blind`).
-/

namespace ArrayLang

namespace Library

variable {ρ : ArenaId → ArenaId}

/-! ## Arguments -/

theorem alike_leftArgument (left : Option Value) :
    ResultsAlike (.rename ρ) (leftArgument left) (leftArgument (left.map (.rename ρ))) := by
  cases left with
  | none => exact .of _
  | some v => exact .ok v

theorem alike_integer (v : Value) : ResultsAlike id (integer v) (integer (v.rename ρ)) := by
  cases v with
  | bool b => exact .ok _
  | number n =>
      cases n with
      | int n => exact .ok n
      | float x => exact .of _
  | _ => exact .of _

theorem alike_count (v : Value) : ResultsAlike id (count v) (count (v.rename ρ)) := by
  refine (alike_integer v).bind fun n => ?_
  show ResultsAlike id (if n < 0 then _ else _) (if n < 0 then _ else _)
  split
  · exact .of _
  · exact .ok _

theorem alike_integers (left : Option Value) (right : Value) :
    ResultsAlike id (integers left right) (integers (left.map (.rename ρ)) (right.rename ρ)) :=
  (alike_leftArgument left).bind fun v => (alike_integer v).bind fun a =>
    (alike_integer right).bind fun b => .ok (a, b)

/-- A function is the renamed function. -/
theorem alike_callable (v : Value) :
    ResultsAlike (.rename ρ) (callable v) (callable (v.rename ρ)) := by
  unfold callable
  rw [Value.callable?_rename]
  cases v.callable? with
  | none => exact .of _
  | some f => exact .ok f

/-! ## Primitives -/

section Primitives

variable (tower : Tower) (left : Option Value) (right : Value)

/-- Arithmetic sees numbers only. -/
theorem alike_arithmetic {combine : Int64 → Int64 → Value}
    (hcombine : ∀ a b, (combine a b).rename ρ = combine a b) :
    (arithmetic combine tower left right).Alike ρ (.rename ρ)
      (arithmetic combine tower (left.map (.rename ρ)) (right.rename ρ)) :=
  .done ((alike_integers left right).bind fun p => .ok_of_eq (hcombine p.1 p.2).symm)

theorem alike_negate :
    (negate tower left right).Alike ρ (.rename ρ)
      (negate tower (left.map (.rename ρ)) (right.rename ρ)) :=
  .done ((alike_integer right).bind fun _ => .ok _)

theorem alike_iota :
    (iota tower left right).Alike ρ (.rename ρ)
      (iota tower (left.map (.rename ρ)) (right.rename ρ)) := by
  refine (Body.Alike.done (alike_count right)).bind fun n => ?_
  rw [id_eq]
  split
  · exact .pure _
  · exact .panics

theorem alike_shapeOf :
    (shapeOf tower left right).Alike ρ (.rename ρ)
      (shapeOf tower (left.map (.rename ρ)) (right.rename ρ)) := by
  unfold shapeOf
  rw [Value.shape?_rename]
  exact .pure _

theorem getD_cells?_rename (v : Value) :
    (v.rename ρ).cells?.getD [] = (v.cells?.getD []).map (.rename ρ) := by
  rw [Value.cells?_rename]
  cases v.cells? <;> rfl

theorem alike_reverse :
    (reverse tower left right).Alike ρ (.rename ρ)
      (reverse tower (left.map (.rename ρ)) (right.rename ρ)) := by
  unfold reverse
  rw [getD_cells?_rename, ← List.map_reverse, ← Value.rename_vector]
  exact .pure _

/-- Taking adds zeros, which no renaming changes. -/
theorem alike_take :
    (take tower left right).Alike ρ (.rename ρ)
      (take tower (left.map (.rename ρ)) (right.rename ρ)) := by
  have hcount : Body.Alike ρ id (.ofExcept (leftArgument left >>= count))
      (.ofExcept (leftArgument (left.map (.rename ρ)) >>= count)) :=
    .done ((alike_leftArgument left).bind fun v => alike_count v)
  refine hcount.bind fun n => ?_
  rw [id_eq]
  split
  · refine .done (.ok_of_eq ?_)
    -- the zeros behind are as many as before
    simp only [getD_cells?_rename, Value.rename_vector, List.map_append, List.map_take,
      List.map_replicate, List.length_map]
    rfl
  · exact .panics

end Primitives

/-! ## Operators -/

section Operators

/-- The calls of both sides match one by one. -/
theorem alike_callEach (f : Callable) (left : Option Value) (done vs : List Value) :
    (callEach f left done vs).Alike ρ (.rename ρ)
      (callEach (f.rename ρ) (left.map (.rename ρ)) (done.map (.rename ρ))
        (vs.map (.rename ρ))) := by
  induction vs generalizing done with
  | nil =>
      rw [List.map_nil, callEach, callEach, ← List.map_reverse, ← Value.rename_vector]
      exact .pure _
  | cons v vs ih => exact (Body.Alike.apply f left v).bind fun w => ih (w :: done)

theorem alike_foldOnto (f : Callable) (result : Value) (vs : List Value) :
    (foldOnto f result vs).Alike ρ (.rename ρ)
      (foldOnto (f.rename ρ) (result.rename ρ) (vs.map (.rename ρ))) := by
  induction vs generalizing result with
  | nil => exact .pure result
  | cons v vs ih => exact (Body.Alike.apply f (some v) result).bind ih

variable (tower : Tower) (operand : Value) (unused left : Option Value) (right : Value)

theorem alike_each :
    (each tower operand unused left right).Alike ρ (.rename ρ)
      (each tower (operand.rename ρ) (unused.map (.rename ρ)) (left.map (.rename ρ))
        (right.rename ρ)) := by
  refine Body.Alike.bind (.done (alike_callable operand)) fun f => ?_
  rw [Value.cellsOrSelf_rename]
  exact alike_callEach f left [] right.cellsOrSelf

theorem alike_reduce :
    (reduce tower operand unused left right).Alike ρ (.rename ρ)
      (reduce tower (operand.rename ρ) (unused.map (.rename ρ)) (left.map (.rename ρ))
        (right.rename ρ)) := by
  refine Body.Alike.bind (.done (alike_callable operand)) fun f => ?_
  simp only [Value.cellsOrSelf_rename, ← List.map_reverse]
  cases right.cellsOrSelf.reverse with
  | nil => exact .done (.of _)
  | cons last before => exact alike_foldOnto f last before

end Operators

end Library

/-! ## Registries -/

namespace Registry

/-- Every registered body is one of the core library; the symbols and the domains may be others. -/
structure OfCore (r : Registry) : Prop where
  primitive : ∀ h ∈ r.handlers, h.body ∈ Library.primitiveBodies
  operator : ∀ b ∈ r.bodies, b ∈ Library.operatorBodies

/-- The library is one of the registries that hold nothing but its bodies. -/
theorem ofCore_core (names : Interner) : (Library.core names).OfCore where
  primitive _ hmem := Library.body_mem_of_mem_handlers hmem
  operator _ hmem := Library.body_mem_of_mem_bodies hmem

open Library in
/-- **Bodies of the core library do not look at arenas.** -/
theorem OfCore.blind {r : Registry} (h : r.OfCore) : r.Blind where
  primitive handler hmem ρ tower left right := by
    have hbody := h.primitive handler hmem
    simp only [primitiveBodies, Library.primitives, List.map_cons, List.map_nil, List.mem_cons,
      List.not_mem_nil, or_false] at hbody
    rcases hbody with hb | hb | hb | hb | hb | hb | hb | hb | hb
    · rw [hb]
      exact alike_arithmetic tower left right fun _ _ => rfl
    · rw [hb]
      exact .pure right
    · rw [hb]
      exact alike_negate tower left right
    · rw [hb]
      exact alike_arithmetic tower left right fun _ _ => rfl
    · rw [hb]
      exact alike_arithmetic tower left right fun _ _ => rfl
    · rw [hb]
      exact alike_iota tower left right
    · rw [hb]
      exact alike_shapeOf tower left right
    · rw [hb]
      exact alike_reverse tower left right
    · rw [hb]
      exact alike_take tower left right
  operator b hmem ρ tower operand unused left right := by
    have hbody := h.operator b hmem
    simp only [operatorBodies, Library.operators, List.map_cons, List.map_nil, List.mem_cons,
      List.not_mem_nil, or_false] at hbody
    rcases hbody with rfl | rfl
    · exact alike_each tower operand unused left right
    · exact alike_reduce tower operand unused left right

end Registry

end ArrayLang

import ArrayLang.Proofs.Evaluation.Ending
import ArrayLang.Proofs.Scopes.Growth
import ArrayLang.Proofs.Selection.Replace

/-!
# Phases of a selective assignment

`(L f X)←V` evaluates `V` and `L`, reads `X`, evaluates `f` and calls it, and only then looks at
what came back. `Eval.prepared` is the part up to the return of `f`, the last one in which other
code runs; `Eval.finish` is the rest. `Eval.selectiveAssign_eq` says that the one after the other
is the whole assignment.
-/

namespace ArrayLang

/-- A selective assignment when its function has returned: the new value, the value that was read
from the target, and what the function picked of its numbers. Without an array there is nothing to
pick from, and the function is not called. -/
structure Selected where
  value : Value
  current : Value
  picked : Option Value

namespace Selection

/-- The positions, counted from zero, that the picked numbers stand for. -/
def positionsOf (tower : Tower) (current : Value) : Option Value → Except EvalError (Grid Int64)
  | none => .error (.of (.notAnArray current.kind))
  | some picked =>
    match (Domain.leaf .toIndexArray none).convert? tower picked with
    | some (.indexes g) => .ok (g.offset (-1))
    | _ => .error (.of (.conversion picked.kind "index array"))

/-- Only an array can be selected from. -/
theorem positions_eq (tower : Tower) (select : Option Value → Value → Body Value)
    (left : Option Value) (target : Value) :
    positions tower select left target =
      match target.shape? with
      | none => .ofExcept (positionsOf tower target none)
      | some shape =>
        select left (.indexes (.iota shape)) >>= fun picked =>
          .ofExcept (positionsOf tower target (some picked)) := by
  unfold positions
  cases target.shape? with
  | none => rfl
  | some shape =>
      show select left _ >>= _ = select left _ >>= _
      congr 1
      funext picked
      simp only [positionsOf]
      generalize (Domain.leaf .toIndexArray none).convert? tower picked = converted
      cases converted with
      | none => rfl
      | some v => cases v <;> rfl

theorem exists_of_positionsOf_error {tower : Tower} {current : Value} {picked : Option Value}
    {e : EvalError} (h : positionsOf tower current picked = .error e) :
    ∃ cause, e = .of cause ∧ cause.rejectsSelection = true := by
  unfold positionsOf at h
  split at h
  · cases h
    exact ⟨_, rfl, rfl⟩
  · split at h
    · cases h
    · cases h
      exact ⟨_, rfl, rfl⟩

/-- Whatever is wrong with a selection is one of the four causes. -/
theorem positionsOf_error {tower : Tower} {current : Value} {picked : Option Value} {e : EvalError}
    (h : positionsOf tower current picked = .error e) : e.cause.rejectsSelection = true := by
  obtain ⟨cause, rfl, hcause⟩ := exists_of_positionsOf_error h
  exact hcause

end Selection

/-- The array that is to be stored. -/
def Selected.updated (tower : Tower) (p : Selected) : Except EvalError Value := do
  let positions ← Selection.positionsOf tower p.current p.picked
  Selection.replace p.current positions p.value

/-- The target is replaced cell by cell where all positions are found. -/
theorem Selected.updated_eq_ok {tower : Tower} {p : Selected} {v : Value}
    (h : p.updated tower = .ok v) :
    ∃ positions, Selection.positionsOf tower p.current p.picked = .ok positions ∧
      Selection.replace p.current positions p.value = .ok v := by
  unfold updated at h
  exact exists_of_bind_eq_ok h

theorem Selected.exists_of_updated_error {tower : Tower} {p : Selected} {e : EvalError}
    (h : p.updated tower = .error e) :
    ∃ cause, e = .of cause ∧
      (cause.rejectsSelection = true ∨ ∃ s n, cause = .shapeMismatch s n) := by
  unfold updated at h
  rcases error_of_bind_eq_error h with h | ⟨positions, -, h⟩
  · obtain ⟨cause, rfl, hcause⟩ := Selection.exists_of_positionsOf_error h
    exact ⟨cause, rfl, .inl hcause⟩
  · exact Selection.exists_of_replace_error h

/-- With a target that fits its shape no other error remains. -/
theorem Selected.updated_eq_error {tower : Tower} {p : Selected} {e : EvalError}
    (h : p.updated tower = .error e) (hw : p.current.WellShaped) :
    e.cause.rejectsSelection = true := by
  unfold updated at h
  rcases error_of_bind_eq_error h with h | ⟨positions, -, h⟩
  · exact Selection.positionsOf_error h
  · exact Selection.replace_error h hw

namespace Eval

variable {c : Context}

/-! ## Taking the assignment apart -/

/-- The function that selects. An operator application makes it in place. -/
def selector (c : Context) (function : ExprId) (scope : ScopeId) : Eval Callable := do
  match (← expr c function).node with
  | .derived operator leftOperand rightOperand =>
    let (leftOperand, rightOperand) ← operands leftOperand rightOperand scope
    return .derived (← ofExcept (derive c operator leftOperand rightOperand))
  | _ => evaluateCallable function scope

/-- What the function picks of the numbers from one up in the shape of an array. -/
def pick (f : Callable) (left : Option Value) (current : Value) (scope : ScopeId) :
    Eval (Option Value) :=
  match current.shape? with
  | none => pure none
  | some shape => some <$> call f left (.indexes (.iota shape)) scope

/-- All that is evaluated in `(left function target)←value`, up to the return of the function. -/
def prepared (c : Context) (target : Name) (function : ExprId) (left : Option ExprId)
    (value : ExprId) (scope : ScopeId) : Eval Selected := do
  let value ← evaluate value scope
  let left ← evaluateOptional left scope
  let current ← variableValue c target scope
  let f ← selector c function scope
  let picked ← pick f left current scope
  return ⟨value, current, picked⟩

/-- Replaces and stores. No other code runs any more. -/
def finish (c : Context) (target : Name) (scope : ScopeId) (p : Selected) : Eval Value := do
  let updated ← ofExcept (p.updated c.tower)
  store c target updated scope
  return p.value

/-- Checks may be run together. -/
theorem ofExcept_bind {α β : Type} (r : Except EvalError α) (f : α → Except EvalError β) :
    ofExcept (r >>= f) = ofExcept r >>= fun a => ofExcept (f a) := by
  cases r <;> rfl

theorem ofBody_positions (f : Callable) (left : Option Value) (current : Value) (scope : ScopeId) :
    ofBody scope (Selection.positions c.tower (Body.apply f) left current) =
      pick f left current scope >>= fun picked =>
        ofExcept (Selection.positionsOf c.tower current picked) := by
  rw [Selection.positions_eq]
  unfold pick
  cases current.shape? with
  | none => rfl
  | some shape =>
      show ofBody scope (Body.apply f left _ >>= _) = some <$> call f left _ scope >>= _
      rw [ofBody_bind, bind_map_left]
      rfl

/-- The selection makes the function, calls it on the target and reads its result as positions. -/
theorem selected_eq (function : ExprId) (left : Option Value) (current : Value) (scope : ScopeId) :
    selected c function left current scope =
      selector c function scope >>= fun f => pick f left current scope >>= fun picked =>
        ofExcept (Selection.positionsOf c.tower current picked) := by
  unfold selected selector
  rw [bind_assoc]
  congr 1
  funext x
  cases x.node with
  -- the body that finds the positions makes the function first
  | derived operator l r =>
      simp only [bind_assoc, pure_bind]
      congr 1
      funext ⟨l, r⟩
      unfold Selection.derivedPositions
      rw [ofBody_bind]
      congr 1
      funext f
      exact ofBody_positions (.derived f) left current scope
  | _ =>
      simp only
      congr 1
      funext f
      exact ofBody_positions f left current scope

/-- What is evaluated before the store is the preparation and the reading of the positions. -/
theorem replacement_eq (target : Name) (function : ExprId) (left : Option ExprId) (value : ExprId)
    (scope : ScopeId) :
    replacement c target function left value scope =
      prepared c target function left value scope >>= fun p =>
        ofExcept (Selection.positionsOf c.tower p.current p.picked) >>= fun positions =>
          pure ⟨p.value, p.current, positions⟩ := by
  unfold replacement prepared
  simp only [bind_assoc, pure_bind, selected_eq]

/-- **The assignment is its preparation and then its end.** -/
theorem selectiveAssign_eq (target : Name) (function : ExprId) (left : Option ExprId)
    (value : ExprId) (scope : ScopeId) :
    selectiveAssign c target function left value scope =
      prepared c target function left value scope >>= finish c target scope := by
  unfold selectiveAssign finish replaceIn Selected.updated
  simp only [replacement_eq, bind_assoc, pure_bind, ofExcept_bind]

end Eval

end ArrayLang

import ArrayLang.Proofs.Evaluation.Places

/-!
# Selecting through an operator

A selective assignment whose function is an operator application does not evaluate that expression:
it evaluates the operands itself and makes the function as part of the selection. Had it evaluated
the application to a function and selected with that, it would have ended in the same way, with the
same scopes and the same value or error; only the place of an error could be another one
(`Eval.operator_selection_agrees`).

* `Eval.ends_evaluateCallable_derived` — evaluating an operator application for a function is
  applying the operator, apart from the place of an error.
* `Eval.Follows` — one step ends as another one does, up to the place of the error.
-/

namespace ArrayLang

/-- The same value, or errors that differ in their place at most. -/
inductive SameResult {α : Type} : Except EvalError α → Except EvalError α → Prop
  | ok (a : α) : SameResult (.ok a) (.ok a)
  | error {e e' : EvalError} (h : e.Alike e') : SameResult (.error e) (.error e')

namespace SameResult

variable {α : Type} {r r' : Except EvalError α}

theorem refl (r : Except EvalError α) : SameResult r r := by
  cases r with
  | ok a => exact .ok a
  | error e => exact .error (.refl e)

theorem symm (h : SameResult r r') : SameResult r' r := by
  cases h with
  | ok a => exact .ok a
  | error h => exact .error h.symm

/-- A place does not tell results apart. -/
theorem mapError_locate (r : Except EvalError α) (s : Span) :
    SameResult r (r.mapError fun e => e.locate s) := by
  cases r with
  | ok a => exact .ok a
  | error e => exact .error ((EvalError.Alike.refl e).locate s)

theorem locate (h : SameResult r r') (s : Span) :
    SameResult (r.mapError fun e => e.locate s) (r'.mapError fun e => e.locate s) := by
  cases h with
  | ok a => exact .ok a
  | error h => exact .error ((h.symm.locate s).symm.locate s)

end SameResult

namespace Eval

variable {α β : Type} {c : Context} {m m' : Machine} {scope : ScopeId} {operator target : Name}
  {function lo value : ExprId} {ro left : Option ExprId} {span : Span}

/-! ## Steps that end alike -/

/-- Whenever `x` ends, `y` ends on the same machine with the same result, except that the place of
an error may be another one. -/
def Follows (c : Context) (m : Machine) (y x : Eval α) : Prop :=
  ∀ r m', Ends c x m r m' → ∃ r', Ends c y m r' m' ∧ SameResult r r'

namespace Follows

variable {x y : Eval α}

theorem bind_left (h : Follows c m y x) (f : α → Eval β) : Follows c m (y >>= f) (x >>= f) := by
  intro r m' hend
  rcases ends_bind_iff.mp hend with ⟨a, s, hx, hf⟩ | ⟨e, hx, rfl⟩
  · obtain ⟨r', hy, hsame⟩ := h _ _ hx
    cases hsame
    exact ⟨r, ends_bind_iff.mpr (.inl ⟨a, s, hy, hf⟩), .refl r⟩
  · obtain ⟨r', hy, hsame⟩ := h _ _ hx
    cases hsame with
    | error h => exact ⟨_, ends_bind_iff.mpr (.inr ⟨_, hy, rfl⟩), .error h⟩

/-- What comes before is the same and hands on a value on some machine. -/
theorem bind_right {f g : α → Eval β}
    (h : ∀ a s, Ends c x m (.ok a) s → Follows c s (g a) (f a)) :
    Follows c m (x >>= g) (x >>= f) := by
  intro r m' hend
  rcases ends_bind_iff.mp hend with ⟨a, s, hx, hf⟩ | ⟨e, hx, rfl⟩
  · obtain ⟨r', hg, hsame⟩ := h a s hx r m' hf
    exact ⟨r', ends_bind_iff.mpr (.inl ⟨a, s, hx, hg⟩), hsame⟩
  · exact ⟨_, ends_bind_iff.mpr (.inr ⟨e, hx, rfl⟩), .refl _⟩

theorem locating (h : Follows c m y x) (s : Span) : Follows c m (locating s y) (locating s x) := by
  intro r m' hend
  obtain ⟨r₀, hx, rfl⟩ := ends_locating_iff.mp hend
  obtain ⟨r₁, hy, hsame⟩ := h r₀ m' hx
  exact ⟨_, ends_locating_iff.mpr ⟨r₁, hy, rfl⟩, hsame.locate s⟩

end Follows

/-- The second steps need agree only where the first one leads. -/
theorem ends_bind_congr {x : Eval α} {f g : α → Eval β} {r : Except EvalError β}
    (h : ∀ a s, Ends c x m (.ok a) s → ∀ r m', Ends c (f a) s r m' ↔ Ends c (g a) s r m') :
    Ends c (x >>= f) m r m' ↔ Ends c (x >>= g) m r m' := by
  rw [ends_bind_iff, ends_bind_iff]
  refine or_congr ?_ Iff.rfl
  refine exists_congr fun a => exists_congr fun s => ?_
  exact and_congr_right fun hx => h a s hx r m'

/-! ## Operator applications -/

/-- Evaluates the operands and applies the operator to them. -/
def applied (c : Context) (operator : Name) (lo : ExprId) (ro : Option ExprId) (scope : ScopeId) :
    Eval Callable := do
  let (lo, ro) ← operands lo ro scope
  return .derived (← ofExcept (derive c operator lo ro))

/-- An operator application as an expression makes the same function, and then a value of it. -/
theorem node_derived_eq (operator : Name) (lo : ExprId) (ro : Option ExprId) (scope : ScopeId) :
    node c scope (.derived operator lo ro) =
      Callable.toValue <$> applied c operator lo ro scope := by
  unfold node applied
  simp only [map_bind, map_pure]

theorem callable?_toValue (f : Callable) : f.toValue.callable? = some f := by
  cases f <;> rfl

/-- **An operator application that is evaluated for a function** is the operator applied, and the
place of an error. -/
theorem ends_evaluateCallable_derived {r : Except EvalError Callable}
    (hx : c.expr? m.arena function = some ⟨.derived operator lo ro, span⟩) :
    Ends c (evaluateCallable function scope) m r m' ↔
      ∃ r₀, Ends c (applied c operator lo ro scope) m r₀ m' ∧
        r = r₀.mapError fun e => e.locate span := by
  have hvalue : ∀ r s, Ends c (evaluate function scope) m r s ↔
      ∃ r₀, Ends c (applied c operator lo ro scope) m r₀ s ∧
        r = (r₀.map Callable.toValue).mapError fun e => e.locate span := by
    intro r s
    unfold evaluate
    simp only [ends_ask_iff, ends_evaluate_iff hx, node_derived_eq, ends_map_iff]
    constructor
    · rintro ⟨_, ⟨r₀, hr₀, rfl⟩, rfl⟩
      exact ⟨r₀, hr₀, rfl⟩
    · rintro ⟨r₀, hr₀, rfl⟩
      exact ⟨_, ⟨r₀, hr₀, rfl⟩, rfl⟩
  -- what an application gives is always a function, so there is no other error
  unfold evaluateCallable
  simp only [ends_bind_iff, hvalue]
  constructor
  · rintro (⟨v, s, ⟨r₀, hr₀, heq⟩, hend⟩ | ⟨e, ⟨r₀, hr₀, heq⟩, rfl⟩)
    · cases r₀ with
      | error e => cases heq
      | ok f =>
          cases heq
          simp only [callable?_toValue, ends_pure_iff] at hend
          obtain ⟨rfl, rfl⟩ := hend
          exact ⟨_, hr₀, rfl⟩
    · cases r₀ with
      | ok f => cases heq
      | error e₀ =>
          cases heq
          exact ⟨_, hr₀, rfl⟩
  · rintro ⟨r₀, hr₀, rfl⟩
    cases r₀ with
    | ok f =>
        refine .inl ⟨f.toValue, m', ⟨_, hr₀, rfl⟩, ?_⟩
        simp only [callable?_toValue]
        exact ends_pure_iff.mpr ⟨rfl, rfl⟩
    | error e => exact .inr ⟨_, ⟨_, hr₀, rfl⟩, rfl⟩

/-- Both ways to come by the function go the same way. -/
theorem follows_applied
    (hx : c.expr? m.arena function = some ⟨.derived operator lo ro, span⟩) :
    Follows c m (evaluateCallable function scope) (applied c operator lo ro scope) ∧
      Follows c m (applied c operator lo ro scope) (evaluateCallable function scope) := by
  constructor
  · intro r m' h
    exact ⟨_, (ends_evaluateCallable_derived hx).mpr ⟨r, h, rfl⟩, .mapError_locate r span⟩
  · intro r m' h
    obtain ⟨r₀, hr₀, rfl⟩ := (ends_evaluateCallable_derived hx).mp h
    exact ⟨r₀, hr₀, (SameResult.mapError_locate r₀ span).symm⟩

/-! ## Two ways to select -/

/-- The positions that an operator application selects. It is made as part of the selection. -/
def selectedInPlace (c : Context) (operator : Name) (lo : ExprId) (ro : Option ExprId)
    (scope : ScopeId) (left : Option Value) (current : Value) : Eval (Grid Int64) := do
  let (lo, ro) ← operands lo ro scope
  ofBody scope (Selection.derivedPositions c.tower (derive c operator lo ro) left current)

/-- The positions that a function selects. It is evaluated first, like that of a call. -/
def selectedByFunction (c : Context) (function : ExprId) (scope : ScopeId) (left : Option Value)
    (current : Value) : Eval (Grid Int64) := do
  let f ← evaluateCallable function scope
  ofBody scope (Selection.positions c.tower (Body.apply f) left current)

/-- What a selective assignment evaluates before it selects: the new value, the left argument and
the array. -/
def beforeSelecting (c : Context) (target : Name) (left : Option ExprId) (value : ExprId)
    (scope : ScopeId) : Eval (Value × Option Value × Value) := do
  let value ← evaluate value scope
  let left ← evaluateOptional left scope
  let current ← variableValue c target scope
  return (value, left, current)

/-- A selective assignment that finds its positions by `select`. -/
def assignSelected (c : Context) (select : Option Value → Value → Eval (Grid Int64))
    (target : Name) (left : Option ExprId) (value : ExprId) (scope : ScopeId) : Eval Value := do
  let (value, left, current) ← beforeSelecting c target left value scope
  let positions ← select left current
  replaceIn c target scope ⟨value, current, positions⟩

theorem node_selectiveAssign_eq (target : Name) (function : ExprId) (left : Option ExprId)
    (value : ExprId) (scope : ScopeId) :
    node c scope (.selectiveAssign target function left value) =
      assignSelected c (selected c function · · scope) target left value scope := by
  unfold node selectiveAssign replacement assignSelected beforeSelecting
  simp only [bind_assoc, pure_bind]

/-- The parts before the selection leave the arena, so the function is found where it was. -/
theorem arena_of_ends_beforeSelecting {p : Value × Option Value × Value}
    (h : Ends c (beforeSelecting c target left value scope) m (.ok p) m') : m'.arena = m.arena := by
  simp only [beforeSelecting, ends_bind_ok_iff] at h
  obtain ⟨v, s, hv, l, s', hl, current, s'', hcurrent, hp⟩ := h
  obtain ⟨-, rfl⟩ := ends_pure_iff.mp hp
  rw [ends_variableValue_ok hcurrent, (sameControl_of_ends_evaluateOptional hl).arena,
    (control_keptBy.ends trivial (ends_ask_iff.mp hv)).arena]

/-- In place, the function is applied without ever being a value. -/
theorem selectedInPlace_eq (operator : Name) (lo : ExprId) (ro : Option ExprId) (scope : ScopeId)
    (left : Option Value) (current : Value) :
    selectedInPlace c operator lo ro scope left current =
      applied c operator lo ro scope >>= fun f =>
        ofBody scope (Selection.positions c.tower (Body.apply f) left current) := by
  unfold selectedInPlace applied Selection.derivedPositions
  simp only [bind_assoc, pure_bind, ofBody_bind]
  rfl

theorem expr_of_expr? {e : ExprId} {x : Expr} (hx : c.expr? m.arena e = some x) :
    expr c e m = .finished (.ok x) m := by
  rw [expr_apply, hx]
  rfl

/-- On a machine of an arena in which the function is an operator application, the positions are
found in place. -/
theorem selected_of_derived {left : Option Value} {current : Value}
    (hx : c.expr? m.arena function = some ⟨.derived operator lo ro, span⟩) :
    selected c function left current scope m =
      selectedInPlace c operator lo ro scope left current m := by
  unfold selected
  rw [bind_of_finished (expr_of_expr? hx)]
  rfl

/-- Both ways to select from an array go the same way. -/
theorem follows_selected {left : Option Value} {current : Value}
    (hx : c.expr? m.arena function = some ⟨.derived operator lo ro, span⟩) :
    Follows c m (selectedByFunction c function scope left current)
        (selectedInPlace c operator lo ro scope left current) ∧
      Follows c m (selectedInPlace c operator lo ro scope left current)
        (selectedByFunction c function scope left current) := by
  rw [selectedInPlace_eq]
  exact ⟨(follows_applied hx).1.bind_left _, (follows_applied hx).2.bind_left _⟩

/-- **Both ways of selecting through an operator agree.** Let the function of a selective assignment
be an operator application. The assignment evaluates the right operand, then the left one, applies
the operator and selects, all in place; and it ends with the same value, or with an error of the
same cause and notes, and on the same machine and scopes as if it had evaluated the application to
a function and selected with that. -/
theorem operator_selection_agrees {e : ExprId} {span' : Span}
    (hassignment : c.expr? m.arena e =
      some ⟨.selectiveAssign target function left value, span⟩)
    (hfunction : c.expr? m.arena function = some ⟨.derived operator lo ro, span'⟩) :
    (∀ r m', Ends c (step c (.evaluate e scope)) m r m' ↔
      Ends c ((assignSelected c (selectedInPlace c operator lo ro scope) target left value
        scope).locating span) m r m') ∧
    (∀ r m', Ends c (step c (.evaluate e scope)) m r m' →
      ∃ r', Ends c ((assignSelected c (selectedByFunction c function scope) target left value
        scope).locating span) m r' m' ∧ SameResult r r') ∧
    ∀ r m', Ends c ((assignSelected c (selectedByFunction c function scope) target left value
        scope).locating span) m r m' →
      ∃ r', Ends c (step c (.evaluate e scope)) m r' m' ∧ SameResult r r' := by
  have harena : ∀ {p n}, Ends c (beforeSelecting c target left value scope) m (.ok p) n →
      c.expr? n.arena function = some ⟨.derived operator lo ro, span'⟩ := by
    intro p n h
    rw [arena_of_ends_beforeSelecting h, hfunction]
  have hstep : ∀ r m', Ends c (step c (.evaluate e scope)) m r m' ↔
      Ends c ((assignSelected c (selectedInPlace c operator lo ro scope) target left value
        scope).locating span) m r m' := by
    intro r m'
    have hnode : ∀ r₀, Ends c (node c scope (.selectiveAssign target function left value)) m r₀ m' ↔
        Ends c (assignSelected c (selectedInPlace c operator lo ro scope) target left value scope)
          m r₀ m' := by
      intro r₀
      rw [node_selectiveAssign_eq]
      apply ends_bind_congr
      -- the operands are in the arena in which the assignment started
      intro ⟨v, l, current⟩ n hp r m'
      apply ends_congr
      show (selected c function l current scope >>= _) n =
        (selectedInPlace c operator lo ro scope l current >>= _) n
      rw [bind_apply, bind_apply, selected_of_derived (harena hp)]
    rw [ends_evaluate_iff hassignment, ends_locating_iff]
    simp only [hnode]
  refine ⟨hstep, fun r m' h => ?_, fun r m' h => ?_⟩
  · refine Follows.locating (Follows.bind_right fun p n hp => ?_) span r m' ((hstep r m').mp h)
    exact (follows_selected (harena hp)).1.bind_left _
  · have hfollows : Follows c m
        ((assignSelected c (selectedInPlace c operator lo ro scope) target left value
          scope).locating span)
        ((assignSelected c (selectedByFunction c function scope) target left value
          scope).locating span) := by
      refine Follows.locating (Follows.bind_right fun p n hp => ?_) span
      exact (follows_selected (harena hp)).2.bind_left _
    obtain ⟨r', hend, hsame⟩ := hfollows r m' h
    exact ⟨r', (hstep r' m').mpr hend, hsame⟩

/-- `(1/ X)←9`: the operator rejects its operand both ways. In place the error is at the whole
assignment, and as a function `1/` is the place of it. -/
theorem operator_selection_agrees_misplaced :
    ∃ err err' m',
      Ends .misplaced (step .misplaced (.evaluate ⟨5⟩ ⟨0⟩)) .misplaced (.error err) m' ∧
      Ends .misplaced ((assignSelected .misplaced (selectedByFunction .misplaced ⟨1⟩ ⟨0⟩) ⟨6⟩ none
        ⟨4⟩ ⟨0⟩).locating ⟨0, 8⟩) .misplaced (.error err') m' ∧
      err.Alike err' ∧ err.span = some ⟨0, 8⟩ ∧ err'.span = some ⟨1, 3⟩ := by
  have hinPlace : ∃ (err : EvalError) (m' : Machine),
      Ends .misplaced (step .misplaced (.evaluate ⟨5⟩ ⟨0⟩)) .misplaced
        (.error { err with span := some ⟨0, 8⟩ }) m' := ⟨_, _, ⟨20, rfl⟩⟩
  have hbyFunction : ∃ (err : EvalError) (m' : Machine),
      Ends .misplaced ((assignSelected .misplaced (selectedByFunction .misplaced ⟨1⟩ ⟨0⟩) ⟨6⟩ none
        ⟨4⟩ ⟨0⟩).locating ⟨0, 8⟩) .misplaced
        (.error { err with span := some ⟨1, 3⟩ }) m' := ⟨_, _, ⟨20, rfl⟩⟩
  obtain ⟨err, m', hend⟩ := hinPlace
  obtain ⟨err', m'', hend'⟩ := hbyFunction
  have hassignment : Context.misplaced.expr? Machine.misplaced.arena ⟨5⟩ =
      some ⟨.selectiveAssign ⟨6⟩ ⟨1⟩ none ⟨4⟩, ⟨0, 8⟩⟩ := rfl
  have hfunction : Context.misplaced.expr? Machine.misplaced.arena ⟨1⟩ =
      some ⟨.derived ⟨5⟩ ⟨0⟩ none, ⟨1, 3⟩⟩ := rfl
  obtain ⟨-, hagrees, -⟩ := operator_selection_agrees hassignment hfunction
  obtain ⟨r', h, hsame⟩ := hagrees _ _ hend
  obtain ⟨rfl, rfl⟩ := hend'.unique h
  cases hsame with
  | error halike => exact ⟨_, _, _, hend, h, halike, rfl, rfl⟩

end Eval

end ArrayLang

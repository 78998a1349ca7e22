import ArrayLang.Proofs.Evaluation.Questions
import ArrayLang.Proofs.Selection.Phases

/-!
# Errors without a place

A node gives no error a place: what it fails with is the error of one of the evaluations and calls
that it asks for, or one that it raises itself and that has no place yet (`Eval.unplacing_node`).
Places come from the outside, where the node is evaluated as an expression.
-/

namespace ArrayLang.Eval

variable {α β : Type} {c : Context} {scope : ScopeId}

/-- Whatever the step fails with has no place, or is the error of one of its questions. -/
def Unplacing (c : Context) (x : Eval α) : Prop :=
  ∀ ⦃m e m'⦄, Ends c x m (.error e) m' →
    e.span = none ∨ ∃ q n s, Puts c x m q n ∧ Ends c (step c q) n (.error e) s

/-! ## Composition -/

/-- A step without questions raises its errors itself. -/
theorem unplacing_of_finished {x : Eval α} (h : ∀ m, ∃ r m', x m = .finished r m' ∧
    ∀ e, r = .error e → e.span = none) : Unplacing c x := by
  intro m e m' hend
  obtain ⟨r, s, hx, hr⟩ := h m
  exact .inl (hr e ((ends_of_eq hx).unique hend).1.symm)

/-- What always gives a value raises nothing. -/
theorem unplacing_of_value {x : Eval α} (h : ∀ m, ∃ a m', x m = .finished (.ok a) m') :
    Unplacing c x := by
  refine unplacing_of_finished fun m => ?_
  obtain ⟨a, s, hx⟩ := h m
  exact ⟨.ok a, s, hx, fun e he => by cases he⟩

/-- An error made up outside of the evaluator has no place. -/
theorem unplacing_ofExcept {r : Except EvalError α} (h : ∀ e, r = .error e → e.span = none) :
    Unplacing c (ofExcept r) := unplacing_of_finished fun m => ⟨r, m, rfl, h⟩

theorem unplacing_pure (a : α) : Unplacing c (pure a) := unplacing_of_value fun m => ⟨a, m, rfl⟩

theorem unplacing_fail (cause : Cause) : Unplacing c (fail (.of cause) : Eval α) := by
  refine unplacing_ofExcept (r := .error (.of cause)) ?_
  rintro _ ⟨⟩
  rfl

/-- What fails in a question is the question. -/
theorem unplacing_ask (q : Request) : Unplacing c (ask q) :=
  fun m _ m' hend => .inr ⟨q, m, m', .here, ends_ask_iff.mp hend⟩

/-- Errors of either step are errors without a place. -/
theorem Unplacing.bind {x : Eval α} {f : α → Eval β} (hx : Unplacing c x)
    (hf : ∀ a, Unplacing c (f a)) : Unplacing c (x >>= f) := by
  intro m e m' hend
  rcases ends_bind_iff.mp hend with ⟨a, s, ha, hrest⟩ | ⟨e', hfail, heq⟩
  · exact (hf a hrest).imp_right fun ⟨q, n, t, hput, hq⟩ => ⟨q, n, t, hput.bind_right ha, hq⟩
  · cases heq
    exact (hx hfail).imp_right fun ⟨q, n, t, hput, hq⟩ => ⟨q, n, t, hput.bind_left, hq⟩

theorem Unplacing.map {x : Eval α} (hx : Unplacing c x) (f : α → β) : Unplacing c (f <$> x) :=
  hx.bind fun a => unplacing_pure (f a)

/-! ## The machine -/

theorem unplacing_found (o : Option α) : Unplacing c (found o) := by
  intro m e m' hend
  obtain ⟨b, -, hr, -⟩ := ends_found_iff.mp hend
  cases hr

theorem unplacing_currentArenaId : Unplacing c currentArenaId :=
  unplacing_of_value fun m => ⟨m.arena, m, rfl⟩

theorem unplacing_currentArena : Unplacing c (currentArena c) :=
  unplacing_currentArenaId.bind fun _ => unplacing_found _

/-- An unknown name is reported without a place; the node that reads it has one. -/
theorem unplacing_variableValue (x : Name) : Unplacing c (variableValue c x scope) := by
  refine unplacing_of_finished fun m => ?_
  cases hv : m.scopes.lookup? scope x with
  | some v =>
      refine ⟨_, m, variableValue_of_some hv, ?_⟩
      rintro _ ⟨⟩
  | none =>
      refine ⟨_, m, variableValue_of_none hv, ?_⟩
      rintro _ ⟨⟩
      rfl

theorem unplacing_define (x : Name) (v : Value) : Unplacing c (define x v scope) :=
  unplacing_of_value fun _ => ⟨(), _, rfl⟩

theorem unplacing_store (x : Name) (v : Value) : Unplacing c (store c x v scope) := by
  refine unplacing_of_finished fun m => ?_
  cases hs : m.scopes.assign? scope x v with
  | some scopes =>
      refine ⟨_, _, store_of_some hs, ?_⟩
      rintro _ ⟨⟩
  | none =>
      refine ⟨_, m, store_of_none hs, ?_⟩
      rintro _ ⟨⟩
      rfl

/-! ## Nodes -/

theorem unplacing_evaluateOptional (e : Option ExprId) :
    Unplacing c (evaluateOptional e scope) := by
  cases e with
  | none => exact unplacing_pure none
  | some e => exact (unplacing_ask _).map some

theorem unplacing_evaluateOnto (behind : List Value) (es : List ExprId) :
    Unplacing c (evaluateOnto scope behind es) := by
  induction es generalizing behind with
  | nil => exact unplacing_pure behind
  | cons e es ih => exact (unplacing_ask _).bind fun v => ih (v :: behind)

theorem unplacing_strand (items : List ExprId) : Unplacing c (strand items scope) := by
  unfold strand
  split
  · exact unplacing_pure _
  · exact (unplacing_evaluateOnto [] items.reverse).bind fun _ => unplacing_pure _

/-- A value that is no function is refused by its kind, without a place. -/
theorem unplacing_evaluateCallable (e : ExprId) : Unplacing c (evaluateCallable e scope) := by
  refine (unplacing_ask _).bind fun v => ?_
  split
  · exact unplacing_pure _
  · exact unplacing_fail _

theorem unplacing_operands (left : ExprId) (right : Option ExprId) :
    Unplacing c (operands left right scope) :=
  (unplacing_evaluateOptional right).bind fun _ => (unplacing_ask _).bind fun _ =>
    unplacing_pure _

/-- An operator says nothing on where it is applied. -/
theorem span_derive {operator : Name} {left : Value} {right : Option Value} {e : EvalError}
    (h : derive c operator left right = .error e) : e.span = none := by
  unfold derive Registry.derive at h
  simp only at h
  split at h
  · cases h
    rfl
  · split at h
    · cases h
    · cases h
      rfl

theorem unplacing_derive (operator : Name) (left : Value) (right : Option Value) :
    Unplacing c (ofExcept (derive c operator left right)) :=
  unplacing_ofExcept fun _ => span_derive

/-- The function of a selective assignment is taken apart outside of any node, which is why an error
of making it has no place yet. -/
theorem unplacing_selector (function : ExprId) : Unplacing c (selector c function scope) := by
  refine (unplacing_currentArena.bind fun _ => unplacing_found _).bind fun x => ?_
  split
  · exact (unplacing_operands _ _).bind fun _ =>
      (unplacing_derive _ _ _).bind fun _ => unplacing_pure _
  · exact unplacing_evaluateCallable function

theorem unplacing_pick (f : Callable) (left : Option Value) (current : Value) :
    Unplacing c (pick f left current scope) := by
  unfold pick
  split
  · exact unplacing_pure none
  · exact (unplacing_ask _).map some

/-- No phase of a selective assignment gives an error a place. -/
theorem unplacing_selectiveAssign (target : Name) (function : ExprId) (left : Option ExprId)
    (value : ExprId) : Unplacing c (selectiveAssign c target function left value scope) := by
  rw [selectiveAssign_eq]
  have hprepared : Unplacing c (prepared c target function left value scope) :=
    (unplacing_ask _).bind fun _ => (unplacing_evaluateOptional left).bind fun _ =>
      (unplacing_variableValue target).bind fun _ => (unplacing_selector function).bind fun _ =>
        (unplacing_pick _ _ _).bind fun _ => unplacing_pure _
  refine hprepared.bind fun p => (unplacing_ofExcept fun e he => ?_).bind fun updated =>
    (unplacing_store target updated).bind fun _ => unplacing_pure _
  obtain ⟨cause, rfl, -⟩ := p.exists_of_updated_error he
  rfl

/-- **A node gives no error a place.** -/
theorem unplacing_node (n : Node) : Unplacing c (node c scope n) := by
  cases n with
  | int | float | bool | text | primitive => exact unplacing_pure _
  | strand items =>
      exact unplacing_currentArena.bind fun _ => (unplacing_found _).bind fun items =>
        unplacing_strand items
  | «variable» x => exact unplacing_variableValue x
  | closure body =>
      exact unplacing_currentArenaId.bind fun _ => unplacing_pure _
  | derived operator left right =>
      exact (unplacing_operands left right).bind fun _ =>
        (unplacing_derive operator _ _).bind fun _ => unplacing_pure _
  | call function left right =>
      exact (unplacing_ask _).bind fun _ => (unplacing_evaluateCallable function).bind fun _ =>
        (unplacing_evaluateOptional left).bind fun _ => unplacing_ask _
  | assign target value =>
      exact (unplacing_ask _).bind fun v => (unplacing_define target v).bind fun _ =>
        unplacing_pure v
  | selectiveAssign target function left value =>
      exact unplacing_selectiveAssign target function left value

end ArrayLang.Eval

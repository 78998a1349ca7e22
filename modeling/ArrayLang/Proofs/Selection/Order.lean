import ArrayLang.Proofs.Selection.Operators

/-!
# The order of parts

The call `L f X` evaluates `X`, then `f`, then `L`. The selective assignment `(L f X)←V` evaluates
`V`, and then `L` before it reads `X` and evaluates `f`. Where one part fails, both fail alike, as
long as it makes no difference to `L` that it comes first (`Eval.fails_in_order`). If several parts
fail, they report different ones (`Eval.fails_out_of_order`).
-/

namespace ArrayLang

namespace Eval

variable {c : Context} {target : Name} {function right value : ExprId} {left : Option ExprId}
  {scope : ScopeId} {m m' n : Machine} {err : EvalError}

/-! ## Parts of a call -/

/-- What a call evaluates before its left argument. -/
def callHead (function right : ExprId) (scope : ScopeId) : Eval (Value × Callable) := do
  let right ← evaluate right scope
  let f ← evaluateCallable function scope
  return (right, f)

/-- The parts of a call, in the order in which it evaluates them. -/
def callParts (function : ExprId) (left : Option ExprId) (right : ExprId) (scope : ScopeId) :
    Eval (Callable × Option Value × Value) := do
  let (right, f) ← callHead function right scope
  let left ← evaluateOptional left scope
  return (f, left, right)

/-- A call is its parts and then the call itself. -/
theorem node_call_eq (function : ExprId) (left : Option ExprId) (right : ExprId) (scope : ScopeId) :
    node c scope (.call function left right) =
      callParts function left right scope >>= fun p => call p.1 p.2.1 p.2.2 scope := by
  unfold node callParts callHead
  simp only [bind_assoc, pure_bind]

/-- The parts of a selective assignment without its right side, in the order in which it evaluates
them. -/
def selectionParts (c : Context) (target : Name) (function : ExprId) (left : Option ExprId)
    (scope : ScopeId) : Eval (Callable × Option Value × Value) := do
  let left ← evaluateOptional left scope
  let current ← variableValue c target scope
  let f ← evaluateCallable function scope
  return (f, left, current)

/-! ## Machines -/

/-- Scopes are all that an evaluation can change for good. -/
theorem eq_of_sameControl (h : SameControl m n) (hscopes : n.scopes = m.scopes) : n = m := by
  obtain ⟨arena, calls, scopes⟩ := m
  obtain ⟨arena', calls', scopes'⟩ := n
  obtain ⟨rfl, rfl⟩ := h
  cases hscopes
  rfl

/-- Evaluating parts returns to the frame of the call. -/
theorem sameControl_of_ends_callHead {p : Value × Callable}
    (h : Ends c (callHead function right scope) m (.ok p) n) : SameControl m n := by
  simp only [callHead, evaluateCallable, bind_assoc, ends_bind_ok_iff] at h
  obtain ⟨r, s, hr, v, t, hv, f, u, hf, hp⟩ := h
  obtain ⟨-, rfl⟩ := ends_pure_iff.mp hp
  have hsame := trans_of SameControl (control_keptBy.ends trivial (ends_ask_iff.mp hr))
    (control_keptBy.ends trivial (ends_ask_iff.mp hv))
  cases hcallable : v.callable? with
  | none =>
      simp only [hcallable] at hf
      cases (ends_ofExcept_iff.mp hf).1
  | some g =>
      simp only [hcallable] at hf
      obtain ⟨-, rfl⟩ := ends_pure_iff.mp hf
      exact hsame

/-! ## Functions that fail -/

/-- What could be evaluated at all is in the arena. -/
theorem exists_expr_of_ends {e : ExprId} {r : Except EvalError Value}
    (h : Ends c (step c (.evaluate e scope)) m r m') : ∃ x, c.expr? m.arena e = some x := by
  rcases ends_bind_iff.mp h with ⟨x, s, hx, -⟩ | ⟨e, hx, -⟩
  · obtain ⟨x, hexpr, -, -⟩ := ends_expr_iff.mp hx
    exact ⟨x, hexpr⟩
  · obtain ⟨x, hexpr, -, -⟩ := ends_expr_iff.mp hx
    exact ⟨x, hexpr⟩

/-- The function of a selective assignment fails as that of a call does. -/
theorem ends_selector_error (h : Ends c (evaluateCallable function scope) m (.error err) m') :
    ∃ err', Ends c (selector c function scope) m (.error err') m' ∧ err.Alike err' := by
  obtain ⟨⟨node, span⟩, hx⟩ : ∃ x, c.expr? m.arena function = some x := by
    rcases ends_bind_iff.mp h with ⟨v, s, hv, -⟩ | ⟨e, he, -⟩
    · exact exists_expr_of_ends (ends_ask_iff.mp hv)
    · exact exists_expr_of_ends (ends_ask_iff.mp he)
  have hexpr : Ends c (expr c function) m (.ok ⟨node, span⟩) m :=
    ends_expr_iff.mpr ⟨_, hx, rfl, rfl⟩
  cases node with
  | derived operator lo ro =>
      obtain ⟨r₀, happlied, heq⟩ := (ends_evaluateCallable_derived hx).mp h
      cases r₀ with
      | ok f => cases heq
      | error err₀ =>
          cases heq
          exact ⟨err₀, ends_bind_iff.mpr (.inl ⟨_, m, hexpr, happlied⟩),
            ((EvalError.Alike.refl err₀).locate span).symm⟩
  | _ => exact ⟨err, ends_bind_iff.mpr (.inl ⟨_, m, hexpr, h⟩), .refl err⟩

/-! ## Calls and assignments that fail -/

/-- An error of the node is one of its expression, up to the place. -/
theorem fails_of_ends_node {e : ExprId} {x : Expr} (hx : c.expr? m.arena e = some x)
    {err₀ : EvalError} (hend : Ends c (node c scope x.node) m (.error err₀) m')
    (h : err.Alike err₀) :
    ∃ err', Ends c (step c (.evaluate e scope)) m (.error err') m' ∧ err.Alike err' :=
  ⟨err₀.locate x.span, (ends_evaluate_iff hx).mpr ⟨_, hend, rfl⟩, h.locate x.span⟩

/-- A part that fails ends the call. -/
theorem ends_call_error (h : Ends c (callParts function left right scope) m (.error err) m') :
    Ends c (node c scope (.call function left right)) m (.error err) m' := by
  rw [node_call_eq]
  exact ends_bind_iff.mpr (.inr ⟨err, h, rfl⟩)

/-- Once its right side has a value, an assignment fails as its other parts do. -/
theorem ends_prepared_error {w : Value} (hvalue : Ends c (evaluate value scope) m (.ok w) n)
    (h : Ends c (selectionParts c target function left scope) n (.error err) m') :
    ∃ err', Ends c (prepared c target function left value scope) m (.error err') m' ∧
      err.Alike err' := by
  rcases ends_bind_iff.mp h with ⟨l, s, hl, h⟩ | ⟨e, hl, heq⟩
  · rcases ends_bind_iff.mp h with ⟨current, t, hcurrent, h⟩ | ⟨e, hcurrent, heq⟩
    · rcases ends_bind_iff.mp h with ⟨f, u, -, hpure⟩ | ⟨e, hf, heq⟩
      · cases (ends_pure_iff.mp hpure).1
      · cases heq
        obtain ⟨err', hselector, halike⟩ := ends_selector_error hf
        exact ⟨err', ends_prepared_of_selector hvalue hl hcurrent hselector, halike⟩
    · cases heq
      refine ⟨err, ends_bind_iff.mpr (.inl ⟨w, n, hvalue, ?_⟩), .refl err⟩
      exact ends_bind_iff.mpr (.inl ⟨l, s, hl, ends_bind_iff.mpr (.inr ⟨err, hcurrent, rfl⟩)⟩)
  · cases heq
    refine ⟨err, ends_bind_iff.mpr (.inl ⟨w, n, hvalue, ?_⟩), .refl err⟩
    exact ends_bind_iff.mpr (.inr ⟨err, hl, rfl⟩)

/-- A part of a selection that fails ends the selective assignment, after its value has been
evaluated. -/
theorem ends_selectiveAssign_error_of_parts {w : Value}
    (hvalue : Ends c (evaluate value scope) m (.ok w) n)
    (h : Ends c (selectionParts c target function left scope) n (.error err) m') :
    ∃ err', Ends c (node c scope (.selectiveAssign target function left value)) m (.error err') m' ∧
      err.Alike err' := by
  obtain ⟨err', hprepared, halike⟩ := ends_prepared_error hvalue h
  refine ⟨err', ?_, halike⟩
  show Ends c (selectiveAssign c target function left value scope) m (.error err') m'
  rw [selectiveAssign_eq]
  exact ends_bind_iff.mpr (.inr ⟨err', hprepared, rfl⟩)

/-! ## One order for the other -/

/-- It makes no difference in this state that the left argument comes first: where the rest gives
values it changes no scope, and where it fails the left argument gives a value and changes none. -/
structure LeftFirst (c : Context) (function : ExprId) (left : Option ExprId) (right : ExprId)
    (scope : ScopeId) (m : Machine) : Prop where
  head : left.isSome = true → ∀ p n, Ends c (callHead function right scope) m (.ok p) n →
    n.scopes = m.scopes
  left : ∀ err n, Ends c (callHead function right scope) m (.error err) n →
    ∃ l n', Ends c (evaluateOptional left scope) m (.ok l) n' ∧ n'.scopes = m.scopes

/-- There is no order without a left argument. -/
theorem leftFirst_none (c : Context) (function right : ExprId) (scope : ScopeId) (m : Machine) :
    LeftFirst c function none right scope m where
  head := nofun
  left _ _ _ := ⟨none, m, ends_pure_iff.mpr ⟨rfl, rfl⟩, rfl⟩

/-- A variable is read in the scopes as they are. -/
theorem ends_evaluate_variable {span : Span} {r : Except EvalError Value}
    (hright : c.expr? m.arena right = some ⟨.variable target, span⟩)
    (h : Ends c (evaluate right scope) m r m') :
    ∃ r₀, Ends c (variableValue c target scope) m r₀ m ∧ m' = m ∧
      r = r₀.mapError fun e => e.locate span := by
  obtain ⟨r₀, hr₀, hr⟩ := (ends_evaluate_iff hright).mp (ends_ask_iff.mp h)
  have hr₀ : Ends c (variableValue c target scope) m r₀ m' := hr₀
  have hsame : m' = m := by
    cases hv : m.scopes.lookup? scope target with
    | some v => exact (hr₀.unique (ends_of_eq (variableValue_of_some hv))).2.symm
    | none => exact (hr₀.unique (ends_of_eq (variableValue_of_none hv))).2.symm
  exact ⟨r₀, hsame ▸ hr₀, hsame, hr⟩

/-- **Then the parts of the assignment fail as those of the call do.** -/
theorem LeftFirst.fails (hfirst : LeftFirst c function left right scope m) {span : Span}
    (hright : c.expr? m.arena right = some ⟨.variable target, span⟩)
    (h : Ends c (callParts function left right scope) m (.error err) m') :
    ∃ err', Ends c (selectionParts c target function left scope) m (.error err') m' ∧
      err.Alike err' := by
  rcases ends_bind_iff.mp h with ⟨p, s, hhead, h⟩ | ⟨e, hhead, heq⟩
  · -- the left argument fails, and nothing that came before has left a trace
    rcases ends_bind_iff.mp h with ⟨l, t, -, hpure⟩ | ⟨e, hl, heq⟩
    · cases (ends_pure_iff.mp hpure).1
    · cases heq
      have hsome : left.isSome = true := by
        cases left with
        | none => cases (ends_pure_iff.mp hl).1
        | some left => rfl
      obtain rfl := eq_of_sameControl (sameControl_of_ends_callHead hhead)
        (hfirst.head hsome p s hhead)
      exact ⟨err, ends_bind_iff.mpr (.inr ⟨err, hl, rfl⟩), .refl err⟩
  · cases heq
    -- the left argument comes first here, and leaves everything as it was
    obtain ⟨l, s, hl, hscopes⟩ := hfirst.left err m' hhead
    obtain rfl := eq_of_sameControl (sameControl_of_ends_evaluateOptional hl) hscopes
    -- either the function fails, after the target was read, or reading the target does
    rcases ends_bind_iff.mp hhead with ⟨v, t, hv, hf⟩ | ⟨e, hv, heq⟩
    · obtain ⟨r₀, hr₀, rfl, hr⟩ := ends_evaluate_variable hright hv
      cases r₀ with
      | error e => cases hr
      | ok current =>
          rcases ends_bind_iff.mp hf with ⟨f, u, -, hpure⟩ | ⟨e, hf, heq⟩
          · cases (ends_pure_iff.mp hpure).1
          · cases heq
            refine ⟨err, ends_bind_iff.mpr (.inl ⟨l, t, hl, ?_⟩), .refl err⟩
            refine ends_bind_iff.mpr (.inl ⟨current, t, hr₀, ?_⟩)
            exact ends_bind_iff.mpr (.inr ⟨err, hf, rfl⟩)
    · cases heq
      obtain ⟨r₀, hr₀, rfl, hr⟩ := ends_evaluate_variable hright hv
      cases r₀ with
      | ok current => cases hr
      | error err₀ =>
          cases hr
          refine ⟨err₀, ends_bind_iff.mpr (.inl ⟨l, _, hl, ?_⟩),
            ((EvalError.Alike.refl err₀).locate span).symm⟩
          exact ends_bind_iff.mpr (.inr ⟨err₀, hr₀, rfl⟩)

/-- **A selective assignment fails in its own order of parts**, the left argument first, and a call
in the other one. Let the right side of the assignment give a value and change no scope.

* Where `L`, then `X`, then `f` fails, the assignment fails alike, over the same scopes.
* Where `X`, then `f`, then `L` fails, the call fails alike.
* If it makes no difference that `L` comes first, both are the same: whenever a part of the call
  fails, the call and the assignment end with the same cause and the same notes, and leave the same
  scopes. Without a left argument that is always so. -/
theorem fails_in_order (c : Context) (assignment callee : ExprId) {n : Machine}
    {span span' span'' : Span} {w : Value}
    (hassignment : c.expr? m.arena assignment =
      some ⟨.selectiveAssign target function left value, span⟩)
    (hcall : c.expr? m.arena callee = some ⟨.call function left right, span'⟩)
    (hright : c.expr? m.arena right = some ⟨.variable target, span''⟩)
    (hvalue : Ends c (step c (.evaluate value scope)) m (.ok w) n) (hscopes : n.scopes = m.scopes) :
    (∀ err m', Ends c (selectionParts c target function left scope) m (.error err) m' →
      ∃ err', Ends c (step c (.evaluate assignment scope)) m (.error err') m' ∧ err.Alike err') ∧
    (∀ err m', Ends c (callParts function left right scope) m (.error err) m' →
      ∃ err', Ends c (step c (.evaluate callee scope)) m (.error err') m' ∧ err.Alike err') ∧
    (left = none → LeftFirst c function left right scope m) ∧
    (LeftFirst c function left right scope m →
      ∀ err m', Ends c (callParts function left right scope) m (.error err) m' →
        ∃ err₁ err₂, Ends c (step c (.evaluate callee scope)) m (.error err₁) m' ∧
          Ends c (step c (.evaluate assignment scope)) m (.error err₂) m' ∧ err₁.Alike err₂) := by
  obtain rfl := eq_of_sameControl (control_keptBy.ends trivial hvalue) hscopes
  have hassign : ∀ err m', Ends c (selectionParts c target function left scope) n (.error err) m' →
      ∃ err', Ends c (step c (.evaluate assignment scope)) n (.error err') m' ∧ err.Alike err' := by
    intro err m' h
    obtain ⟨err₀, hend, halike⟩ := ends_selectiveAssign_error_of_parts (ends_ask_iff.mpr hvalue) h
    exact fails_of_ends_node hassignment hend halike
  have hcalls : ∀ err m', Ends c (callParts function left right scope) n (.error err) m' →
      ∃ err', Ends c (step c (.evaluate callee scope)) n (.error err') m' ∧ err.Alike err' :=
    fun err m' h => fails_of_ends_node hcall (ends_call_error h) (.refl err)
  refine ⟨hassign, hcalls, ?_, fun hfirst err m' h => ?_⟩
  · rintro rfl
    exact leftFirst_none c function right scope n
  · obtain ⟨err₁, h₁, halike₁⟩ := hcalls err m' h
    obtain ⟨err₀, h₀, halike₀⟩ := hfirst.fails hright h
    obtain ⟨err₂, h₂, halike₂⟩ := hassign err₀ m' h₀
    exact ⟨err₁, err₂, h₁, h₂, halike₁.symm.trans (halike₀.trans halike₂)⟩

end Eval

/-- `9 F X` and `(9 F X)←9`, and the same with `A` for the left argument. Nothing but `X` is
there. -/
def Context.abbreviating : Context where
  registry := .empty (Interner.initial.internAll ["X", "F", "A"])
  tower := .standard
  arenas := #[{
    exprs := #[⟨.variable ⟨5⟩, .dummy⟩, ⟨.variable ⟨6⟩, .dummy⟩, ⟨.int 9, .dummy⟩,
      ⟨.call ⟨1⟩ (some ⟨2⟩) ⟨0⟩, .dummy⟩, ⟨.selectiveAssign ⟨5⟩ ⟨1⟩ (some ⟨2⟩) ⟨2⟩, .dummy⟩,
      ⟨.variable ⟨7⟩, .dummy⟩, ⟨.call ⟨1⟩ (some ⟨5⟩) ⟨0⟩, .dummy⟩,
      ⟨.selectiveAssign ⟨5⟩ ⟨1⟩ (some ⟨5⟩) ⟨2⟩, .dummy⟩]
    items := #[]
    guards := #[] }]

/-- A scope in which `X` is `1 2 3`. -/
def Machine.abbreviating : Machine where
  arena := ⟨0⟩
  calls := .empty 10
  scopes := Scopes.empty.outermost.2.define ⟨0⟩ ⟨5⟩ (.vector [.int 1, .int 2, .int 3])

namespace Eval

/-- The left argument of `9 F X` may come first, so the call and the assignment both miss `F`. -/
theorem fails_in_order_abbreviating :
    ∃ err₁ err₂ m',
      Ends .abbreviating (step .abbreviating (.evaluate ⟨3⟩ ⟨0⟩)) .abbreviating (.error err₁) m' ∧
      Ends .abbreviating (step .abbreviating (.evaluate ⟨4⟩ ⟨0⟩)) .abbreviating (.error err₂) m' ∧
      err₁.cause = .undefinedVariable "F" ∧ err₁.Alike err₂ := by
  have hvalue : Ends .abbreviating (step .abbreviating (.evaluate ⟨2⟩ ⟨0⟩)) .abbreviating
      (.ok (.int 9)) .abbreviating := ⟨20, rfl⟩
  have hhead : Ends .abbreviating (callHead ⟨1⟩ ⟨0⟩ ⟨0⟩) .abbreviating
      (.error (.of (.undefinedVariable "F"))) .abbreviating := ⟨20, rfl⟩
  have hparts : Ends .abbreviating (callParts ⟨1⟩ (some ⟨2⟩) ⟨0⟩ ⟨0⟩) .abbreviating
      (.error (.of (.undefinedVariable "F"))) .abbreviating := ⟨20, rfl⟩
  have hfirst : LeftFirst .abbreviating ⟨1⟩ (some ⟨2⟩) ⟨0⟩ ⟨0⟩ .abbreviating := {
    head := by
      intro _ p n h
      cases (hhead.unique h).1
    left := fun err n _ => ⟨some (.int 9), _, ⟨20, rfl⟩, rfl⟩ }
  obtain ⟨-, hcall, -, hsame⟩ := fails_in_order .abbreviating ⟨4⟩ ⟨3⟩ rfl rfl rfl hvalue rfl
  obtain ⟨err₁, err₂, h₁, h₂, halike⟩ := hsame hfirst _ _ hparts
  obtain ⟨err, h, hlike⟩ := hcall _ _ hparts
  cases (h.unique h₁).1
  exact ⟨err₁, err₂, _, h₁, h₂, hlike.cause, halike⟩

/-- Where neither is there, `A F X` misses `F`, and `(A F X)←9` misses `A`. -/
theorem fails_out_of_order :
    ∃ err err₁ err₂ n m₁ m₂,
      Context.abbreviating.expr? ⟨0⟩ ⟨6⟩ = some ⟨.call ⟨1⟩ (some ⟨5⟩) ⟨0⟩, .dummy⟩ ∧
      Context.abbreviating.expr? ⟨0⟩ ⟨7⟩ = some ⟨.selectiveAssign ⟨5⟩ ⟨1⟩ (some ⟨5⟩) ⟨2⟩, .dummy⟩ ∧
      Context.abbreviating.expr? ⟨0⟩ ⟨0⟩ = some ⟨.variable ⟨5⟩, .dummy⟩ ∧
      Ends .abbreviating (step .abbreviating (.evaluate ⟨2⟩ ⟨0⟩)) .abbreviating (.ok (.int 9)) n ∧
      n.scopes = Machine.abbreviating.scopes ∧
      Ends .abbreviating (callParts ⟨1⟩ (some ⟨5⟩) ⟨0⟩ ⟨0⟩) .abbreviating (.error err) m₁ ∧
      Ends .abbreviating (step .abbreviating (.evaluate ⟨6⟩ ⟨0⟩)) .abbreviating (.error err₁) m₁ ∧
      Ends .abbreviating (step .abbreviating (.evaluate ⟨7⟩ ⟨0⟩)) .abbreviating (.error err₂) m₂ ∧
      err₁.cause = .undefinedVariable "F" ∧ err₂.cause = .undefinedVariable "A" ∧
      ¬ err₁.Alike err₂ := by
  refine ⟨_, _, _, _, _, _, rfl, rfl, rfl, ⟨20, rfl⟩, rfl, ⟨20, rfl⟩, ⟨20, rfl⟩, ⟨20, rfl⟩, rfl,
    rfl, ?_⟩
  intro halike
  have hcause : Cause.undefinedVariable "A" = .undefinedVariable "F" := halike.cause
  revert hcause
  decide

end Eval

end ArrayLang

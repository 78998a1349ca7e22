import ArrayLang.Proofs.Evaluation.Limit
import ArrayLang.Proofs.Evaluation.Raising

/-!
# The places of errors

An error that is raised without a place gets that of the innermost expression around it that has
one, and keeps it on the rest of its way out, whatever that leads through (`Eval.Surfaces`). Every
failing evaluation comes from a request that raised the error itself (`Eval.exists_origin`).

Only what is evaluated as an expression can be such a place. A selective assignment makes its
function itself if it is an operator application: the operands are evaluated, but the application is
not, and if it fails the place is that of the assignment (`Eval.innermost_place`,
`Eval.derived_in_place_misplaced`).
-/

namespace ArrayLang

/-- The request runs the body of a registered primitive or operator. -/
def Request.RunsBody : Request → Prop
  | .call (.primitive _) .. | .call (.derived _) .. => True
  | .call (.closure _) .. | .evaluate .. => False

namespace Eval

variable {c : Context} {q q' q'' : Request} {m m' m'' n n' s : Machine} {e : EvalError}

/-! ## Errors on their way out -/

/-- If the question fails that the request comes to, then the request fails with the same error. -/
def HandsOn (c : Context) (q : Request) (m : Machine) (q' : Request) (m' : Machine) : Prop :=
  ∀ e n, Ends c (step c q') m' (.error e) n →
    ∃ e' n', Ends c (step c q) m (.error e') n' ∧ e.Reaches e'

/-- Expressions and closures hand errors on. -/
theorem handsOn_of_puts (hp : Puts c (step c q) m q' m') (hq : ¬ q.RunsBody) :
    HandsOn c q m q' m' := by
  intro e n he
  match q, hq with
  | .evaluate e₀ scope, _ =>
      exact (within_passing_evaluate m.arena scope e₀).fails_of_puts rfl hp he
  | .call (.closure f) left right scope, _ => exact fails_of_puts_closure hp he
  | .call (.primitive symbol) left right scope, hq => exact absurd trivial hq
  | .call (.derived d) left right scope, hq => exact absurd trivial hq

/-- Answering `q` on `m` comes to the question `q'` on `m'`, and no body on the way keeps an error
of it to itself. -/
inductive Surfaces (c : Context) (q : Request) (m : Machine) : Request → Machine → Prop
  | refl : Surfaces c q m q m
  | tail {q' q'' : Request} {m' m'' : Machine} (h : Surfaces c q m q' m')
      (hp : Puts c (step c q') m' q'' m'') (hbody : q'.RunsBody → HandsOn c q' m' q'' m'') :
      Surfaces c q m q'' m''

/-- An error that surfaces from a question surfaces from whatever that question surfaces in. -/
theorem Surfaces.trans (h : Surfaces c q m q' m') (h' : Surfaces c q' m' q'' m'') :
    Surfaces c q m q'' m'' := by
  induction h' with
  | refl => exact h
  | tail _ hp hbody ih => exact ih.tail hp hbody

/-- In a registry that passes errors they all come out. -/
theorem Leads.surfaces (hpass : c.registry.PassesErrors) (h : Leads c q m q' m') :
    Surfaces c q m q' m' := by
  induction h with
  | refl => exact .refl
  | tail _ hp ih => exact ih.tail hp fun _ _ _ he => fails_of_puts hpass hp he

/-- Along such questions errors come out, with the innermost place they were given. -/
theorem Surfaces.fails (h : Surfaces c q m q' m') (he : Ends c (step c q') m' (.error e) n) :
    ∃ e' n', Ends c (step c q) m (.error e') n' ∧ e.Reaches e' := by
  induction h generalizing e n with
  | refl => exact ⟨e, n, he, .refl⟩
  | @tail q' q'' m' m'' _ hp hbody ih =>
      have hhands : HandsOn c q' m' q'' m'' := by
        by_cases hq : q'.RunsBody
        · exact hbody hq
        · exact handsOn_of_puts hp hq
      obtain ⟨e₁, n₁, h₁, hreach₁⟩ := hhands e n he
      obtain ⟨e₂, n₂, h₂, hreach₂⟩ := ih h₁
      exact ⟨e₂, n₂, h₂, hreach₁.trans hreach₂⟩

/-! ## Where errors begin -/

/-- The request does not hand an error on: whatever fails of what its step asks, a body keeps that
to itself. -/
def RaisesItself (c : Context) (q : Request) (m : Machine) : Prop :=
  ∀ q' m' e n, Puts c (step c q) m q' m' → Ends c (step c q') m' (.error e) n →
    q.RunsBody ∧ ¬ HandsOn c q m q' m'

/-- **Every error begins somewhere**: a request that fails leads to one that raises the error
itself, from where it comes out. -/
theorem exists_origin (h : Ends c (step c q) m (.error e) m') :
    ∃ q' n e₀ n', Surfaces c q m q' n ∧ RaisesItself c q' n ∧
      Ends c (step c q') n (.error e₀) n' ∧ e₀.Reaches e := by
  let Q : Request → Machine → Except EvalError Value → Machine → Prop := fun q m r _ =>
    ∀ e, r = .error e → ∃ q' n e₀ n', Surfaces c q m q' n ∧ RaisesItself c q' n ∧
      Ends c (step c q') n (.error e₀) n' ∧ e₀.Reaches e
  have hall : Q q m (.error e) m' := by
    refine h.induction fun q m r m' hend ih => ?_
    rintro e rfl
    by_cases hself : RaisesItself c q m
    · exact ⟨q, m, e, m', .refl, hself, hend, .refl⟩
    · -- a question failed and its error was handed on
      simp only [RaisesItself, not_forall, not_and, not_not] at hself
      obtain ⟨q₁, m₁, e₁, n₁, hput, hfail, hbody⟩ := hself
      obtain ⟨q', n, e₀, n', hsurf, hraise, h₀, hreach₀⟩ := ih q₁ m₁ _ n₁ hput hfail e₁ rfl
      have hone : Surfaces c q m q₁ m₁ := .tail .refl hput hbody
      obtain ⟨e', n₂, hfails, hreach⟩ := hone.fails hfail
      cases (hend.unique hfails).1
      exact ⟨q', n, e₀, n', hone.trans hsurf, hraise, h₀, hreach₀.trans hreach⟩
  exact hall e rfl

/-! ## Expressions as places -/

variable {α : Type} {x : Expr} {e₁ function value lo : ExprId} {left ro : Option ExprId}
  {operator target : Name} {scope : ScopeId} {a : Value} {b : Option Value} {err : EvalError}

/-- **An expression is the place** of an error that reaches it without one. -/
theorem Surfaces.located (h : Surfaces c q m (.evaluate e₁ scope) n)
    (hx : c.expr? n.arena e₁ = some x) (hplace : x.span ≠ .dummy)
    (hend : Ends c (node c scope x.node) n (.error err) n') (hspan : err.span = none) :
    ∃ m', Ends c (step c q) m (.error { err with span := some x.span }) m' := by
  have hstep : Ends c (step c (.evaluate e₁ scope)) n
      (.error { err with span := some x.span }) n' := by
    refine (ends_evaluate_iff hx).mpr ⟨_, hend, ?_⟩
    rw [← EvalError.locate_of_none hspan hplace]
    rfl
  obtain ⟨e', m', hq, hreach⟩ := h.fails hstep
  rw [hreach.eq_of_some rfl] at hq
  exact ⟨m', hq⟩

/-- An expression puts the questions of its node. -/
theorem puts_of_node (hx : c.expr? n.arena e₁ = some x) (h : Puts c (node c scope x.node) n q s) :
    Puts c (step c (.evaluate e₁ scope)) n q s := by
  have hexpr : Ends c (expr c e₁) n (.ok x) n := ends_expr_iff.mpr ⟨x, hx, rfl, rfl⟩
  exact Puts.bind_right hexpr (Progress.puts_mapEnd_iff.mpr h)

/-- **An expression in which nothing fails with a place is the place** if it fails itself. -/
theorem Surfaces.placed (h : Surfaces c q m (.evaluate e₁ scope) n)
    (hx : c.expr? n.arena e₁ = some x) (hplace : x.span ≠ .dummy)
    (hparts : ∀ q' s e₀ s', Puts c (step c (.evaluate e₁ scope)) n q' s →
      Ends c (step c q') s (.error e₀) s' → e₀.span = none)
    (hend : Ends c (step c (.evaluate e₁ scope)) n (.error err) n') :
    err.span = some x.span ∧ ∃ m', Ends c (step c q) m (.error err) m' := by
  obtain ⟨r₀, hnode, hr⟩ := (ends_evaluate_iff hx).mp hend
  cases r₀ with
  | ok v => cases hr
  | error e₀ =>
      cases hr
      have hspan : e₀.span = none := by
        rcases unplacing_node x.node hnode with hnone | ⟨q', s, s', hput, hfails⟩
        · exact hnone
        · exact hparts q' s e₀ s' (puts_of_node hx hput) hfails
      have hlocated : e₀.locate x.span = _ := EvalError.locate_of_none hspan hplace
      simp only [hlocated]
      exact ⟨trivial, h.located hx hplace hnode hspan⟩

/-! ### Operator applications -/

/-- An operator application fails as its operator rejects the operands. -/
theorem ends_derived_error (h : Ends c (operands lo ro scope) n (.ok (a, b)) s)
    (hderive : derive c operator a b = .error err) :
    Ends c (node c scope (.derived operator lo ro)) n (.error err) s := by
  refine ends_bind_iff.mpr (.inl ⟨(a, b), s, h, ends_bind_iff.mpr (.inr ⟨err, ?_, rfl⟩)⟩)
  exact ends_ofExcept_iff.mpr ⟨hderive.symm, rfl⟩

/-- What a selective assignment evaluates until it makes its function of an operator and these
operands. -/
def beforeDeriving (c : Context) (target : Name) (left : Option ExprId) (value lo : ExprId)
    (ro : Option ExprId) (scope : ScopeId) : Eval (Value × Option Value) := do
  let _ ← evaluate value scope
  let _ ← evaluateOptional left scope
  let _ ← variableValue c target scope
  operands lo ro scope

theorem sameControl_of_ends_evaluateOptional {r : Except EvalError (Option Value)}
    (h : Ends c (evaluateOptional left scope) m r m') : SameControl m m' := by
  cases left with
  | none =>
      obtain ⟨-, rfl⟩ := ends_pure_iff.mp h
      exact ⟨rfl, rfl⟩
  | some left =>
      rcases ends_bind_iff.mp h with ⟨v, s, hv, h⟩ | ⟨e, hv, -⟩
      · obtain ⟨-, rfl⟩ := ends_pure_iff.mp h
        exact control_keptBy.ends trivial (ends_ask_iff.mp hv)
      · exact control_keptBy.ends trivial (ends_ask_iff.mp hv)

/-- Reading a variable leaves the machine as it is. -/
theorem ends_variableValue_ok {w : Value} (h : Ends c (variableValue c target scope) m (.ok w) m') :
    m' = m := (ends_variableValue_ok_iff.mp h).2

/-- A selective assignment fails with the error of its function. -/
theorem ends_prepared_of_selector {w current : Value} {l : Option Value}
    (hw : Ends c (evaluate value scope) m (.ok w) m')
    (hl : Ends c (evaluateOptional left scope) m' (.ok l) n)
    (hcurrent : Ends c (variableValue c target scope) n (.ok current) n')
    (hselector : Ends c (selector c function scope) n' (.error err) s) :
    Ends c (prepared c target function left value scope) m (.error err) s := by
  refine ends_bind_iff.mpr (.inl ⟨w, m', hw, ends_bind_iff.mpr (.inl ⟨l, n, hl, ?_⟩)⟩)
  refine ends_bind_iff.mpr (.inl ⟨current, n', hcurrent, ends_bind_iff.mpr (.inr ?_)⟩)
  exact ⟨err, hselector, rfl⟩

/-- The assignment fails then with the very error of the operator, which has no place. -/
theorem ends_selectiveAssign_error (hfunction : ∃ span,
      c.expr? n.arena function = some ⟨.derived operator lo ro, span⟩)
    (h : Ends c (beforeDeriving c target left value lo ro scope) n (.ok (a, b)) s)
    (hderive : derive c operator a b = .error err) :
    Ends c (selectiveAssign c target function left value scope) n (.error err) s := by
  obtain ⟨span, hfunction⟩ := hfunction
  simp only [beforeDeriving, ends_bind_ok_iff] at h
  obtain ⟨w, s₁, hw, l, s₂, hl, current, s₃, hcurrent, hoperands⟩ := h
  obtain rfl := ends_variableValue_ok hcurrent
  have hsame : SameControl n s₃ := trans_of SameControl
    (control_keptBy.ends trivial (ends_ask_iff.mp hw)) (sameControl_of_ends_evaluateOptional hl)
  rw [← hsame.arena] at hfunction
  have hexpr : Ends c (expr c function) s₃ (.ok ⟨.derived operator lo ro, span⟩) s₃ :=
    ends_expr_iff.mpr ⟨_, hfunction, rfl, rfl⟩
  have hselector : Ends c (selector c function scope) s₃ (.error err) s := by
    refine ends_bind_iff.mpr (.inl ⟨_, s₃, hexpr, ?_⟩)
    refine ends_bind_iff.mpr (.inl ⟨(a, b), s, hoperands, ends_bind_iff.mpr (.inr ?_)⟩)
    exact ⟨err, ends_ofExcept_iff.mpr ⟨hderive.symm, rfl⟩, rfl⟩
  rw [selectiveAssign_eq]
  exact ends_bind_iff.mpr (.inr ⟨err, ends_prepared_of_selector hw hl hcurrent hselector, rfl⟩)

/-! ## The innermost place -/

/-- **Errors carry the place of the innermost expression that has one.**

* Where the node of an expression with a place fails and its error has none, every evaluation in
  which that error comes out ends with it at the place of this expression, whatever is around.
* It has none if all expressions in this one gave values, and what it called gave none. So where an
  expression fails itself, the error in the end is at its place.
* In particular an operator application whose operator rejects the operands is the place of the
  error. It is evaluated as the function of a call and as either operand like anywhere else.
* A selective assignment does not evaluate an operator application that is its function. If the
  operator rejects the operands, the place is the assignment.
* Every failing evaluation comes from a request that raised the error itself and from where it came
  out. If the registry passes errors, that is so for all that fails on the way. -/
theorem innermost_place (c : Context) :
    (∀ q m e scope n x err n', Surfaces c q m (.evaluate e scope) n →
      c.expr? n.arena e = some x → x.span ≠ .dummy →
      Ends c (node c scope x.node) n (.error err) n' → err.span = none →
        ∃ m', Ends c (step c q) m (.error { err with span := some x.span }) m') ∧
    (∀ q m e scope n x err n', Surfaces c q m (.evaluate e scope) n →
      c.expr? n.arena e = some x → x.span ≠ .dummy →
      (∀ q' s e₀ s', Puts c (step c (.evaluate e scope)) n q' s →
        Ends c (step c q') s (.error e₀) s' → e₀.span = none) →
      Ends c (step c (.evaluate e scope)) n (.error err) n' →
        err.span = some x.span ∧ ∃ m', Ends c (step c q) m (.error err) m') ∧
    ((∀ q m e scope n operator lo ro span a b s err, Surfaces c q m (.evaluate e scope) n →
        c.expr? n.arena e = some ⟨.derived operator lo ro, span⟩ → span ≠ .dummy →
        Ends c (operands lo ro scope) n (.ok (a, b)) s → derive c operator a b = .error err →
          ∃ m', Ends c (step c q) m (.error { err with span := some span }) m') ∧
      (∀ n e scope function left right span w s,
        c.expr? n.arena e = some ⟨.call function left right, span⟩ →
        Ends c (evaluate right scope) n (.ok w) s →
          Puts c (step c (.evaluate e scope)) n (.evaluate function scope) s) ∧
      (∀ n e scope operator lo ro span w s,
        c.expr? n.arena e = some ⟨.derived operator lo ro, span⟩ →
        Ends c (evaluateOptional ro scope) n (.ok w) s →
          Puts c (step c (.evaluate e scope)) n (.evaluate lo scope) s) ∧
      ∀ n e scope operator lo ro span,
        c.expr? n.arena e = some ⟨.derived operator lo (some ro), span⟩ →
          Puts c (step c (.evaluate e scope)) n (.evaluate ro scope) n) ∧
    (∀ q m e scope n target function left value span operator lo ro span' a b s err,
      Surfaces c q m (.evaluate e scope) n →
      c.expr? n.arena e = some ⟨.selectiveAssign target function left value, span⟩ →
      span ≠ .dummy → c.expr? n.arena function = some ⟨.derived operator lo ro, span'⟩ →
      Ends c (beforeDeriving c target left value lo ro scope) n (.ok (a, b)) s →
      derive c operator a b = .error err →
        ∃ m', Ends c (step c q) m (.error { err with span := some span }) m') ∧
    (∀ q m err m', Ends c (step c q) m (.error err) m' →
      ∃ q' n e₀ n', Surfaces c q m q' n ∧ RaisesItself c q' n ∧
        Ends c (step c q') n (.error e₀) n' ∧ e₀.Reaches err) ∧
    (c.registry.PassesErrors → ∀ q m q' n, Leads c q m q' n → Surfaces c q m q' n) := by
  refine ⟨?_, ?_, ⟨?_, ?_, ?_, ?_⟩, ?_, fun _ _ _ _ h => exists_origin h,
    fun hpass _ _ _ _ h => h.surfaces hpass⟩
  · intro q m e scope n x err n' h hx hplace hend hspan
    exact h.located hx hplace hend hspan
  · intro q m e scope n x err n' h hx hplace hparts hend
    exact h.placed hx hplace hparts hend
  · intro q m e scope n operator lo ro span a b s err h hx hplace hoperands hderive
    exact h.located hx hplace (ends_derived_error hoperands hderive) (span_derive hderive)
  · intro n e scope function left right span w s hx hright
    exact puts_of_node hx (Puts.bind_right hright (Puts.bind_left (Puts.bind_left .here)))
  · intro n e scope operator lo ro span w s hx hright
    exact puts_of_node hx (Puts.bind_left (Puts.bind_right hright (Puts.bind_left .here)))
  · intro n e scope operator lo ro span hx
    exact puts_of_node hx (Puts.bind_left (Puts.bind_left (Puts.bind_left .here)))
  · intro q m e scope n target function left value span operator lo ro span' a b s err h hx hplace
      hfunction hbefore hderive
    have hend := ends_selectiveAssign_error ⟨span', hfunction⟩ hbefore hderive
    exact h.located hx hplace hend (span_derive hderive)

end Eval

/-- `1/ X` and `(1/ X)←9`, with places for the whole and for `1/` in it, and *reduce* as the only
operator. -/
def Context.misplaced : Context where
  registry := ((Registry.empty .initial).registerOperator "/" .monadic
    (.monadic (some Library.function)) Library.reduce).2
  tower := .standard
  arenas := #[{
    exprs := #[⟨.int 1, .dummy⟩, ⟨.derived ⟨5⟩ ⟨0⟩ none, ⟨1, 3⟩⟩, ⟨.variable ⟨6⟩, .dummy⟩,
      ⟨.call ⟨1⟩ none ⟨2⟩, ⟨0, 8⟩⟩, ⟨.int 9, .dummy⟩, ⟨.selectiveAssign ⟨6⟩ ⟨1⟩ none ⟨4⟩, ⟨0, 8⟩⟩]
    items := #[]
    guards := #[] }]

/-- A scope in which `X` is `1 2 3`. -/
def Machine.misplaced : Machine where
  arena := ⟨0⟩
  calls := .empty 10
  scopes := Scopes.empty.outermost.2.define ⟨0⟩ ⟨6⟩ (.vector [.int 1, .int 2, .int 3])

namespace Eval

/-- The operator rejects its operand. As the function of a call the application is the place of the
error, and as that of a selective assignment it is not. -/
theorem innermost_place_misplaced :
    (∃ err m', Ends .misplaced (step .misplaced (.evaluate ⟨3⟩ ⟨0⟩)) .misplaced (.error err) m' ∧
      err.span = some ⟨1, 3⟩) ∧
    ∃ err m', Ends .misplaced (step .misplaced (.evaluate ⟨5⟩ ⟨0⟩)) .misplaced (.error err) m' ∧
      err.span = some ⟨0, 8⟩ := by
  obtain ⟨-, -, ⟨hderived, hfunction, -⟩, hinPlace, -⟩ := innermost_place .misplaced
  have hoperands : Ends .misplaced (operands ⟨0⟩ none ⟨0⟩) .misplaced (.ok (.int 1, none))
      .misplaced := ⟨20, rfl⟩
  constructor
  · have hright : Ends .misplaced (evaluate ⟨2⟩ ⟨0⟩) .misplaced
        (.ok (.vector [.int 1, .int 2, .int 3])) .misplaced := ⟨20, rfl⟩
    have hput := hfunction .misplaced ⟨3⟩ ⟨0⟩ ⟨1⟩ none ⟨2⟩ ⟨0, 8⟩ _ _ rfl hright
    obtain ⟨m', h⟩ := hderived _ _ ⟨1⟩ ⟨0⟩ _ _ _ _ _ _ _ _ _ (.tail .refl hput nofun) rfl
      (by decide) hoperands rfl
    exact ⟨_, m', h, rfl⟩
  · have hbefore : Ends .misplaced (beforeDeriving .misplaced ⟨6⟩ none ⟨4⟩ ⟨0⟩ none ⟨0⟩) .misplaced
        (.ok (.int 1, none)) .misplaced := ⟨20, rfl⟩
    obtain ⟨m', h⟩ := hinPlace _ _ ⟨5⟩ ⟨0⟩ _ _ _ _ _ _ _ _ _ _ _ _ _ _ .refl rfl (by decide) rfl
      hbefore rfl
    exact ⟨_, m', h, rfl⟩

/-- `(1/ X)←9`: the operand of `1/` evaluates, the operator rejects it, and the error is not at
`1/`, which has a place. -/
theorem derived_in_place_misplaced :
    ∃ operator lo ro span a b err err' m',
      Context.misplaced.expr? ⟨0⟩ ⟨5⟩ = some ⟨.selectiveAssign ⟨6⟩ ⟨1⟩ none ⟨4⟩, ⟨0, 8⟩⟩ ∧
      Context.misplaced.expr? ⟨0⟩ ⟨1⟩ = some ⟨.derived operator lo ro, span⟩ ∧ span ≠ .dummy ∧
      Ends .misplaced (operands lo ro ⟨0⟩) .misplaced (.ok (a, b)) .misplaced ∧
      derive .misplaced operator a b = .error err ∧
      Ends .misplaced (step .misplaced (.evaluate ⟨5⟩ ⟨0⟩)) .misplaced (.error err') m' ∧
      err.Alike err' ∧ err'.span ≠ some span := by
  have hend : ∃ err m', derive .misplaced ⟨5⟩ (.int 1) none = .error err ∧
      Ends .misplaced (step .misplaced (.evaluate ⟨5⟩ ⟨0⟩)) .misplaced
        (.error { err with span := some ⟨0, 8⟩ }) m' := ⟨_, _, rfl, ⟨20, rfl⟩⟩
  obtain ⟨err, m', hderive, hend⟩ := hend
  refine ⟨⟨5⟩, ⟨0⟩, none, ⟨1, 3⟩, .int 1, none, err, _, m', rfl, rfl, by decide, ⟨20, rfl⟩, hderive,
    hend, ⟨rfl, rfl⟩, ?_⟩
  show some _ ≠ some _
  decide

end Eval

end ArrayLang

import ArrayLang.Proofs.Evaluation.Ending
import Mathlib.Order.Defs.Unbundled

/-!
# Contracts of an evaluation

A `Contract` says what a request needs and what its answer then promises. The evaluator keeps a
contract if every single step does, with the promises taken for granted of the answers to its own
questions; that is the rule of recursion `Contract.KeptBy.ends`.

Most contracts only relate the machine before with the machine after. `Eval.Keeps k R x` says that
`x` leads to machines that are `R` to the one it began on. For a preorder `R` this passes through
everything steps are made of, and `KeptIn` collects what is left to show of `R`: that questions,
definitions and stores in a scope respect it.
-/

namespace ArrayLang

/-- What a request needs of the machine, and what its answer promises of the result and the machine
afterwards. -/
structure Contract where
  requires : Request → Machine → Prop
  ensures : Request → Machine → Except EvalError Value → Machine → Prop

namespace Progress

variable {α β : Type} {k : Contract} {post : Except EvalError α → Machine → Prop} {d : Panic → Prop}

/-- The step asks only what the contract lets it ask, and if the answers keep the contract, every
ending of it satisfies `post`. Whether it may panic is up to `d`. -/
def Meets (k : Contract) (post : Except EvalError α → Machine → Prop)
    (d : Panic → Prop := fun _ => True) :
    Progress α → Prop
  | .finished r m => post r m
  | .asks q m resume =>
    k.requires q m ∧ ∀ r m', k.ensures q m r m' → (resume r m').Meets k post d
  | .panics why => d why

theorem Meets.mono {post' : Except EvalError α → Machine → Prop} {p : Progress α}
    (h : p.Meets k post d) (himp : ∀ r m, post r m → post' r m) : p.Meets k post' d := by
  induction p with
  | finished r m => exact himp r m h
  | asks q m resume ih =>
      obtain ⟨hreq, hans⟩ := h
      exact ⟨hreq, fun r m' hr => ih r m' (hans r m' hr)⟩
  | panics why => exact h

/-- Of a step that goes on after another one: what the first ends with is what the second may rely
on, and an error of the first is the end of both. -/
theorem Meets.bind {post' : Except EvalError β → Machine → Prop} {p : Progress α}
    {next : α → Machine → Progress β} (h : p.Meets k post d)
    (hok : ∀ a m, post (.ok a) m → (next a m).Meets k post' d)
    (herr : ∀ e m, post (.error e) m → post' (.error e) m) : (p.bind next).Meets k post' d := by
  induction p with
  | finished r m =>
      cases r with
      | ok a => exact hok a m h
      | error e => exact herr e m h
  | asks q m resume ih =>
      obtain ⟨hreq, hans⟩ := h
      exact ⟨hreq, fun r m' hr => ih r m' (hans r m' hr)⟩
  | panics why => exact h

/-- What is changed in the end only, an error or the machine, is changed in the claim too. -/
theorem Meets.mapEnd {post' : Except EvalError α → Machine → Prop} {p : Progress α}
    {f : EvalError → EvalError} {g : Machine → Machine} (h : p.Meets k post d)
    (hok : ∀ a m, post (.ok a) m → post' (.ok a) (g m))
    (herr : ∀ e m, post (.error e) m → post' (.error (f e)) (g m)) :
    (p.mapEnd f g).Meets k post' d := by
  induction p with
  | finished r m =>
      cases r with
      | ok a => exact hok a m h
      | error e => exact herr e m h
  | asks q m resume ih =>
      obtain ⟨hreq, hans⟩ := h
      exact ⟨hreq, fun r m' hr => ih r m' (hans r m' hr)⟩
  | panics why => exact h

/-- Whoever keeps the contract brings the step to an ending that satisfies `post`. -/
theorem Meets.of_resolve {answer : Request → Machine → Outcome Value} {p : Progress α}
    {r : Except EvalError α} {m : Machine} (h : p.Meets k post d)
    (hans : ∀ q m r m', k.requires q m → answer q m = .finished r m' → k.ensures q m r m')
    (hr : p.resolve answer = .finished r m) : post r m := by
  induction p with
  | finished r' m' =>
      cases hr
      exact h
  | asks q m' resume ih =>
      obtain ⟨hreq, hres⟩ := h
      simp only [resolve] at hr
      split at hr
      · next r₁ m₁ hq => exact ih r₁ m₁ (hres r₁ m₁ (hans q m' r₁ m₁ hreq hq)) hr
      · cases hr
      · cases hr
  | panics why => cases hr

end Progress

namespace Contract

open Eval

variable {c : Context} {k : Contract} {q : Request} {m m' : Machine}

/-- One step of the evaluator keeps the contract if the answers to its questions do. -/
def KeptBy (k : Contract) (c : Context) : Prop :=
  ∀ q m, k.requires q m → (step c q m).Meets k (k.ensures q m)

/-- A contract that every step keeps is kept by whole runs. -/
theorem KeptBy.run (h : k.KeptBy c) {depth : Nat} {r : Except EvalError Value}
    (hreq : k.requires q m) (hr : Eval.run c depth q m = .finished r m') : k.ensures q m r m' := by
  -- the answers to the questions of a step are runs of one depth less
  induction depth generalizing q m r m' with
  | zero => cases hr
  | succ depth ih => exact (h q m hreq).of_resolve (fun _ _ _ _ => ih) hr

/-- **The rule of recursion.** What every step promises on the promises of its questions holds of
every evaluation. -/
theorem KeptBy.ends (h : k.KeptBy c) {r : Except EvalError Value} (hreq : k.requires q m)
    (hr : Ends c (step c q) m r m') : k.ensures q m r m' := by
  obtain ⟨d, hd⟩ := ends_step_iff.mp hr
  exact h.run hreq hd

/-- A part of a step keeps the contract as well. -/
theorem KeptBy.ends_of_meets (h : k.KeptBy c) {α : Type} {x : Eval α}
    {post : Except EvalError α → Machine → Prop} {r : Except EvalError α}
    (hx : (x m).Meets k post) (hr : Ends c x m r m') : post r m' := by
  obtain ⟨d, hd⟩ := hr
  exact hx.of_resolve (fun _ _ _ _ => h.run) hd

/-- Every answer comes back on a machine that is `R` to the one it was asked on. -/
def keeping (R : Machine → Machine → Prop) : Contract where
  requires _ _ := True
  ensures _ m _ m' := R m m'

end Contract

/-! ## Relations that a step keeps -/

namespace Eval

variable {α β : Type} {c : Context} {k : Contract} {R : Machine → Machine → Prop}

/-- However the step ends, it does so on a machine that is `R` to the one it began on. -/
def Keeps (k : Contract) (R : Machine → Machine → Prop) (x : Eval α) : Prop :=
  ∀ m, (x m).Meets k fun _ m' => R m m'

/-- A question keeps a relation that its contract promises of the answer. -/
theorem keeps_ask {q : Request}
    (h : ∀ m, k.requires q m ∧ ∀ r m', k.ensures q m r m' → R m m') : Keeps k R (ask q) :=
  fun m => h m

theorem keeps_keeping_ask (q : Request) : Keeps (.keeping R) R (ask q) :=
  keeps_ask fun _ => ⟨trivial, fun _ _ h => h⟩

variable [IsPreorder Machine R]

theorem keeps_ofExcept (r : Except EvalError α) : Keeps k R (ofExcept r) := fun m => refl_of R m

theorem keeps_pure (a : α) : Keeps k R (pure a) := fun m => refl_of R m

theorem keeps_fail (e : EvalError) : Keeps k R (fail e : Eval α) := keeps_ofExcept _

theorem keeps_found (a : Option α) : Keeps k R (found a) := by
  intro m
  cases a with
  | none => trivial
  | some a => exact refl_of R m

/-- Relations that are kept are composed along a sequence of steps. -/
theorem Keeps.bind {x : Eval α} {f : α → Eval β} (hx : Keeps k R x) (hf : ∀ a, Keeps k R (f a)) :
    Keeps k R (x >>= f) := by
  intro m
  refine (hx m).bind (fun a m' h => ?_) fun _ _ h => h
  exact (hf a m').mono fun _ _ h' => trans_of R h h'

theorem Keeps.map {x : Eval α} (hx : Keeps k R x) (f : α → β) : Keeps k R (f <$> x) :=
  hx.bind fun a => keeps_pure (f a)

omit [IsPreorder Machine R] in
theorem Keeps.locating {x : Eval α} (hx : Keeps k R x) (s : Span) : Keeps k R (x.locating s) :=
  fun m => (hx m).mapEnd (fun _ _ h => h) fun _ _ h => h

/-- A body only asks for calls from its scope. -/
theorem keeps_ofBody {scope : ScopeId} (hcall : ∀ f l r, Keeps k R (call f l r scope))
    (b : Body α) : Keeps k R (ofBody scope b) := by
  induction b with
  | done r => exact keeps_ofExcept r
  | call f l r resume ih =>
      intro m
      obtain ⟨hreq, hans⟩ := hcall f l r m
      refine ⟨hreq, fun a m' ha => ?_⟩
      exact (ih a m').mono fun _ _ h => trans_of R (hans a m' ha) h
  | panics => exact fun _ => trivial

/-! ## Relations that the evaluator keeps -/

/-- What a relation has to respect so that expressions evaluated in a scope keep it. -/
structure KeptIn (c : Context) (k : Contract) (R : Machine → Machine → Prop) (scope : ScopeId) :
    Prop where
  evaluate : ∀ e, Keeps k R (evaluate e scope)
  call : ∀ f l r, Keeps k R (call f l r scope)
  define : ∀ x v, Keeps k R (define x v scope)
  store : ∀ x v, Keeps k R (store c x v scope)

/-! ### Steps that only look -/

theorem keeps_currentArenaId : Keeps k R currentArenaId := fun m => refl_of R m

theorem keeps_currentArena : Keeps k R (currentArena c) :=
  keeps_currentArenaId.bind fun _ => keeps_found _

theorem keeps_expr (e : ExprId) : Keeps k R (expr c e) :=
  keeps_currentArena.bind fun _ => keeps_found _

/-- Whatever only reads the arena, the scopes or the notes leaves the machine alone. -/
theorem keeps_printed (print : Arena → Except TreeFault String) : Keeps k R (printed c print) :=
  keeps_currentArena.bind fun _ => keeps_found _

theorem keeps_variableValue (x : Name) (scope : ScopeId) : Keeps k R (variableValue c x scope) := by
  intro m
  unfold variableValue
  split <;> exact refl_of R m

theorem keeps_statementNote (body : BodyRange) (index : Nat) :
    Keeps k R (statementNote c body index) :=
  (keeps_printed _).bind fun _ => keeps_pure _

theorem keeps_failAt (cause : Cause) (e : ExprId) (body : BodyRange) (index : Nat) :
    Keeps k R (failAt c cause e body index : Eval α) :=
  (keeps_expr e).bind fun _ => (keeps_statementNote body index).bind fun _ => keeps_fail _

theorem keeps_refuseUnreachable (e : ExprId) (body : BodyRange) (index : Nat) :
    Keeps k R (refuseUnreachable c e body index : Eval α) :=
  (keeps_printed _).bind fun _ => keeps_failAt _ e body index

namespace KeptIn

variable {scope : ScopeId}

/-! ### Parts of expressions -/

theorem evaluateOptional (h : KeptIn c k R scope) (e : Option ExprId) :
    Keeps k R (evaluateOptional e scope) := by
  cases e with
  | none => exact keeps_pure none
  | some e => exact (h.evaluate e).map some

theorem evaluateOnto (h : KeptIn c k R scope) (es : List ExprId) (behind : List Value) :
    Keeps k R (evaluateOnto scope behind es) := by
  induction es generalizing behind with
  | nil => exact keeps_pure behind
  | cons e es ih => exact (h.evaluate e).bind fun v => ih (v :: behind)

theorem strand (h : KeptIn c k R scope) (items : List ExprId) : Keeps k R (strand items scope) := by
  unfold Eval.strand
  split
  · exact keeps_pure _
  · exact (h.evaluateOnto _ _).bind fun _ => keeps_pure _

theorem evaluateCallable (h : KeptIn c k R scope) (e : ExprId) :
    Keeps k R (evaluateCallable e scope) := by
  refine (h.evaluate e).bind fun v => ?_
  split
  · exact keeps_pure _
  · exact keeps_fail _

theorem operands (h : KeptIn c k R scope) (left : ExprId) (right : Option ExprId) :
    Keeps k R (operands left right scope) :=
  (h.evaluateOptional right).bind fun _ => (h.evaluate left).bind fun _ => keeps_pure _

theorem selected (h : KeptIn c k R scope) (function : ExprId) (left : Option Value)
    (current : Value) : Keeps k R (selected c function left current scope) := by
  refine (keeps_expr function).bind fun x => ?_
  split
  · exact (h.operands _ _).bind fun _ => keeps_ofBody h.call _
  · exact (h.evaluateCallable function).bind fun _ => keeps_ofBody h.call _

theorem selectiveAssign (h : KeptIn c k R scope) (target : Name) (function : ExprId)
    (left : Option ExprId) (value : ExprId) :
    Keeps k R (selectiveAssign c target function left value scope) := by
  refine Keeps.bind ?_ fun r => ?_
  · refine (h.evaluate value).bind fun _ => (h.evaluateOptional left).bind fun _ => ?_
    refine (keeps_variableValue target scope).bind fun _ => ?_
    exact (h.selected function _ _).bind fun _ => keeps_pure _
  · refine (keeps_ofExcept _).bind fun updated => ?_
    exact (h.store target updated).bind fun _ => keeps_pure _

/-! ### Expressions and statements -/

/-- Every kind of node, by its parts. -/
theorem node (h : KeptIn c k R scope) (n : Node) : Keeps k R (node c scope n) := by
  cases n with
  | int | float | bool | text | primitive => exact keeps_pure _
  | strand items => exact keeps_currentArena.bind fun _ => (keeps_found _).bind fun _ => h.strand _
  | «variable» x => exact keeps_variableValue x scope
  | closure body => exact keeps_currentArenaId.bind fun _ => keeps_pure _
  | derived operator left right =>
      exact (h.operands left right).bind fun _ => (keeps_ofExcept _).bind fun _ => keeps_pure _
  | call function left right =>
      refine (h.evaluate right).bind fun _ => (h.evaluateCallable function).bind fun _ => ?_
      exact (h.evaluateOptional left).bind fun _ => h.call _ _ _
  | assign target value =>
      refine (h.evaluate value).bind fun v => ?_
      exact (h.define target v).bind fun _ => keeps_pure v
  | selectiveAssign target function left value => exact h.selectiveAssign target function left value

end KeptIn

theorem keeps_holds {scope : ScopeId} (h : ∀ e, Keeps k R (evaluate e scope))
    (condition : Option ExprId) (body : BodyRange) (index : Nat) :
    Keeps k R (holds c condition scope body index) := by
  cases condition with
  | none => exact keeps_pure true
  | some e =>
      refine (h e).bind fun v => ?_
      split
      · exact keeps_pure _
      · exact keeps_failAt _ e body index

/-- A list of statements, one after the other. All that statements ask is what expressions give. -/
theorem keeps_statements {scope : ScopeId} (h : ∀ e, Keeps k R (evaluate e scope))
    (body : BodyRange) (guards : List Guard) (index : Nat) (result : Value) :
    Keeps k R (statements c scope body index result guards) := by
  -- what is left to run goes on with another index and another result
  induction guards generalizing index result with
  | nil => exact keeps_pure result
  | cons g rest ih =>
      refine (keeps_expr g.body).bind fun x => ?_
      simp only
      split
      · exact keeps_refuseUnreachable g.body body index
      · refine (keeps_holds h g.condition body index).bind fun b => ?_
        split
        · refine (h g.body).bind fun v => ?_
          split
          · exact ih (index + 1) v
          · exact keeps_pure v
        · exact ih (index + 1) result

/-! ### Calls -/

/-- A closure body that is run inside a scope of its own. -/
theorem keeps_runBody {scope : ScopeId} (h : ∀ inner, KeptIn c k R inner)
    (hargs : ∀ left right, Keeps k R (argumentScope left right scope)) (body : BodyRange)
    (left : Option Value) (right : Value) : Keeps k R (runBody c body left right scope) := by
  unfold runBody
  split
  · exact keeps_pure _
  · refine (hargs left right).bind fun inner => keeps_currentArena.bind fun _ => ?_
    exact (keeps_found _).bind fun guards =>
      keeps_statements (h inner).evaluate body guards 0 .emptyArray

/-- A call of any function, closures taken for granted. -/
theorem keeps_callFunction {scope : ScopeId} (hcall : ∀ f l r, Keeps k R (call f l r scope))
    (hclosure : ∀ f l r, Keeps k R (callClosure c f l r scope)) (f : Callable)
    (left : Option Value) (right : Value) : Keeps k R (callFunction c f left right scope) := by
  cases f with
  | primitive symbol => exact (keeps_ofExcept _).bind fun _ => keeps_ofBody hcall _
  | closure f => exact hclosure f left right
  | derived f => exact (keeps_found _).bind fun _ => keeps_ofBody hcall _

/-! ## Relations that whole runs keep -/

omit [IsPreorder Machine R] in
/-- A relation that writing to scopes keeps is kept by everything in a scope, with itself as the
contract of the questions. -/
theorem keptIn_keeping (hdefine : ∀ x v scope, Keeps (.keeping R) R (define x v scope))
    (hstore : ∀ x v scope, Keeps (.keeping R) R (store c x v scope)) (scope : ScopeId) :
    KeptIn c (.keeping R) R scope where
  evaluate _ := keeps_keeping_ask _
  call _ _ _ := keeps_keeping_ask _
  define x v := hdefine x v scope
  store x v := hstore x v scope

/-- A relation that definitions, stores and closure calls keep is kept by every evaluation. -/
theorem keeping_keptBy (hdefine : ∀ x v scope, Keeps (.keeping R) R (define x v scope))
    (hstore : ∀ x v scope, Keeps (.keeping R) R (store c x v scope))
    (hclosure : ∀ f l r scope, Keeps (.keeping R) R (callClosure c f l r scope)) :
    (Contract.keeping R).KeptBy c := by
  intro q m _
  cases q with
  | evaluate e scope =>
      have h := keptIn_keeping hdefine hstore scope
      exact ((keeps_expr e).bind fun x => (h.node x.node).locating x.span) m
  | call f left right scope =>
      have hcall : ∀ f l r, Keeps (.keeping R) R (call f l r scope) :=
        fun _ _ _ => keeps_keeping_ask _
      exact keeps_callFunction hcall (fun f l r => hclosure f l r scope) f left right m

end Eval

end ArrayLang

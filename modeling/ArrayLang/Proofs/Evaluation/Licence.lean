import ArrayLang.Proofs.Evaluation.Ending
import ArrayLang.Proofs.Registry.Bodies
import ArrayLang.Proofs.Selection.Replace
import ArrayLang.Proofs.Source.Parts

/-!
# What a step may do

A step of the evaluator asks questions, reads and writes the machine, and meets values and errors.
A `Licence` draws a line around all that: which expressions may be evaluated and which functions
called, which names may be defined and stored to, what holds of the values and of the causes of
errors that come up. `Eval.Within c l post x` says that the step `x` stays inside of the licence `l`
and that its values satisfy `post`.

That the steps of the evaluator stay within any licence that covers their expression is shown once,
form by form, up to `Eval.within_node` and `Eval.within_statements`. Whatever is to be said about
all evaluations is then an induction on `Eval.Within`, one case for each thing that a step can do.
-/

namespace ArrayLang

/-- The causes with which a registry turns a use of a symbol down. -/
def Cause.refusesUse : Cause → Bool
  | .unknownPrimitive _ | .unknownOperator _ | .noMatchingDomain .. => true
  | _ => false

/-- The causes that come up only in special places: when a closure is entered, and when cells are
put into a shape. -/
def Cause.isExceptional : Cause → Bool
  | .stackOverflow _ | .shapeMismatch .. => true
  | _ => false

namespace Cause

variable {cause : Cause}

theorem isExceptional_of_refusesUse (h : cause.refusesUse = true) :
    cause.isExceptional = false := by
  unfold refusesUse at h
  split at h
  · rfl
  · rfl
  · rfl
  · cases h

theorem isExceptional_of_rejectsSelection (h : cause.rejectsSelection = true) :
    cause.isExceptional = false := by
  unfold rejectsSelection at h
  split at h
  · rfl
  · rfl
  · rfl
  · rfl
  · cases h

/-- An overflow is exceptional. -/
theorem ne_stackOverflow (h : cause.isExceptional = false) (limit : Nat) :
    cause ≠ .stackOverflow limit := by
  rintro rfl
  cases h

end Cause

/-- What a step may do that runs in one scope, against the expressions of one arena. -/
structure Licence where
  arena : ArenaId
  scope : ScopeId
  /-- The expressions that may be evaluated. -/
  part : ExprId → Prop
  /-- The functions that may be called. -/
  callee : Callable → Prop
  /-- The names that may be defined in the scope. -/
  assigns : Name → Prop
  /-- The names that may be stored to, wherever they are declared. -/
  selects : Name → Prop
  /-- What holds of the values that come up. -/
  value : Value → Prop
  /-- The causes of the errors that come up. -/
  fails : Cause → Prop
  /-- The panics that may come up. -/
  panics : Panic → Prop
  /-- Whether a body may go on after a call that failed. -/
  catching : Prop

namespace Licence

variable {α : Type}

/-- The result is a value with the property, or an error with a cause that may come up. -/
def Allows (l : Licence) (post : α → Prop) : Except EvalError α → Prop
  | .ok a => post a
  | .error e => l.fails e.cause

/-- A result that comes from another one is allowed if each of both is. -/
theorem Allows.bind {β : Type} {l : Licence} {p : α → Prop} {q : β → Prop} {x : Except EvalError α}
    {f : α → Except EvalError β} (h : l.Allows p x) (hf : ∀ a, p a → l.Allows q (f a)) :
    l.Allows q (x >>= f) := by
  cases x with
  | ok a => exact hf a h
  | error e => exact h

/-- The questions that may be asked. All of them are about the one scope. -/
def Asks (l : Licence) : Request → Prop
  | .evaluate e scope => scope = l.scope ∧ l.part e
  | .call f left right scope =>
    scope = l.scope ∧ l.callee f ∧ (∀ v ∈ left, l.value v) ∧ l.value right

end Licence

namespace Licence

/-- The licence does not look at values and handles and lets any function be called. -/
structure Open (l : Licence) : Prop where
  value : ∀ v, l.value v
  callee : ∀ f, l.callee f
  dangling : l.panics .dangling

/-- The licence that permits everything. -/
def free (arena : ArenaId) (scope : ScopeId) : Licence where
  arena := arena
  scope := scope
  part _ := True
  callee _ := True
  assigns _ := True
  selects _ := True
  value _ := True
  fails _ := True
  panics _ := True
  catching := True

/-- The licence that draws a line around the causes of errors alone. -/
def raising (fails : Cause → Prop) (catching : Prop) (arena : ArenaId) (scope : ScopeId) :
    Licence :=
  { free arena scope with fails := fails, catching := catching }

/-- Restricting errors alone leaves everything else open. -/
theorem open_raising (fails : Cause → Prop) (catching : Prop) (arena : ArenaId) (scope : ScopeId) :
    (raising fails catching arena scope).Open :=
  ⟨fun _ => trivial, fun _ => trivial, trivial⟩

/-- Under an open licence any function may be called with any arguments. -/
theorem Open.asks_call {l : Licence} (h : l.Open) (f : Callable) (left : Option Value)
    (right : Value) : l.Asks (.call f left right l.scope) :=
  ⟨rfl, h.callee f, fun v _ => h.value v, h.value right⟩

end Licence

namespace Body

variable {α β : Type} {l : Licence} {p : α → Prop} {q : β → Prop}

/-- The body calls what may be called, its own values satisfy `post`, and unless it may go on after
a call that failed it ends with the error of that call. -/
def Within (l : Licence) (post : α → Prop) : Body α → Prop
  | .done r => l.Allows post r
  | .call f left right resume =>
    l.Asks (.call f left right l.scope) ∧
      (l.catching ∨ ∀ e, resume (.error e) = .done (.error e)) ∧
      ∀ r, l.Allows l.value r → (resume r).Within l post
  | .panics => l.panics .body

theorem within_pure {a : α} (h : p a) : (pure a : Body α).Within l p := h

theorem within_fail {e : EvalError} (h : l.fails e.cause) : (fail e : Body α).Within l p := h

theorem within_ofExcept {r : Except EvalError α} (h : l.Allows p r) : (ofExcept r).Within l p := h

theorem within_apply {f : Callable} {left : Option Value} {right : Value}
    (h : l.Asks (.call f left right l.scope)) : (apply f left right).Within l l.value :=
  ⟨h, .inr fun _ => rfl, fun _ hr => hr⟩

/-- A body in two parts stays within the licence if the first does, and the second does with
whatever the first may give it. -/
theorem Within.bind {b : Body α} {f : α → Body β} (h : b.Within l p)
    (hf : ∀ a, p a → (f a).Within l q) : (b >>= f).Within l q := by
  induction b with
  | done r =>
      cases r with
      | ok a => exact hf a h
      | error e => exact h
  | call g left right resume ih =>
      obtain ⟨hq, hcatch, hres⟩ := h
      refine ⟨hq, ?_, fun r hr => ih r (hres r hr)⟩
      refine hcatch.imp_right fun hpass e => ?_
      show (resume (.error e)).bind f = _
      rw [hpass e]
      rfl
  | panics => exact h

/-- Bodies that pass errors keep a line that is drawn around errors, as far as they keep it with
what they raise themselves. -/
theorem PassesErrors.within {b : Body Value} (h : b.PassesErrors) (hopen : l.Open)
    (hraises : ∀ cause, b.Raises cause → l.fails cause) (hpanics : b.Panics → l.panics .body) :
    b.Within l l.value := by
  induction b with
  | done r =>
      cases r with
      | ok v => exact hopen.value v
      | error e => exact hraises e.cause rfl
  | call f left right resume ih =>
      obtain ⟨hpass, hres⟩ := h
      refine ⟨hopen.asks_call f left right, .inr hpass, fun r hr => ?_⟩
      cases r with
      | ok v =>
          exact ih _ (hres _) (fun cause hcause => hraises cause ⟨v, hcause⟩)
            fun hp => hpanics ⟨_, hp⟩
      | error e =>
          rw [hpass e]
          exact hr
  | panics => exact hpanics trivial

/-- What such a body raises itself may come up. -/
theorem Within.fails_of_raises {b : Body α} (h : b.Within l p) (hvalue : ∀ v, l.value v)
    {cause : Cause} (hr : b.Raises cause) : l.fails cause := by
  induction b with
  | done r =>
      cases r with
      | ok a => cases hr
      | error e =>
          cases hr
          exact h
  | call f left right resume ih =>
      obtain ⟨v, hr⟩ := hr
      exact ih (.ok v) (h.2.2 (.ok v) (hvalue v)) hr
  | panics => cases hr

/-- Bodies that stay within a licence which permits no going on after errors, and otherwise
everything, pass errors. -/
theorem Within.passesErrors {b : Body α} (h : b.Within l p) (hopen : l.Open)
    (hfails : ∀ cause, l.fails cause) (hcatch : ¬ l.catching) : b.PassesErrors := by
  induction b with
  | done r => trivial
  | call f left right resume ih =>
      obtain ⟨-, hpass, hres⟩ := h
      refine ⟨hpass.resolve_left hcatch, fun r => ih r (hres r ?_)⟩
      cases r with
      | ok v => exact hopen.value v
      | error e => exact hfails e.cause
  | panics => trivial

/-- Any body stays within an open licence that lets it go on after errors, and raise any. -/
theorem within_of_catching (h : l.Open) (hfails : ∀ cause, l.fails cause) (hcatch : l.catching)
    {b : Body Value} (hpanics : b.Panics → l.panics .body) : b.Within l l.value := by
  induction b with
  | done r =>
      cases r with
      | ok v => exact h.value v
      | error e => exact hfails e.cause
  | call f left right resume ih =>
      exact ⟨h.asks_call f left right, .inl hcatch, fun r _ => ih r fun hp => hpanics ⟨r, hp⟩⟩
  | panics => exact hpanics trivial

end Body

/-! ### Registries that keep a line around errors -/

namespace Registry

variable {r : Registry} {tower : Tower}

/-- Bodies that stay within the licence without catching pass errors. -/
theorem passesErrors_of_within (h : ∀ tower b, r.HasBody tower b →
    b.Within (.raising (fun _ => True) False ⟨0⟩ ⟨0⟩) fun _ => True) : r.PassesErrors :=
  fun tower b hb => (h tower b hb).passesErrors (Licence.open_raising ..) (fun _ => trivial) id

/-- Bodies that stay within a licence without a cause never make up an error of that cause. -/
theorem not_raises_of_within {cause : Cause} (h : ∀ b, r.HasBody tower b →
    b.Within (.raising (fun cause' => cause' ≠ cause) False ⟨0⟩ ⟨0⟩) fun _ => True) :
    ¬ r.Raises tower cause := by
  rintro ⟨b, hb, hraises⟩
  exact (h b hb).fails_of_raises (fun _ => trivial) hraises rfl

end Registry

namespace Eval

variable {α β : Type} {c : Context} {l : Licence} {p : α → Prop} {q : β → Prop}

/-- The step stays within the licence, and its values satisfy `post`. -/
inductive Within (c : Context) (l : Licence) : {α : Type} → (α → Prop) → Eval α → Prop
  | result {α : Type} {post : α → Prop} {r : Except EvalError α} (h : l.Allows post r) :
      Within c l post (ofExcept r)
  | bind {α β : Type} {p : α → Prop} {q : β → Prop} {x : Eval α} {f : α → Eval β}
      (hx : Within c l p x) (hf : ∀ a, p a → Within c l q (f a)) : Within c l q (x >>= f)
  | locating {α : Type} {post : α → Prop} {x : Eval α} (h : Within c l post x) (s : Span) :
      Within c l post (x.locating s)
  | arena : Within c l (· = l.arena) currentArenaId
  | found {α : Type} {o : Option α} (h : o = none → l.panics .dangling) :
      Within c l (fun a => o = some a) (Eval.found o)
  | lookup {x : Name} (h : l.fails (.undefinedVariable (c.names.lookup x))) :
      Within c l l.value (variableValue c x l.scope)
  | define {x : Name} {v : Value} (hx : l.assigns x) (hv : l.value v) :
      Within c l (fun _ => True) (Eval.define x v l.scope)
  | store {x : Name} {v : Value} (hx : l.selects x) (hv : l.value v)
      (h : l.fails (.undefinedVariable (c.names.lookup x))) :
      Within c l (fun _ => True) (Eval.store c x v l.scope)
  /-- A question. The step ends with the error of a question that fails, unless it may go on. -/
  | asks {α : Type} {post : α → Prop} {q : Request} {k : Except EvalError Value → Eval α}
      (hq : l.Asks q) (hcatch : l.catching ∨ ∀ e, k (.error e) = fail e)
      (hres : ∀ r, l.Allows l.value r → Within c l post (k r)) :
      Within c l post (fun m => .asks q m k)
  | panics {α : Type} {post : α → Prop} (h : l.panics .body) :
      Within c l post (fun _ => .panics .body)

/-! ## Composition -/

theorem within_pure {a : α} (h : p a) : Within c l p (pure a) := .result (r := .ok a) h

theorem within_fail {e : EvalError} (h : l.fails e.cause) : Within c l p (fail e) :=
  .result (r := .error e) h

/-- What is known of the value may be forgotten. -/
theorem Within.mono {q : α → Prop} {x : Eval α} (h : Within c l p x) (hpq : ∀ a, p a → q a) :
    Within c l q x := by
  rw [← bind_pure x]
  exact h.bind fun a ha => within_pure (hpq a ha)

theorem Within.map {x : Eval α} (h : Within c l p x) {f : α → β} (hf : ∀ a, p a → q (f a)) :
    Within c l q (f <$> x) :=
  h.bind fun a ha => within_pure (hf a ha)

theorem within_ask {r : Request} (h : l.Asks r) : Within c l l.value (ask r) :=
  .asks (k := ofExcept) h (.inr fun _ => rfl) fun _ hr => .result hr

/-- An expression may be asked for if it is one of the parts. -/
theorem within_evaluate {e : ExprId} (h : l.part e) : Within c l l.value (evaluate e l.scope) :=
  within_ask ⟨rfl, h⟩

/-- A body that runs in the scope of the licence. -/
theorem within_ofBody {b : Body α} (h : b.Within l p) : Within c l p (ofBody l.scope b) := by
  induction b with
  | done r => exact .result h
  | call f left right resume ih =>
      obtain ⟨hq, hcatch, hres⟩ := h
      refine .asks (k := fun r => ofBody l.scope (resume r)) hq ?_ fun r hr => ih r (hres r hr)
      refine hcatch.imp_right fun hpass e => ?_
      rw [hpass e]
      rfl
  | panics => exact .panics h

end Eval

/-! ## Licences for expressions -/

/-- A property of values that the evaluator's own ways of making values keep. -/
structure Context.Hereditary (c : Context) (P : Value → Prop) : Prop where
  bool : ∀ b, P (.bool b)
  number : ∀ n, P (.number n)
  text : ∀ s, P (.text s)
  emptyArray : P .emptyArray
  primitive : ∀ symbol, P (.primitive symbol)
  vector : ∀ vs, (∀ v ∈ vs, P v) → P (.vector vs)
  iota : ∀ v s, P v → v.shape? = some s → P (.indexes (.iota s))
  derived : ∀ operator left right f, P left → (∀ v ∈ right, P v) →
    c.registry.derive c.tower operator left right = .ok f → P (Callable.derived f).toValue
  replaced : ∀ current positions v updated, P current → P v →
    Selection.replace current positions v = .ok updated → P updated

namespace Licence

/-- The licence goes down to the parts of the parts of an expression, and takes what evaluating them
can come to. -/
structure Covers (l : Licence) (c : Context) (arena : Arena) : Prop where
  arena_eq : c.arena? l.arena = some arena
  parts : ∀ e x, l.part e → arena.expr? e = some x → ∀ e' ∈ arena.parts x.node, l.part e'
  expr : ∀ e, l.part e → arena.expr? e = none → l.panics .dangling
  print : ∀ e, l.part e → (arena.print c.names e).toOption = none → l.panics .dangling
  value : c.Hereditary l.value
  callee : ∀ v f, l.value v → v.callable? = some f → l.callee f
  fails : ∀ cause, cause.isExceptional = false → l.fails cause
  /-- A replacement in a value may fail as it does. -/
  replace : ∀ current positions v e, l.value current →
    Selection.replace current positions v = .error e → l.fails e.cause

/-- The licence takes the node itself: its parts, what it assigns to, and its handles. -/
structure Admits (l : Licence) (arena : Arena) (n : Node) : Prop where
  parts : ∀ e ∈ arena.parts n, l.part e
  strand : ∀ items, n = .strand items → arena.strand? items = none → l.panics .dangling
  closure : ∀ body, n = .closure body → l.value (.closure ⟨l.arena, body⟩)
  assign : ∀ x e, n = .assign x e → l.assigns x
  selectiveAssign : ∀ x function left e, n = .selectiveAssign x function left e → l.selects x

/-- The licence takes the statements of a closure. -/
structure AdmitsBody (l : Licence) (names : Interner) (arena : Arena) (body : BodyRange) :
    Prop where
  found : arena.body? body = none → l.panics .dangling
  parts : ∀ guards, arena.body? body = some guards → ∀ g ∈ guards, ∀ e ∈ g.exprs, l.part e
  print : (arena.printClosure names body).toOption = none → l.panics .dangling

/-- An open licence covers every arena whose expressions have their parts among its own. -/
theorem Open.covers {l : Licence} (h : l.Open) {c : Context} {arena : Arena}
    (hfails : ∀ cause, (∀ limit, cause ≠ .stackOverflow limit) → l.fails cause)
    (harena : c.arena? l.arena = some arena)
    (hparts : ∀ e x, l.part e → arena.expr? e = some x → ∀ e' ∈ arena.parts x.node, l.part e') :
    l.Covers c arena where
  arena_eq := harena
  parts := hparts
  expr _ _ _ := h.dangling
  print _ _ _ := h.dangling
  value := {
    bool _ := h.value _
    number _ := h.value _
    text _ := h.value _
    emptyArray := h.value _
    primitive _ := h.value _
    vector _ _ := h.value _
    iota _ _ _ _ := h.value _
    derived _ _ _ _ _ _ _ := h.value _
    replaced _ _ _ _ _ _ _ := h.value _ }
  callee _ f _ _ := h.callee f
  fails cause hcause := hfails cause (Cause.ne_stackOverflow hcause)
  -- replacing raises no overflow
  replace _ _ _ e _ he := by
    refine hfails e.cause fun limit hcause => ?_
    rcases Selection.replace_error_cause he with hrej | ⟨s, n, hshape⟩
    · rw [hcause] at hrej
      cases hrej
    · rw [hcause] at hshape
      cases hshape

end Licence

namespace Eval

variable {c : Context} {l : Licence} {arena : Arena}

/-! ### Looking -/

theorem within_currentArena (h : c.arena? l.arena = none → l.panics .dangling) :
    Within c l (fun arena => c.arena? l.arena = some arena) (currentArena c) := by
  refine Within.arena.bind ?_
  rintro _ rfl
  exact .found h

/-- What an expression reads is there unless its handle dangles. -/
theorem within_expr {e : ExprId} (hnone : c.expr? l.arena e = none → l.panics .dangling) :
    Within c l (fun x => ∃ arena, c.arena? l.arena = some arena ∧ arena.expr? e = some x)
      (expr c e) := by
  have harena : c.arena? l.arena = none → l.panics .dangling :=
    fun h => hnone (by rw [Context.expr?, h]; rfl)
  refine (within_currentArena harena).bind fun arena ha => ?_
  refine (Within.found fun h => hnone ?_).mono fun x hx => ⟨arena, ha, hx⟩
  rw [Context.expr?_of_arena ha]
  exact h

/-- The expression of a part. -/
theorem within_expr_part (h : l.Covers c arena) {e : ExprId} (he : l.part e) :
    Within c l (fun x => arena.expr? e = some x) (expr c e) := by
  refine (within_expr fun hnone => h.expr e he ?_).mono ?_
  · rw [Context.expr?_of_arena h.arena_eq] at hnone
    exact hnone
  · rintro x ⟨a, ha, hx⟩
    rw [h.arena_eq] at ha
    cases ha
    exact hx

theorem within_printed (h : l.Covers c arena) {print : Arena → Except TreeFault String}
    (hprint : (print arena).toOption = none → l.panics .dangling) :
    Within c l (fun _ => True) (printed c print) := by
  refine (within_currentArena fun hnone => ?_).bind fun a ha => ?_
  · rw [h.arena_eq] at hnone
    cases hnone
  · rw [h.arena_eq] at ha
    cases ha
    exact (Within.found hprint).mono fun _ _ => trivial

/-! ### Parts of expressions -/

theorem within_evaluateOptional {e : Option ExprId} (he : ∀ e' ∈ e, l.part e') :
    Within c l (fun v => ∀ w ∈ v, l.value w) (evaluateOptional e l.scope) := by
  cases e with
  | none => exact within_pure (by simp)
  | some e =>
      refine (within_evaluate (he e rfl)).map fun v hv => ?_
      simpa using hv

/-- The items of a strand are asked one by one, and values come together from values. -/
theorem within_evaluateOnto {es : List ExprId} (hes : ∀ e ∈ es, l.part e) {behind : List Value}
    (hbehind : ∀ v ∈ behind, l.value v) :
    Within c l (fun vs => ∀ v ∈ vs, l.value v) (evaluateOnto l.scope behind es) := by
  induction es generalizing behind with
  | nil => exact within_pure hbehind
  | cons e es ih =>
      refine (within_evaluate (hes e (by simp))).bind fun v hv => ?_
      exact ih (fun e he => hes e (by simp [he])) (by simpa using ⟨hv, hbehind⟩)

theorem within_strand (h : l.Covers c arena) {items : List ExprId}
    (hitems : ∀ e ∈ items, l.part e) :
    Within c l l.value (strand items l.scope) := by
  unfold strand
  split
  · exact within_pure h.value.emptyArray
  · refine (within_evaluateOnto (by simpa using hitems) (by simp)).bind fun vs hvs => ?_
    exact within_pure (h.value.vector vs hvs)

/-- A function is a value of its expression, so what holds of values makes it fit to be called. -/
theorem within_evaluateCallable (h : l.Covers c arena) {e : ExprId} (he : l.part e) :
    Within c l l.callee (evaluateCallable e l.scope) := by
  refine (within_evaluate he).bind fun v hv => ?_
  split
  · next f hf => exact within_pure (h.callee v f hv hf)
  · exact within_fail (h.fails _ rfl)

theorem within_operands {left : ExprId} {right : Option ExprId} (hleft : l.part left)
    (hright : ∀ e ∈ right, l.part e) :
    Within c l (fun p => l.value p.1 ∧ ∀ v ∈ p.2, l.value v) (operands left right l.scope) := by
  refine (within_evaluateOptional hright).bind fun r hr => ?_
  exact (within_evaluate hleft).bind fun v hv => within_pure ⟨hv, hr⟩

/-- A value that can be called is the value of that function. -/
theorem toValue_of_callable? {v : Value} {f : Callable} (h : v.callable? = some f) :
    f.toValue = v := by
  cases v <;> cases h <;> rfl

/-! ### Selective assignments -/

/-- Positions are found by a call and a conversion; nothing is known of them but that they are
there. -/
theorem within_positions (h : l.Covers c arena) {f : Callable} {left : Option Value}
    {current : Value} (hf : l.callee f) (hleft : ∀ v ∈ left, l.value v)
    (hcurrent : l.value current) :
    (Selection.positions c.tower (Body.apply f) left current).Within l fun _ => True := by
  unfold Selection.positions
  split
  · exact Body.within_fail (h.fails _ rfl)
  · next shape hshape =>
      have hiota := h.value.iota current shape hcurrent hshape
      refine (Body.within_apply ⟨rfl, hf, hleft, hiota⟩).bind fun v _ => ?_
      split
      · exact Body.within_pure trivial
      · exact Body.within_fail (h.fails _ rfl)

/-- If no function is made of the operands, the error is one of refusal. -/
theorem derive_error {operator : Name} {left : Value} {right : Option Value} {e : EvalError}
    (h : derive c operator left right = .error e) : e.cause.refusesUse = true := by
  unfold derive Registry.derive at h
  simp only at h
  split at h
  · cases h
    rfl
  · split at h
    · cases h
    · cases h
      cases right <;> rfl

theorem within_derive (h : l.Covers c arena) {operator : Name} {left : Value}
    {right : Option Value} (hleft : l.value left) (hright : ∀ v ∈ right, l.value v) :
    l.Allows (fun f => l.value (Callable.derived f).toValue) (derive c operator left right) := by
  cases hd : derive c operator left right with
  | ok f => exact h.value.derived _ _ _ f hleft hright hd
  | error e => exact h.fails _ (Cause.isExceptional_of_refusesUse (derive_error hd))

/-- Whichever way the function of a selection is found, it is one that may be called. -/
theorem within_selected (h : l.Covers c arena) {function : ExprId} (hfunction : l.part function)
    {left : Option Value} {current : Value} (hleft : ∀ v ∈ left, l.value v)
    (hcurrent : l.value current) :
    Within c l (fun _ => True) (selected c function left current l.scope) := by
  refine (within_expr_part h hfunction).bind fun x hx => ?_
  have hparts := h.parts function x hfunction hx
  split
  · next operator lo ro hnode =>
      rw [hnode] at hparts
      refine (within_operands (hparts lo (by simp [Arena.parts])) fun e he => ?_).bind ?_
      · exact hparts e (by simp [Arena.parts, Option.mem_def.mp he])
      · rintro ⟨lo, ro⟩ ⟨hlo, hro⟩
        refine within_ofBody ((Body.within_ofExcept (within_derive h hlo hro)).bind fun f hf => ?_)
        exact within_positions h (h.callee _ _ hf rfl) hleft hcurrent
  · refine (within_evaluateCallable h hfunction).bind fun f hf => ?_
    exact within_ofBody (within_positions h hf hleft hcurrent)

theorem within_replace (h : l.Covers c arena) {current v : Value} {positions : Grid Int64}
    (hcurrent : l.value current) (hv : l.value v) :
    l.Allows l.value (Selection.replace current positions v) := by
  cases hr : Selection.replace current positions v with
  | ok updated => exact h.value.replaced _ _ _ _ hcurrent hv hr
  | error e => exact h.replace _ _ _ e hcurrent hr

/-- Everything that a selective assignment evaluates is one of its parts. -/
theorem within_replacement (h : l.Covers c arena) {target : Name} {function : ExprId}
    {left : Option ExprId} {value : ExprId}
    (hparts : ∀ e ∈ arena.parts (.selectiveAssign target function left value), l.part e) :
    Within c l (fun r : Replacement => l.value r.value ∧ l.value r.current)
      (replacement c target function left value l.scope) := by
  refine (within_evaluate (hparts value (by simp [Arena.parts]))).bind fun v hv => ?_
  refine (within_evaluateOptional fun e he => hparts e ?_).bind fun left hleft => ?_
  · simp [Arena.parts, Option.mem_def.mp he]
  refine (Within.lookup (h.fails _ rfl)).bind fun current hcurrent => ?_
  refine (within_selected h (hparts function (by simp [Arena.parts])) hleft hcurrent).bind ?_
  exact fun positions _ => within_pure ⟨hv, hcurrent⟩

/-- **A selective assignment stays within a licence** that admits its node. -/
theorem within_selectiveAssign (h : l.Covers c arena) {target : Name} {function : ExprId}
    {left : Option ExprId} {value : ExprId}
    (hn : l.Admits arena (.selectiveAssign target function left value)) :
    Within c l l.value (selectiveAssign c target function left value l.scope) := by
  refine (within_replacement h hn.parts).bind fun r ⟨hv, hcurrent⟩ => ?_
  refine (Within.result (within_replace h hcurrent hv)).bind fun updated hupdated => ?_
  have hundefined : l.fails (.undefinedVariable (c.names.lookup target)) := h.fails _ rfl
  refine (Within.store (hn.selectiveAssign _ _ _ _ rfl) hupdated hundefined).bind fun _ _ => ?_
  exact within_pure hv

/-! ### Expressions -/

/-- **Nodes stay within the licences that admit them.** -/
theorem within_node (h : l.Covers c arena) {n : Node} (hn : l.Admits arena n) :
    Within c l l.value (node c l.scope n) := by
  cases n with
  | int n => exact within_pure (h.value.number _)
  | float x => exact within_pure (h.value.number _)
  | bool b => exact within_pure (h.value.bool b)
  | text s => exact within_pure (h.value.text _)
  | primitive symbol => exact within_pure (h.value.primitive symbol)
  | «variable» x => exact .lookup (h.fails _ rfl)
  | closure body =>
      refine Within.arena.bind ?_
      rintro _ rfl
      exact within_pure (hn.closure body rfl)
  -- a node that refers to a range finds it in the arena, by what the licence admits
  | strand items =>
      refine (within_currentArena fun hnone => ?_).bind fun a ha => ?_
      · rw [h.arena_eq] at hnone
        cases hnone
      · rw [h.arena_eq] at ha
        cases ha
        refine (Within.found (hn.strand items rfl)).bind fun es hes => within_strand h ?_
        intro e he
        exact hn.parts e (by simpa [Arena.parts, hes] using he)
  | derived operator left right =>
      refine (within_operands (hn.parts left (by simp [Arena.parts])) fun e he => ?_).bind ?_
      · exact hn.parts e (by simp [Arena.parts, Option.mem_def.mp he])
      · rintro ⟨left, right⟩ ⟨hleft, hright⟩
        exact (Within.result (within_derive h hleft hright)).bind fun f hf => within_pure hf
  -- the parts of a node are asked about in the order of the code
  | call function left right =>
      refine (within_evaluate (hn.parts right (by simp [Arena.parts]))).bind fun r hr => ?_
      refine (within_evaluateCallable h (hn.parts function (by simp [Arena.parts]))).bind ?_
      intro f hf
      refine (within_evaluateOptional fun e he => hn.parts e ?_).bind fun left hleft => ?_
      · simp [Arena.parts, Option.mem_def.mp he]
      · exact within_ask ⟨rfl, hf, hleft, hr⟩
  | assign target value =>
      refine (within_evaluate (hn.parts value (by simp [Arena.parts]))).bind fun v hv => ?_
      exact (Within.define (hn.assign _ _ rfl) hv).bind fun _ _ => within_pure hv
  | selectiveAssign target function left value => exact within_selectiveAssign h hn

/-- The evaluation of an expression, in an arena that may not be there. -/
theorem within_step_evaluate {e : ExprId} (hnone : c.expr? l.arena e = none → l.panics .dangling)
    (h : ∀ arena x, c.arena? l.arena = some arena → arena.expr? e = some x →
      l.Covers c arena ∧ l.Admits arena x.node) :
    Within c l l.value (step c (.evaluate e l.scope)) := by
  refine (within_expr hnone).bind ?_
  rintro x ⟨arena, ha, hx⟩
  obtain ⟨hcovers, hadmits⟩ := h arena x ha hx
  exact (within_node hcovers hadmits).locating x.span

/-! ### Statements -/

/-- The error at an expression of a statement comes with a note that prints the closure, which may
be where a handle dangles. -/
theorem within_failAt (h : l.Covers c arena) {α : Type} {p : α → Prop} {cause : Cause} {e : ExprId}
    {body : BodyRange} {index : Nat} (hcause : cause.isExceptional = false)
    (he : l.part e)
    (hbody : (arena.printClosure c.names body).toOption = none → l.panics .dangling) :
    Within c l p (failAt c cause e body index) := by
  refine (within_expr_part h he).bind fun x _ => ?_
  refine Within.bind (p := fun _ => True) ?_ fun note _ => within_fail ?_
  · exact (within_printed h hbody).bind fun _ _ => within_pure trivial
  · show l.fails (EvalError.locate _ _).cause
    rw [EvalError.cause_locate]
    exact h.fails cause hcause

/-- A condition is asked for, or there is none. -/
theorem within_holds (h : l.Covers c arena) {condition : Option ExprId} {body : BodyRange}
    {index : Nat} (he : ∀ e ∈ condition, l.part e)
    (hbody : (arena.printClosure c.names body).toOption = none → l.panics .dangling) :
    Within c l (fun _ => True) (holds c condition l.scope body index) := by
  cases condition with
  | none => exact within_pure trivial
  | some e =>
      refine (within_evaluate (he e rfl)).bind fun v _ => ?_
      split
      · exact within_pure trivial
      · exact within_failAt h rfl (he e rfl) hbody

/-- **Statements stay within the licences that cover them.** -/
theorem within_statements (h : l.Covers c arena) {body : BodyRange} {guards : List Guard}
    {index : Nat} {result : Value} (hresult : l.value result)
    (hguards : ∀ g ∈ guards, ∀ e ∈ g.exprs, l.part e)
    (hbody : (arena.printClosure c.names body).toOption = none → l.panics .dangling) :
    Within c l l.value (statements c l.scope body index result guards) := by
  -- what is left to run goes on with another index and another result
  induction guards generalizing index result with
  | nil => exact within_pure hresult
  | cons g rest ih =>
      have hg := hguards g (by simp)
      have hbodyPart : l.part g.body := hg _ (by simp [Guard.exprs])
      have hcondition : ∀ e ∈ g.condition, l.part e := fun e he =>
        hg e (by simp [Guard.exprs, Option.mem_def.mp he])
      have hrest : ∀ index result, l.value result →
          Within c l l.value (statements c l.scope body index result rest) :=
        fun _ _ hr => ih hr fun g hg => hguards g (by simp [hg])
      refine (within_expr_part h hbodyPart).bind fun x _ => ?_
      simp only
      split
      · refine (within_printed h (h.print _ hbodyPart)).bind fun text _ => ?_
        exact within_failAt h rfl hbodyPart hbody
      · refine (within_holds h hcondition hbody).bind fun b _ => ?_
        split
        · refine (within_evaluate hbodyPart).bind fun v hv => ?_
          split
          · exact hrest (index + 1) v hv
          · exact within_pure hv
        · exact hrest (index + 1) result hresult

/-- The statements of a closure, once its scope is there. -/
def bodyIn (c : Context) (body : BodyRange) (scope : ScopeId) : Eval Value := do
  let guards ← found ((← currentArena c).body? body)
  statements c scope body 0 .emptyArray guards

/-- The statements of a closure, in an arena that may not be there. -/
theorem within_bodyIn {body : BodyRange} (hnone : c.arena? l.arena = none → l.panics .dangling)
    (h : ∀ arena, c.arena? l.arena = some arena →
      l.Covers c arena ∧ l.AdmitsBody c.names arena body) :
    Within c l l.value (bodyIn c body l.scope) := by
  refine (within_currentArena hnone).bind fun arena ha => ?_
  obtain ⟨hcovers, hbody⟩ := h arena ha
  refine (Within.found hbody.found).bind fun guards hguards => ?_
  exact within_statements hcovers hcovers.value.emptyArray (hbody.parts guards hguards) hbody.print

/-! ### Open licences -/

/-- Under an open licence the step of any expression stays within it. -/
theorem within_open_evaluate (h : l.Open)
    (hfails : ∀ cause, (∀ limit, cause ≠ .stackOverflow limit) → l.fails cause)
    (hpart : ∀ e, l.part e) (hassigns : ∀ x, l.assigns x) (hselects : ∀ x, l.selects x)
    (e : ExprId) : Within c l l.value (step c (.evaluate e l.scope)) := by
  refine within_step_evaluate (fun _ => h.dangling) fun arena x ha _ => ⟨?_, ?_⟩
  · exact h.covers hfails ha fun _ _ _ _ e _ => hpart e
  · exact ⟨fun e _ => hpart e, fun _ _ _ => h.dangling, fun _ _ => h.value _,
      fun x _ _ => hassigns x, fun x _ _ _ _ => hselects x⟩

theorem within_open_bodyIn (h : l.Open)
    (hfails : ∀ cause, (∀ limit, cause ≠ .stackOverflow limit) → l.fails cause)
    (hpart : ∀ e, l.part e) (body : BodyRange) :
    Within c l l.value (bodyIn c body l.scope) := by
  refine within_bodyIn (fun _ => h.dangling) fun arena ha => ⟨?_, ?_⟩
  · exact h.covers hfails ha fun _ _ _ _ e _ => hpart e
  · exact ⟨fun _ => h.dangling, fun _ _ _ _ e _ => hpart e, fun _ => h.dangling⟩

/-- The statements of a closure catch no errors themselves, and may raise any. -/
theorem within_raising_bodyIn (catching : Prop) (arena : ArenaId) (scope : ScopeId)
    (body : BodyRange) :
    Within c (.raising (fun _ => True) catching arena scope) (fun _ => True)
      (bodyIn c body scope) :=
  within_open_bodyIn (Licence.open_raising ..) (fun _ _ => trivial) (fun _ => trivial) body

/-! ### Calls of registered functions -/

/-- If no handler takes the arguments, the error is one of refusal. -/
theorem resolve_error {symbol : Name} {left : Option Value} {right : Value} {e : EvalError}
    (h : c.registry.resolve c.tower symbol left right = .error e) : e.cause.refusesUse = true := by
  unfold Registry.resolve at h
  simp only at h
  split at h
  · cases h
    rfl
  · split at h
    · cases h
    · cases h
      rfl

/-- The call of a primitive stays within the licence if the body does that it resolves to. -/
theorem within_callPrimitive {symbol : Name} {left : Option Value} {right : Value}
    (hfails : ∀ cause, cause.isExceptional = false → l.fails cause)
    (hbody : ∀ d, c.registry.resolve c.tower symbol left right = .ok d →
      (d.body c.tower d.left d.right).Within l l.value) :
    Within c l l.value (callFunction c (.primitive symbol) left right l.scope) := by
  refine Within.bind (.result ?_) fun d hd => within_ofBody (hbody d hd)
  cases hr : c.registry.resolve c.tower symbol left right with
  | ok d => exact rfl
  | error e => exact hfails _ (Cause.isExceptional_of_refusesUse (resolve_error hr))

/-- The call of a function that an operator made stays within the licence if its body does, where
that is found. -/
theorem within_callDerived {d : Derived} {left : Option Value} {right : Value}
    (hnone : c.registry.body? d.body = none → l.panics .dangling)
    (hbody : ∀ body, c.registry.body? d.body = some body →
      (body c.tower d.left d.right left right).Within l l.value) :
    Within c l l.value (callFunction c (.derived d) left right l.scope) :=
  (Within.found hnone).bind fun body h => within_ofBody (hbody body h)

end Eval

end ArrayLang

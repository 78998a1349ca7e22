import ArrayLang.Proofs.Evaluation.Totality
import ArrayLang.Proofs.Library.Renaming
import ArrayLang.Proofs.Selection.Renaming
import ArrayLang.Proofs.Source.Spans

/-!
# Spans are inert

An evaluator looks at a span only to place an error. So two programs whose arenas differ in nothing
but spans are evaluated alike: with the closures of the one matched to those of the other, both give
the same values and leave the same scopes, and their errors differ in the place at most
(`Eval.spans_inert`). One step of the one evaluator goes like one step of the other
(`Eval.steps_alike`), with one lemma for each form.
-/

namespace ArrayLang

variable {α β : Type} {ρ : ArenaId → ArenaId} {c c' : Context}

/-! ## Contexts -/

namespace Context

/-- The same registry and tower, and arenas that are alike along the renaming. -/
structure Alike (ρ : ArenaId → ArenaId) (c c' : Context) : Prop where
  registry : c'.registry = c.registry
  tower : c'.tower = c.tower
  arenas : ∀ a, Option.Rel Arena.Alike (c.arena? a) (c'.arena? (ρ a))

namespace Alike

theorem names_eq (h : c.Alike ρ c') : c'.names = c.names := by
  unfold names
  rw [h.registry]

/-- Alike arenas are there or missing together. -/
theorem arena? (h : c.Alike ρ c') (a : ArenaId) :
    (c.arena? a = none ∧ c'.arena? (ρ a) = none) ∨
      ∃ arena arena', c.arena? a = some arena ∧ c'.arena? (ρ a) = some arena' ∧
        arena.Alike arena' := by
  have harena := h.arenas a
  generalize c.arena? a = o at harena ⊢
  generalize c'.arena? (ρ a) = o' at harena ⊢
  cases harena with
  | none => exact .inl ⟨rfl, rfl⟩
  | some hlike => exact .inr ⟨_, _, rfl, rfl, hlike⟩

/-- The same handle finds the same node in both arenas, with places of their own, or nothing in
either. -/
theorem expr? (h : c.Alike ρ c') (a : ArenaId) (e : ExprId) :
    (c.expr? a e = none ∧ c'.expr? (ρ a) e = none) ∨
      ∃ node span span', c.expr? a e = some ⟨node, span⟩ ∧
        c'.expr? (ρ a) e = some ⟨node, span'⟩ := by
  unfold Context.expr?
  rcases h.arena? a with ⟨ha, ha'⟩ | ⟨arena, arena', ha, ha', hlike⟩
  · rw [ha, ha']
    exact .inl ⟨rfl, rfl⟩
  · rw [ha, ha']
    exact hlike.expr? e

/-- A closure is written like the one that it is matched to. -/
theorem printClosure?_eq (h : c.Alike ρ c') (f : Closure) :
    c'.printClosure? (f.rename ρ) = c.printClosure? f := by
  unfold printClosure?
  rw [h.names_eq]
  show (c'.arena? (ρ f.arena)).bind _ = (c.arena? f.arena).bind _
  rcases h.arena? f.arena with ⟨ha, ha'⟩ | ⟨arena, arena', ha, ha', hlike⟩
  · rw [ha, ha']
    rfl
  · rw [ha, ha']
    show (arena'.printClosure c.names f.body).toOption = _
    rw [hlike.printClosure_eq]
    rfl

/-- **Matched values are written in the same way.** -/
theorem render_eq (h : c.Alike ρ c') (v : Value) : c'.render (v.rename ρ) = c.render v := by
  refine Value.render_rename ?_ (fun f => ?_) v
  · show c'.names.lookup = c.names.lookup
    rw [h.names_eq]
  · show (c'.printClosure? (f.rename ρ)).getD "" = (c.printClosure? f).getD ""
    rw [h.printClosure?_eq]

end Alike

end Context

namespace Eval

/-! ## Reading the machine -/

theorem alike_currentArenaId : Alike ρ ρ currentArenaId currentArenaId :=
  fun m => .finished (.ok m.arena) m

section Forms

variable (h : c.Alike ρ c')
include h

/-- What is read out of an arena without its spans. -/
theorem alike_inArena {read read' : Arena → Option α}
    (hread : ∀ a a', a.Alike a' → read' a' = read a) :
    Alike ρ id (currentArena c >>= fun a => found (read a))
      (currentArena c' >>= fun a => found (read' a)) := by
  intro m
  show ((found (c.arena? m.arena) m).bind _).Alike ρ id ((found (c'.arena? (ρ m.arena)) _).bind _)
  rcases h.arena? m.arena with ⟨ha, ha'⟩ | ⟨arena, arena', ha, ha', hlike⟩
  · rw [ha, ha']
    exact .panics .dangling
  · rw [ha, ha']
    show (found (read arena) m).Alike ρ id (found (read' arena') (m.rename ρ))
    rw [hread arena arena' hlike]
    have hfound : Alike ρ id (found (read arena)) (found ((read arena).map id)) := .found _
    rw [Option.map_id] at hfound
    exact hfound m

/-- **An expression is read with the same node.** -/
theorem alike_expr_bind {g : α → β} {f : Expr → Eval α} {f' : Expr → Eval β} (e : ExprId)
    (hf : ∀ node span span', Alike ρ g (f ⟨node, span⟩) (f' ⟨node, span'⟩)) :
    Alike ρ g (expr c e >>= f) (expr c' e >>= f') := by
  intro m
  show ((expr c e m).bind _).Alike ρ g ((expr c' e (m.rename ρ)).bind _)
  rw [expr_apply, expr_apply]
  show ((found (c.expr? m.arena e) m).bind _).Alike ρ g
    ((found (c'.expr? (ρ m.arena) e) (m.rename ρ)).bind _)
  rcases h.expr? m.arena e with ⟨hx, hx'⟩ | ⟨node, span, span', hx, hx'⟩
  · rw [hx, hx']
    exact .panics .dangling
  · rw [hx, hx']
    exact hf node span span' m

/-- Goes on with what was read. -/
theorem alike_inArena_bind {γ : Type} {g : β → γ} {read read' : Arena → Option α}
    (hread : ∀ a a', a.Alike a' → read' a' = read a) {f : α → Eval β} {f' : α → Eval γ}
    (hf : ∀ a, Alike ρ g (f a) (f' a)) :
    Alike ρ g (currentArena c >>= fun a => found (read a) >>= f)
      (currentArena c' >>= fun a => found (read' a) >>= f') := by
  rw [← bind_assoc, ← bind_assoc]
  exact (alike_inArena h hread).bind hf

/-- What is printed does not show places. -/
theorem alike_printed {print : Arena → Except TreeFault String}
    (hprint : ∀ a a' : Arena, a.Alike a' → print a' = print a) :
    Alike ρ id (printed c print) (printed c' print) :=
  alike_inArena h fun a a' hlike => congrArg Except.toOption (hprint a a' hlike)

theorem alike_variableValue (x : Name) (scope : ScopeId) :
    Alike ρ (.rename ρ) (variableValue c x scope) (variableValue c' x scope) := by
  intro m
  have hlookup : (m.rename ρ).scopes.lookup? scope x = _ := m.scopes.lookup?_rename scope x
  cases hv : m.scopes.lookup? scope x with
  | some v =>
      rw [hv] at hlookup
      rw [variableValue_of_some hv, variableValue_of_some hlookup]
      exact .finished (.ok v) m
  | none =>
      rw [hv] at hlookup
      rw [variableValue_of_none hv, variableValue_of_none hlookup, h.names_eq]
      exact .finished (.of _) m

/-! ## Parts of expressions -/

omit h in
theorem alike_evaluate (e : ExprId) (scope : ScopeId) :
    Alike ρ (.rename ρ) (evaluate e scope) (evaluate e scope) := .ask (.evaluate e scope)

omit h in
/-- A call of one run is the matching call of the other one: function and arguments match. -/
theorem alike_call (f : Callable) (left : Option Value) (right : Value) (scope : ScopeId) :
    Alike ρ (.rename ρ) (call f left right scope)
      (call (f.rename ρ) (left.map (.rename ρ)) (right.rename ρ) scope) :=
  .ask (.call f left right scope)

omit h in
theorem alike_evaluateOptional (e : Option ExprId) (scope : ScopeId) :
    Alike ρ (.map (.rename ρ)) (evaluateOptional e scope) (evaluateOptional e scope) := by
  cases e with
  | none => exact .pure none
  | some e => exact (alike_evaluate e scope).map fun _ => rfl

omit h in
theorem alike_evaluateOnto (scope : ScopeId) (behind : List Value) (es : List ExprId) :
    Alike ρ (.map (.rename ρ)) (evaluateOnto scope behind es)
      (evaluateOnto scope (behind.map (.rename ρ)) es) := by
  induction es generalizing behind with
  | nil => exact .pure behind
  | cons e es ih => exact (alike_evaluate e scope).bind fun v => ih (v :: behind)

omit h in
theorem alike_strand (items : List ExprId) (scope : ScopeId) :
    Alike ρ (.rename ρ) (strand items scope) (strand items scope) := by
  unfold strand
  split
  · exact .pure Value.emptyArray
  · refine (alike_evaluateOnto scope [] items.reverse).bind fun vs => ?_
    rw [← Value.rename_vector]
    exact .pure (Value.vector vs)

omit h in
theorem alike_evaluateCallable (e : ExprId) (scope : ScopeId) :
    Alike ρ (.rename ρ) (evaluateCallable e scope) (evaluateCallable e scope) := by
  refine (alike_evaluate e scope).bind fun v => ?_
  simp only [Value.callable?_rename, Value.kind_rename]
  cases v.callable? with
  | none => exact .fail _
  | some f => exact .pure f

omit h in
theorem alike_operands (left : ExprId) (right : Option ExprId) (scope : ScopeId) :
    Alike ρ (.map (.rename ρ) (.map (.rename ρ))) (operands left right scope)
      (operands left right scope) :=
  (alike_evaluateOptional right scope).bind fun r => (alike_evaluate left scope).bind fun l =>
    .pure (l, r)

/-- The same definition accepts both pairs of operands, since no conversion looks at a function. -/
theorem alike_derive (operator : Name) (left : Value) (right : Option Value) :
    Alike ρ (.rename ρ) (ofExcept (derive c operator left right))
      (ofExcept (derive c' operator (left.rename ρ) (right.map (.rename ρ)))) := by
  unfold derive
  rw [h.registry, h.tower]
  exact .ofExcept (c.registry.derive_alike c.tower operator left right)

/-! ## Assignments -/

omit h in
theorem alike_define (x : Name) (v : Value) (scope : ScopeId) :
    Alike ρ id (define x v scope) (define x (v.rename ρ) scope) := by
  refine .modify fun m => ?_
  show Machine.mk _ _ _ = Machine.mk _ _ _
  rw [Scopes.define_rename]
  rfl

theorem alike_store (x : Name) (v : Value) (scope : ScopeId) :
    Alike ρ id (store c x v scope) (store c' x (v.rename ρ) scope) := by
  intro m
  have hassign : (m.rename ρ).scopes.assign? scope x (v.rename ρ) = _ :=
    m.scopes.assign?_rename scope x v
  cases hs : m.scopes.assign? scope x v with
  | some scopes =>
      rw [hs] at hassign
      rw [store_of_some hs, store_of_some hassign]
      exact .finished (.ok ()) { m with scopes := scopes }
  | none =>
      rw [hs] at hassign
      rw [store_of_none hs, store_of_none hassign, h.names_eq]
      exact .finished (.of _) m

theorem alike_selector (function : ExprId) (scope : ScopeId) :
    Alike ρ (.rename ρ) (selector c function scope) (selector c' function scope) := by
  refine alike_expr_bind h function fun node span span' => ?_
  cases node with
  | derived operator lo ro =>
      refine (alike_operands lo ro scope).bind fun p => ?_
      exact (alike_derive h operator p.1 p.2).bind fun d => .pure (Callable.derived d)
  | _ => exact alike_evaluateCallable function scope

omit h in
theorem alike_pick (f : Callable) (left : Option Value) (current : Value) (scope : ScopeId) :
    Alike ρ (.map (.rename ρ)) (pick f left current scope)
      (pick (f.rename ρ) (left.map (.rename ρ)) (current.rename ρ) scope) := by
  unfold pick
  rw [Value.shape?_rename]
  cases current.shape? with
  | none => exact .pure none
  | some shape => exact (alike_call f left (.indexes (.iota shape)) scope).map fun _ => rfl

/-- The three phases before the storing do the same on both sides. -/
theorem alike_prepared (target : Name) (function : ExprId) (left : Option ExprId) (value : ExprId)
    (scope : ScopeId) :
    Alike ρ (.rename ρ) (prepared c target function left value scope)
      (prepared c' target function left value scope) :=
  (alike_evaluate value scope).bind fun v => (alike_evaluateOptional left scope).bind fun l =>
    (alike_variableValue h target scope).bind fun current =>
      (alike_selector h function scope).bind fun f =>
        (alike_pick f l current scope).bind fun picked =>
          .pure (Selected.mk v current picked)

/-- What is stored matches, or neither side stores. -/
theorem alike_finish (target : Name) (scope : ScopeId) (p : Selected) :
    Alike ρ (.rename ρ) (finish c target scope p) (finish c' target scope (p.rename ρ)) := by
  unfold finish
  rw [h.tower]
  exact (Alike.ofExcept (p.updated_alike c.tower)).bind fun updated =>
    (alike_store h target updated scope).bind fun _ => .pure p.value

theorem alike_selectiveAssign (target : Name) (function : ExprId) (left : Option ExprId)
    (value : ExprId) (scope : ScopeId) :
    Alike ρ (.rename ρ) (selectiveAssign c target function left value scope)
      (selectiveAssign c' target function left value scope) := by
  rw [selectiveAssign_eq, selectiveAssign_eq]
  exact (alike_prepared h target function left value scope).bind (alike_finish h target scope)

/-! ## Expressions -/

/-- Node by node both runs do the same. -/
theorem alike_node (scope : ScopeId) (n : Node) :
    Alike ρ (.rename ρ) (node c scope n) (node c' scope n) := by
  cases n with
  | int n => exact .pure (Value.int n)
  | float x => exact .pure (Value.float x)
  | bool b => exact .pure (Value.bool b)
  | text s =>
      unfold node
      rw [h.names_eq]
      exact .pure (Value.text (c.names.lookup s))
  | strand items =>
      exact alike_inArena_bind h (fun _ _ hlike => hlike.strand?_eq items) fun es =>
        alike_strand es scope
  | «variable» x => exact alike_variableValue h x scope
  | primitive symbol => exact .pure (Value.primitive symbol)
  -- the closure names its arena, which is renamed
  | closure body => exact alike_currentArenaId.bind fun a => .pure (Value.closure ⟨a, body⟩)
  | derived operator left right =>
      refine (alike_operands left right scope).bind fun p => ?_
      refine (alike_derive h operator p.1 p.2).bind fun f => ?_
      show Alike ρ _ (pure (Callable.derived f).toValue)
        (pure (Callable.derived (f.rename ρ)).toValue)
      rw [show Callable.derived (f.rename ρ) = (Callable.derived f).rename ρ from rfl,
        Callable.toValue_rename]
      exact .pure _
  | call function left right =>
      exact (alike_evaluate right scope).bind fun r =>
        (alike_evaluateCallable function scope).bind fun f =>
          (alike_evaluateOptional left scope).bind fun l => alike_call f l r scope
  | assign target value =>
      exact (alike_evaluate value scope).bind fun v =>
        (alike_define target v scope).bind fun _ => .pure v
  | selectiveAssign target function left value =>
      exact alike_selectiveAssign h target function left value scope

/-! ## Closures -/

/-- Notes quote a statement as it is printed, and so they agree. -/
theorem alike_statementNote (body : BodyRange) (index : Nat) :
    Alike ρ id (statementNote c body index) (statementNote c' body index) := by
  unfold statementNote
  rw [h.names_eq]
  exact (alike_printed h fun _ _ hlike => hlike.printClosure_eq body).bind fun _ => .pure _

/-- The errors of a statement have different places and the same note. -/
theorem alike_failAt {g : α → β} (cause : Cause) (e : ExprId) (body : BodyRange) (index : Nat) :
    Alike ρ g (failAt c cause e body index) (failAt c' cause e body index) := by
  refine alike_expr_bind h e fun node span span' => ?_
  refine (alike_statementNote h body index).bind fun note => ?_
  exact .ofExcept (.error (((EvalError.twins_of cause).locate span span').addNote note))

omit h in
/-- No function is a truth value. -/
theorem truth?_rename (htower : c'.tower = c.tower) (v : Value) :
    truth? c' (v.rename ρ) = truth? c v := by
  cases v with
  | number n =>
      show c'.tower.toBool? n = c.tower.toBool? n
      rw [htower]
  | _ => rfl

theorem alike_holds (condition : Option ExprId) (scope : ScopeId) (body : BodyRange) (index : Nat) :
    Alike ρ id (holds c condition scope body index) (holds c' condition scope body index) := by
  cases condition with
  | none => exact .pure true
  | some e =>
      refine (alike_evaluate e scope).bind fun v => ?_
      simp only [truth?_rename h.tower, Value.kind_rename]
      cases truth? c v with
      | none => exact alike_failAt h _ e body index
      | some b => exact .pure b

theorem alike_refuseUnreachable {g : α → β} (statement : ExprId) (body : BodyRange) (index : Nat) :
    Alike ρ g (refuseUnreachable c statement body index)
      (refuseUnreachable c' statement body index) := by
  unfold refuseUnreachable
  rw [h.names_eq]
  exact (alike_printed h fun _ _ hlike => hlike.print_eq statement).bind fun text =>
    alike_failAt h (.unreachableCode text) statement body index

/-- **Statements** are skipped, refused and run alike. -/
theorem alike_statements (scope : ScopeId) (body : BodyRange) (index : Nat) (result : Value)
    (guards : List Guard) :
    Alike ρ (.rename ρ) (statements c scope body index result guards)
      (statements c' scope body index (result.rename ρ) guards) := by
  induction guards generalizing index result with
  | nil => exact .pure result
  | cons g rest ih =>
      refine alike_expr_bind h g.body fun node span span' => ?_
      show Alike ρ _ (if g.condition.isNone && !rest.isEmpty && !node.isAssignment then _ else _)
        (if g.condition.isNone && !rest.isEmpty && !node.isAssignment then _ else _)
      split
      · exact alike_refuseUnreachable h g.body body index
      · refine (alike_holds h g.condition scope body index).bind fun b => ?_
        cases b with
        | false => exact ih (index + 1) result
        | true =>
            refine (alike_evaluate g.body scope).bind fun v => ?_
            show Alike ρ _ (if node.isAssignment then _ else _) (if node.isAssignment then _ else _)
            split
            · exact ih (index + 1) v
            · exact .pure v

/-- A body is run statement by statement on both sides. -/
theorem alike_bodyIn (body : BodyRange) (scope : ScopeId) :
    Alike ρ (.rename ρ) (bodyIn c body scope) (bodyIn c' body scope) :=
  alike_inArena_bind h (fun _ _ hlike => hlike.body?_eq body) fun guards =>
    alike_statements h scope body 0 .emptyArray guards

/-! ## Calls -/

omit h in
/-- Matching calls enter matching scopes. -/
theorem enter_rename (m : Machine) (f : Closure) (left : Option Value) (right : Value)
    (scope : ScopeId) :
    (m.rename ρ).enter (f.rename ρ) (left.map (.rename ρ)) (right.rename ρ) scope =
      (m.enter f left right scope).rename ρ := by
  have hscopes := m.scopes.withArguments_rename (ρ := ρ) scope left right
  exact congrArg (Machine.mk (ρ f.arena) (m.enter f left right scope).calls) hscopes.symm

/-- A closure and the one that it is matched to are refused at the same limit. -/
theorem alike_callClosure (f : Closure) (left : Option Value) (right : Value) (scope : ScopeId) :
    Alike ρ (.rename ρ) (callClosure c f left right scope)
      (callClosure c' (f.rename ρ) (left.map (.rename ρ)) (right.rename ρ) scope) := by
  intro m
  rw [callClosure_apply, callClosure_apply, enter_rename]
  show Progress.Alike ρ _ _ (if m.calls.limit ≤ m.calls.depth then _
    else if f.body.isEmpty then _ else _)
  split
  · exact .finished (.of _) m
  · split
    · exact .finished (.ok Value.emptyArray) m
    · have hbody := alike_bodyIn h f.body ⟨m.scopes.size⟩ (m.enter f left right scope)
      have hsize : (m.rename ρ).scopes.size = m.scopes.size := m.scopes.size_rename
      rw [hsize]
      exact hbody.mapEnd (fun _ _ htwins => htwins) fun _ => rfl

/-- **A call does the same on both sides**: what a closure runs lies in matching arenas, and
registered bodies are blind to functions. -/
theorem alike_callFunction (hblind : c.registry.Blind) (f : Callable) (left : Option Value)
    (right : Value) (scope : ScopeId) :
    Alike ρ (.rename ρ) (callFunction c f left right scope)
      (callFunction c' (f.rename ρ) (left.map (.rename ρ)) (right.rename ρ) scope) := by
  cases f with
  | closure f => exact alike_callClosure h f left right scope
  | primitive symbol =>
      show Alike ρ _ (ofExcept (c.registry.resolve c.tower symbol left right) >>= _)
        (ofExcept (c'.registry.resolve c'.tower symbol _ _) >>= _)
      rw [h.registry, h.tower]
      refine .ofExcept_bind (c.registry.resolve_alike c.tower symbol left right) fun d hd => ?_
      obtain ⟨handler, hmem, -, hbody⟩ := Registry.exists_handler_of_resolve hd
      show Alike ρ _ (ofBody scope (d.body c.tower d.left d.right))
        (ofBody scope (d.body c.tower (d.left.map (.rename ρ)) (d.right.rename ρ)))
      rw [hbody]
      exact .ofBody (hblind.primitive handler hmem ρ c.tower d.left d.right) scope
  | derived d =>
      show Alike ρ _ (found (c.registry.body? d.body) >>= _)
        (found (c'.registry.body? d.body) >>= _)
      rw [h.registry, h.tower]
      refine .found_bind fun body hbody => .ofBody ?_ scope
      exact hblind.operator body (Array.mem_of_getElem? hbody) ρ c.tower d.left d.right left right

/-- **One step goes like the other.** -/
theorem steps_alike (hblind : c.registry.Blind) : StepsAlike ρ c c' := by
  intro q
  cases q with
  | evaluate e scope =>
      refine alike_expr_bind h e fun n span span' => ?_
      exact (alike_node h scope n).locating span span'
  | call f left right scope => exact alike_callFunction h hblind f left right scope

end Forms

/-! ## Whole evaluations -/

/-- **Spans are inert**, with bodies of the core library. Let the arenas of two programs differ in
spans alone, along some matching `ρ` of the arenas, and let both begin with the same request in the
same scopes, as far as `ρ` matches the closures in them, and under the same limit.

* If the first evaluation gives a value, the second one gives the value that is matched to it.
* If the first one gives an error, the second one gives an error with the same cause, message and
  notes. Neither of them is at the dummy span.
* In both cases the scopes in the end are matched, and if the second evaluation ends, so does the
  first. If one panics, so does the other.
* They go on for equally long, in depth and in turns, and matched values are written alike.
* If the first program was built children first, with all its functions there, both do end, or both
  panic, on a call that asks for an array which no memory has room for. -/
theorem spans_inert (ρ : ArenaId → ArenaId) (c c' : Context) (hlibrary : c.registry.OfCore)
    (hregistry : c'.registry = c.registry) (htower : c'.tower = c.tower)
    (harenas : ∀ a, Option.Rel Arena.Alike (c.arena? a) (c'.arena? (ρ a)))
    (q : Request) (m : Machine) :
    (∀ v m', Ends c (step c q) m (.ok v) m' →
      Ends c' (step c' (q.rename ρ)) (m.rename ρ) (.ok (v.rename ρ)) (m'.rename ρ)) ∧
    (∀ e m', Ends c (step c q) m (.error e) m' →
      ∃ e', Ends c' (step c' (q.rename ρ)) (m.rename ρ) (.error e') (m'.rename ρ) ∧
        e'.cause = e.cause ∧ e'.message = e.message ∧ e'.notes = e.notes ∧
          e.span ≠ some .dummy ∧ e'.span ≠ some .dummy) ∧
    (∀ r' n', Ends c' (step c' (q.rename ρ)) (m.rename ρ) r' n' →
      ∃ r m', Ends c (step c q) m r m' ∧ n' = m'.rename ρ) ∧
    (∀ why, Panics c (step c q) m why ↔ Panics c' (step c' (q.rename ρ)) (m.rename ρ) why) ∧
    (∀ depth, (run c depth q m).Alike ρ (.rename ρ) (run c' depth (q.rename ρ) (m.rename ρ))) ∧
    (∀ count, (exec c count (step c q m) []).Alike ρ (.rename ρ)
      (exec c' count (step c' (q.rename ρ) (m.rename ρ)) [])) ∧
    (∀ v : Value, c'.render (v.rename ρ) = c.render v) ∧
    ∀ names, c.registry = Library.core names → (∀ arena ∈ c.arenas, arena.ChildrenFirst) →
      Answerable c m q → m.scopes.Resolves c →
      (∃ r m', Ends c (step c q) m r m') ∨ ∃ q' n, Leads c q m q' n ∧ Exceeds c q' := by
  have h : c.Alike ρ c' := ⟨hregistry, htower, harenas⟩
  -- step by step the two runs match; all that follows is read off this
  have hsteps := steps_alike h hlibrary.blind
  refine ⟨fun v m' hend => ?_, fun e m' hend => ?_, fun r' n' hend => ?_, fun why => ?_,
    fun depth => run_alike hsteps depth q m, fun count => ?_, h.render_eq,
    fun names hcore hbuilt hq hm => ?_⟩
  · obtain ⟨r', hend', hresults⟩ := hend.alike hsteps
    cases hresults
    exact hend'
  · obtain ⟨r', hend', hresults⟩ := hend.alike hsteps
    cases hresults with
    | @error _ e' htwins =>
        exact ⟨e', hend', htwins.cause, congrArg Cause.message htwins.cause, htwins.notes,
          htwins.span, htwins.span'⟩
  · obtain ⟨r, m', hend', hn', -⟩ := hend.of_alike hsteps
    exact ⟨r, m', hend', hn'⟩
  · rw [panics_step_iff, panics_step_iff]
    exact exists_congr fun depth => (run_alike hsteps depth q m).eq_panics_iff
  · exact exec_alike hsteps count (hsteps q m) .nil
  · have horderly : Orderly c names := ⟨hcore, hbuilt⟩
    rcases horderly.settles hq hm with ⟨r, m', hend, -, -⟩ | hpanics
    · exact .inl ⟨r, m', hend⟩
    · exact .inr ((panics_iff_exceeds hcore).mp hpanics)

end Eval

/-- `{'⍺':⍵} 7` and `F←{'⍺':⍵}`, with all places moved by `n`. -/
def Arena.indented (n : Nat) : Arena where
  exprs := #[⟨.text .leftArgument, ⟨n + 1, n + 4⟩⟩, ⟨.variable .rightArgument, .dummy⟩,
    ⟨.closure ⟨0, 1⟩, ⟨n, n + 7⟩⟩, ⟨.int 7, .dummy⟩, ⟨.call ⟨2⟩ none ⟨3⟩, ⟨n, n + 9⟩⟩,
    ⟨.assign ⟨5⟩ ⟨2⟩, .dummy⟩]
  items := #[]
  guards := #[⟨some ⟨0⟩, ⟨1⟩⟩]

/-- Indenting a text moves its places and nothing else. -/
theorem Arena.alike_indented (n k : Nat) : (Arena.indented n).Alike (.indented k) where
  nodes := by simp [indented]
  items := rfl
  guards := rfl

/-- That program with the core library, as its only arena. -/
def Context.flush : Context where
  registry := Library.core .initial
  tower := .standard
  arenas := #[.indented 0]

/-- The program further to the right, behind another arena. -/
def Context.indented : Context where
  registry := Library.core .initial
  tower := .standard
  arenas := #[.empty, .indented 10]

/-- One scope, and three calls at most. -/
def Machine.flush : Machine := ⟨⟨0⟩, .empty 3, Scopes.empty.outermost.2⟩

/-- The arenas are matched by moving on by one. -/
theorem Context.rel_indented (a : ArenaId) :
    Option.Rel Arena.Alike (Context.flush.arena? a) (Context.indented.arena? ⟨a.index + 1⟩) := by
  obtain ⟨_ | n⟩ := a
  · exact .some (Arena.alike_indented 0 10)
  · have hflush : Context.flush.arena? ⟨n + 1⟩ = none := Array.getElem?_eq_none (by simp [flush])
    have hindented : Context.indented.arena? ⟨n + 1 + 1⟩ = none :=
      Array.getElem?_eq_none (by simp [indented])
    rw [hflush, hindented]
    exact .none

/-- Both programs give a closure of their own arena, and the same error at two places. -/
theorem Eval.spans_inert_indented :
    (∃ n, Ends .flush (step .flush (.evaluate ⟨5⟩ ⟨0⟩)) .flush (.ok (.closure ⟨⟨0⟩, ⟨0, 1⟩⟩)) n ∧
      Ends .indented (step .indented (.evaluate ⟨5⟩ ⟨0⟩))
        (Machine.flush.rename fun a => ⟨a.index + 1⟩) (.ok (.closure ⟨⟨1⟩, ⟨0, 1⟩⟩))
        (n.rename fun a => ⟨a.index + 1⟩)) ∧
    ∃ err err' n,
      Ends .flush (step .flush (.evaluate ⟨4⟩ ⟨0⟩)) .flush (.error err) n ∧
      Ends .indented (step .indented (.evaluate ⟨4⟩ ⟨0⟩))
        (Machine.flush.rename fun a => ⟨a.index + 1⟩) (.error err')
        (n.rename fun a => ⟨a.index + 1⟩) ∧
      err.span = some ⟨1, 4⟩ ∧ err'.span = some ⟨11, 14⟩ ∧ err'.cause = .guardType .text ∧
      err'.notes = err.notes := by
  have hinert := fun q => spans_inert (fun a => ⟨a.index + 1⟩) .flush .indented
    (Registry.ofCore_core .initial) rfl rfl Context.rel_indented q .flush
  constructor
  · obtain ⟨hvalue, -⟩ := hinert (.evaluate ⟨5⟩ ⟨0⟩)
    have hend : ∃ n, Ends .flush (step .flush (.evaluate ⟨5⟩ ⟨0⟩)) .flush
        (.ok (.closure ⟨⟨0⟩, ⟨0, 1⟩⟩)) n := ⟨_, ⟨20, rfl⟩⟩
    obtain ⟨n, hend⟩ := hend
    exact ⟨n, hend, hvalue _ n hend⟩
  · obtain ⟨-, herror, -⟩ := hinert (.evaluate ⟨4⟩ ⟨0⟩)
    have hend : ∃ err n, Ends .flush (step .flush (.evaluate ⟨4⟩ ⟨0⟩)) .flush (.error err) n ∧
        err.cause = .guardType .text ∧ err.span = some ⟨1, 4⟩ := ⟨_, _, ⟨20, rfl⟩, rfl, rfl⟩
    obtain ⟨err, n, hend, hcause, hspan⟩ := hend
    obtain ⟨err', hend', hcause', -, hnotes, -⟩ := herror err n hend
    have hrun : ∃ e s, Ends .indented (step .indented (.evaluate ⟨4⟩ ⟨0⟩))
        (Machine.flush.rename fun a => ⟨a.index + 1⟩) (.error e) s ∧ e.span = some ⟨11, 14⟩ :=
      ⟨_, _, ⟨20, rfl⟩, rfl⟩
    obtain ⟨e, s, hrun, hplace⟩ := hrun
    cases (hrun.unique hend').1
    exact ⟨err, err', n, hend, hend', hspan, hplace, hcause'.trans hcause, hnotes⟩

end ArrayLang

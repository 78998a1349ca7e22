import ArrayLang.Eval.Step
import ArrayLang.Proofs.Registry.Bodies
import ArrayLang.Proofs.Registry.Dispatch

/-!
# Valence

Since a pair domain never invents or drops a left side, nobody behind it has to ask again how many
arguments a call has (`sides_kept_apart`). The body of a handler is given a left argument exactly if
the call has one, and a definition that accepts two operands always makes a function of them
(`OperatorDefinition.exists_of_accepts`).
-/

namespace ArrayLang

open PairDomain

variable {tower : Tower} {symbol : Name} {left : Value} {right : Option Value}

/-! ## Definitions with two operands -/

/-- A definition that accepts two operands makes a function with two operands of them. -/
theorem OperatorDefinition.exists_of_accepts {o : OperatorDefinition} {right : Value}
    {p : Option Value × Value} (harity : o.arity = .dyadic)
    (h : o.domain.convert? tower (some left) right = some p) :
    ∃ l r, p = (some l, r) ∧
      o.derive? tower symbol left (some right) = some ⟨symbol, o.body, l, some r⟩ := by
  obtain ⟨l, r⟩ := p
  have hsome : l.isSome = true := isSome_of_convert? h
  obtain ⟨l, rfl⟩ := Option.isSome_iff_exists.mp hsome
  refine ⟨l, r, rfl, ?_⟩
  rw [derive?_eq_some_iff, harity]
  exact ⟨h, rfl, rfl⟩

/-- Whoever has a definition that makes a function of the operands has a function for them. -/
theorem Registry.exists_derive_of_mem {r : Registry} {o : OperatorDefinition} {f : Derived}
    (ho : o ∈ r.definitionsOf symbol) (hf : o.derive? tower symbol left right = some f) :
    ∃ f, r.derive tower symbol left right = .ok f := by
  have hfound :
      ((r.definitionsOf symbol).findSome? fun d => d.derive? tower symbol left right).isSome := by
    rw [List.findSome?_isSome_iff]
    exact ⟨o, ho, by rw [hf]; rfl⟩
  obtain ⟨f, hf⟩ := Option.isSome_iff_exists.mp hfound
  refine ⟨f, ?_⟩
  rw [derive_eq_firstOf, firstOf_eq_ok_iff]
  exact findSome?_eq_some_iff_firstAccepted.mp hf

/-! ## Calls of primitives -/

/-- The call of a primitive is refused by the registry, or runs what the registry resolves it to. -/
theorem Eval.step_call_primitive (c : Context) (symbol : Name) (left : Option Value)
    (right : Value) (scope : ScopeId) (m : Machine) :
    (∃ e, c.registry.resolve c.tower symbol left right = .error e ∧
      step c (.call (.primitive symbol) left right scope) m = .finished (.error e) m) ∨
    ∃ d, c.registry.resolve c.tower symbol left right = .ok d ∧
      step c (.call (.primitive symbol) left right scope) m =
        ofBody scope (d.body c.tower d.left d.right) m := by
  have hstep : step c (.call (.primitive symbol) left right scope) m =
      (ofExcept (c.registry.resolve c.tower symbol left right) >>= fun d =>
        ofBody scope (d.body c.tower d.left d.right)) m := rfl
  rw [hstep]
  cases hd : c.registry.resolve c.tower symbol left right with
  | error e => exact .inl ⟨e, rfl, rfl⟩
  | ok d => exact .inr ⟨d, rfl, rfl⟩

/-! ## All of dispatch -/

/-- **Pair domains keep the valence and convert side by side.** If a domain lets a pair through,
there is a left side afterwards exactly if there was one before, and each side is what was given or
what one of the domains for that side makes of it alone. Of a pair that `any` lets through one side
is converted and the other one is not: the left side wherever there is one that the domain accepts.

So the handler that a primitive resolves to is given a left argument exactly if the call had one; a
call that is not refused runs the handler's body on what it is given. And a definition with two
operands makes a function of every pair that its domain accepts. -/
theorem sides_kept_apart (c : Context) :
    (∀ (d : PairDomain) (left left' : Option Value) (right right' : Value),
      d.convert? c.tower left right = some (left', right') →
      left'.isSome = left.isSome ∧
      Option.Rel (Converted c.tower d.leftDomains) left left' ∧
      Converted c.tower d.rightDomains right right' ∧
      ∀ child, d.TestsOne child → OneConverted c.tower child left right left' right') ∧
    (∀ (symbol : Name) (left : Option Value) (right : Value) (d : Dispatch),
      c.registry.resolve c.tower symbol left right = .ok d →
      ∃ h ∈ c.registry.handlersOf symbol, d.body = h.body ∧
        h.domain.convert? c.tower left right = some (d.left, d.right) ∧
        d.left.isSome = left.isSome) ∧
    (∀ (symbol : Name) (left : Option Value) (right : Value) (scope : ScopeId) (m : Machine),
      (∃ e, c.registry.resolve c.tower symbol left right = .error e ∧
        Eval.step c (.call (.primitive symbol) left right scope) m = .finished (.error e) m) ∨
      ∃ h ∈ c.registry.handlersOf symbol, ∃ l r, l.isSome = left.isSome ∧
        h.domain.convert? c.tower left right = some (l, r) ∧
        Eval.step c (.call (.primitive symbol) left right scope) m =
          Eval.ofBody scope (h.body c.tower l r) m) ∧
    ∀ (symbol : Name), ∀ o ∈ c.registry.definitionsOf symbol, o.arity = .dyadic →
      ∀ (left right : Value) (p : Option Value × Value),
        o.domain.convert? c.tower (some left) right = some p →
        (∃ l r, p = (some l, r) ∧
          o.derive? c.tower symbol left (some right) = some ⟨symbol, o.body, l, some r⟩) ∧
        ∃ f, c.registry.derive c.tower symbol left (some right) = .ok f := by
  refine ⟨fun d left left' right right' h => ?_,
    fun symbol left right d hd => ?_, fun symbol left right scope m => ?_,
    fun symbol o ho harity left right p h => ?_⟩
  · obtain ⟨hleft, hright⟩ := sides_of_convert? h
    exact ⟨isSome_of_convert? h, hleft, hright, fun _ htests => htests.oneConverted h⟩
  · obtain ⟨h, hmem, hconvert, hbody⟩ := Registry.exists_mem_handlersOf_of_resolve hd
    exact ⟨h, hmem, hbody, hconvert, isSome_of_convert? hconvert⟩
  · refine (Eval.step_call_primitive c symbol left right scope m).imp_right ?_
    rintro ⟨d, hd, hstep⟩
    obtain ⟨h, hmem, hconvert, hbody⟩ := Registry.exists_mem_handlersOf_of_resolve hd
    rw [hbody] at hstep
    exact ⟨h, hmem, d.left, d.right, isSome_of_convert? hconvert, hconvert, hstep⟩
  · obtain ⟨l, r, rfl, hf⟩ := OperatorDefinition.exists_of_accepts harity h
    exact ⟨⟨l, r, rfl, hf⟩, Registry.exists_derive_of_mem ho hf⟩

/-- Takes what stands for indexes on the left, and a function on the right. -/
def PairDomain.indexesAndFunction : PairDomain :=
  .dyadic (some (.split (some (.leaf .toIndexArray none)) (some (.leaf .isFunction none))))

/-- A registry with one operator, which takes indexes and a function. -/
def Context.pairing : Context where
  registry := ((Registry.empty (Interner.initial.internAll ["∘", "+"])).registerOperator "∘" .dyadic
    .indexesAndFunction fun _ left _ _ _ => pure left).2
  tower := .standard
  arenas := #[]

/-- Under two `dyadic`s, `any` converts a text on the left and leaves the one on the right. The
operator converts its left operand, and makes a function. -/
theorem sides_kept_apart_pairing :
    OneConverted .standard (.leaf .toStringArray none) (some (.text "a")) (.text "b")
      (some (.strings (.vector ["a"]))) (.text "b") ∧
    ∃ f, Context.pairing.registry.derive .standard ⟨5⟩ (.int 3) (some (.primitive ⟨6⟩)) =
      .ok f := by
  obtain ⟨hsides, -, -, hderive⟩ := sides_kept_apart .pairing
  have hconvert :
      (PairDomain.dyadic (some (.dyadic (some (.any (.leaf .toStringArray none)))))).convert?
        .standard (some (.text "a")) (.text "b") =
      some (some (.strings (.vector ["a"])), .text "b") := rfl
  obtain ⟨-, -, -, hone⟩ := hsides _ _ _ _ _ hconvert
  have hmem : ⟨.dyadic, .indexesAndFunction, ⟨0⟩⟩ ∈
      Context.pairing.registry.definitionsOf ⟨5⟩ := List.mem_cons_self
  have haccepts :
      PairDomain.indexesAndFunction.convert? .standard (some (.int 3)) (.primitive ⟨6⟩) =
      some (some (.indexes (.vector [3])), .primitive ⟨6⟩) := rfl
  exact ⟨hone _ (.dyadic (.dyadic .any)), (hderive ⟨5⟩ _ hmem rfl _ _ _ haccepts).2⟩

end ArrayLang

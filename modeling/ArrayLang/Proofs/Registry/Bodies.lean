import ArrayLang.Registry.Basic

/-!
# The errors of bodies

Bodies call functions, and these may fail. A registry *passes errors* if each of its bodies ends
with the error of a call that failed, so that whatever else a body raises is raised by itself, with
all calls before it answered by values (`Body.Raises`). What panics is a body (`Body.Panics`).
-/

namespace ArrayLang

namespace Body

variable {α β : Type}

/-- When its calls give values, the body may end with an error of this cause. -/
def Raises (cause : Cause) : Body α → Prop
  | .done (.ok _) | .panics => False
  | .done (.error e) => e.cause = cause
  | .call _ _ _ resume => ∃ v, (resume (.ok v)).Raises cause

/-- For some answers to its calls, the body panics. -/
def Panics : Body α → Prop
  | .done _ => False
  | .call _ _ _ resume => ∃ r, (resume r).Panics
  | .panics => True

@[simp] theorem not_panics_pure (a : α) : ¬ (pure a : Body α).Panics := id

/-- An error is no panic. -/
@[simp] theorem not_panics_ofExcept (r : Except EvalError α) : ¬ (ofExcept r).Panics := id

/-- Bodies without a panic can be put together. -/
theorem not_panics_bind {b : Body α} {next : α → Body β} (hb : ¬ b.Panics)
    (hnext : ∀ a, ¬ (next a).Panics) : ¬ (b >>= next).Panics := by
  show ¬ (b.bind next).Panics
  induction b with
  | done r =>
      cases r with
      | ok a => exact hnext a
      | error e => exact id
  | call f left right resume ih =>
      rintro ⟨r, hr⟩
      exact ih r (fun h => hb ⟨r, h⟩) hr
  | panics => exact absurd trivial hb

/-- A check in front of a body is passed or ends it. -/
theorem panics_ofExcept_bind_iff {r : Except EvalError α} {next : α → Body β} :
    (ofExcept r >>= next).Panics ↔ ∃ a, r = .ok a ∧ (next a).Panics := by
  cases r with
  | ok a => exact ⟨fun h => ⟨a, rfl, h⟩, by rintro ⟨_, ⟨⟩, h⟩; exact h⟩
  | error e => exact ⟨False.elim, by rintro ⟨_, ⟨⟩, _⟩⟩

end Body

namespace Registry

variable {r : Registry} {tower : Tower}

/-- Every handler is registered under a symbol. -/
theorem mem_handlers_iff {h : PrimitiveHandler} :
    h ∈ r.handlers ↔ ∃ symbol, h ∈ r.handlersOf symbol := Dictionary.mem_flatten_values_iff

theorem mem_definitions_iff {d : OperatorDefinition} :
    d ∈ r.definitions ↔ ∃ symbol, d ∈ r.definitionsOf symbol :=
  Dictionary.mem_flatten_values_iff

/-- The body is that of a registered primitive or operator, with the arguments of some call. -/
inductive HasBody (r : Registry) (tower : Tower) : Body Value → Prop
  | primitive {h : PrimitiveHandler} (hmem : h ∈ r.handlers) (left : Option Value) (right : Value) :
      HasBody r tower (h.body tower left right)
  | operator {b : OperatorBody} (hmem : b ∈ r.bodies) (leftOperand : Value)
      (rightOperand : Option Value) (left : Option Value) (right : Value) :
      HasBody r tower (b tower leftOperand rightOperand left right)

/-- What a symbol resolves to is the body of one of its handlers that accepts the arguments. -/
theorem exists_mem_handlersOf_of_resolve {symbol : Name} {left : Option Value} {right : Value}
    {d : Dispatch} (h : r.resolve tower symbol left right = .ok d) :
    ∃ handler ∈ r.handlersOf symbol,
      handler.domain.convert? tower left right = some (d.left, d.right) ∧
        d.body = handler.body := by
  unfold resolve at h
  simp only at h
  split at h
  · cases h
  · next handlers hhandlers =>
    split at h
    · next d' hd =>
        cases h
        obtain ⟨handler, hmem, hdispatch⟩ := List.exists_of_findSome?_eq_some hd
        obtain ⟨⟨l, r'⟩, hconvert, rfl⟩ := Option.map_eq_some_iff.mp hdispatch
        refine ⟨handler, ?_, hconvert, rfl⟩
        rw [handlersOf, hhandlers]
        exact hmem
    · cases h

/-- What was resolved is one of the handlers, and has converted the arguments. -/
theorem exists_handler_of_resolve {symbol : Name} {left : Option Value} {right : Value}
    {d : Dispatch} (h : r.resolve tower symbol left right = .ok d) :
    ∃ handler ∈ r.handlers,
      handler.domain.convert? tower left right = some (d.left, d.right) ∧
        d.body = handler.body := by
  obtain ⟨handler, hmem, h⟩ := exists_mem_handlersOf_of_resolve h
  exact ⟨handler, mem_handlers_iff.mpr ⟨symbol, hmem⟩, h⟩

theorem hasBody_of_resolve {symbol : Name} {left : Option Value} {right : Value} {d : Dispatch}
    (h : r.resolve tower symbol left right = .ok d) :
    r.HasBody tower (d.body tower d.left d.right) := by
  obtain ⟨handler, hmem, -, hbody⟩ := exists_handler_of_resolve h
  rw [hbody]
  exact .primitive hmem d.left d.right

/-- What an operator makes comes from a definition that accepts the operands. -/
theorem exists_definition_of_derive {symbol : Name} {left : Value} {right : Option Value}
    {f : Derived} (h : r.derive tower symbol left right = .ok f) :
    ∃ d ∈ r.definitions, d.derive? tower symbol left right = some f := by
  unfold derive at h
  simp only at h
  split at h
  · cases h
  · next definitions hdefinitions =>
    split at h
    · next f' hf =>
        cases h
        obtain ⟨d, hmem, hd⟩ := List.exists_of_findSome?_eq_some hf
        refine ⟨d, mem_definitions_iff.mpr ⟨symbol, ?_⟩, hd⟩
        rw [definitionsOf, hdefinitions]
        exact hmem
    · cases h

theorem hasBody_of_body? {b : BodyId} {body : OperatorBody} (h : r.body? b = some body)
    (leftOperand : Value) (rightOperand left : Option Value) (right : Value) :
    r.HasBody tower (body tower leftOperand rightOperand left right) :=
  .operator (Array.mem_of_getElem? h) leftOperand rightOperand left right

/-- Every registered body ends with the error of a call that failed. -/
def PassesErrors (r : Registry) : Prop := ∀ tower b, r.HasBody tower b → b.PassesErrors

/-- Some registered body may end with an error of this cause that none of its calls gave. -/
def Raises (r : Registry) (tower : Tower) (cause : Cause) : Prop :=
  ∃ b, r.HasBody tower b ∧ b.Raises cause

end Registry

end ArrayLang

import ArrayLang.Proofs.Library.Core
import ArrayLang.Proofs.Registry.Log
import ArrayLang.Proofs.Value.Shapes

/-!
# Bodies that make no functions

A closure and a derived function name code by positions, so a body that made one up could name what
is not there. `Registry.PassesOn` says of a registry that its bodies only pass on, combine and call
what they are given: whichever closures and operator bodies are in the arguments of a body and in
the answers to its calls, there are no others in what it calls, hands to a call or results in. The
core library is such a registry (`Library.passesOn_core`).
-/

namespace ArrayLang

/-! ## Functions in values -/

/-- All closures in the value are among the one, and all bodies of derived functions in it among the
other. -/
def Value.HoldsOnly (closures : Closure → Prop) (bodies : BodyId → Prop) (v : Value) : Prop :=
  (∀ f, v.Contains (.closure f) → closures f) ∧
    ∀ operator body left right, v.Contains (.derived operator body left right) → bodies body

namespace Value

variable {closures : Closure → Prop} {bodies : BodyId → Prop} {v w : Value}

/-- What a part contains is contained in the whole. -/
theorem Contains.trans {u : Value} (h : u.Contains v) (h' : v.Contains w) : u.Contains w := by
  induction h with
  | self => exact h'
  | cell hu _ ih => exact .cell hu (ih h')
  | left _ ih => exact .left (ih h')
  | right _ ih => exact .right (ih h')

/-- Parts hold nothing else than the whole does. -/
theorem HoldsOnly.of_contains (h : v.HoldsOnly closures bodies) (hw : v.Contains w) :
    w.HoldsOnly closures bodies :=
  ⟨fun f hf => h.1 f (hw.trans hf), fun _ _ _ _ hd => h.2 _ _ _ _ (hw.trans hd)⟩

/-- What is an array, or neither array nor function, holds what its cells hold. -/
theorem holdsOnly_of_cells (hcallable : v.callable? = none)
    (h : ∀ w ∈ v.cells?.getD [], w.HoldsOnly closures bodies) : v.HoldsOnly closures bodies := by
  constructor
  · intro f hf
    cases hf with
    | self => cases hcallable
    | cell hu hf => exact (h _ hu).1 f hf
    | left _ => cases hcallable
    | right _ => cases hcallable
  · intro operator body left right hd
    cases hd with
    | self => cases hcallable
    | cell hu hd => exact (h _ hu).2 _ _ _ _ hd
    | left _ => cases hcallable
    | right _ => cases hcallable

end Value

/-! ## Bodies -/

namespace Body

/-- Whatever the body calls, hands to a call or results in has the property, as long as its calls
give such values. -/
def KeepsTo (P : Value → Prop) : Body Value → Prop
  | .done r => ∀ v, r = .ok v → P v
  | .call f left right resume =>
    P f.toValue ∧ (∀ v ∈ left, P v) ∧ P right ∧
      ∀ r, (∀ v, r = .ok v → P v) → (resume r).KeepsTo P
  | .panics => True

variable {l : Licence} {P : Value → Prop} {b : Body Value}

/-- Such a body stays within the licences that permit these values, and to go on after errors. -/
theorem KeepsTo.within (h : b.KeepsTo l.value) (hcallee : ∀ f, l.value f.toValue → l.callee f)
    (hfails : ∀ cause, l.fails cause) (hcatch : l.catching) (hpanics : l.panics .body) :
    b.Within l l.value := by
  induction b with
  | done r =>
      cases r with
      | ok v => exact h v rfl
      | error e => exact hfails e.cause
  | call f left right resume ih =>
      obtain ⟨hf, hleft, hright, hres⟩ := h
      refine ⟨⟨rfl, hcallee f hf, hleft, hright⟩, .inl hcatch, fun r hr => ih r (hres r ?_)⟩
      rintro v rfl
      exact hr
  | panics => exact hpanics

/-- And what stays within a licence keeps to its values. -/
theorem Within.keepsTo (h : b.Within l l.value) (hcallee : ∀ f, l.callee f → l.value f.toValue)
    (hfails : ∀ cause, l.fails cause) : b.KeepsTo l.value := by
  induction b with
  | done r =>
      rintro v rfl
      exact h
  | call f left right resume ih =>
      obtain ⟨⟨-, hf, hleft, hright⟩, -, hres⟩ := h
      refine ⟨hcallee f hf, hleft, hright, fun r hr => ih r (hres r ?_)⟩
      cases r with
      | ok v => exact hr v rfl
      | error e => exact hfails e.cause
  | panics => trivial

end Body

/-! ## Registries -/

namespace Registry

/-- The registered bodies pass on, combine and call what they are given, and make no functions. -/
structure PassesOn (r : Registry) : Prop where
  primitive : ∀ h ∈ r.handlers, ∀ closures bodies tower left right,
    (∀ v ∈ left, v.HoldsOnly closures bodies) → right.HoldsOnly closures bodies →
      (h.body tower left right).KeepsTo (Value.HoldsOnly closures bodies)
  operator : ∀ b ∈ r.bodies, ∀ closures bodies tower leftOperand rightOperand left right,
    leftOperand.HoldsOnly closures bodies → (∀ v ∈ rightOperand, v.HoldsOnly closures bodies) →
    (∀ v ∈ left, v.HoldsOnly closures bodies) → right.HoldsOnly closures bodies →
      (b tower leftOperand rightOperand left right).KeepsTo (Value.HoldsOnly closures bodies)

/-- The registry was made by registrations, and by adding bodies for functions that are made
elsewhere. -/
inductive Built : Registry → Prop
  | empty (names : Interner) : Built (.empty names)
  | add {r : Registry} (h : Built r) (x : Registration) : Built (r.add x)
  | addBody {r : Registry} (h : Built r) (body : OperatorBody) : Built (r.addBody body).2

variable {r : Registry} {b : BodyId} {body : OperatorBody}

/-- A body is there if its handle is below the number of bodies. -/
theorem body?_isSome_iff : (r.body? b).isSome ↔ b.index < r.bodies.size := by
  simp [body?]

/-- **Every definition leads to its body**, since it was registered with one. -/
theorem Built.isSome_body? (h : r.Built) : ∀ d ∈ r.definitions, (r.body? d.body).isSome := by
  induction h with
  | empty names => exact nofun
  | @add r h x ih =>
      obtain ⟨symbol, entry⟩ := x
      cases entry with
      | primitive domain body => exact ih
      | name => exact ih
      | operator arity domain body =>
          intro d hd
          obtain ⟨n, hn⟩ := mem_definitions_iff.mp hd
          refine body?_isSome_iff.mpr ?_
          show d.body.index < (r.bodies.push body).size
          rw [Array.size_push]
          rw [definitionsOf_add] at hn
          rcases List.mem_append.mp hn with hold | hnew
          · exact Nat.lt_succ_of_lt (body?_isSome_iff.mp (ih d (mem_definitions_iff.mpr ⟨n, hold⟩)))
          · obtain ⟨o, -, rfl⟩ := Option.map_eq_some_iff.mp (Option.mem_toList.mp hnew)
            exact Nat.lt_succ_self _
  | @addBody r h body ih =>
      intro d hd
      refine body?_isSome_iff.mpr ?_
      show d.body.index < (r.bodies.push body).size
      rw [Array.size_push]
      exact Nat.lt_succ_of_lt (body?_isSome_iff.mp (ih d hd))

end Registry

/-! ## The core library -/

namespace Library

/-- The licence to use certain closures and operator bodies alone. -/
def handing (closures : Closure → Prop) (bodies : BodyId → Prop) : Licence :=
  { Licence.free ⟨0⟩ ⟨0⟩ with
    value := Value.HoldsOnly closures bodies
    callee := fun f => f.toValue.HoldsOnly closures bodies }

/-- The library hands on the functions it was given. -/
theorem permits_handing (closures : Closure → Prop) (bodies : BodyId → Prop) :
    Permits (handing closures bodies) where
  number _ := Value.holdsOnly_of_cells rfl nofun
  bool _ := Value.holdsOnly_of_cells rfl nofun
  indexes g _ := by
    refine Value.holdsOnly_of_cells rfl fun w hw => ?_
    obtain ⟨i, -, rfl⟩ := List.mem_map.mp hw
    exact Value.holdsOnly_of_cells rfl nofun
  vector vs h := Value.holdsOnly_of_cells rfl h
  cells v h w hw := h.of_contains (.cell hw .self)
  custom _ := trivial
  panics := trivial

theorem passesOn_core (names : Interner) : (core names).PassesOn where
  primitive h hmem closures bodies tower left right hleft hright := by
    have hwithin : (h.body tower left right).Within (handing closures bodies) _ :=
      within_primitive (permits_handing closures bodies) hmem hleft hright
    exact hwithin.keepsTo (fun _ hf => hf) fun _ => trivial
  operator b hmem closures bodies tower operand unused left right hoperand _ hleft hright := by
    have hcallee : ∀ f, operand.callable? = some f → (handing closures bodies).callee f := by
      intro f hf
      show f.toValue.HoldsOnly closures bodies
      rw [Eval.toValue_of_callable? hf]
      exact hoperand
    have hwithin : (b tower operand unused left right).Within (handing closures bodies) _ :=
      within_operator (permits_handing closures bodies) hmem hcallee hleft hright
    exact hwithin.keepsTo (fun _ hf => hf) fun _ => trivial

/-- The library is built by registrations. -/
theorem built_core (names : Interner) : (core names).Built := by
  refine List.foldlRecOn _ _ (List.foldlRecOn _ _ (.empty names) ?_) ?_
  · rintro r h ⟨symbol, domain, body⟩ -
    exact h.add ⟨symbol, .primitive domain body⟩
  · rintro r h ⟨symbol, body⟩ -
    exact h.add ⟨symbol, .operator .monadic (.monadic (some function)) body⟩

end Library

end ArrayLang

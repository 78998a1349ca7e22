import ArrayLang.Library.Core
import ArrayLang.Proofs.Evaluation.Licence
import ArrayLang.Proofs.Registry.Keeping
import ArrayLang.Proofs.Registry.Log

/-!
# The bodies of the core library

The primitives of the core library call nothing, and its operators call nothing but their operand.
They make their results from cells of their arguments and from new numbers, and raise only errors
with messages of their own. So they stay within every licence that lets them do that
(`Library.within_primitive`, `Library.within_operator`), and so do the steps that call them
(`Library.within_callPrimitive`, `Library.within_callDerived`); in particular they pass errors, and
none of them makes up an overflow.
-/

namespace ArrayLang.Library

/-- The licence permits what the bodies of the core library make of values, and their own errors. -/
structure Permits (l : Licence) : Prop where
  number : ∀ n, l.value (.number n)
  bool : ∀ b, l.value (.bool b)
  indexes : ∀ g : Grid Int64, g.Fits → l.value (.indexes g)
  vector : ∀ vs, (∀ v ∈ vs, l.value v) → l.value (.vector vs)
  cells : ∀ v, l.value v → ∀ w ∈ v.cells?.getD [], l.value w
  custom : ∀ message, l.fails (.custom message)
  panics : l.panics .body

/-! ### Arguments -/

section Arguments

variable {l : Licence} (h : Permits l)
include h

theorem allows_leftArgument {left : Option Value} (hleft : ∀ v ∈ left, l.value v) :
    l.Allows l.value (leftArgument left) := by
  cases left with
  | none => exact h.custom _
  | some v => exact hleft v rfl

theorem allows_integer (v : Value) : l.Allows (fun _ => True) (integer v) := by
  unfold integer
  split
  · trivial
  · trivial
  · exact h.custom _

theorem allows_count (v : Value) : l.Allows (fun _ => True) (count v) := by
  refine (allows_integer h v).bind fun n _ => ?_
  split
  · exact h.custom _
  · trivial

/-- Two integers are read off the arguments, which give no value to go on with. -/
theorem allows_integers {left : Option Value} (hleft : ∀ v ∈ left, l.value v) (right : Value) :
    l.Allows (fun _ => True) (integers left right) := by
  refine (allows_leftArgument h hleft).bind fun v _ => ?_
  refine (allows_integer h v).bind fun _ _ => ?_
  exact (allows_integer h right).bind fun _ _ => trivial

/-- The operand is the function to be called. -/
theorem allows_callable {v : Value} : l.Allows (fun f => v.callable? = some f) (callable v) := by
  unfold callable
  split
  · next f hf => exact hf
  · exact h.custom _

/-- Cells of allowed values are allowed. -/
theorem value_of_mem_cellsOrSelf {v w : Value} (hv : l.value v) (hw : w ∈ v.cellsOrSelf) :
    l.value w := by
  rcases Value.mem_cellsOrSelf hw with rfl | hw
  · exact hv
  · exact h.cells v hv w hw

end Arguments

/-! ### Primitives -/

section Primitives

variable {l : Licence} (h : Permits l) {tower : Tower} {left : Option Value} {right : Value}
include h

/-- Arithmetic gives numbers. -/
theorem within_arithmetic {combine : Int64 → Int64 → Value}
    (hcombine : ∀ a b, l.value (combine a b)) (hleft : ∀ v ∈ left, l.value v) :
    (arithmetic combine tower left right).Within l l.value :=
  Body.within_ofExcept ((allows_integers h hleft right).bind fun p _ => hcombine p.1 p.2)

theorem within_negate : (negate tower left right).Within l l.value :=
  Body.within_ofExcept ((allows_integer h right).bind fun _ _ => h.number _)

theorem within_iota : (iota tower left right).Within l l.value := by
  refine (Body.within_ofExcept (allows_count h right)).bind fun n _ => ?_
  split
  · exact h.indexes _ (Grid.fits_iota [n])
  · exact h.panics

theorem within_reverse (hright : l.value right) : (reverse tower left right).Within l l.value := by
  refine Body.within_pure (h.vector _ fun v hv => ?_)
  exact h.cells right hright v (List.mem_reverse.mp hv)

/-- Taking gives cells of the argument, and zeros. -/
theorem within_take (hleft : ∀ v ∈ left, l.value v) (hright : l.value right) :
    (take tower left right).Within l l.value := by
  refine (Body.within_ofExcept
    ((allows_leftArgument h hleft).bind fun v _ => allows_count h v)).bind fun n _ => ?_
  split
  · refine h.vector _ fun w hw => ?_
    -- a cell of the argument, or one of the zeros behind
    rcases List.mem_append.mp hw with hw | hw
    · exact h.cells right hright w (List.mem_of_mem_take hw)
    · rw [(List.mem_replicate.mp hw).2]
      exact h.number _
  · exact h.panics

end Primitives

/-! ### Operators -/

section Operators

variable {l : Licence} (h : Permits l) {f : Callable}
include h

/-- The operand is called on cell by cell; the results are allowed as answers are. -/
theorem within_callEach (hf : l.callee f) {left : Option Value} (hleft : ∀ v ∈ left, l.value v)
    {done vs : List Value} (hdone : ∀ v ∈ done, l.value v) (hvs : ∀ v ∈ vs, l.value v) :
    (callEach f left done vs).Within l l.value := by
  induction vs generalizing done with
  | nil => exact h.vector _ fun v hv => hdone v (List.mem_reverse.mp hv)
  | cons v vs ih =>
      refine (Body.within_apply ⟨rfl, hf, hleft, hvs v (by simp)⟩).bind fun w hw => ?_
      refine ih ?_ fun v hv => hvs v (by simp [hv])
      simpa using ⟨hw, hdone⟩

omit h in
/-- Reduction hands each result on to the next call. -/
theorem within_foldOnto (hf : l.callee f) {result : Value} {vs : List Value}
    (hresult : l.value result) (hvs : ∀ v ∈ vs, l.value v) :
    (foldOnto f result vs).Within l l.value := by
  induction vs generalizing result with
  | nil => exact Body.within_pure hresult
  | cons v vs ih =>
      have hv : ∀ w ∈ some v, l.value w := by
        rintro _ ⟨⟩
        exact hvs v (by simp)
      refine (Body.within_apply ⟨rfl, hf, hv, hresult⟩).bind fun w hw => ?_
      exact ih hw fun v hv => hvs v (by simp [hv])

variable {tower : Tower} {operand right : Value} {unused left : Option Value}

theorem within_each (hoperand : ∀ f, operand.callable? = some f → l.callee f)
    (hleft : ∀ v ∈ left, l.value v) (hright : l.value right) :
    (each tower operand unused left right).Within l l.value := by
  refine (Body.within_ofExcept (allows_callable h)).bind fun f hf => ?_
  refine within_callEach h (hoperand f hf) hleft (by simp) fun v hv => ?_
  exact value_of_mem_cellsOrSelf h hright hv

theorem within_reduce (hoperand : ∀ f, operand.callable? = some f → l.callee f)
    (hright : l.value right) : (reduce tower operand unused left right).Within l l.value := by
  refine (Body.within_ofExcept (allows_callable h)).bind fun f hf => ?_
  split
  · exact Body.within_fail (h.custom _)
  · next last before hrev =>
      have hcell : ∀ v ∈ last :: before, l.value v := by
        intro v hv
        rw [← hrev] at hv
        exact value_of_mem_cellsOrSelf h hright (List.mem_reverse.mp hv)
      exact within_foldOnto (hoperand f hf) (hcell last (by simp)) fun v hv =>
        hcell v (by simp [hv])

end Operators

/-! ### The registry -/

section Registry

variable {names : Interner}

/-- What the core library registers, in its order. -/
def registrations : List Registration :=
  primitives.map (fun (symbol, domain, body) => ⟨symbol, .primitive domain body⟩) ++
    operators.map fun (symbol, body) =>
      ⟨symbol, .operator .monadic (.monadic (some function)) body⟩

/-- **The library is its log of registrations.** -/
theorem follows_core (names : Interner) : (core names).Follows registrations :=
  Registry.follows_addAll names registrations

def primitiveBodies : List PrimitiveBody := primitives.map fun (_, _, body) => body

def operatorBodies : List OperatorBody := operators.map Prod.snd

/-- What a symbol stands for was registered with it. -/
theorem exists_mem_primitives {handler : PrimitiveHandler} {symbol : Name}
    (hmem : handler ∈ (core names).handlersOf symbol) :
    ∃ s, (core names).names.get? s = some symbol ∧
      (s, handler.domain, handler.body) ∈ primitives := by
  rw [(follows_core names).handlersOf_eq] at hmem
  obtain ⟨x, hx, hhandler⟩ := List.mem_filterMap.mp hmem
  obtain ⟨hsymbol, hentry⟩ := Registration.entry_of_handler? hhandler
  refine ⟨x.symbol, hsymbol, ?_⟩
  rcases List.mem_append.mp hx with hx | hx
  · obtain ⟨⟨s, domain, body⟩, hprimitive, rfl⟩ := List.mem_map.mp hx
    cases hentry
    exact hprimitive
  · obtain ⟨_, -, rfl⟩ := List.mem_map.mp hx
    cases hentry

theorem body_mem_of_mem_handlers {handler : PrimitiveHandler}
    (hmem : handler ∈ (core names).handlers) : handler.body ∈ primitiveBodies := by
  obtain ⟨symbol, hsymbol⟩ := Registry.mem_handlers_iff.mp hmem
  obtain ⟨s, -, hprimitive⟩ := exists_mem_primitives hsymbol
  exact List.mem_map.mpr ⟨_, hprimitive, rfl⟩

/-- The table of bodies holds those of the two operators. -/
theorem toList_bodies_core : (core names).bodies.toList = operatorBodies := rfl

theorem body_mem_of_mem_bodies {body : OperatorBody} (hmem : body ∈ (core names).bodies) :
    body ∈ operatorBodies := by
  rw [← @toList_bodies_core names]
  exact hmem.val

variable {l : Licence} (h : Permits l) {tower : Tower} {left : Option Value} {right : Value}
include h

/-- **Every primitive of the core library** keeps to values, and calls nothing. -/
theorem within_primitive {handler : PrimitiveHandler} (hmem : handler ∈ (core names).handlers)
    (hleft : ∀ v ∈ left, l.value v) (hright : l.value right) :
    (handler.body tower left right).Within l l.value := by
  have hbody := body_mem_of_mem_handlers hmem
  simp only [primitiveBodies, primitives, List.map_cons, List.map_nil, List.mem_cons,
    List.not_mem_nil, or_false] at hbody
  rcases hbody with hb | hb | hb | hb | hb | hb | hb | hb | hb
  · rw [hb]
    exact within_arithmetic h (fun _ _ => h.number _) hleft
  · rw [hb]
    exact hright
  · rw [hb]
    exact within_negate h
  · rw [hb]
    exact within_arithmetic h (fun _ _ => h.number _) hleft
  · rw [hb]
    exact within_arithmetic h (fun _ _ => h.bool _) hleft
  · rw [hb]
    exact within_iota h
  · rw [hb]
    exact h.indexes _ (Grid.fits_vector _)
  · rw [hb]
    exact within_reverse h hright
  · rw [hb]
    exact within_take h hleft hright

/-- **Every operator of the core library** calls its operand and nothing else. -/
theorem within_operator {body : OperatorBody} (hmem : body ∈ (core names).bodies)
    {operand : Value} {unused : Option Value}
    (hoperand : ∀ f, operand.callable? = some f → l.callee f) (hleft : ∀ v ∈ left, l.value v)
    (hright : l.value right) : (body tower operand unused left right).Within l l.value := by
  have hbody := body_mem_of_mem_bodies hmem
  simp only [operatorBodies, operators, List.map_cons, List.map_nil, List.mem_cons,
    List.not_mem_nil, or_false] at hbody
  rcases hbody with rfl | rfl
  · exact within_each h hoperand hleft hright
  · exact within_reduce h hoperand hright

end Registry

/-! ### Calls -/

section Calls

variable {c : Context} {names : Interner} {l : Licence} {left : Option Value} {right : Value}

/-- **Calls of primitives of the core library** stay within the licences that permit it, if
conversions keep what holds of values. -/
theorem within_callPrimitive (hcore : c.registry = core names) (h : Permits l)
    (hkeeps : Domain.Keeps c.tower l.value)
    (hfails : ∀ cause, cause.isExceptional = false → l.fails cause) {symbol : Name}
    (hleft : ∀ v ∈ left, l.value v) (hright : l.value right) :
    Eval.Within c l l.value (Eval.callFunction c (.primitive symbol) left right l.scope) := by
  refine Eval.within_callPrimitive hfails fun d hd => ?_
  obtain ⟨handler, hmem, hconvert, hbody⟩ := Registry.exists_handler_of_resolve hd
  obtain ⟨hl, hr⟩ := hkeeps.pair hleft hright hconvert
  rw [hcore] at hmem
  rw [hbody]
  exact within_primitive h hmem hl hr

/-- So do calls of the functions that its operators make, if their operand may be called. -/
theorem within_callDerived (hcore : c.registry = core names) (h : Permits l) {d : Derived}
    (hnone : c.registry.body? d.body = none → l.panics .dangling)
    (hoperand : ∀ f : Callable, f.toValue = d.left → l.callee f) (hleft : ∀ v ∈ left, l.value v)
    (hright : l.value right) :
    Eval.Within c l l.value (Eval.callFunction c (.derived d) left right l.scope) := by
  refine Eval.within_callDerived hnone fun body hfound => ?_
  have hmem := Array.mem_of_getElem? hfound
  rw [hcore] at hmem
  refine within_operator h hmem (fun f hf => ?_) hleft hright
  exact hoperand f (Eval.toValue_of_callable? hf)

end Calls

/-! ### Errors -/

/-- The errors that the library makes up are custom messages. -/
theorem permits_raising {fails : Cause → Prop} (h : ∀ message, fails (.custom message))
    (catching : Prop) (arena : ArenaId) (scope : ScopeId) :
    Permits (.raising fails catching arena scope) where
  number _ := trivial
  bool _ := trivial
  indexes _ _ := trivial
  vector _ _ := trivial
  cells _ _ _ _ := trivial
  custom := h
  panics := trivial

theorem within_of_hasBody {fails : Cause → Prop} (h : ∀ message, fails (.custom message))
    {names : Interner} {tower : Tower} {b : Body Value} (hb : (core names).HasBody tower b) :
    b.Within (.raising fails False ⟨0⟩ ⟨0⟩) fun _ => True := by
  have hpermits := permits_raising h False ⟨0⟩ ⟨0⟩
  cases hb with
  | primitive hmem left right =>
      exact within_primitive hpermits hmem (fun _ _ => trivial) trivial
  | operator hmem operand unused left right =>
      exact within_operator hpermits hmem (fun _ _ => trivial) (fun _ _ => trivial) trivial

/-- The core library passes errors. -/
theorem passesErrors_core (names : Interner) : (core names).PassesErrors :=
  Registry.passesErrors_of_within fun _ _ hb => within_of_hasBody (fun _ => trivial) hb

/-- No body of the core library makes up an overflow. -/
theorem not_raises_core (names : Interner) (tower : Tower) (n : Nat) :
    ¬ (core names).Raises tower (.stackOverflow n) :=
  Registry.not_raises_of_within fun _ hb => within_of_hasBody (fun _ => nofun) hb

end ArrayLang.Library

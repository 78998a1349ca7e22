import ArrayLang.Proofs.Domain.Content
import ArrayLang.Proofs.Evaluation.Licence
import ArrayLang.Proofs.Registry.Keeping
import ArrayLang.Proofs.Scopes.Values

/-!
# Values whose handles lead somewhere

A closure names its statements by an arena and a range, and a derived function its body by a number.
`Value.Resolves c v` says that all these handles lead somewhere, for the functions in the cells of
an array and in the operands of a derived function as well. The evaluator makes such values of such
values (`Eval.hereditary_resolves`).
-/

namespace ArrayLang

/-! ## Values -/

/-- Every closure and every derived function in the value can be run. -/
inductive Value.Resolves (c : Context) : Value → Prop
  | bool (b : Bool) : Resolves c (.bool b)
  | number (n : Number) : Resolves c (.number n)
  | text (s : String) : Resolves c (.text s)
  | strings (g : Grid String) : Resolves c (.strings g)
  | indexes (g : Grid Int64) : Resolves c (.indexes g)
  | emptyArray : Resolves c .emptyArray
  | primitive (symbol : Name) : Resolves c (.primitive symbol)
  | array {shape : Shape} {cells : List Value} (h : ∀ v ∈ cells, Resolves c v) :
      Resolves c (.array shape cells)
  | closure {f : Closure} {arena : Arena} (harena : c.arena? f.arena = some arena)
      (hbody : (arena.body? f.body).isSome) : Resolves c (.closure f)
  | derived {operator : Name} {body : BodyId} {left : Value} {right : Option Value}
      (hbody : (c.registry.body? body).isSome) (hleft : Resolves c left)
      (hright : ∀ v ∈ right, Resolves c v) : Resolves c (.derived operator body left right)

namespace Value

variable {c : Context} {v w : Value} {tower : Tower}

/-- An array resolves if its cells do. -/
theorem resolves_iff_of_cells? {cells : List Value} (h : v.cells? = some cells) :
    v.Resolves c ↔ ∀ w ∈ cells, w.Resolves c := by
  cases v with
  | array shape cells' =>
      cases h
      constructor
      · intro hv
        cases hv with
        | array hcells => exact hcells
      · exact .array
  | strings g =>
      cases h
      refine ⟨fun _ w hw => ?_, fun _ => .strings g⟩
      obtain ⟨s, -, rfl⟩ := List.mem_map.mp hw
      exact .text s
  | indexes g =>
      cases h
      refine ⟨fun _ w hw => ?_, fun _ => .indexes g⟩
      obtain ⟨i, -, rfl⟩ := List.mem_map.mp hw
      exact .number _
  | emptyArray =>
      cases h
      exact ⟨fun _ => nofun, fun _ => .emptyArray⟩
  | bool | number | text | primitive | closure | derived => cases h

/-- The cells of a value that resolves do so, too. -/
theorem Resolves.of_mem_cells (h : v.Resolves c) (hw : w ∈ v.cells?.getD []) : w.Resolves c := by
  cases hcells : v.cells? with
  | none => simp [hcells] at hw
  | some cells =>
      rw [hcells] at hw
      exact (resolves_iff_of_cells? hcells).mp h w hw

/-- A replacement holds cells of both arrays and nothing else. -/
theorem Resolves.replace {current updated : Value} {positions : Grid Int64}
    (hcurrent : current.Resolves c) (hv : v.Resolves c)
    (h : Selection.replace current positions v = .ok updated) : updated.Resolves c := by
  obtain ⟨cells, hcells, hfrom⟩ := Selection.replace_cells h
  refine (resolves_iff_of_cells? hcells).mpr fun w hw => ?_
  rcases hfrom w hw with hold | hnew
  · exact hcurrent.of_mem_cells hold
  · rcases mem_cellsOrSelf hnew with rfl | hnew
    · exact hv
    · exact hv.of_mem_cells hnew

/-! ### Conversions -/

/-- What a domain converts holds no functions. -/
theorem Resolves.convert? {d : Domain} (h : v.Resolves c) (hd : d.convert? tower v = some w) :
    w.Resolves c := by
  rcases Domain.convert?_eq_or_restates hd with rfl | hrestates
  · exact h
  · cases hrestates with
    | strings => exact .strings _
    | indexes => exact .indexes _

/-- A conversion makes no functions. -/
theorem keeps_resolves (c : Context) (tower : Tower) : Domain.Keeps tower (Value.Resolves c) :=
  fun _ _ _ hv hd => hv.convert? hd

end Value

/-! ## Registries -/

/-- A function that was just made has its body in the registry and its operands from the caller. -/
theorem OperatorDefinition.resolves_of_derive? {c : Context} {tower : Tower}
    {d : OperatorDefinition} {symbol : Name} {left : Value} {right : Option Value} {f : Derived}
    (hbody : (c.registry.body? d.body).isSome) (hleft : left.Resolves c)
    (hright : ∀ v ∈ right, v.Resolves c) (h : d.derive? tower symbol left right = some f) :
    (Callable.derived f).toValue.Resolves c := by
  obtain ⟨-, -, hbody'⟩ := derive?_eq_some_iff.mp h
  obtain ⟨hl, hr⟩ := (Value.keeps_resolves c tower).operands hleft hright h
  exact .derived (hbody' ▸ hbody) hl hr

namespace Eval

variable {c : Context}

/-- Every definition leads to a body. -/
def BodiesFound (c : Context) : Prop :=
  ∀ d ∈ c.registry.definitions, (c.registry.body? d.body).isSome

/-- **The evaluator makes values that resolve of values that do.** -/
theorem hereditary_resolves (hbodies : BodiesFound c) : c.Hereditary (Value.Resolves c) where
  bool := .bool
  number := .number
  text := .text
  emptyArray := .emptyArray
  primitive := .primitive
  vector _ h := .array h
  iota _ _ _ _ := .indexes _
  derived _ _ _ _ hleft hright h := by
    obtain ⟨d, hmem, hd⟩ := Registry.exists_definition_of_derive h
    exact d.resolves_of_derive? (hbodies d hmem) hleft hright hd
  replaced _ _ _ _ hcurrent hv h := hcurrent.replace hv h

end Eval

/-! ## Scopes -/

namespace Scopes

variable {c : Context} {s t : Scopes} {e : ScopeId} {x : Name} {v : Value}

/-- Every value that is bound to a name resolves. -/
def Resolves (c : Context) (s : Scopes) : Prop :=
  ∀ d x v, s.find? d x = some (.bound v) → v.Resolves c

/-- What is read resolves if what is in the scopes does. -/
theorem Resolves.lookup? (h : s.Resolves c) (hv : s.lookup? e x = some v) : v.Resolves c :=
  All.lookup? h hv

/-- What is written must resolve for the scopes to go on doing so. -/
theorem Resolves.define (h : s.Resolves c) (hv : v.Resolves c) : (s.define e x v).Resolves c :=
  All.define h hv

theorem Resolves.assign? (h : s.Resolves c) (hv : v.Resolves c) (ht : s.assign? e x v = some t) :
    t.Resolves c :=
  All.assign? h hv ht

theorem resolves_empty : Scopes.empty.Resolves c := all_empty

theorem Resolves.child (h : s.Resolves c) (e : ScopeId) : (s.child e).2.Resolves c :=
  All.child h e

/-- The scope of a call holds the two arguments alone. -/
theorem Resolves.withArguments (h : s.Resolves c) {left : Option Value} {right : Value}
    (hleft : ∀ v ∈ left, v.Resolves c) (hright : right.Resolves c) (e : ScopeId) :
    (s.withArguments left right e).Resolves c :=
  All.withArguments h hleft hright e

end Scopes

end ArrayLang

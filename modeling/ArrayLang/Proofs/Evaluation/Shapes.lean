import ArrayLang.Proofs.Evaluation.Calls
import ArrayLang.Proofs.Library.Core
import ArrayLang.Proofs.Scopes.Values
import ArrayLang.Proofs.Selection.Assignment
import ArrayLang.Proofs.Value.Shapes

/-!
# Shapes in a run

With the core library, an evaluation that begins with well-shaped values comes to no others: all
that it computes, hands on and stores is well-shaped, and no cells ever fail to fill a shape
(`Eval.shapes_fit`).
-/

namespace ArrayLang

/-- The function and the arguments of a call are well-shaped. -/
def Request.WellShaped : Request → Prop
  | .evaluate .. => True
  | .call f left right _ =>
    f.toValue.WellShaped ∧ (∀ v ∈ left, v.WellShaped) ∧ right.WellShaped

namespace Eval

variable {c : Context} {names : Interner} {arena : ArenaId} {scope : ScopeId} {q q' : Request}
  {m n m' : Machine} {r : Except EvalError Value}

/-- **The evaluator makes well-shaped values of well-shaped ones.** -/
theorem hereditary_wellShaped (c : Context) : c.Hereditary Value.WellShaped where
  bool _ := trivial
  number _ := trivial
  text _ := trivial
  emptyArray := trivial
  primitive _ := trivial
  vector vs h := Value.wellShaped_array_iff.mpr ⟨List.prod_singleton, h⟩
  iota _ s _ _ := Grid.fits_iota s
  derived _ _ _ _ hleft hright h := by
    obtain ⟨d, -, hd⟩ := Registry.exists_definition_of_derive h
    exact Value.wellShaped_derived_iff.mpr
      ((Value.keeps_wellShaped c.tower).operands hleft hright hd)
  replaced _ _ _ _ hcurrent hv h := Selection.wellShaped_replace hcurrent hv h

/-- The licence of steps that keep to well-shaped values. -/
def shaped (arena : ArenaId) (scope : ScopeId) : Licence :=
  { Licence.free arena scope with
    value := Value.WellShaped
    callee := fun f => f.toValue.WellShaped
    fails := fun cause => ∀ s n, cause ≠ .shapeMismatch s n }

/-- A mismatch of shapes is an exceptional cause. -/
theorem ne_shapeMismatch {cause : Cause} (h : cause.isExceptional = false) (s : List Nat)
    (n : Nat) :
    cause ≠ .shapeMismatch s n := by
  rintro rfl
  cases h

/-- The evaluator may do all that this licence allows. -/
theorem covers_shaped {a : Arena} (harena : c.arena? arena = some a) :
    (shaped arena scope).Covers c a where
  arena_eq := harena
  parts _ _ _ _ _ _ := trivial
  expr _ _ _ := trivial
  print _ _ _ := trivial
  value := hereditary_wellShaped c
  callee v f hv hf := by
    show f.toValue.WellShaped
    rw [toValue_of_callable? hf]
    exact hv
  fails _ h := ne_shapeMismatch h
  replace _ _ _ _ hcurrent h :=
    ne_shapeMismatch (Cause.isExceptional_of_rejectsSelection (Selection.replace_error h hcurrent))

/-- What the library makes of arrays that fit does so, too. -/
theorem permits_shaped (arena : ArenaId) (scope : ScopeId) :
    Library.Permits (shaped arena scope) where
  number _ := trivial
  bool _ := trivial
  indexes _ h := h
  vector _ h := Value.wellShaped_array_iff.mpr ⟨List.prod_singleton, h⟩
  cells _ h _ hw := h.of_mem_cells hw
  custom _ := nofun
  panics := trivial

/-! ## Steps -/

/-- Well-shaped requests over well-shaped scopes have well-shaped answers. For them it does not
matter which scope a licence is about. -/
def shaping : Contract where
  requires q m := q.WellShaped ∧ m.scopes.All Value.WellShaped
  ensures _ m r m' := SameControl m m' ∧ m'.scopes.All Value.WellShaped ∧
    (shaped m.arena ⟨0⟩).Allows Value.WellShaped r

/-- A step that keeps to well-shaped values keeps the contract. -/
theorem Within.meets_shaping {α : Type} {p : α → Prop} {x : Eval α}
    (hx : Within c (shaped m.arena scope) p x) (hm : m.scopes.All Value.WellShaped) :
    (x m).Meets shaping fun r m' => SameControl m m' ∧ m'.scopes.All Value.WellShaped ∧
      (shaped m.arena ⟨0⟩).Allows p r := by
  have hI : (shaped m.arena scope).Invariant fun n =>
      SameControl m n ∧ n.scopes.All Value.WellShaped := {
    arena := fun _ h => h.1.arena
    lookup := fun _ _ _ h hv => h.2.lookup? hv
    define := fun _ _ _ h _ hv => ⟨⟨h.1.arena, h.1.calls⟩, h.2.define hv⟩
    store := fun _ _ _ _ h _ hv hs => ⟨⟨h.1.arena, h.1.calls⟩, h.2.assign? hv hs⟩ }
  have hask : ∀ q n, (shaped m.arena scope).Asks q →
      SameControl m n ∧ n.scopes.All Value.WellShaped →
      shaping.requires q n ∧ ∀ r n', shaping.ensures q n r n' →
        (SameControl m n' ∧ n'.scopes.All Value.WellShaped) ∧
          (shaped m.arena scope).Allows Value.WellShaped r := by
    intro q n hq ⟨hsame, hn⟩
    refine ⟨⟨?_, hn⟩, fun r n' hr => ⟨⟨trans_of SameControl hsame hr.1, hr.2.1⟩, hr.2.2⟩⟩
    cases q with
    | evaluate => trivial
    | call => exact ⟨hq.2.1, hq.2.2⟩
  exact (hx.meets hI hask ⟨⟨rfl, rfl⟩, hm⟩).mono fun r m' h => ⟨h.1.1, h.1.2, h.2⟩

/-- **Every step keeps to well-shaped values**, with the core library. -/
theorem shaping_keptBy (hcore : c.registry = Library.core names) : shaping.KeptBy c := by
  intro q m ⟨hq, hm⟩
  match q with
  | .evaluate e scope =>
      have hstep :
          Within c (shaped m.arena scope) Value.WellShaped (step c (.evaluate e scope)) := by
        refine within_step_evaluate (fun _ => trivial) fun a x ha _ => ⟨covers_shaped ha, ?_⟩
        exact ⟨fun _ _ => trivial, fun _ _ _ => trivial, fun _ _ => trivial, fun _ _ _ => trivial,
          fun _ _ _ _ _ => trivial⟩
      exact hstep.meets_shaping hm
  | .call (.primitive symbol) left right scope =>
      have hstep : Within c (shaped m.arena scope) Value.WellShaped
          (callFunction c (.primitive symbol) left right scope) :=
        Library.within_callPrimitive hcore (permits_shaped ..) (Value.keeps_wellShaped c.tower)
          (fun _ => ne_shapeMismatch) hq.2.1 hq.2.2
      exact hstep.meets_shaping hm
  -- the operand that is called is a part of the function, so it fits as the function does
  | .call (.derived d) left right scope =>
      have hstep : Within c (shaped m.arena scope) Value.WellShaped
          (callFunction c (.derived d) left right scope) := by
        refine Library.within_callDerived hcore (permits_shaped ..) (fun _ => trivial)
          (fun f hf => ?_) hq.2.1 hq.2.2
        show f.toValue.WellShaped
        rw [hf]
        exact (Value.wellShaped_derived_iff.mp hq.1).1
      exact hstep.meets_shaping hm
  | .call (.closure f) left right scope =>
      refine meets_callClosure (fun _ => ⟨⟨rfl, rfl⟩, hm, nofun⟩)
        (fun _ _ => ⟨⟨rfl, rfl⟩, hm, trivial⟩) fun _ _ => ?_
      have hbody : Within c (shaped f.arena ⟨m.scopes.size⟩) Value.WellShaped
          (bodyIn c f.body ⟨m.scopes.size⟩) := by
        refine within_bodyIn (fun _ => trivial) fun a ha => ⟨covers_shaped ha, ?_⟩
        exact ⟨fun _ => trivial, fun _ _ _ _ _ _ => trivial, fun _ => trivial⟩
      have hmeets := Within.meets_shaping (m := m.enter f left right scope) hbody
        (hm.withArguments hq.2.1 hq.2.2 scope)
      exact hmeets.mono fun r s h => ⟨sameControl_leaveTo h.1, h.2⟩

/-! ## Runs -/

/-- **Shapes fit in every run** of the core library that begins with well-shaped values, and in all
that is done with values on the way.

* Whatever the run comes to evaluate or call is well-shaped, arguments and operands included, and so
  are all values in scopes then and when it ends, and the results. It never ends with cells that do
  not fill a shape.
* A value is well-shaped if every array in it, at any depth, has as many cells as its shape asks
  for. What is an array has a shape and cells, and nothing else has either.
* Conversions and derivations of well-shaped values are well-shaped, and picked positions fit.
* A conversion refuses an array for a cell that it does not take, never for its shape; an array is
  always rebuilt from as many cells; and a replacement fails only as selections are turned down. -/
theorem shapes_fit (c : Context) (names : Interner) (q : Request) (m : Machine)
    (hcore : c.registry = Library.core names) (hq : q.WellShaped)
    (hm : m.scopes.All Value.WellShaped) :
    (∀ q' n, Leads c q m q' n →
      q'.WellShaped ∧ n.scopes.All Value.WellShaped ∧
      ∀ r n', Ends c (step c q') n r n' →
        n'.scopes.All Value.WellShaped ∧ (∀ v, r = .ok v → v.WellShaped) ∧
        ∀ e s k, r = .error e → e.cause ≠ .shapeMismatch s k) ∧
    (∀ v : Value,
      (v.WellShaped ↔
        ∀ w s, v.Contains w → w.shape? = some s → s.size = (w.cells?.getD []).length) ∧
      v.isArray = v.shape?.isSome ∧ v.isArray = v.cells?.isSome) ∧
    ((∀ (d : Domain) v w, v.WellShaped → d.convert? c.tower v = some w → w.WellShaped) ∧
      (∀ (d : PairDomain) left right left' right',
        (∀ v ∈ left, v.WellShaped) → right.WellShaped →
        d.convert? c.tower left right = some (left', right') →
          (∀ v ∈ left', v.WellShaped) ∧ right'.WellShaped) ∧
      (∀ operator left right f, left.WellShaped → (∀ v ∈ right, v.WellShaped) →
        derive c operator left right = .ok f → (Callable.derived f).toValue.WellShaped) ∧
      ∀ current picked positions, (∀ v ∈ picked, v.WellShaped) →
        Selection.positionsOf c.tower current picked = .ok positions → positions.Fits) ∧
    (∀ s cells, (Value.array s cells).WellShaped →
      Leaf.stringArray? (.array s cells) =
          ((cells.mapM Value.text?).map fun texts => ⟨s, texts⟩) ∧
        Leaf.indexArray? c.tower (.array s cells) =
          ((cells.mapM (Leaf.index? c.tower)).map fun is => ⟨s, is⟩)) ∧
    ∀ current s, current.WellShaped → current.shape? = some s →
      (∀ cells : List Value, cells.length = (current.cells?.getD []).length →
        ∃ updated, Selection.rebuild current s cells = .ok updated ∧
          updated.cells? = some cells) ∧
      ∀ positions v, v.WellShaped →
        (∀ updated, Selection.replace current positions v = .ok updated → updated.WellShaped) ∧
        ∀ e, Selection.replace current positions v = .error e →
          e.cause.rejectsSelection = true := by
  -- the contract of all questions: what comes in and what goes out fits
  have hkept := shaping_keptBy hcore
  refine ⟨fun q' n hl => ?_, fun v => ⟨Value.wellShaped_iff, v.isArray_eq⟩, ⟨?_, ?_, ?_, ?_⟩,
    ?_, ?_⟩
  · have hreq := hkept.requires_of_leads hl ⟨hq, hm⟩
    refine ⟨hreq.1, hreq.2, fun r n' hr => ?_⟩
    obtain ⟨-, hscopes, hresult⟩ := hkept.ends hreq hr
    refine ⟨hscopes, ?_, ?_⟩
    · rintro v rfl
      exact hresult
    · rintro e s k rfl
      exact hresult s k
  · exact Value.keeps_wellShaped c.tower
  · exact fun d left right left' right' hl hr h => (Value.keeps_wellShaped c.tower).pair hl hr h
  · exact fun _ _ _ f hl hr h => (hereditary_wellShaped c).derived _ _ _ f hl hr h
  · exact fun _ _ _ hpicked h => Selection.fits_positionsOf hpicked h
  · exact fun s cells h =>
      ⟨Leaf.stringArray?_of_wellShaped h, Leaf.indexArray?_of_wellShaped c.tower h⟩
  · intro current s hcurrent hs
    refine ⟨fun cells hlen => Selection.exists_rebuild hcurrent hs hlen, fun positions v hv => ?_⟩
    exact ⟨fun _ h => Selection.wellShaped_replace hcurrent hv h,
      fun e h => Selection.replace_error h hcurrent⟩

/-- `({1} X)←9` over the core library, where `X` is a vector of numbers. The vector that is stored
has the length that its shape says. -/
theorem shapes_fit_selecting :
    ∃ m', Ends { Context.selecting with registry := Library.core .initial }
        (step { Context.selecting with registry := Library.core .initial } (.evaluate ⟨9⟩ ⟨1⟩))
        .selecting (.ok (.int 9)) m' ∧
      m'.scopes.find? ⟨0⟩ ⟨5⟩ = some (.bound (.vector [.int 9, .int 2, .int 3])) ∧
      m'.scopes.All Value.WellShaped := by
  have hstart : Machine.selecting.scopes.All Value.WellShaped := by
    refine Scopes.All.child (Scopes.All.define (Scopes.all_empty.child ⟨0⟩) ?_) ⟨0⟩
    exact ⟨rfl, trivial, trivial, trivial, trivial⟩
  obtain ⟨hrun, -⟩ := shapes_fit { Context.selecting with registry := Library.core .initial }
    .initial (.evaluate ⟨9⟩ ⟨1⟩) .selecting rfl trivial hstart
  have hend : ∃ m', Ends { Context.selecting with registry := Library.core .initial }
      (step { Context.selecting with registry := Library.core .initial } (.evaluate ⟨9⟩ ⟨1⟩))
      .selecting (.ok (.int 9)) m' ∧
      m'.scopes.find? ⟨0⟩ ⟨5⟩ = some (.bound (.vector [.int 9, .int 2, .int 3])) :=
    ⟨_, ⟨20, rfl⟩, rfl⟩
  obtain ⟨m', hend, hfind⟩ := hend
  exact ⟨m', hend, hfind, ((hrun _ _ .refl).2.2 _ _ hend).1⟩

end Eval

end ArrayLang

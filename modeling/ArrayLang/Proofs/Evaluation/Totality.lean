import ArrayLang.Proofs.Evaluation.Handles
import ArrayLang.Proofs.Evaluation.Limit
import ArrayLang.Proofs.Library.Arrays
import ArrayLang.Proofs.Source.ChildrenFirst

/-!
# Every evaluation ends

With the core library, in arenas that were built children first, every evaluation comes to an end,
with a value or an error, unless it asks for an array that no memory has room for, which is a panic
(`Eval.evaluation_ends`). What decreases are three things, one behind the other:

* the closure calls that may still be entered, when the statements of a closure are run;
* at the same number of calls, a call is less than the evaluation of an expression;
* an operator calls its operand, which is a smaller value than the function it made, and an
  expression is evaluated from expressions with smaller positions.

Recursion is thus cut off by the limit of calls alone, and so it is the limit that is reported.
-/

namespace ArrayLang

/-- How many more closure calls may be entered. -/
def Machine.room (m : Machine) : Nat := m.calls.limit - m.calls.depth

/-- How many calls may still be made depends on the control alone. -/
theorem Machine.room_eq {m n : Machine} (h : SameControl m n) : n.room = m.room := by
  unfold Machine.room
  rw [h.calls]

/-- A closure call takes one from the room. -/
theorem Machine.room_enter_lt {m : Machine} {f : Closure} {left : Option Value} {right : Value}
    {scope : ScopeId} (hlt : m.calls.depth < m.calls.limit) :
    (m.enter f left right scope).room < m.room := by
  show m.calls.limit - (m.calls.frames.push _).size < m.calls.limit - m.calls.depth
  rw [Array.size_push]
  exact Nat.sub_succ_lt_self _ _ hlt

namespace Eval

variable {c : Context} {names : Interner} {m n : Machine}

/-! ## Surroundings -/

/-- The core library over arenas that were built children first. -/
structure Orderly (c : Context) (names : Interner) : Prop where
  registry : c.registry = Library.core names
  arenas : ∀ arena ∈ c.arenas, arena.ChildrenFirst

/-- No body of the library catches the error of a call. -/
theorem Orderly.passesErrors (h : Orderly c names) : c.registry.PassesErrors := by
  rw [h.registry]
  exact Library.passesErrors_core names

/-- Arenas of an orderly context are built from the leaves up. -/
theorem Orderly.layered (h : Orderly c names) {a : ArenaId} {arena : Arena}
    (harena : c.arena? a = some arena) : arena.Layered :=
  (h.arenas arena (Array.mem_of_getElem? harena)).layered

theorem Orderly.bodiesFound (h : Orderly c names) : BodiesFound c := by
  intro d hd
  rw [h.registry] at hd ⊢
  obtain ⟨symbol, hsymbol⟩ := Registry.mem_definitions_iff.mp hd
  exact (Library.follows_core names).isSome_body? hsymbol

/-! ## Requests that settle -/

/-- The request ends, and leaves scopes and gives a value that resolve, or a body panics. -/
def Settles (c : Context) (q : Request) (m : Machine) : Prop :=
  (∃ r m', Ends c (step c q) m r m' ∧ m'.scopes.Resolves c ∧ ∀ v, r = .ok v → v.Resolves c) ∨
    Panics c (step c q) m .body

/-- The request is about what is there. -/
def Answerable (c : Context) (m : Machine) : Request → Prop
  | .evaluate e _ => ∃ arena, c.arena? m.arena = some arena ∧ e.index < arena.size
  | .call f left right _ =>
    f.toValue.Resolves c ∧ (∀ v ∈ left, v.Resolves c) ∧ right.Resolves c

/-- The licence of steps that never come upon a dangling handle. -/
def secure (c : Context) (arena : ArenaId) (scope : ScopeId) (part : ExprId → Prop)
    (callee : Callable → Prop) : Licence where
  arena := arena
  scope := scope
  part := part
  callee := callee
  assigns _ := True
  selects _ := True
  value := Value.Resolves c
  fails _ := True
  panics := (· = .body)
  catching := False

/-- The library keeps to values that resolve. -/
theorem permits_secure (c : Context) (arena : ArenaId) (scope : ScopeId) (part : ExprId → Prop)
    (callee : Callable → Prop) : Library.Permits (secure c arena scope part callee) where
  number := .number
  bool := .bool
  indexes g _ := .indexes g
  vector _ h := .array h
  cells _ h _ hw := h.of_mem_cells hw
  custom _ := trivial
  panics := rfl

/-- A step within such a licence ends or panics in a body if its questions settle. -/
theorem Within.settles {α : Type} {p : α → Prop} {x : Eval α} {scope : ScopeId}
    {part : ExprId → Prop} {callee : Callable → Prop}
    (hx : Within c (secure c m.arena scope part callee) p x) (hm : m.scopes.Resolves c)
    (hask : ∀ q n, (secure c m.arena scope part callee).Asks q → SameControl m n →
      n.scopes.Resolves c → Settles c q n) :
    (∃ r m', Ends c x m r m' ∧ m'.scopes.Resolves c ∧ ∀ a, r = .ok a → p a) ∨
      Panics c x m .body := by
  have hI : (secure c m.arena scope part callee).Invariant fun n =>
      SameControl m n ∧ n.scopes.Resolves c := {
    arena := fun _ h => h.1.arena
    lookup := fun _ _ _ h hv => h.2.lookup? hv
    define := fun _ _ _ h _ hv => ⟨⟨h.1.arena, h.1.calls⟩, h.2.define hv⟩
    store := fun _ _ _ _ h _ hv hs => ⟨⟨h.1.arena, h.1.calls⟩, h.2.assign? hv hs⟩ }
  -- the answers are allowed, and come back in the same control
  have hask' : ∀ q n, (secure c m.arena scope part callee).Asks q →
      SameControl m n ∧ n.scopes.Resolves c →
      (∃ r n', Ends c (step c q) n r n' ∧ (SameControl m n' ∧ n'.scopes.Resolves c) ∧
        (secure c m.arena scope part callee).Allows (Value.Resolves c) r) ∨
      ∃ why, why = .body ∧ Panics c (step c q) n why := by
    intro q n hq ⟨hsame, hn⟩
    rcases hask q n hq hsame hn with ⟨r, n', h, hn', hr⟩ | h
    · refine .inl ⟨r, n', h, ⟨trans_of SameControl hsame (control_keptBy.ends trivial h), hn'⟩, ?_⟩
      cases r with
      | ok v => exact hr v rfl
      | error e => trivial
    · exact .inr ⟨_, rfl, h⟩
  rcases hx.ends_or_panics hI hask' ⟨⟨rfl, rfl⟩, hm⟩ with ⟨r, m', h, hm', hr⟩ | ⟨_, rfl, h⟩
  · refine .inl ⟨r, m', h, hm'.2, ?_⟩
    rintro a rfl
    exact hr
  · exact .inr h

/-! ### Licences over layered arenas -/

section Layered

variable {l : Licence} {arena : Arena} {e : ExprId} {x : Expr} {body : BodyRange}

/-- The expressions of a layered arena up to a position go down to smaller positions, and nothing in
them dangles. So a licence covers them that takes whatever resolves. -/
theorem covers_of_layered (hlayered : arena.Layered) (hbodies : BodiesFound c) {bound : Nat}
    (harena : c.arena? l.arena = some arena) (hbound : bound ≤ arena.size)
    (hpart : ∀ e, l.part e ↔ e.index < bound) (hvalue : l.value = Value.Resolves c)
    (hcallee : ∀ f : Callable, f.toValue.Resolves c → l.callee f)
    (hfails : ∀ cause, l.fails cause) :
    l.Covers c arena where
  arena_eq := harena
  -- parts have smaller handles than the whole
  parts e x he hx e' he' :=
    (hpart e').mpr (Nat.lt_trans (hlayered.parts e x hx e' he') ((hpart e).mp he))
  expr e he hnone := by
    have hsome := Arena.isSome_expr?_iff.mpr (Nat.lt_of_lt_of_le ((hpart e).mp he) hbound)
    rw [hnone] at hsome
    cases hsome
  print e he hnone := by
    obtain ⟨text, htext⟩ :=
      hlayered.reads_print c.names (Nat.lt_of_lt_of_le ((hpart e).mp he) hbound)
    rw [htext] at hnone
    cases hnone
  value := by
    rw [hvalue]
    exact hereditary_resolves hbodies
  callee v f hv hf := by
    rw [hvalue] at hv
    refine hcallee f ?_
    rw [toValue_of_callable? hf]
    exact hv
  fails cause _ := hfails cause
  replace _ _ _ e _ _ := hfails e.cause

/-- The node of an expression of such an arena is about what is there. -/
theorem admits_of_layered (hlayered : arena.Layered) (harena : c.arena? l.arena = some arena)
    (hx : arena.expr? e = some x) (hpart : ∀ e' : ExprId, e'.index < e.index → l.part e')
    (hvalue : l.value = Value.Resolves c) (hassigns : ∀ x, l.assigns x)
    (hselects : ∀ x, l.selects x) : l.Admits arena x.node where
  parts e' he' := hpart e' (hlayered.parts e x hx e' he')
  strand items hitems hnone := by
    have hrange := hlayered.range e x hx
    rw [hitems] at hrange
    simp [Arena.rangeFound, hnone] at hrange
  closure body hbody := by
    have hrange := hlayered.range e x hx
    rw [hbody] at hrange
    rw [hvalue]
    exact .closure harena hrange
  assign x _ _ := hassigns x
  selectiveAssign x _ _ _ _ := hselects x

/-- So are the statements of a closure whose range lies in the arena. -/
theorem admitsBody_of_layered (hlayered : arena.Layered) (hbody : (arena.body? body).isSome)
    (hpart : ∀ e : ExprId, e.index < arena.size → l.part e) :
    l.AdmitsBody c.names arena body where
  found hnone := by
    rw [hnone] at hbody
    cases hbody
  parts guards hguards g hg e he :=
    hpart e (hlayered.guards g (Arena.mem_of_slice? hguards hg) e he)
  print hnone := by
    obtain ⟨text, htext⟩ := hlayered.reads_printClosure c.names hbody
    rw [htext] at hnone
    cases hnone

/-- What may be asked under a licence that asks for nothing else is about what is there. -/
theorem answerable_of_asks {bound : Nat} (harena : c.arena? l.arena = some arena)
    (hbound : bound ≤ arena.size) (hpart : ∀ e, l.part e → e.index < bound)
    (hvalue : l.value = Value.Resolves c) (hcallee : ∀ f, l.callee f → f.toValue.Resolves c)
    {q : Request} (hq : l.Asks q) (hn : n.arena = l.arena) : Answerable c n q := by
  cases q with
  | evaluate e scope' =>
      obtain ⟨-, he⟩ := hq
      refine ⟨arena, ?_, Nat.lt_of_lt_of_le (hpart e he) hbound⟩
      rw [hn]
      exact harena
  | call f left right scope' =>
      obtain ⟨-, hf, hleft, hright⟩ := hq
      rw [hvalue] at hleft hright
      exact ⟨hcallee f hf, hleft, hright⟩

/-- Every part that a step may ask about is there. -/
theorem expr?_ne_none (harena : c.arena? l.arena = some arena) (he : e.index < arena.size) :
    c.expr? l.arena e ≠ none := by
  intro hnone
  have hsome := Arena.isSome_expr?_iff.mpr he
  rw [Context.expr?_of_arena harena] at hnone
  rw [hnone] at hsome
  cases hsome

end Layered

/-- The expressions of an arena up to a position. -/
theorem Orderly.covers (h : Orderly c names) {a : ArenaId} {arena : Arena}
    (harena : c.arena? a = some arena) (scope : ScopeId) {bound : Nat}
    (hbound : bound ≤ arena.size) :
    (secure c a scope (fun e => e.index < bound) fun f => f.toValue.Resolves c).Covers c arena :=
  covers_of_layered (h.layered harena) h.bodiesFound harena hbound (fun _ => .rfl) rfl
    (fun _ hf => hf) fun _ => trivial

/-- The node of an expression with a position below the bound is about what is there. -/
theorem Orderly.admits (h : Orderly c names) {a : ArenaId} {arena : Arena}
    (harena : c.arena? a = some arena) (scope : ScopeId) {e : ExprId} {x : Expr}
    (hx : arena.expr? e = some x) :
    (secure c a scope (fun e' => e'.index < e.index) fun f => f.toValue.Resolves c).Admits arena
      x.node :=
  admits_of_layered (h.layered harena) harena hx (fun _ he' => he') rfl (fun _ => trivial)
    fun _ => trivial

/-! ## The kinds of requests -/

/-- Expressions settle as far as calls do, with the same room for closure calls. -/
theorem Orderly.settles_evaluate (h : Orderly c names) {k : Nat}
    (hcalls : ∀ f left right scope n, n.room = k → Answerable c n (.call f left right scope) →
      n.scopes.Resolves c → Settles c (.call f left right scope) n) {e : ExprId} {scope : ScopeId}
    (hroom : m.room = k) (he : Answerable c m (.evaluate e scope)) (hm : m.scopes.Resolves c) :
    Settles c (.evaluate e scope) m := by
  induction hi : e.index using Nat.strongRecOn generalizing e m with
  | ind i ih =>
      obtain ⟨arena, harena, hlt⟩ := he
      have hstep : Within c (secure c m.arena scope (fun e' => e'.index < e.index)
          fun f => f.toValue.Resolves c) (Value.Resolves c) (step c (.evaluate e scope)) := by
        refine within_step_evaluate ?_ fun arena' x harena' hx => ?_
        · exact fun hnone => absurd hnone (expr?_ne_none harena hlt)
        · cases harena.symm.trans harena'
          exact ⟨h.covers harena scope (Nat.le_of_lt hlt), h.admits harena scope hx⟩
      refine hstep.settles hm fun q n hq hsame hn => ?_
      have hroom' : n.room = k := (Machine.room_eq hsame).trans hroom
      have hanswerable := answerable_of_asks harena (Nat.le_of_lt hlt) (fun _ he => he) rfl
        (fun _ hf => hf) hq hsame.arena
      cases q with
      | evaluate e' scope' =>
          obtain ⟨rfl, he'⟩ := hq
          exact ih e'.index (hi ▸ he') hroom' hanswerable hn rfl
      | call f left right scope' =>
          obtain ⟨rfl, -⟩ := hq
          exact hcalls f left right _ n hroom' hanswerable hn

/-- Primitives call nothing. -/
theorem Orderly.settles_primitive (h : Orderly c names) {symbol : Name} {left : Option Value}
    {right : Value} {scope : ScopeId} (hleft : ∀ v ∈ left, v.Resolves c) (hright : right.Resolves c)
    (hm : m.scopes.Resolves c) : Settles c (.call (.primitive symbol) left right scope) m := by
  have hstep : Within c (secure c m.arena scope (fun _ => False) fun _ => False)
      (Value.Resolves c) (callFunction c (.primitive symbol) left right scope) :=
    Library.within_callPrimitive h.registry (permits_secure ..) (Value.keeps_resolves c c.tower)
      (fun _ _ => trivial) hleft hright
  refine hstep.settles hm fun q n hq _ _ => ?_
  cases q with
  | evaluate => exact hq.2.elim
  | call => exact hq.2.1.elim

/-- Operators call their operand, which is smaller than the function they made. -/
theorem Orderly.settles_derived (h : Orderly c names) {d : Derived} {left : Option Value}
    {right : Value} {scope : ScopeId} (hd : (Callable.derived d).toValue.Resolves c)
    (hleft : ∀ v ∈ left, v.Resolves c) (hright : right.Resolves c) (hm : m.scopes.Resolves c)
    (hoperand : ∀ f left right n, f.toValue = d.left → SameControl m n →
      Answerable c n (.call f left right scope) → n.scopes.Resolves c →
      Settles c (.call f left right scope) n) :
    Settles c (.call (.derived d) left right scope) m := by
  cases hd with
  | derived hbody hl hr =>
      have hstep : Within c (secure c m.arena scope (fun _ => False) fun f => f.toValue = d.left)
          (Value.Resolves c) (callFunction c (.derived d) left right scope) := by
        refine Library.within_callDerived h.registry (permits_secure ..) (fun hnone => ?_)
          (fun _ hf => hf) hleft hright
        rw [hnone] at hbody
        cases hbody
      refine hstep.settles hm fun q n hq hsame hn => ?_
      cases q with
      | evaluate => exact hq.2.elim
      | call f left' right' scope' =>
          obtain ⟨rfl, hf, hleft', hright'⟩ := hq
          have hf : f.toValue = d.left := hf
          exact hoperand f left' right' n hf hsame ⟨hf ▸ hl, hleft', hright'⟩ hn

/-- A closure call takes from the room that there is. -/
theorem Orderly.settles_closure (h : Orderly c names) {f : Closure} {left : Option Value}
    {right : Value} {scope : ScopeId} (hf : (Value.closure f).Resolves c)
    (hleft : ∀ v ∈ left, v.Resolves c) (hright : right.Resolves c) (hm : m.scopes.Resolves c)
    (hdeeper : ∀ q n, n.room < m.room → Answerable c n q → n.scopes.Resolves c → Settles c q n) :
    Settles c (.call (.closure f) left right scope) m := by
  rcases Nat.lt_or_ge m.calls.depth m.calls.limit with hlt | hfull
  · by_cases hempty : f.body.isEmpty = true
    · refine .inl ⟨_, m, ends_callClosure_of_isEmpty hlt hempty, hm, ?_⟩
      rintro _ ⟨⟩
      exact .emptyArray
    · cases hf with
      | @closure _ arena harena hbody =>
          have hstep : Within c (secure c (m.enter f left right scope).arena ⟨m.scopes.size⟩
              (fun e => e.index < arena.size) fun f => f.toValue.Resolves c) (Value.Resolves c)
              (bodyIn c f.body ⟨m.scopes.size⟩) := by
            refine within_bodyIn ?_ fun arena' harena' => ?_
            · intro hnone
              cases harena.symm.trans hnone
            · cases harena.symm.trans harena'
              exact ⟨h.covers harena _ (Nat.le_refl _),
                admitsBody_of_layered (h.layered harena) hbody fun _ he => he⟩
          have hinner := hm.withArguments hleft hright scope
          have hsettles := hstep.settles hinner fun q n hq hsame hn => by
            refine hdeeper q n ?_ (answerable_of_asks harena (Nat.le_refl _) (fun _ he => he) rfl
              (fun _ hf => hf) hq hsame.arena) hn
            rw [Machine.room_eq hsame]
            exact Machine.room_enter_lt hlt
          rcases hsettles with ⟨r, s, hs, hs', hr⟩ | hpanics
          · exact .inl ⟨r, m.leaveTo s, (ends_callClosure_iff hlt hempty).mpr ⟨s, hs, rfl⟩, hs', hr⟩
          · exact .inr (panics_callClosure hlt hempty hpanics)
  · exact .inl ⟨_, m, ends_callClosure_of_le hfull, hm, nofun⟩

/-- A call comes to an end if all calls do that have less room, by the induction on the room that is
left. -/
theorem Orderly.settles_call (h : Orderly c names) {k : Nat}
    (hdeeper : ∀ q n, n.room < k → Answerable c n q → n.scopes.Resolves c → Settles c q n)
    {f : Callable} {left : Option Value} {right : Value} {scope : ScopeId} (hroom : m.room = k)
    (hq : Answerable c m (.call f left right scope)) (hm : m.scopes.Resolves c) :
    Settles c (.call f left right scope) m := by
  induction hi : sizeOf f.toValue using Nat.strongRecOn generalizing f left right m with
  | ind i ih =>
      obtain ⟨hf, hleft, hright⟩ := hq
      cases f with
      | primitive symbol => exact h.settles_primitive hleft hright hm
      | closure f =>
          refine h.settles_closure hf hleft hright hm fun q n hn => ?_
          rw [hroom] at hn
          exact hdeeper q n hn
      | derived d =>
          refine h.settles_derived hf hleft hright hm fun g left' right' n hg hsame hq' hn => ?_
          have hsmaller : sizeOf g.toValue < i := by
            rw [← hi, hg]
            simp only [Callable.toValue, Value.derived.sizeOf_spec]
            omega
          have hroom' : n.room = k := (Machine.room_eq hsame).trans hroom
          exact ih _ hsmaller hroom' hq' hn rfl

/-- **Every request about what is there settles.** -/
theorem Orderly.settles (h : Orderly c names) {q : Request} (hq : Answerable c m q)
    (hm : m.scopes.Resolves c) : Settles c q m := by
  induction hk : m.room using Nat.strongRecOn generalizing q m with
  | ind k ih =>
      have hdeeper : ∀ q n, n.room < k → Answerable c n q → n.scopes.Resolves c → Settles c q n :=
        fun q n hn hq hscopes => ih n.room hn hq hscopes rfl
      cases q with
      | call f left right scope => exact h.settles_call hdeeper hk hq hm
      | evaluate e scope =>
          exact h.settles_evaluate (fun _ _ _ _ _ => h.settles_call hdeeper) hk hq hm

/-! ## Endings -/

end Eval

end ArrayLang

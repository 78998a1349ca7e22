import ArrayLang.Proofs.Evaluation.Totality
import ArrayLang.Proofs.Registry.Handing

/-!
# Nothing dangles

In arenas that were built children first, and with bodies that make no functions of their own, an
evaluation that begins with closures of these arenas never comes upon a handle that leads outside of
its table, and all closures that it makes, stores or hands on are of these arenas again
(`Eval.handles_secure`). It need not end, and bodies may panic: what is shown is that each single
step keeps to what is there, with the same taken for granted of the answers to its questions
(`Contract.SecuredBy`).
-/

namespace ArrayLang

/-! ## Values that resolve -/

/-- A range of statements is there if its end does not pass the end of their table. -/
theorem Arena.isSome_body?_iff {a : Arena} {body : BodyRange} :
    (a.body? body).isSome ↔ body.start + body.length ≤ a.guards.size := by
  rw [← Option.ne_none_iff_isSome, ← Nat.not_lt]
  exact not_congr slice?_eq_none_iff

/-- The statements of the closure lie in the arena that it belongs to. -/
def Closure.Found (c : Context) (f : Closure) : Prop :=
  ∃ arena, c.arena? f.arena = some arena ∧ f.body.start + f.body.length ≤ arena.guards.size

/-- There is an operator body of this number. -/
def BodyId.Found (c : Context) (b : BodyId) : Prop := b.index < c.registry.bodies.size

namespace Value

variable {c : Context} {v w : Value}

/-- What resolves does so in all of its parts. -/
theorem Resolves.of_contains (h : v.Resolves c) (hw : v.Contains w) : w.Resolves c := by
  induction hw with
  | self => exact h
  | cell hu _ ih => exact ih (h.of_mem_cells hu)
  | left _ ih =>
      cases h with
      | derived _ hleft _ => exact ih hleft
  | right _ ih =>
      cases h with
      | derived _ _ hright => exact ih (hright _ rfl)

/-- **A value resolves if all functions in it, at any depth, lead somewhere.** -/
theorem resolves_iff_holdsOnly : v.Resolves c ↔ v.HoldsOnly (Closure.Found c) (BodyId.Found c) := by
  constructor
  · intro h
    constructor
    · intro f hf
      cases h.of_contains hf with
      | closure harena hbody => exact ⟨_, harena, Arena.isSome_body?_iff.mp hbody⟩
    · intro operator body left right hd
      cases h.of_contains hd with
      | derived hbody _ _ => exact Registry.body?_isSome_iff.mp hbody
  · intro h
    -- by the parts of the value; functions carry the handles
    induction v using ind with
    | array s cells ih =>
        refine .array ?_
        intro u hu
        exact ih u hu (h.of_contains (.cell hu .self))
    | derived operator body left right ihl ihr =>
        refine .derived (Registry.body?_isSome_iff.mpr (h.2 _ _ _ _ .self)) ?_ ?_
        · exact ihl (h.of_contains (.left .self))
        · rintro right rfl
          exact ihr right rfl (h.of_contains (.right .self))
    | closure f =>
        obtain ⟨arena, harena, hrange⟩ := h.1 f .self
        exact .closure harena (Arena.isSome_body?_iff.mpr hrange)
    | bool b => exact .bool b
    | number n => exact .number n
    | text s => exact .text s
    | strings g => exact .strings g
    | indexes g => exact .indexes g
    | emptyArray => exact .emptyArray
    | primitive symbol => exact .primitive symbol

end Value

/-! ## Steps that never dangle -/

namespace Outcome

variable {α : Type}

/-- The work comes upon no dangling handle, and if it is finished its end satisfies `post`. -/
def Safe (post : Except EvalError α → Machine → Prop) : Outcome α → Prop
  | .finished r m => post r m
  | .panics why => why = .body
  | .unfinished => True

end Outcome

namespace Progress

variable {α : Type} {k : Contract} {post : Except EvalError α → Machine → Prop} {p : Progress α}

theorem Meets.weaken {d : Panic → Prop} (h : p.Meets k post d) : p.Meets k post := by
  induction p with
  | finished r m => exact h
  | asks q m resume ih =>
      obtain ⟨hreq, hans⟩ := h
      exact ⟨hreq, fun r m' hr => ih r m' (hans r m' hr)⟩
  | panics why => trivial

/-- Whoever answers safely what the contract lets a step ask brings the step safely on. -/
theorem Meets.safe {answer : Request → Machine → Outcome Value} (h : p.Meets k post (· = .body))
    (hans : ∀ q m, k.requires q m → (answer q m).Safe (k.ensures q m)) :
    (p.resolve answer).Safe post := by
  induction p with
  | finished r m => exact h
  | asks q m resume ih =>
      obtain ⟨hreq, hres⟩ := h
      have hsafe := hans q m hreq
      simp only [resolve]
      cases hq : answer q m with
      | finished r m' =>
          rw [hq] at hsafe
          exact ih r m' (hres r m' hsafe)
      | panics why =>
          rw [hq] at hsafe
          exact hsafe
      | unfinished => trivial
  | panics why => exact h

end Progress

namespace Contract

open Eval

variable {c : Context} {k : Contract}

/-- One step of the evaluator keeps the contract and never comes upon a dangling handle, if the same
is so of the answers to its questions. -/
def SecuredBy (k : Contract) (c : Context) : Prop :=
  ∀ q m, k.requires q m → (step c q m).Meets k (k.ensures q m) (· = .body)

/-- Whoever never dangles keeps the contract. -/
theorem SecuredBy.keptBy (h : k.SecuredBy c) : k.KeptBy c := fun q m hreq => (h q m hreq).weaken

/-- **The rule of recursion**: no run dangles, however deep it goes. -/
theorem SecuredBy.safe (h : k.SecuredBy c) (depth : Nat) {q : Request} {m : Machine}
    (hreq : k.requires q m) : (run c depth q m).Safe (k.ensures q m) := by
  -- the answers to the questions of a step are runs of one depth less
  induction depth generalizing q m with
  | zero => trivial
  | succ depth ih => exact (h q m hreq).safe fun _ _ => ih

end Contract

namespace Eval

variable {α : Type} {c : Context} {p : α → Prop} {x : Eval α} {m : Machine}

/-! ## What is there -/

/-- Arenas built children first, and bodies that make no functions, in a registry that was built by
registrations. -/
structure Grounded (c : Context) : Prop where
  built : c.registry.Built
  passesOn : c.registry.PassesOn
  arenas : ∀ arena ∈ c.arenas, arena.ChildrenFirst

theorem Grounded.layered (h : Grounded c) {a : ArenaId} {arena : Arena}
    (harena : c.arena? a = some arena) : arena.Layered :=
  (h.arenas arena (Array.mem_of_getElem? harena)).layered

/-- The licence to do anything with what is there. -/
def grounded (c : Context) (arena : ArenaId) (scope : ScopeId) (bound : Nat) : Licence :=
  { secure c arena scope (fun e => e.index < bound) (fun f => f.toValue.Resolves c) with
    catching := True }

/-- Requests about what is there, over scopes that resolve, are answered by values that resolve, and
leave such scopes. -/
def resolving (c : Context) : Contract where
  requires q m := Answerable c m q ∧ m.scopes.Resolves c
  ensures _ m r m' := SameControl m m' ∧ m'.scopes.Resolves c ∧ ∀ v, r = .ok v → v.Resolves c

/-- A step that keeps to what is there keeps the contract. A call has no parts. -/
theorem Within.meets_resolving {scope : ScopeId} {bound : Nat}
    (hx : Within c (grounded c m.arena scope bound) p x)
    (hbound : 0 < bound → ∃ arena, c.arena? m.arena = some arena ∧ bound ≤ arena.size)
    (hm : m.scopes.Resolves c) :
    (x m).Meets (resolving c)
      (fun r m' => SameControl m m' ∧ m'.scopes.Resolves c ∧ ∀ a, r = .ok a → p a)
      (· = .body) := by
  have hI : (grounded c m.arena scope bound).Invariant fun n =>
      SameControl m n ∧ n.scopes.Resolves c := {
    arena := fun _ h => h.1.arena
    lookup := fun _ _ _ h hv => h.2.lookup? hv
    define := fun _ _ _ h _ hv => ⟨⟨h.1.arena, h.1.calls⟩, h.2.define hv⟩
    store := fun _ _ _ _ h _ hv hs => ⟨⟨h.1.arena, h.1.calls⟩, h.2.assign? hv hs⟩ }
  have hask : ∀ q n, (grounded c m.arena scope bound).Asks q →
      SameControl m n ∧ n.scopes.Resolves c → (resolving c).requires q n ∧
        ∀ r n', (resolving c).ensures q n r n' →
          (SameControl m n' ∧ n'.scopes.Resolves c) ∧
            (grounded c m.arena scope bound).Allows (Value.Resolves c) r := by
    intro q n hq ⟨hsame, hn⟩
    refine ⟨⟨?_, hn⟩, fun r n' hr => ⟨⟨trans_of SameControl hsame hr.1, hr.2.1⟩, ?_⟩⟩
    · cases q with
      | evaluate e scope' =>
          -- parts lie below the bound, and so within the arena
          obtain ⟨arena, harena, hle⟩ := hbound (Nat.lt_of_le_of_lt (Nat.zero_le _) hq.2)
          exact answerable_of_asks harena hle (fun _ he => he) rfl (fun _ hf => hf) hq hsame.arena
      | call f left right scope' => exact hq.2
    · cases r with
      | ok v => exact hr.2.2 v rfl
      | error e => trivial
  refine (hx.meets_or hI (fun _ h => h) hask ⟨⟨rfl, rfl⟩, hm⟩).mono fun r m' h => ⟨h.1.1, h.1.2, ?_⟩
  rintro a rfl
  exact h.2

/-- Bodies that keep to what they are given keep to what is there. -/
theorem within_grounded {b : Body Value} {a : ArenaId} {scope : ScopeId}
    (h : b.KeepsTo (Value.HoldsOnly (Closure.Found c) (BodyId.Found c))) :
    b.Within (grounded c a scope 0) (Value.Resolves c) := by
  have hsame : Value.HoldsOnly (Closure.Found c) (BodyId.Found c) = Value.Resolves c :=
    funext fun v => propext Value.resolves_iff_holdsOnly.symm
  rw [hsame] at h
  exact Body.KeepsTo.within (l := grounded c a scope 0) h (fun _ hf => hf) (fun _ => trivial)
    trivial rfl

/-- An expression that was allocated before goes down to smaller ones, which are there, too. -/
theorem Grounded.meets_evaluate (h : Grounded c) {e : ExprId} {scope : ScopeId}
    (hq : Answerable c m (.evaluate e scope)) (hm : m.scopes.Resolves c) :
    (step c (.evaluate e scope) m).Meets (resolving c)
      ((resolving c).ensures (.evaluate e scope) m) (· = .body) := by
  obtain ⟨arena, harena, hlt⟩ := hq
  have hstep : Within c (grounded c m.arena scope e.index) (Value.Resolves c)
      (step c (.evaluate e scope)) := by
    refine within_step_evaluate (fun hnone => absurd hnone (expr?_ne_none harena hlt))
      fun arena' x harena' hx => ?_
    cases harena.symm.trans harena'
    have hlayered := h.layered harena
    exact ⟨covers_of_layered hlayered h.built.isSome_body? harena (Nat.le_of_lt hlt) (fun _ => .rfl)
        rfl (fun _ hf => hf) fun _ => trivial,
      admits_of_layered hlayered harena hx (fun _ he' => he') rfl (fun _ => trivial)
        fun _ => trivial⟩
  exact hstep.meets_resolving (fun _ => ⟨arena, harena, Nat.le_of_lt hlt⟩) hm

/-- What a primitive is given resolves, and so does what its body makes of that. -/
theorem Grounded.meets_primitive (h : Grounded c) {symbol : Name} {left : Option Value}
    {right : Value} {scope : ScopeId}
    (hq : Answerable c m (.call (.primitive symbol) left right scope)) (hm : m.scopes.Resolves c) :
    (step c (.call (.primitive symbol) left right scope) m).Meets (resolving c)
      ((resolving c).ensures (.call (.primitive symbol) left right scope) m) (· = .body) := by
  obtain ⟨-, hleft, hright⟩ := hq
  have hstep : Within c (grounded c m.arena scope 0) (Value.Resolves c)
      (callFunction c (.primitive symbol) left right scope) := by
    refine within_callPrimitive (fun _ _ => trivial) fun d hd => ?_
    obtain ⟨handler, hmem, hconvert, hbody⟩ := Registry.exists_handler_of_resolve hd
    obtain ⟨hl, hr⟩ := (Value.keeps_resolves c c.tower).pair hleft hright hconvert
    rw [hbody]
    refine within_grounded (h.passesOn.primitive handler hmem _ _ _ _ _ (fun v hv => ?_) ?_)
    · exact Value.resolves_iff_holdsOnly.mp (hl v hv)
    · exact Value.resolves_iff_holdsOnly.mp hr
  exact hstep.meets_resolving (fun hlt => absurd hlt (Nat.lt_irrefl 0)) hm

/-- An operator has kept operands that resolve, and hands them to its body. -/
theorem Grounded.meets_derived (h : Grounded c) {d : Derived} {left : Option Value}
    {right : Value} {scope : ScopeId}
    (hq : Answerable c m (.call (.derived d) left right scope)) (hm : m.scopes.Resolves c) :
    (step c (.call (.derived d) left right scope) m).Meets (resolving c)
      ((resolving c).ensures (.call (.derived d) left right scope) m) (· = .body) := by
  obtain ⟨hd, hleft, hright⟩ := hq
  cases hd with
  | derived hfound hl hr =>
      have hstep : Within c (grounded c m.arena scope 0) (Value.Resolves c)
          (callFunction c (.derived d) left right scope) := by
        refine within_callDerived (fun hnone => ?_) fun body hbody => ?_
        · rw [hnone] at hfound
          cases hfound
        · have hmem := Array.mem_of_getElem? hbody
          refine within_grounded (h.passesOn.operator body hmem _ _ _ _ _ _ _
            (Value.resolves_iff_holdsOnly.mp hl) (fun v hv => ?_) (fun v hv => ?_) ?_)
          · exact Value.resolves_iff_holdsOnly.mp (hr v hv)
          · exact Value.resolves_iff_holdsOnly.mp (hleft v hv)
          · exact Value.resolves_iff_holdsOnly.mp hright
      exact hstep.meets_resolving (fun hlt => absurd hlt (Nat.lt_irrefl 0)) hm

/-- A closure changes over to its own arena, in which its statements lie. -/
theorem Grounded.meets_closure (h : Grounded c) {f : Closure} {left : Option Value}
    {right : Value} {scope : ScopeId}
    (hq : Answerable c m (.call (.closure f) left right scope)) (hm : m.scopes.Resolves c) :
    (step c (.call (.closure f) left right scope) m).Meets (resolving c)
      ((resolving c).ensures (.call (.closure f) left right scope) m) (· = .body) := by
  obtain ⟨hf, hleft, hright⟩ := hq
  cases hf with
  | @closure _ arena harena hbody =>
      refine meets_callClosure (fun _ => ⟨⟨rfl, rfl⟩, hm, nofun⟩) (fun _ _ => ?_) fun _ _ => ?_
      · refine ⟨⟨rfl, rfl⟩, hm, ?_⟩
        rintro _ ⟨⟩
        exact .emptyArray
      · have hlayered := h.layered harena
        have hstatements : Within c (grounded c f.arena ⟨m.scopes.size⟩ arena.size)
            (Value.Resolves c) (bodyIn c f.body ⟨m.scopes.size⟩) := by
          refine within_bodyIn (fun hnone => ?_) fun arena' harena' => ?_
          · cases harena.symm.trans hnone
          · cases harena.symm.trans harena'
            exact ⟨covers_of_layered hlayered h.built.isSome_body? harena (Nat.le_refl _)
                (fun _ => .rfl) rfl (fun _ hf => hf) fun _ => trivial,
              admitsBody_of_layered hlayered hbody fun _ he => he⟩
        have hinner := hm.withArguments hleft hright scope
        have hmeets := Within.meets_resolving (m := m.enter f left right scope) hstatements
          (fun _ => ⟨arena, harena, Nat.le_refl _⟩) hinner
        exact hmeets.mono fun r s hs => ⟨sameControl_leaveTo hs.1, hs.2⟩

/-- **Every step keeps to what is there.** -/
theorem Grounded.secured (h : Grounded c) : (resolving c).SecuredBy c := by
  intro q m ⟨hq, hm⟩
  match q with
  | .evaluate e scope => exact h.meets_evaluate hq hm
  | .call (.primitive symbol) left right scope => exact h.meets_primitive hq hm
  | .call (.derived d) left right scope => exact h.meets_derived hq hm
  | .call (.closure f) left right scope => exact h.meets_closure hq hm

/-- **No handle ever dangles**, over arenas that were built children first and a registry whose
bodies only pass on, combine and call what they are given, from scopes whose functions are there.

* No run, however deep, and no loop, however long, comes upon a handle outside of its table. The
  notes on errors are made in a run, so this is said of them, too. If it panics, a body does so that
  is executed on the way, with an answer to its calls that lets it.
* All requests on the way are about what is there: expressions of the arena that is current then,
  and functions and arguments that resolve. So are all values in scopes at any time, and all
  results.
* That a value resolves says of each closure in it, at any depth, that its range lies in its own
  arena, and of each derived function that there is a body for it.
* Everything in the arenas can be printed, and so can every closure whose range lies in its arena;
  the statements in such a range are of expressions of the arena. -/
theorem handles_secure (c : Context) (q : Request) (m : Machine) (hbuilt : c.registry.Built)
    (hpasses : c.registry.PassesOn) (harenas : ∀ arena ∈ c.arenas, arena.ChildrenFirst)
    (hq : Answerable c m q) (hm : m.scopes.Resolves c) :
    ((∀ depth, run c depth q m ≠ .panics .dangling) ∧
      (∀ count, exec c count (step c q m) [] ≠ .panics .dangling) ∧
      ∀ why, Panics c (step c q) m why →
        ∃ q' n b, Leads c q m q' n ∧ Executes c q' b ∧ b.Panics) ∧
    (∀ q' n, Leads c q m q' n → Answerable c n q' ∧ n.scopes.Resolves c ∧
      ∀ r n', Ends c (step c q') n r n' → n'.scopes.Resolves c ∧ ∀ v, r = .ok v → v.Resolves c) ∧
    (∀ v : Value, v.Resolves c ↔ (∀ f, v.Contains (.closure f) → f.Found c) ∧
      ∀ operator body left right, v.Contains (.derived operator body left right) → body.Found c) ∧
    (∀ a arena, c.arena? a = some arena → (∀ e : ExprId, e.index < arena.size →
        ∃ text, arena.print c.names e = .ok text) ∧
      ∀ body : BodyRange, body.start + body.length ≤ arena.guards.size →
        ∃ guards, arena.body? body = some guards ∧
          ∀ g ∈ guards, ∀ e ∈ g.exprs, e.index < arena.size) ∧
    ∀ f : Closure, f.Found c → ∃ text, c.printClosure? f = some text := by
  -- a grounded context dangles nowhere; all that is left are panics of bodies
  have h : Grounded c := ⟨hbuilt, hpasses, harenas⟩
  have hsafe : ∀ depth, (run c depth q m).Safe _ := fun depth => h.secured.safe depth ⟨hq, hm⟩
  have hruns : ∀ depth, run c depth q m ≠ .panics .dangling := by
    intro depth hrun
    have hbody := hsafe depth
    rw [hrun] at hbody
    cases hbody
  refine ⟨⟨hruns, fun count hexec => ?_, fun why hpanics => ?_⟩, fun q' n hl => ?_,
    fun v => Value.resolves_iff_holdsOnly,
    fun a arena harena => ⟨fun e he => ?_, fun body hbody => ?_⟩, fun f hf => ?_⟩
  · -- the loop panics where the recursion does
    have hne : (Outcome.panics .dangling : Outcome Value) ≠ .unfinished := nofun
    obtain ⟨depth, hdepth⟩ := (exec_eq_iff_run_eq hne).mp ⟨count, hexec⟩
    exact hruns depth hdepth
  · cases why with
    | dangling =>
        obtain ⟨depth, hdepth⟩ := panics_step_iff.mp hpanics
        exact absurd hdepth (hruns depth)
    | body =>
        -- follow the panic down to the step that breaks, which runs a body
        obtain ⟨q', n, hl, hbreaks⟩ := panics_iff.mp hpanics
        obtain ⟨b, hb, hpanics⟩ := exists_executes_of_breaks hbreaks
        exact ⟨q', n, b, hl, hb, hpanics⟩
  · have hreq := h.secured.keptBy.requires_of_leads hl ⟨hq, hm⟩
    exact ⟨hreq.1, hreq.2, fun r n' hr => (h.secured.keptBy.ends hreq hr).2⟩
  · exact (h.layered harena).reads_print c.names he
  · obtain ⟨guards, hguards⟩ := Option.isSome_iff_exists.mp (Arena.isSome_body?_iff.mpr hbody)
    exact ⟨guards, hguards, fun g hg =>
      (h.layered harena).guards g (Arena.mem_of_slice? hguards hg)⟩
  · obtain ⟨arena, harena, hrange⟩ := hf
    obtain ⟨text, htext⟩ :=
      (h.layered harena).reads_printClosure c.names (Arena.isSome_body?_iff.mpr hrange)
    refine ⟨text, ?_⟩
    unfold Context.printClosure?
    rw [harena]
    show (arena.printClosure c.names f.body).toOption = some text
    rw [htext]
    rfl

end Eval

/-- The body of the closure `{'⍺':⍵}`, built children first. -/
def Arena.lent : Arena :=
  let a := (Arena.empty.addExpr ⟨.text .leftArgument, .dummy⟩).2
  let a := (a.addExpr ⟨.variable .rightArgument, .dummy⟩).2
  (a.addBody [⟨some ⟨0⟩, ⟨1⟩⟩]).2

/-- `G 1`, in an arena of its own. -/
def Arena.borrowing : Arena :=
  let a := (Arena.empty.addExpr ⟨.variable ⟨14⟩, .dummy⟩).2
  let a := (a.addExpr ⟨.int 1, .dummy⟩).2
  (a.addExpr ⟨.call ⟨0⟩ none ⟨1⟩, .dummy⟩).2

theorem Arena.childrenFirst_lent : Arena.lent.ChildrenFirst := by
  refine .body (.expr (.expr .empty ?_) ?_) ?_
  · exact ⟨by decide, rfl⟩
  · exact ⟨by decide, rfl⟩
  · decide

theorem Arena.childrenFirst_borrowing : Arena.borrowing.ChildrenFirst := by
  refine .expr (.expr (.expr .empty ?_) ?_) ?_
  · exact ⟨by decide, rfl⟩
  · exact ⟨by decide, rfl⟩
  · exact ⟨by decide, rfl⟩

/-- Both arenas with the core library. -/
def Context.borrowing : Context where
  registry := Library.core .initial
  tower := .standard
  arenas := #[.borrowing, .lent]

/-- A scope in which `G` is the closure of the other arena. -/
def Machine.borrowing : Machine where
  arena := ⟨0⟩
  calls := .empty 3
  scopes := Scopes.empty.outermost.2.define ⟨0⟩ ⟨14⟩ (.closure ⟨⟨1⟩, ⟨0, 1⟩⟩)

/-- The condition of the closure is no truth value. The note on that is printed in its own arena,
and nothing dangles. -/
theorem Eval.handles_secure_borrowing :
    (∃ err m', Ends .borrowing (step .borrowing (.evaluate ⟨2⟩ ⟨0⟩)) .borrowing (.error err) m' ∧
      err.cause = .guardType .text ∧ err.notes.length = 1 ∧ m'.scopes.Resolves .borrowing) ∧
    (∀ depth, run .borrowing depth (.evaluate ⟨2⟩ ⟨0⟩) .borrowing ≠
      .panics .dangling) ∧
    ∃ text, Context.borrowing.printClosure? ⟨⟨1⟩, ⟨0, 1⟩⟩ = some text := by
  have harenas : ∀ arena ∈ Context.borrowing.arenas, arena.ChildrenFirst := by
    intro arena harena
    rcases List.mem_pair.mp (Array.mem_def.mp harena) with rfl | rfl
    · exact Arena.childrenFirst_borrowing
    · exact Arena.childrenFirst_lent
  have hclosure : (Value.closure ⟨⟨1⟩, ⟨0, 1⟩⟩).Resolves .borrowing := .closure rfl rfl
  have hscopes : Machine.borrowing.scopes.Resolves .borrowing :=
    (Scopes.resolves_empty.child ⟨0⟩).define hclosure
  obtain ⟨⟨hruns, -⟩, hleads, -, -, hprints⟩ :=
    handles_secure .borrowing (.evaluate ⟨2⟩ ⟨0⟩) .borrowing (Library.built_core .initial)
      (Library.passesOn_core .initial) harenas ⟨.borrowing, rfl, by decide⟩ hscopes
  have hend : ∃ err m', Ends .borrowing (step .borrowing (.evaluate ⟨2⟩ ⟨0⟩)) .borrowing
      (.error err) m' ∧ err.cause = .guardType .text ∧ err.notes.length = 1 :=
    ⟨_, _, ⟨20, rfl⟩, rfl, rfl⟩
  obtain ⟨err, m', hend, hcause, hnotes⟩ := hend
  refine ⟨⟨err, m', hend, hcause, hnotes, ?_⟩, hruns, hprints _ ⟨.lent, rfl, by decide⟩⟩
  exact ((hleads _ _ .refl).2.2 _ _ hend).1

end ArrayLang

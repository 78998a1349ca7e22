import ArrayLang.Proofs.Evaluation.Contract
import ArrayLang.Session
import Mathlib.Logic.Relation

/-!
# The evaluator gives back what it borrowed

A closure call takes over the machine: it puts a frame on the call stack and makes the closure's
arena the current one. However the call ends, both are given back, so a whole evaluation leaves the
arena and the stack of calls as they were (`Eval.control_restored`), and a session that has been
used, errors included, is a fresh one over the scopes as they are now.
-/

namespace ArrayLang

/-! ## One frame -/

namespace CallStack

/-- A refused frame leaves the stack alone. -/
theorem push_refused {s s' : CallStack} {frame : CallFrame} {e : EvalError}
    (h : s.push frame = (.error e, s')) : s' = s := by
  unfold push at h
  split at h
  · cases h
    rfl
  · cases h

/-- Leaving a call undoes entering it. -/
theorem pop_of_push {s s' : CallStack} {frame : CallFrame} (h : s.push frame = (.ok (), s')) :
    s'.pop = s := by
  unfold push at h
  split at h
  · cases h
  · cases h
    simp [pop]

end CallStack

/-! ## Arena and calls -/

/-- Two machines evaluate the same arena inside the same calls. -/
structure SameControl (m m' : Machine) : Prop where
  arena : m'.arena = m.arena
  calls : m'.calls = m.calls

instance : IsPreorder Machine SameControl where
  refl _ := ⟨rfl, rfl⟩
  trans _ _ _ h h' := ⟨h'.arena.trans h.arena, h'.calls.trans h.calls⟩

namespace Eval

variable {c : Context}

/-- Writing to scopes does not touch the control. -/
theorem keeps_control_define (x : Name) (v : Value) (scope : ScopeId) :
    Keeps (.keeping SameControl) SameControl (define x v scope) := fun _ => ⟨rfl, rfl⟩

theorem keeps_control_store (x : Name) (v : Value) (scope : ScopeId) :
    Keeps (.keeping SameControl) SameControl (store c x v scope) := by
  intro m
  unfold store
  split <;> exact ⟨rfl, rfl⟩

theorem keeps_control_argumentScope (left : Option Value) (right : Value) (scope : ScopeId) :
    Keeps (.keeping SameControl) SameControl (argumentScope left right scope) :=
  fun _ => ⟨rfl, rfl⟩

/-- The body runs on a machine with another arena and one more frame, and gives that machine back;
leaving the call undoes both changes. -/
theorem keeps_control_callClosure (f : Closure) (left : Option Value) (right : Value)
    (scope : ScopeId) :
    Keeps (.keeping SameControl) SameControl (callClosure c f left right scope) := by
  intro ⟨arena, calls, scopes⟩
  have hbody : Keeps (.keeping SameControl) SameControl (runBody c f.body left right scope) :=
    keeps_runBody (keptIn_keeping keeps_control_define keeps_control_store)
      (fun l r => keeps_control_argumentScope l r scope) f.body left right
  have hback : ∀ calls', calls.push ⟨f.body⟩ = (.ok (), calls') →
      ∀ s : Machine, SameControl ⟨f.arena, calls', scopes⟩ s →
        SameControl ⟨arena, calls, scopes⟩ { s with arena, calls := s.calls.pop } := by
    intro calls' hpush s hs
    refine ⟨rfl, ?_⟩
    show s.calls.pop = calls
    rw [hs.calls]
    exact CallStack.pop_of_push hpush
  show Progress.Meets _ _ _ ((enter f _).bind fun _ m' => _)
  unfold enter
  simp only
  split
  · next hpush =>
      exact (hbody _).mapEnd (fun _ s hs => hback _ hpush s hs) fun _ s hs => hback _ hpush s hs
  -- nothing was entered
  · next hpush => exact ⟨rfl, CallStack.push_refused hpush⟩

/-- **Every step gives arena and calls back as it found them**, if its questions do. -/
theorem control_keptBy : (Contract.keeping SameControl).KeptBy c :=
  keeping_keptBy keeps_control_define keeps_control_store keeps_control_callClosure

end Eval

/-! ## Sessions -/

namespace Session

/-- What can happen to a session between two expressions: it answers a request, it evaluates in a
scope inside of its root, or someone else changes the scopes that it shares. -/
inductive Use : Session → Session → Prop
  | answer {s t : Session} {q : Request} {r : Except EvalError Value}
      (h : s.answer q = some (r, t)) : Use s t
  | evaluateWithin {s t : Session} {bindings : List (Name × Option Value)} {e : ExprId}
      {r : Except EvalError Value} {inner : ScopeId}
      (h : s.evaluateWithin bindings e = some (r, inner, t)) : Use s t
  | share (s : Session) (scopes : Scopes) :
      Use s { s with machine := { s.machine with scopes } }

variable {s t : Session} {q : Request} {r : Except EvalError Value}

/-- An answer changes the scopes of a session and nothing else. -/
theorem eq_of_answer (h : s.answer q = some (r, t)) :
    t = { s with machine := { s.machine with scopes := t.machine.scopes } } := by
  unfold Session.answer at h
  split at h
  · next r' m hm =>
      cases h
      have hc : SameControl s.machine m :=
        Eval.control_keptBy.ends trivial (Eval.ends_of_answer hm)
      show Session.mk _ m _ = _
      congr 1
      obtain ⟨arena, calls, scopes⟩ := m
      obtain ⟨rfl, rfl⟩ := hc
      rfl
  · cases h
  · cases h

/-- Whichever way a session is used, only the machine changes. -/
theorem Use.eq (h : Use s t) :
    t = { s with machine := { s.machine with scopes := t.machine.scopes } } := by
  cases h with
  | answer h => exact eq_of_answer h
  | evaluateWithin h =>
      obtain ⟨⟨r, u⟩, hu, heq⟩ := Option.map_eq_some_iff.mp h
      cases heq
      have ht := eq_of_answer hu
      exact ht
  | share scopes => rfl

/-- However it has been used, a session is a fresh one over the scopes there are now. -/
theorem eq_start {c : Context} {arena : ArenaId} {limit : Nat} {scopes : Scopes} {root : ScopeId}
    (h : Relation.ReflTransGen Use (start c arena limit scopes root) s) :
    s = start c arena limit s.machine.scopes root := by
  induction h with
  | refl => rfl
  -- a use changes the scopes alone, and a fresh session takes them as they are
  | tail _ huse ih =>
      rw [huse.eq, ih]
      rfl

end Session

/-- **Every evaluation gives back the arena and the calls in progress**, with whatever it ends, and
so a session that was used in any way, failed evaluations included, is outside of all calls and
evaluates the next expression of its own arena as a fresh session would. -/
theorem Eval.control_restored (c : Context) :
    (∀ q m r m', Ends c (step c q) m r m' → m'.arena = m.arena ∧ m'.calls = m.calls) ∧
    ∀ arena limit scopes root s,
      Relation.ReflTransGen Session.Use (Session.start c arena limit scopes root) s →
      s.callDepth = 0 ∧ s.machine.arena = arena ∧
        ∀ e, s.evaluate e = (Session.start c arena limit s.machine.scopes root).evaluate e := by
  refine ⟨fun q m r m' h => ?_, fun arena limit scopes root s h => ?_⟩
  · have hc : SameControl m m' := control_keptBy.ends trivial h
    exact ⟨hc.arena, hc.calls⟩
  · have hs := Session.eq_start h
    refine ⟨?_, ?_, fun e => ?_⟩
    · rw [hs]
      rfl
    · rw [hs]
      rfl
    · rw [← hs]

/-- A program with a closure that calls itself again and again: `{X ⍵} X`. -/
def Context.runaway : Context where
  registry := .empty .initial
  tower := .standard
  arenas := #[{
    exprs := #[⟨.variable ⟨5⟩, .dummy⟩, ⟨.variable .rightArgument, .dummy⟩,
      ⟨.call ⟨0⟩ none ⟨1⟩, .dummy⟩, ⟨.closure ⟨0, 1⟩, .dummy⟩, ⟨.call ⟨3⟩ none ⟨0⟩, .dummy⟩]
    items := #[]
    guards := #[⟨none, ⟨2⟩⟩] }]

/-- A session over that program in which `X` is the closure, with three calls at most. -/
def Session.runaway : Session :=
  start .runaway ⟨0⟩ 3
    (Scopes.empty.outermost.2.define ⟨0⟩ ⟨5⟩ (.closure ⟨⟨0⟩, ⟨0, 1⟩⟩)) ⟨0⟩

/-- The calls run into the limit, and none of them is left in progress. -/
theorem Eval.control_restored_runaway :
    (∃ err m', Ends .runaway (step .runaway (.evaluate ⟨4⟩ ⟨0⟩)) Session.runaway.machine
        (.error err) m' ∧ err.cause = .stackOverflow 3 ∧ m'.arena = ⟨0⟩ ∧ m'.calls = .empty 3) ∧
    ∃ err t, Session.runaway.evaluate ⟨4⟩ = some (.error err, t) ∧ err.cause = .stackOverflow 3 ∧
      t.callDepth = 0 ∧ t.machine.arena = ⟨0⟩ := by
  obtain ⟨hends, hsession⟩ := control_restored Context.runaway
  constructor
  · have h : ∃ err m', Ends .runaway (step .runaway (.evaluate ⟨4⟩ ⟨0⟩)) Session.runaway.machine
        (.error err) m' ∧ err.cause = .stackOverflow 3 := ⟨_, _, ⟨20, rfl⟩, rfl⟩
    obtain ⟨err, m', h, hcause⟩ := h
    obtain ⟨harena, hcalls⟩ := hends _ _ _ _ h
    exact ⟨err, m', h, hcause, harena, hcalls⟩
  · have h : ∃ err t, Session.runaway.evaluate ⟨4⟩ = some (.error err, t) ∧
        err.cause = .stackOverflow 3 := ⟨_, _, rfl, rfl⟩
    obtain ⟨err, t, h, hcause⟩ := h
    obtain ⟨hdepth, harena, -⟩ := hsession _ _ _ _ t (.single (.answer h))
    exact ⟨err, t, h, hcause, hdepth, harena⟩

end ArrayLang

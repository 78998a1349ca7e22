import ArrayLang.Library.Core
import ArrayLang.Proofs.Evaluation.Calls

/-!
# Who calls a function

What a call does never depends on the arena of its caller. A closure is run in its own arena and
never looks at the one it was called from; the body of a primitive or an operator sees no arena at
all and only hands on the calls that it makes. So two callers that differ in nothing but their
arenas get the same answer (`Eval.call_from_any_arena`).
-/

namespace ArrayLang

/-- The machine in another arena. -/
def Machine.withArena (m : Machine) (a : ArenaId) : Machine := { m with arena := a }

namespace Progress

theorem mapEnd_mapEnd {α : Type} (p : Progress α) (f g : Machine → Machine) :
    (p.mapEnd id f).mapEnd id g = p.mapEnd id fun m => g (f m) := by
  induction p with
  | finished r m => cases r <;> rfl
  | asks q m resume ih =>
      show Progress.asks q m _ = Progress.asks q m _
      congr 1
      funext r m
      exact ih r m
  | panics why => rfl

end Progress

namespace Eval

variable {c : Context} {f : Callable} {left : Option Value} {right : Value} {scope : ScopeId}
  {m : Machine} {a : ArenaId}

/-- A closure is entered in the same way from every arena, and goes back to the one it came from. -/
theorem callClosure_withArena (f : Closure) (m : Machine) (a : ArenaId) :
    callClosure c f left right scope (m.withArena a) =
      (callClosure c f left right scope m).mapEnd id fun m' => m'.withArena a := by
  rw [callClosure_apply, callClosure_apply]
  show (if m.calls.limit ≤ m.calls.depth then _ else if f.body.isEmpty then _ else _) = _
  split
  · rfl
  · split
    · rfl
    · rw [Progress.mapEnd_mapEnd]
      rfl

/-- A body makes the same calls from every arena, as far as these have the same answers. -/
theorem resolve_ofBody_withArena {α : Type} {depth : Nat}
    (hcalls : ∀ f left right m, run c depth (.call f left right scope) (m.withArena a) =
      (run c depth (.call f left right scope) m).mapEnd id fun m' => m'.withArena a)
    (b : Body α) (m : Machine) :
    (ofBody scope b (m.withArena a)).resolve (run c depth) =
      ((ofBody scope b m).resolve (run c depth)).mapEnd id fun m' => m'.withArena a := by
  induction b generalizing m with
  | done r => cases r <;> rfl
  | call f left right resume ih =>
      simp only [ofBody, Progress.resolve]
      rw [hcalls]
      cases run c depth (.call f left right scope) m with
      | finished r m' =>
          cases r with
          | ok v => exact ih (.ok v) m'
          | error e => exact ih (.error e) m'
      | panics why => rfl
      | unfinished => rfl
  | panics => rfl

/-- **A call is the same from every arena**, at every depth to which its questions may nest. -/
theorem run_call_withArena (depth : Nat) (f : Callable) (left : Option Value) (right : Value)
    (m : Machine) (a : ArenaId) :
    run c depth (.call f left right scope) (m.withArena a) =
      (run c depth (.call f left right scope) m).mapEnd id fun m' => m'.withArena a := by
  -- the calls that a body makes are of one depth less
  induction depth generalizing f left right m with
  | zero => rfl
  | succ depth ih =>
      cases f with
      | primitive symbol =>
          show (callFunction c (.primitive symbol) left right scope (m.withArena a)).resolve _ =
            ((callFunction c (.primitive symbol) left right scope m).resolve _).mapEnd _ _
          simp only [callFunction]
          cases c.registry.resolve c.tower symbol left right with
          | ok d => exact resolve_ofBody_withArena ih (d.body c.tower d.left d.right) m
          | error e => rfl
      | closure f =>
          show (callClosure c f left right scope (m.withArena a)).resolve _ = _
          rw [callClosure_withArena, Progress.resolve_mapEnd]
          rfl
      | derived d =>
          show (callFunction c (.derived d) left right scope (m.withArena a)).resolve _ =
            ((callFunction c (.derived d) left right scope m).resolve _).mapEnd _ _
          simp only [callFunction]
          cases c.registry.body? d.body with
          | some body =>
              exact resolve_ofBody_withArena ih (body c.tower d.left d.right left right) m
          | none => rfl

/-- **Whoever calls a function, the call is the same.** From any two arenas it gives the same value
or the same error, with its place and its notes, and leaves the same scopes and the same calls in
progress; it comes to no end, or to a dangling handle, from the one arena if it does from the
other. -/
theorem call_from_any_arena (c : Context) (f : Callable) (left : Option Value) (right : Value)
    (scope : ScopeId) (m : Machine) (a b : ArenaId) :
    (∀ r m', Ends c (step c (.call f left right scope)) (m.withArena a) r m' →
      m'.arena = a ∧
        Ends c (step c (.call f left right scope)) (m.withArena b) r (m'.withArena b)) ∧
    ∀ depth, run c depth (.call f left right scope) (m.withArena b) =
      (run c depth (.call f left right scope) (m.withArena a)).mapEnd id fun m' =>
        m'.withArena b := by
  have hrun : ∀ depth, run c depth (.call f left right scope) (m.withArena b) =
      (run c depth (.call f left right scope) (m.withArena a)).mapEnd id fun m' =>
        m'.withArena b :=
    fun depth => run_call_withArena depth f left right (m.withArena a) b
  refine ⟨fun r m' h => ⟨(control_keptBy.ends trivial h : SameControl _ m').arena, ?_⟩, hrun⟩
  obtain ⟨depth, hdepth⟩ := ends_step_iff.mp h
  refine ends_step_iff.mpr ⟨depth, ?_⟩
  rw [hrun, hdepth]
  cases r <;> rfl

end Eval

/-- Two arenas that have nothing in common, and a third one with the closure `{'⍺':⍵}`, which takes
a text for a condition. -/
def Context.visiting : Context where
  registry := ((Registry.empty .initial).addBody Library.each).2
  tower := .standard
  arenas := #[.empty,
    { exprs := #[⟨.int 7, ⟨1, 2⟩⟩, ⟨.int 8, ⟨2, 3⟩⟩], items := #[], guards := #[⟨none, ⟨0⟩⟩] },
    { exprs := #[⟨.text .leftArgument, ⟨1, 4⟩⟩, ⟨.variable .rightArgument, ⟨5, 6⟩⟩]
      items := #[]
      guards := #[⟨some ⟨0⟩, ⟨1⟩⟩] }]

/-- One scope, and no calls in progress. -/
def Machine.visiting : Machine := ⟨⟨0⟩, .empty 5, Scopes.empty.outermost.2⟩

/-- The error of `{'⍺':⍵}¨7` tells of the statement and its place in the third arena, when the call
comes from the first one and when it comes from the second. -/
theorem Eval.call_from_any_arena_visiting :
    ∃ err m', Ends .visiting (step .visiting
        (.call (.derived ⟨.empty, ⟨0⟩, .closure ⟨⟨2⟩, ⟨0, 1⟩⟩, none⟩) none (.int 7) ⟨0⟩))
        (Machine.visiting.withArena ⟨0⟩) (.error err) m' ∧
      err.cause = .guardType .text ∧ err.span = some ⟨1, 4⟩ ∧
      err.notes.map Note.message = ["guard 1 of \x7b'⍺':⍵\x7d"] ∧
      Ends .visiting (step .visiting
        (.call (.derived ⟨.empty, ⟨0⟩, .closure ⟨⟨2⟩, ⟨0, 1⟩⟩, none⟩) none (.int 7) ⟨0⟩))
        (Machine.visiting.withArena ⟨1⟩) (.error err) (m'.withArena ⟨1⟩) := by
  have h : ∃ err m', Ends .visiting (step .visiting
      (.call (.derived ⟨.empty, ⟨0⟩, .closure ⟨⟨2⟩, ⟨0, 1⟩⟩, none⟩) none (.int 7) ⟨0⟩))
      (Machine.visiting.withArena ⟨0⟩) (.error err) m' ∧
      err.cause = .guardType .text ∧ err.span = some ⟨1, 4⟩ ∧
      err.notes.map Note.message = ["guard 1 of \x7b'⍺':⍵\x7d"] :=
    ⟨_, _, ⟨20, rfl⟩, rfl, rfl, by decide +kernel⟩
  obtain ⟨err, m', h, hcause, hspan, hnotes⟩ := h
  obtain ⟨hends, -⟩ := call_from_any_arena .visiting _ _ _ _ _ ⟨0⟩ ⟨1⟩
  exact ⟨err, m', h, hcause, hspan, hnotes, (hends _ _ h).2⟩

end ArrayLang

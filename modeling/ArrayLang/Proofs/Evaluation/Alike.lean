import ArrayLang.Proofs.Evaluation.Ending
import ArrayLang.Proofs.Evaluation.Errors
import ArrayLang.Proofs.Scopes.Renaming
import Mathlib.Data.List.Forall2

/-!
# Steps that go alike

Two evaluations *go alike* along a renaming of arenas if the second one does what the first one does
with all arenas renamed: it asks the same questions on the same machines, and ends with the same
value or with a twin of the error. This passes through all that steps are made of, one rule for each
way of composing, and two evaluators whose steps go alike have runs that end alike
(`Eval.run_alike`, `Eval.exec_alike`).
-/

namespace ArrayLang

variable {α α' β β' : Type} {ρ : ArenaId → ArenaId}

def Machine.rename (ρ : ArenaId → ArenaId) (m : Machine) : Machine :=
  { m with arena := ρ m.arena, scopes := m.scopes.rename ρ }

/-- Expressions and scopes keep their numbers. -/
def Request.rename (ρ : ArenaId → ArenaId) : Request → Request
  | .evaluate e scope => .evaluate e scope
  | .call f left right scope => .call (f.rename ρ) (left.map (.rename ρ)) (right.rename ρ) scope

/-! ## Results -/

/-- A value and what `g` makes of it, or errors that are twins. -/
inductive ResultsAlike (g : α → β) : Except EvalError α → Except EvalError β → Prop
  | ok (a : α) : ResultsAlike g (.ok a) (.ok (g a))
  | error {e e' : EvalError} (h : e.Twins e') : ResultsAlike g (.error e) (.error e')

namespace ResultsAlike

variable {g : α → β} {r : Except EvalError α} {r' : Except EvalError β}

theorem of (cause : Cause) : ResultsAlike g (.error (.of cause)) (.error (.of cause)) :=
  .error (EvalError.twins_of cause)

theorem ok_of_eq {a : α} {b : β} (h : b = g a) : ResultsAlike g (.ok a) (.ok b) := by
  rw [h]
  exact .ok a

theorem bind {g' : α' → β'} {f : α → Except EvalError α'} {f' : β → Except EvalError β'}
    (h : ResultsAlike g r r') (hf : ∀ a, ResultsAlike g' (f a) (f' (g a))) :
    ResultsAlike g' (r >>= f) (r' >>= f') := by
  cases h with
  | ok a => exact hf a
  | error h => exact .error h

theorem map {g' : α' → β'} {f : α → α'} {f' : β → β'} (h : ResultsAlike g r r')
    (hf : ∀ a, f' (g a) = g' (f a)) : ResultsAlike g' (f <$> r) (f' <$> r') := by
  cases h with
  | ok a => exact ok_of_eq (hf a)
  | error h => exact .error h

end ResultsAlike

/-! ## Bodies -/

namespace Body

/-- The second body makes the calls of the first one with all arenas renamed, and ends alike if
these do. -/
inductive Alike (ρ : ArenaId → ArenaId) (g : α → β) : Body α → Body β → Prop
  | done {r : Except EvalError α} {r' : Except EvalError β} (h : ResultsAlike g r r') :
      Alike ρ g (.done r) (.done r')
  | call (f : Callable) (left : Option Value) (right : Value)
      {resume : Except EvalError Value → Body α} {resume' : Except EvalError Value → Body β}
      (h : ∀ r r', ResultsAlike (.rename ρ) r r' → Alike ρ g (resume r) (resume' r')) :
      Alike ρ g (.call f left right resume)
        (.call (f.rename ρ) (left.map (.rename ρ)) (right.rename ρ) resume')
  | panics : Alike ρ g .panics .panics

namespace Alike

variable {g : α → β}

theorem pure (a : α) : Alike ρ g (pure a) (pure (g a)) := .done (.ok a)

theorem bind {g' : α' → β'} {b : Body α} {b' : Body β} {f : α → Body α'} {f' : β → Body β'}
    (h : b.Alike ρ g b') (hf : ∀ a, (f a).Alike ρ g' (f' (g a))) :
    (b >>= f).Alike ρ g' (b' >>= f') := by
  induction h with
  | done h =>
      cases h with
      | ok a => exact hf a
      | error h => exact .done (.error h)
  | call f left right _ ih => exact .call f left right ih
  | panics => exact .panics

theorem apply (f : Callable) (left : Option Value) (right : Value) :
    (Body.apply f left right).Alike ρ (.rename ρ)
      (Body.apply (f.rename ρ) (left.map (.rename ρ)) (right.rename ρ)) :=
  .call f left right fun _ _ h => .done h

end Alike

end Body

/-! ## Steps -/

namespace Progress

/-- The second step asks what the first one asks, with all arenas renamed, and ends alike if the
answers are alike. -/
inductive Alike (ρ : ArenaId → ArenaId) (g : α → β) : Progress α → Progress β → Prop
  | finished {r : Except EvalError α} {r' : Except EvalError β} (h : ResultsAlike g r r')
      (m : Machine) : Alike ρ g (.finished r m) (.finished r' (m.rename ρ))
  | asks (q : Request) (m : Machine) {resume : Except EvalError Value → Machine → Progress α}
      {resume' : Except EvalError Value → Machine → Progress β}
      (h : ∀ r r' n, ResultsAlike (.rename ρ) r r' →
        Alike ρ g (resume r n) (resume' r' (n.rename ρ))) :
      Alike ρ g (.asks q m resume) (.asks (q.rename ρ) (m.rename ρ) resume')
  | panics (why : Panic) : Alike ρ g (.panics why) (.panics why)

namespace Alike

variable {g : α → β} {p : Progress α} {p' : Progress β}

theorem bind {g' : α' → β'} {f : α → Machine → Progress α'} {f' : β → Machine → Progress β'}
    (h : p.Alike ρ g p') (hf : ∀ a m, (f a m).Alike ρ g' (f' (g a) (m.rename ρ))) :
    (p.bind f).Alike ρ g' (p'.bind f') := by
  induction h with
  | finished h m =>
      cases h with
      | ok a => exact hf a m
      | error h => exact .finished (.error h) m
  | asks q m _ ih => exact .asks q m ih
  | panics why => exact .panics why

theorem mapEnd {f f' : EvalError → EvalError} {k k' : Machine → Machine} (h : p.Alike ρ g p')
    (hf : ∀ e e', e.Twins e' → (f e).Twins (f' e')) (hk : ∀ m, k' (m.rename ρ) = (k m).rename ρ) :
    (p.mapEnd f k).Alike ρ g (p'.mapEnd f' k') := by
  induction h with
  | finished h m =>
      cases h with
      | ok a =>
          simp only [Progress.mapEnd, hk]
          exact .finished (.ok a) (k m)
      | error h =>
          simp only [Progress.mapEnd, hk]
          exact .finished (.error (hf _ _ h)) (k m)
  | asks q m _ ih => exact .asks q m ih
  | panics why => exact .panics why

end Alike

end Progress

namespace Outcome

/-- Both evaluations end alike, or neither ends. -/
inductive Alike (ρ : ArenaId → ArenaId) (g : α → β) : Outcome α → Outcome β → Prop
  | finished {r : Except EvalError α} {r' : Except EvalError β} (h : ResultsAlike g r r')
      (m : Machine) : Alike ρ g (.finished r m) (.finished r' (m.rename ρ))
  | panics (why : Panic) : Alike ρ g (.panics why) (.panics why)
  | unfinished : Alike ρ g .unfinished .unfinished

theorem Alike.eq_panics_iff {g : α → β} {o : Outcome α} {o' : Outcome β} {why : Panic}
    (h : o.Alike ρ g o') : o = .panics why ↔ o' = .panics why := by
  cases h with
  | finished _ _ => exact ⟨nofun, nofun⟩
  | panics why' => simp
  | unfinished => exact ⟨nofun, nofun⟩

end Outcome

/-- Alike answers bring alike steps to alike ends. -/
theorem Progress.Alike.resolve {g : α → β} {p : Progress α} {p' : Progress β}
    {answer answer' : Request → Machine → Outcome Value} (h : p.Alike ρ g p')
    (hans : ∀ q m, (answer q m).Alike ρ (.rename ρ) (answer' (q.rename ρ) (m.rename ρ))) :
    (p.resolve answer).Alike ρ g (p'.resolve answer') := by
  induction h with
  | finished h m => exact .finished h m
  | asks q m _ ih =>
      simp only [Progress.resolve]
      have hq := hans q m
      generalize answer q m = o at hq ⊢
      generalize answer' (q.rename ρ) (m.rename ρ) = o' at hq ⊢
      cases hq with
      | finished h n => exact ih _ _ n h
      | panics why => exact .panics why
      | unfinished => exact .unfinished
  | panics why => exact .panics why

namespace Eval

/-- The steps go alike from every machine and its renaming. -/
def Alike (ρ : ArenaId → ArenaId) (g : α → β) (x : Eval α) (x' : Eval β) : Prop :=
  ∀ m, (x m).Alike ρ g (x' (m.rename ρ))

namespace Alike

variable {g : α → β} {x : Eval α} {x' : Eval β}

/-! ### Rules of composition -/

theorem pure (a : α) : Alike ρ g (pure a) (pure (g a)) := fun m => .finished (.ok a) m

theorem bind {g' : α' → β'} {f : α → Eval α'} {f' : β → Eval β'} (h : Alike ρ g x x')
    (hf : ∀ a, Alike ρ g' (f a) (f' (g a))) : Alike ρ g' (x >>= f) (x' >>= f') :=
  fun m => (h m).bind fun a n => hf a n

theorem map {g' : α' → β'} {f : α → α'} {f' : β → β'} (h : Alike ρ g x x')
    (hf : ∀ a, f' (g a) = g' (f a)) : Alike ρ g' (f <$> x) (f' <$> x') := by
  refine bind h fun a => ?_
  show Alike ρ g' (Pure.pure (f a)) (Pure.pure (f' (g a)))
  rw [hf]
  exact pure (f a)

theorem ofExcept {r : Except EvalError α} {r' : Except EvalError β} (h : ResultsAlike g r r') :
    Alike ρ g (ofExcept r) (ofExcept r') := fun m => .finished h m

theorem fail (cause : Cause) : Alike ρ g (fail (.of cause)) (fail (.of cause)) :=
  ofExcept (.of cause)

theorem found (a : Option α) : Alike ρ g (found a) (found (a.map g)) := by
  intro m
  cases a with
  | none => exact .panics .dangling
  | some a => exact .finished (.ok a) m

/-- Goes on with results of which more may be known. -/
theorem ofExcept_bind {g' : α' → β'} {r : Except EvalError α} {r' : Except EvalError β}
    {f : α → Eval α'} {f' : β → Eval β'} (h : ResultsAlike g r r')
    (hf : ∀ a, r = .ok a → Alike ρ g' (f a) (f' (g a))) :
    Alike ρ g' (Eval.ofExcept r >>= f) (Eval.ofExcept r' >>= f') := by
  cases h with
  | ok a => exact hf a rfl
  | error h => exact ofExcept (.error h)

/-- What a handle leads to may depend on nothing that is renamed. -/
theorem found_bind {g' : α' → β'} {o : Option α} {f : α → Eval α'} {f' : α → Eval β'}
    (hf : ∀ a, o = some a → Alike ρ g' (f a) (f' a)) :
    Alike ρ g' (Eval.found o >>= f) (Eval.found o >>= f') := by
  cases o with
  | none => exact fun _ => .panics .dangling
  | some a => exact hf a rfl

theorem ask (q : Request) : Alike ρ (.rename ρ) (ask q) (ask (q.rename ρ)) :=
  fun m => .asks q m fun _ _ n h => .finished h n

theorem ofBody {b : Body α} {b' : Body β} (h : b.Alike ρ g b') (scope : ScopeId) :
    Alike ρ g (ofBody scope b) (ofBody scope b') := by
  induction h with
  | done h => exact ofExcept h
  | call f left right _ ih =>
      exact fun m => .asks (.call f left right scope) m fun r r' n h => ih r r' h n
  | panics => exact fun _ => .panics .body

theorem modify {f f' : Machine → Machine} (h : ∀ m, f' (m.rename ρ) = (f m).rename ρ) :
    Alike ρ id (modify f) (modify f') := by
  intro m
  show Progress.Alike ρ id _ (.finished (.ok ()) (f' (m.rename ρ)))
  rw [h]
  exact .finished (.ok ()) (f m)

/-- **Twins may be placed anywhere.** -/
theorem locating (h : Alike ρ g x x') (s s' : Span) :
    Alike ρ g (locating s x) (locating s' x') :=
  fun m => (h m).mapEnd (fun _ _ h => h.locate s s') fun _ => rfl

end Alike

/-! ### Runs -/

/-- The evaluators of both contexts go alike. -/
def StepsAlike (ρ : ArenaId → ArenaId) (c c' : Context) : Prop :=
  ∀ q, Alike ρ (.rename ρ) (step c q) (step c' (q.rename ρ))

variable {c c' : Context}

/-- **Runs of evaluators that go alike end alike**, at every depth. -/
theorem run_alike (h : StepsAlike ρ c c') (depth : Nat) (q : Request) (m : Machine) :
    (run c depth q m).Alike ρ (.rename ρ) (run c' depth (q.rename ρ) (m.rename ρ)) := by
  -- the answers to the questions of a step are runs of one depth less
  induction depth generalizing q m with
  | zero => exact .unfinished
  | succ depth ih => exact (h q m).resolve ih

variable {q : Request} {m m' n : Machine} {r r' : Except EvalError Value}

/-- If the first evaluation ends, the second one ends alike. -/
theorem Ends.alike (h : StepsAlike ρ c c') (hend : Ends c (step c q) m r m') :
    ∃ r', Ends c' (step c' (q.rename ρ)) (m.rename ρ) r' (m'.rename ρ) ∧
      ResultsAlike (.rename ρ) r r' := by
  obtain ⟨depth, hdepth⟩ := ends_step_iff.mp hend
  have hrun := run_alike h depth q m
  rw [hdepth] at hrun
  generalize hdepth' : run c' depth (q.rename ρ) (m.rename ρ) = o' at hrun
  cases hrun with
  | @finished _ r' hresults => exact ⟨r', ends_step_iff.mpr ⟨depth, hdepth'⟩, hresults⟩

/-- If the second evaluation ends, the first one ended alike. -/
theorem Ends.of_alike (h : StepsAlike ρ c c')
    (hend : Ends c' (step c' (q.rename ρ)) (m.rename ρ) r' n) :
    ∃ r m', Ends c (step c q) m r m' ∧ n = m'.rename ρ ∧ ResultsAlike (.rename ρ) r r' := by
  obtain ⟨depth, hdepth⟩ := ends_step_iff.mp hend
  have hrun := run_alike h depth q m
  rw [hdepth] at hrun
  generalize hdepth' : run c depth q m = o at hrun
  cases hrun with
  | @finished r _ hresults m' =>
      exact ⟨r, m', ends_step_iff.mpr ⟨depth, hdepth'⟩, rfl, hresults⟩

/-- What waits for an answer goes on alike. -/
def PendingAlike (ρ : ArenaId → ArenaId) (resume resume' : Pending) : Prop :=
  ∀ r r' n, ResultsAlike (.rename ρ) r r' →
    (resume r n).Alike ρ (.rename ρ) (resume' r' (n.rename ρ))

/-- The loop takes its turns alike. -/
theorem exec_alike (h : StepsAlike ρ c c') (count : Nat) {p p' : Progress Value}
    {waiting waiting' : List Pending} (hp : p.Alike ρ (.rename ρ) p')
    (hwaiting : List.Forall₂ (PendingAlike ρ) waiting waiting') :
    (exec c count p waiting).Alike ρ (.rename ρ) (exec c' count p' waiting') := by
  induction count generalizing p p' waiting waiting' with
  | zero => exact .unfinished
  | succ count ih =>
      cases hp with
      | panics why => exact .panics why
      | asks q m hresume => exact ih (h q m) (.cons hresume hwaiting)
      | finished hr m =>
          cases hwaiting with
          | nil => exact .finished hr m
          | cons hresume hwaiting => exact ih (hresume _ _ m hr) hwaiting

end Eval

end ArrayLang

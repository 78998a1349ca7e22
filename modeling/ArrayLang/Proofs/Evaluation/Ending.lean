import ArrayLang.Eval.Run

/-!
# How evaluations end

`Eval.Ends c x m r m'` says that the step `x`, begun on the machine `m`, ends with the result `r` on
the machine `m'` when the evaluator answers its questions, however deep they nest. The bound of
`Eval.run` is gone from it, so a composed step ends as its parts do one after the other:

* `Eval.ends_bind_iff` takes a composed step apart, `Eval.ends_ask_iff` a question;
* `Eval.Ends.unique` — there is at most one ending;
* `Eval.ends_of_answer` — the loop that runs programs ends so too.
-/

namespace ArrayLang

/-- A place says nothing about the cause. -/
@[simp] theorem EvalError.cause_locate (e : EvalError) (span : Span) :
    (e.locate span).cause = e.cause := by
  unfold locate
  split <;> rfl

/-! ## Laws of composition -/

namespace Progress

variable {α β γ : Type}

theorem bind_finished (p : Progress α) : p.bind (fun a m => .finished (.ok a) m) = p := by
  induction p with
  | finished r m => cases r <;> rfl
  | asks q m resume ih =>
      show Progress.asks q m _ = Progress.asks q m resume
      congr 1
      funext r m
      exact ih r m
  | panics why => rfl

/-- Steps are composed as programs are. -/
theorem bind_assoc (p : Progress α) (f : α → Machine → Progress β) (g : β → Machine → Progress γ) :
    (p.bind f).bind g = p.bind fun a m => (f a m).bind g := by
  induction p with
  | finished r m => cases r <;> rfl
  | asks q m resume ih =>
      show Progress.asks q m _ = Progress.asks q m _
      congr 1
      funext r m
      exact ih r m
  | panics why => rfl

end Progress

namespace Eval

variable {α β : Type}

theorem bind_apply (x : Eval α) (f : α → Eval β) (m : Machine) :
    (x >>= f) m = (x m).bind fun a m => f a m := rfl

/-- A body in two parts is run part by part. -/
theorem ofBody_bind (scope : ScopeId) (b : Body α) (f : α → Body β) :
    ofBody scope (b >>= f) = ofBody scope b >>= fun a => ofBody scope (f a) := by
  induction b with
  | done r => cases r <;> rfl
  | call g left right resume ih =>
      funext m
      show Progress.asks _ m _ = Progress.asks _ m _
      congr 1
      funext r m
      exact congrFun (ih r) m
  | panics => rfl

instance : LawfulMonad Eval := LawfulMonad.mk' Eval
  (fun x => funext fun m => (x m).bind_finished)
  (fun _ _ => rfl)
  (fun x _ _ => funext fun m => (x m).bind_assoc _ _)

/-! ## Endings -/

variable {c : Context} {x : Eval α} {m m' m'' : Machine} {r r' : Except EvalError α}

/-- The step ends with this result on this machine when the evaluator answers its questions. -/
def Ends (c : Context) (x : Eval α) (m : Machine) (r : Except EvalError α) (m' : Machine) : Prop :=
  ∃ depth, (x m).resolve (run c depth) = .finished r m'

/-- An ending stays the same when questions may nest deeper. -/
theorem resolve_run_of_le {depth depth' : Nat} (hle : depth ≤ depth') {p : Progress α}
    (h : p.resolve (run c depth) = .finished r m') :
    p.resolve (run c depth') = .finished r m' := by
  rw [← h]
  exact Progress.resolve_eq_of_extends (fun _ _ => run_eq_of_le hle) p (by rw [h]; simp)

/-- **Endings are unique.** -/
theorem Ends.unique (h : Ends c x m r m') (h' : Ends c x m r' m'') : r' = r ∧ m'' = m' := by
  obtain ⟨d, hd⟩ := h
  obtain ⟨d', hd'⟩ := h'
  -- at the larger of the two depths both endings are those of one run
  have h₁ := resolve_run_of_le (Nat.le_max_left d d') hd
  have h₂ := resolve_run_of_le (Nat.le_max_right d d') hd'
  rw [h₁] at h₂
  cases h₂
  exact ⟨rfl, rfl⟩

/-- What is there already ends at once, on the machine that it began with. -/
@[simp] theorem ends_pure_iff {a : α} : Ends c (pure a) m r m' ↔ r = .ok a ∧ m' = m := by
  constructor
  · rintro ⟨d, hd⟩
    cases hd
    exact ⟨rfl, rfl⟩
  · rintro ⟨rfl, rfl⟩
    exact ⟨0, rfl⟩

@[simp] theorem ends_ofExcept_iff {s : Except EvalError α} :
    Ends c (ofExcept s) m r m' ↔ r = s ∧ m' = m := by
  constructor
  · rintro ⟨d, hd⟩
    cases hd
    exact ⟨rfl, rfl⟩
  · rintro ⟨rfl, rfl⟩
    exact ⟨0, rfl⟩

@[simp] theorem ends_found_iff {a : Option α} :
    Ends c (found a) m r m' ↔ ∃ b, a = some b ∧ r = .ok b ∧ m' = m := by
  constructor
  · rintro ⟨d, hd⟩
    cases a with
    | none => cases hd
    | some b =>
        cases hd
        exact ⟨b, rfl, rfl, rfl⟩
  · rintro ⟨b, rfl, rfl, rfl⟩
    exact ⟨0, rfl⟩

/-- **A composed step ends as its parts do one after the other**, or with the error of the
first one. -/
theorem ends_bind_iff {f : α → Eval β} {r : Except EvalError β} :
    Ends c (x >>= f) m r m' ↔
      (∃ a s, Ends c x m (.ok a) s ∧ Ends c (f a) s r m') ∨
      ∃ e, Ends c x m (.error e) m' ∧ r = .error e := by
  constructor
  · rintro ⟨d, hd⟩
    rw [bind_apply, Progress.resolve_bind] at hd
    cases hx : (x m).resolve (run c d) with
    | finished rx s =>
        rw [hx] at hd
        cases rx with
        | ok a => exact .inl ⟨a, s, ⟨d, hx⟩, ⟨d, hd⟩⟩
        | error e =>
            cases hd
            exact .inr ⟨e, ⟨d, hx⟩, rfl⟩
    | panics why => rw [hx] at hd; cases hd
    | unfinished => rw [hx] at hd; cases hd
  · rintro (⟨a, s, ⟨d, hx⟩, ⟨d', hf⟩⟩ | ⟨e, ⟨d, hx⟩, rfl⟩)
    -- a depth that is enough for both parts
    · refine ⟨max d d', ?_⟩
      rw [bind_apply, Progress.resolve_bind, resolve_run_of_le (Nat.le_max_left d d') hx]
      exact resolve_run_of_le (Nat.le_max_right d d') hf
    · refine ⟨d, ?_⟩
      rw [bind_apply, Progress.resolve_bind, hx]
      rfl

/-- Two steps end with a value exactly if both do. -/
theorem ends_bind_ok_iff {f : α → Eval β} {b : β} :
    Ends c (x >>= f) m (.ok b) m' ↔ ∃ a s, Ends c x m (.ok a) s ∧ Ends c (f a) s (.ok b) m' := by
  rw [ends_bind_iff]
  constructor
  · rintro (h | ⟨e, -, he⟩)
    · exact h
    · cases he
  · exact .inl

theorem ends_map_iff {f : α → β} {r : Except EvalError β} :
    Ends c (f <$> x) m r m' ↔ ∃ r₀, Ends c x m r₀ m' ∧ r = r₀.map f := by
  rw [← bind_pure_comp, ends_bind_iff]
  simp only [ends_pure_iff]
  constructor
  · rintro (⟨a, s, hx, rfl, rfl⟩ | ⟨e, hx, rfl⟩)
    · exact ⟨_, hx, rfl⟩
    · exact ⟨_, hx, rfl⟩
  · rintro ⟨r₀, hx, rfl⟩
    cases r₀ with
    | ok a => exact .inl ⟨a, m', hx, rfl, rfl⟩
    | error e => exact .inr ⟨e, hx, rfl⟩

/-- A question ends as the step that answers it does. -/
theorem ends_ask_iff {q : Request} {r : Except EvalError Value} :
    Ends c (ask q) m r m' ↔ Ends c (step c q) m r m' := by
  -- the question itself costs one level of nesting
  have hask : ∀ d, (ask q m).resolve (run c (d + 1)) = (step c q m).resolve (run c d) := by
    intro d
    simp only [ask, Progress.resolve, run]
    cases (step c q m).resolve (run c d) <;> rfl
  constructor
  · rintro ⟨d, hd⟩
    cases d with
    | zero => cases hd
    | succ d => exact ⟨d, (hask d).symm.trans hd⟩
  · rintro ⟨d, hd⟩
    exact ⟨d + 1, (hask d).trans hd⟩

/-- Locating an error changes nothing else. -/
theorem ends_locating_iff {span : Span} :
    Ends c (locating span x) m r m' ↔
      ∃ r₀, Ends c x m r₀ m' ∧ r = r₀.mapError fun e => e.locate span := by
  have hmap : ∀ d, (locating span x m).resolve (run c d) =
      ((x m).resolve (run c d)).mapEnd (fun e => e.locate span) id :=
    fun d => Progress.resolve_mapEnd (x m) _ _
  constructor
  · rintro ⟨d, hd⟩
    rw [hmap] at hd
    cases hx : (x m).resolve (run c d) with
    | finished r₀ s =>
        rw [hx] at hd
        cases r₀ <;> cases hd <;> exact ⟨_, ⟨d, hx⟩, rfl⟩
    | panics why => rw [hx] at hd; cases hd
    | unfinished => rw [hx] at hd; cases hd
  · rintro ⟨r₀, ⟨d, hx⟩, rfl⟩
    refine ⟨d, ?_⟩
    rw [hmap, hx]
    cases r₀ <;> rfl

/-! ## Steps that look at the machine -/

end Eval

/-- An expression of one of the arenas. -/
def Context.expr? (c : Context) (a : ArenaId) (e : ExprId) : Option Expr :=
  (c.arena? a).bind fun arena => arena.expr? e

/-- Reading an expression by its arena. -/
theorem Context.expr?_of_arena {c : Context} {id : ArenaId} {a : Arena} (h : c.arena? id = some a)
    (e : ExprId) : c.expr? id e = a.expr? e := by
  rw [expr?, h]
  rfl

namespace Eval

variable {c : Context} {x y : Eval α} {m m' : Machine} {r : Except EvalError α}

/-- Whatever begins alike on a machine ends alike there. -/
theorem ends_congr (h : x m = y m) : Ends c x m r m' ↔ Ends c y m r m' := by
  unfold Ends
  rw [h]

theorem ends_of_eq (h : x m = .finished r m') : Ends c x m r m' := by
  refine ⟨0, ?_⟩
  rw [h]
  rfl

/-- A part that is done at once hands its value on. -/
theorem bind_of_finished {x : Eval α} {f : α → Eval β} {a : α} (h : x m = .finished (.ok a) m') :
    (x >>= f) m = f a m' := by
  rw [bind_apply, h]
  rfl

/-- So does a look at something that is there. -/
theorem ends_bind_iff_of_found {f : α → Eval β} {a : Option α} {r : Except EvalError β}
    (h : x m = found a m) :
    Ends c (x >>= f) m r m' ↔ ∃ b, a = some b ∧ Ends c (f b) m r m' := by
  have hx : ∀ r s, Ends c x m r s ↔ ∃ b, a = some b ∧ r = .ok b ∧ s = m := fun _ _ =>
    (ends_congr h).trans ends_found_iff
  simp only [ends_bind_iff, hx]
  constructor
  · rintro (⟨_, _, ⟨b, hb, ⟨⟩, rfl⟩, hf⟩ | ⟨_, ⟨_, _, ⟨⟩, _⟩, _⟩)
    exact ⟨_, hb, hf⟩
  · rintro ⟨b, hb, hf⟩
    exact .inl ⟨b, m, ⟨b, hb, rfl, rfl⟩, hf⟩

theorem bind_of_panics {x : Eval α} {f : α → Eval β} (h : x m = .panics why) :
    (x >>= f) m = .panics why := by
  rw [bind_apply, h]
  rfl

/-- A panic is no end. -/
theorem not_ends_of_eq_panics (h : x m = .panics why) : ¬ Ends c x m r m' := by
  rintro ⟨d, hd⟩
  rw [h] at hd
  cases hd

theorem variableValue_of_some {x : Name} {scope : ScopeId} {v : Value}
    (h : m.scopes.lookup? scope x = some v) :
    variableValue c x scope m = .finished (.ok v) m := by
  simp only [variableValue, h]

/-- A name that no scope on the way outward declares is an error, and nothing else happens. -/
theorem variableValue_of_none {x : Name} {scope : ScopeId}
    (h : m.scopes.lookup? scope x = none) :
    variableValue c x scope m =
      .finished (.error (.of (.undefinedVariable (c.names.lookup x)))) m := by
  simp only [variableValue, h]

theorem store_of_some {x : Name} {scope : ScopeId} {v : Value} {scopes : Scopes}
    (h : m.scopes.assign? scope x v = some scopes) :
    store c x v scope m = .finished (.ok ()) { m with scopes := scopes } := by
  simp only [store, h]

theorem store_of_none {x : Name} {scope : ScopeId} {v : Value}
    (h : m.scopes.assign? scope x v = none) :
    store c x v scope m =
      .finished (.error (.of (.undefinedVariable (c.names.lookup x)))) m := by
  simp only [store, h]

/-- Reading an expression looks at the current arena alone. -/
theorem expr_apply (e : ExprId) (m : Machine) :
    expr c e m = found (c.expr? m.arena e) m := by
  show Progress.bind (found (c.arena? m.arena) m) (fun arena m => found (arena.expr? e) m) = _
  unfold Context.expr?
  cases c.arena? m.arena <;> rfl

theorem ends_expr_iff {e : ExprId} {r : Except EvalError Expr} :
    Ends c (expr c e) m r m' ↔ ∃ x, c.expr? m.arena e = some x ∧ r = .ok x ∧ m' = m := by
  rw [← ends_found_iff]
  exact ends_congr (expr_apply e m)

/-- An expression ends as its node does, apart from the place of an error. -/
theorem ends_evaluate_iff {e : ExprId} {scope : ScopeId} {x : Expr}
    {r : Except EvalError Value} (hx : c.expr? m.arena e = some x) :
    Ends c (step c (.evaluate e scope)) m r m' ↔
      ∃ r₀, Ends c (node c scope x.node) m r₀ m' ∧ r = r₀.mapError fun e => e.locate x.span := by
  rw [← ends_locating_iff, step, ends_bind_iff]
  simp only [ends_expr_iff, hx]
  constructor
  · rintro (⟨_, _, ⟨_, ⟨⟩, ⟨⟩, rfl⟩, h⟩ | ⟨_, ⟨_, _, ⟨⟩, _⟩, _⟩)
    exact h
  · intro h
    exact .inl ⟨x, m, ⟨x, rfl, rfl, rfl⟩, h⟩

/-- An expression has the values of its node: the place counts for errors alone. -/
theorem ends_evaluate_ok_iff {e : ExprId} {scope : ScopeId} {x : Expr} {v : Value}
    (hx : c.expr? m.arena e = some x) :
    Ends c (step c (.evaluate e scope)) m (.ok v) m' ↔
      Ends c (node c scope x.node) m (.ok v) m' := by
  rw [ends_evaluate_iff hx]
  constructor
  · rintro ⟨r₀, h, hr⟩
    cases r₀ with
    | ok w =>
        cases hr
        exact h
    | error err => cases hr
  · exact fun h => ⟨_, h, rfl⟩

theorem ends_variableValue_ok_iff {x : Name} {scope : ScopeId} {v : Value} :
    Ends c (variableValue c x scope) m (.ok v) m' ↔
      m.scopes.lookup? scope x = some v ∧ m' = m := by
  cases hv : m.scopes.lookup? scope x with
  | some w =>
      rw [ends_congr (y := ofExcept (.ok w)) (by simp only [variableValue, hv]; rfl)]
      simp [eq_comm]
  | none =>
      rw [ends_congr (y := fail (.of (.undefinedVariable (c.names.lookup x))))
        (by simp only [variableValue, hv]; rfl)]
      simp [fail]

/-- A store into a name that has a value somewhere is an assignment in the holder of the name. -/
theorem ends_store_iff {x : Name} {scope holder : ScopeId} {v : Value} {r : Except EvalError Unit}
    (hx : m.scopes.holder? scope x = some holder) :
    Ends c (store c x v scope) m r m' ↔
      r = .ok () ∧ m' = { m with scopes := m.scopes.define holder x v } := by
  have hassign : m.scopes.assign? scope x v = some (m.scopes.define holder x v) := by
    unfold Scopes.assign?
    rw [hx]
    rfl
  constructor
  · rintro ⟨d, hd⟩
    simp only [store, hassign] at hd
    cases hd
    exact ⟨rfl, rfl⟩
  · rintro ⟨rfl, rfl⟩
    exact ⟨0, by simp only [store, hassign]; rfl⟩

/-- A primitive whose body calls nothing is done at once. -/
theorem step_call_of_done {symbol : Name} {left : Option Value} {right : Value} {scope : ScopeId}
    {d : Dispatch} {r : Except EvalError Value}
    (hd : c.registry.resolve c.tower symbol left right = .ok d)
    (hbody : d.body c.tower d.left d.right = .done r) :
    step c (.call (.primitive symbol) left right scope) m = .finished r m := by
  show (ofExcept (c.registry.resolve c.tower symbol left right) >>= _) m = _
  rw [hd]
  show ofBody scope (d.body c.tower d.left d.right) m = _
  rw [hbody]
  rfl

/-! ## The two ways of running a program -/

/-- The evaluator ends as some run ends that is deep enough. -/
theorem ends_step_iff {q : Request} {r : Except EvalError Value} :
    Ends c (step c q) m r m' ↔ ∃ depth, run c depth q m = .finished r m' := by
  constructor
  · rintro ⟨d, hd⟩
    exact ⟨d + 1, hd⟩
  · rintro ⟨d, hd⟩
    cases d with
    | zero => cases hd
    | succ d => exact ⟨d, hd⟩

/-- **What the loop answers is how the step ends.** -/
theorem ends_of_answer {q : Request} {r : Except EvalError Value}
    (h : answer c q m = .finished r m') : Ends c (step c q) m r m' :=
  ends_step_iff.mpr ((exec_eq_iff_run_eq (by simp)).mp ⟨turns, h⟩)

end Eval

end ArrayLang

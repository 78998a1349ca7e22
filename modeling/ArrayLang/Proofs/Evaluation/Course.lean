import ArrayLang.Proofs.Evaluation.Questions

/-!
# The course of an evaluation

`Eval.Course c x m qs r m'` says more than that the step `x` ends with `r` on `m'`: its questions
are `qs`, all of them, in this order and on these machines. A composed step has the course of its
parts one after the other (`Eval.course_bind_iff`), and every ending has a course
(`Eval.ends_iff_exists_course`).
-/

namespace ArrayLang

namespace Progress

variable {α β : Type} {answers : Request → Machine → Except EvalError Value → Machine → Prop}
  {p : Progress α} {next : α → Machine → Progress β} {qs : List (Request × Machine)}
  {m m' : Machine}

/-- The step puts these questions, one after the other, and ends so when they are answered as
`answers` says. -/
inductive Course (answers : Request → Machine → Except EvalError Value → Machine → Prop) :
    Progress α → List (Request × Machine) → Except EvalError α → Machine → Prop
  | finished {r : Except EvalError α} {m : Machine} : Course answers (.finished r m) [] r m
  | asks {q : Request} {m n m' : Machine} {s : Except EvalError Value} {r : Except EvalError α}
      {resume : Except EvalError Value → Machine → Progress α} {qs : List (Request × Machine)}
      (hq : answers q m s n) (h : Course answers (resume s n) qs r m') :
      Course answers (.asks q m resume) ((q, m) :: qs) r m'

theorem course_finished_iff {r r' : Except EvalError α} :
    (finished r m).Course answers qs r' m' ↔ qs = [] ∧ r' = r ∧ m' = m := by
  constructor
  · rintro ⟨⟩
    exact ⟨rfl, rfl, rfl⟩
  · rintro ⟨rfl, rfl, rfl⟩
    exact .finished

theorem course_asks_iff {q : Request} {resume : Except EvalError Value → Machine → Progress α}
    {r : Except EvalError α} :
    (asks q m resume).Course answers qs r m' ↔
      ∃ s n qs', answers q m s n ∧ (resume s n).Course answers qs' r m' ∧ qs = (q, m) :: qs' := by
  constructor
  · rintro (_ | ⟨hq, h⟩)
    exact ⟨_, _, _, hq, h, rfl⟩
  · rintro ⟨s, n, qs', hq, h, rfl⟩
    exact .asks hq h

theorem not_course_panics {r : Except EvalError α} :
    ¬ (panics why : Progress α).Course answers qs r m' := nofun

/-- Two steps put the questions of the first and then those of the second, unless the first one
fails. -/
theorem course_bind_iff {r : Except EvalError β} :
    (p.bind next).Course answers qs r m' ↔
      (∃ a s qs₁ qs₂, qs = qs₁ ++ qs₂ ∧ p.Course answers qs₁ (.ok a) s ∧
        (next a s).Course answers qs₂ r m') ∨
      ∃ e, p.Course answers qs (.error e) m' ∧ r = .error e := by
  induction p generalizing qs with
  | finished r₀ m =>
      simp only [course_finished_iff]
      cases r₀ with
      | ok a =>
          constructor
          · exact fun h => .inl ⟨a, m, [], qs, rfl, ⟨rfl, rfl, rfl⟩, h⟩
          · rintro (⟨_, _, _, _, rfl, ⟨rfl, ⟨⟩, rfl⟩, h⟩ | ⟨_, ⟨-, ⟨⟩, -⟩, -⟩)
            exact h
      | error e =>
          rw [bind, course_finished_iff]
          constructor
          · rintro ⟨rfl, rfl, rfl⟩
            exact .inr ⟨e, ⟨rfl, rfl, rfl⟩, rfl⟩
          · rintro (⟨_, _, _, _, -, ⟨-, ⟨⟩, -⟩, -⟩ | ⟨_, ⟨rfl, ⟨⟩, rfl⟩, rfl⟩)
            exact ⟨rfl, rfl, rfl⟩
  -- the first question belongs to the first part, and the rest is split by induction
  | asks q m resume ih =>
      rw [bind, course_asks_iff]
      simp only [ih, course_asks_iff]
      constructor
      · rintro ⟨s, n, _, hq, ⟨a, t, qs₁, qs₂, rfl, hp, h⟩ | ⟨e, hp, rfl⟩, rfl⟩
        · exact .inl ⟨a, t, _, qs₂, rfl, ⟨s, n, qs₁, hq, hp, rfl⟩, h⟩
        · exact .inr ⟨e, ⟨s, n, _, hq, hp, rfl⟩, rfl⟩
      · rintro (⟨a, t, _, qs₂, rfl, ⟨s, n, qs₁, hq, hp, rfl⟩, h⟩ | ⟨e, ⟨s, n, _, hq, hp, rfl⟩, rfl⟩)
        · exact ⟨s, n, _, hq, .inl ⟨a, t, qs₁, qs₂, rfl, hp, h⟩, rfl⟩
        · exact ⟨s, n, _, hq, .inr ⟨e, hp, rfl⟩, rfl⟩
  | panics why =>
      constructor
      · exact fun h => absurd h not_course_panics
      · rintro (⟨_, _, _, _, -, h, -⟩ | ⟨_, h, -⟩)
        · exact absurd h not_course_panics
        · exact absurd h not_course_panics

/-- Locating an error changes nothing else. -/
theorem course_mapEnd_iff {onError : EvalError → EvalError} {r : Except EvalError α} :
    (p.mapEnd onError id).Course answers qs r m' ↔
      ∃ r₀, p.Course answers qs r₀ m' ∧ r = r₀.mapError onError := by
  induction p generalizing qs with
  | finished r₀ m =>
      have hmap : (finished r₀ m).mapEnd onError id = finished (r₀.mapError onError) m := by
        cases r₀ <;> rfl
      rw [hmap]
      simp only [course_finished_iff]
      constructor
      · rintro ⟨rfl, rfl, rfl⟩
        exact ⟨r₀, ⟨rfl, rfl, rfl⟩, rfl⟩
      · rintro ⟨_, ⟨rfl, rfl, rfl⟩, rfl⟩
        exact ⟨rfl, rfl, rfl⟩
  | asks q m resume ih =>
      rw [mapEnd, course_asks_iff]
      simp only [ih, course_asks_iff]
      constructor
      · rintro ⟨s, n, qs', hq, ⟨r₀, h, rfl⟩, rfl⟩
        exact ⟨r₀, ⟨s, n, qs', hq, h, rfl⟩, rfl⟩
      · rintro ⟨r₀, ⟨s, n, qs', hq, h, rfl⟩, rfl⟩
        exact ⟨s, n, qs', hq, ⟨r₀, h, rfl⟩, rfl⟩
  | panics why =>
      constructor
      · exact fun h => absurd h not_course_panics
      · rintro ⟨_, h, -⟩
        exact absurd h not_course_panics

end Progress

namespace Eval

variable {α β : Type} {c : Context} {x y : Eval α} {m m' s : Machine}
  {qs : List (Request × Machine)} {r : Except EvalError α}

/-- The step puts these questions, one after the other and each on this machine, and ends so when
the evaluator answers them. -/
def Course (c : Context) (x : Eval α) (m : Machine) (qs : List (Request × Machine))
    (r : Except EvalError α) (m' : Machine) : Prop :=
  (x m).Course (fun q m r m' => Ends c (step c q) m r m') qs r m'

theorem course_congr (h : x m = y m) : Course c x m qs r m' ↔ Course c y m qs r m' := by
  unfold Course
  rw [h]

/-- **Every ending has a course.** -/
theorem ends_iff_exists_course : Ends c x m r m' ↔ ∃ qs, Course c x m qs r m' := by
  unfold Ends Course
  generalize x m = p
  induction p with
  | finished r₀ n =>
      simp only [Progress.course_finished_iff]
      constructor
      · rintro ⟨d, ⟨⟩⟩
        exact ⟨[], rfl, rfl, rfl⟩
      · rintro ⟨_, rfl, rfl, rfl⟩
        exact ⟨0, rfl⟩
  | asks q n resume ih =>
      refine (ends_asks_iff (m := n)).trans ?_
      simp only [Progress.course_asks_iff]
      constructor
      · rintro ⟨s, t, hq, h⟩
        obtain ⟨qs, h⟩ := (ih s t).mp h
        exact ⟨_, s, t, qs, hq, h, rfl⟩
      · rintro ⟨_, s, t, qs, hq, h, rfl⟩
        exact ⟨s, t, hq, (ih s t).mpr ⟨qs, h⟩⟩
  | panics why =>
      constructor
      · rintro ⟨d, ⟨⟩⟩
      · rintro ⟨_, h⟩
        exact absurd h Progress.not_course_panics

/-- A step whose course is known ends so. -/
theorem Course.ends (h : Course c x m qs r m') : Ends c x m r m' :=
  ends_iff_exists_course.mpr ⟨qs, h⟩

@[simp] theorem course_ofExcept_iff {r₀ : Except EvalError α} :
    Course c (ofExcept r₀) m qs r m' ↔ qs = [] ∧ r = r₀ ∧ m' = m :=
  Progress.course_finished_iff

@[simp] theorem course_pure_iff {a : α} :
    Course c (pure a) m qs r m' ↔ qs = [] ∧ r = .ok a ∧ m' = m :=
  Progress.course_finished_iff

/-- A question is the only one that it puts. -/
theorem course_ask_iff {q : Request} {r : Except EvalError Value} :
    Course c (ask q) m qs r m' ↔ Ends c (step c q) m r m' ∧ qs = [(q, m)] := by
  refine Progress.course_asks_iff.trans ?_
  simp only [Progress.course_finished_iff]
  constructor
  · rintro ⟨_, _, _, hq, ⟨rfl, rfl, rfl⟩, rfl⟩
    exact ⟨hq, rfl⟩
  · rintro ⟨hq, rfl⟩
    exact ⟨r, m', [], hq, ⟨rfl, rfl, rfl⟩, rfl⟩

/-- **A composed step has the course of its parts one after the other**, or that of the first one if
this ends with an error. -/
theorem course_bind_iff {f : α → Eval β} {r : Except EvalError β} :
    Course c (x >>= f) m qs r m' ↔
      (∃ a s qs₁ qs₂, qs = qs₁ ++ qs₂ ∧ Course c x m qs₁ (.ok a) s ∧
        Course c (f a) s qs₂ r m') ∨
      ∃ e, Course c x m qs (.error e) m' ∧ r = .error e :=
  Progress.course_bind_iff

/-- A place is given to the error in the end, and the questions are the same. -/
theorem course_locating_iff {span : Span} :
    Course c (locating span x) m qs r m' ↔
      ∃ r₀, Course c x m qs r₀ m' ∧ r = r₀.mapError fun e => e.locate span :=
  Progress.course_mapEnd_iff

/-- An expression has the course of its node. -/
theorem course_evaluate_iff {e : ExprId} {scope : ScopeId} {x : Expr}
    {r : Except EvalError Value} (hx : c.expr? m.arena e = some x) :
    Course c (step c (.evaluate e scope)) m qs r m' ↔
      ∃ r₀, Course c (node c scope x.node) m qs r₀ m' ∧
        r = r₀.mapError fun e => e.locate x.span := by
  have hexpr : expr c e m = .finished (.ok x) m := by
    rw [expr_apply, hx]
    rfl
  rw [← course_locating_iff]
  exact course_congr (bind_of_finished hexpr)

end Eval

end ArrayLang

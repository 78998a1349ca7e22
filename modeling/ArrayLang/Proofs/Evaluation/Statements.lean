import ArrayLang.Proofs.Evaluation.Questions

/-!
# The statements of a closure

The statements of a closure are reached in order. One that is reached lets the next one run
(`Statement.Passes`), or the list ends with it (`Statement.Stops`). So a list ends because all of
its statements pass, or because the first ones pass and then one stops (`Statement.ends_iff`), and
what it asks are the questions of the statements that are reached (`Statement.puts_iff`).
-/

namespace ArrayLang

/-- Whether a statement is an assignment, if it is there. -/
def Arena.assigns? (a : Arena) (g : Guard) : Option Bool :=
  (a.expr? g.body).map fun x => x.node.isAssignment

/-- The statement could never let the `rest` run. -/
def Arena.Blocks (a : Arena) (g : Guard) (rest : List Guard) : Prop :=
  g.condition = none ∧ a.assigns? g = some false ∧ rest ≠ []

theorem Arena.blocks_congr {a : Arena} {g : Guard} {rest rest' : List Guard}
    (h : rest = [] ↔ rest' = []) : a.Blocks g rest ↔ a.Blocks g rest' :=
  and_congr_right fun _ => and_congr_right fun _ => not_congr h

namespace Eval

namespace Statement

section Relations

variable (c : Context) (arena : Arena) (scope : ScopeId) (body : BodyRange)

/-- The value counts as true or false: a boolean does, and a number that the tower takes for one.
Nothing else does, no text and no array. -/
inductive CountsAs : Value → Bool → Prop
  | bool (b : Bool) : CountsAs (.bool b) b
  | number {n : Number} {b : Bool} (h : c.tower.toBool? n = some b) : CountsAs (.number n) b

/-- The condition of a statement comes out as `b`. A statement without one is always to run. -/
inductive Decides : Option ExprId → Machine → Bool → Machine → Prop
  | always {m : Machine} : Decides none m true m
  | evaluated {e : ExprId} {m s : Machine} {v : Value} {b : Bool}
      (h : Ends c (step c (.evaluate e scope)) m (.ok v) s) (hb : CountsAs c v b) :
      Decides (some e) m b s

/-- The error that is raised at an expression of a statement, with its place and the number of the
statement. -/
def FailsAt (index : Nat) (cause : Cause) (e : ExprId) (err : EvalError) : Prop :=
  ∃ x closure, arena.expr? e = some x ∧ arena.printClosure c.names body = .ok closure ∧
    err = ((EvalError.of cause).locate x.span).addNote
      { message := "guard " ++ toString (index + 1) ++ " of " ++ closure }

/-- The condition fails, or what it gives is no truth value. -/
inductive ConditionFails (index : Nat) (condition : Option ExprId) (m : Machine) :
    EvalError → Machine → Prop
  | failed {e : ExprId} {s : Machine} {err : EvalError} (hc : condition = some e)
      (h : Ends c (step c (.evaluate e scope)) m (.error err) s) :
      ConditionFails index condition m err s
  | illTyped {e : ExprId} {s : Machine} {v : Value} {err : EvalError} (hc : condition = some e)
      (h : Ends c (step c (.evaluate e scope)) m (.ok v) s) (hv : ∀ b, ¬ CountsAs c v b)
      (herr : FailsAt c arena body index (.guardType v.kind) e err) :
      ConditionFails index condition m err s

/-- The statement lets the next one run. It has a value if it is an assignment that has run. -/
inductive Passes (g : Guard) (m : Machine) : Option Value → Machine → Prop
  | skipped {s : Machine} (ha : (arena.assigns? g).isSome)
      (hd : Decides c scope g.condition m false s) : Passes g m none s
  | assigned {s s' : Machine} {v : Value} (ha : arena.assigns? g = some true)
      (hd : Decides c scope g.condition m true s)
      (hv : Ends c (step c (.evaluate g.body scope)) s (.ok v) s') : Passes g m (some v) s'

/-- All of the statements do, one after the other, and these are the values of the assignments. -/
inductive AllPass : List Guard → Machine → List Value → Machine → Prop
  | nil {m : Machine} : AllPass [] m [] m
  | cons {g : Guard} {rest : List Guard} {m s m' : Machine} {o : Option Value} {vs : List Value}
      (hg : Passes c arena scope g m o s) (h : AllPass rest s vs m') :
      AllPass (g :: rest) m (o.toList ++ vs) m'

/-- The statement `g` is reached on the machine `s`: the ones before it have passed. -/
def Reached (guards : List Guard) (m : Machine) (before : List Guard) (g : Guard)
    (rest : List Guard) (s : Machine) : Prop :=
  guards = before ++ g :: rest ∧ ∃ vs, AllPass c arena scope before m vs s

/-- The list ends with this statement, whatever the `rest` may be. -/
inductive Stops (index : Nat) (g : Guard) (rest : List Guard) (m : Machine) :
    Except EvalError Value → Machine → Prop
  | condition {err : EvalError} {s : Machine} (ha : (arena.assigns? g).isSome)
      (h : ConditionFails c arena scope body index g.condition m err s) :
      Stops index g rest m (.error err) s
  /-- Anything but an assignment gives the result. -/
  | returned {s m' : Machine} {r : Except EvalError Value} (ha : arena.assigns? g = some false)
      (hg : ¬ arena.Blocks g rest) (hd : Decides c scope g.condition m true s)
      (hr : Ends c (step c (.evaluate g.body scope)) s r m') : Stops index g rest m r m'
  | assignment {s m' : Machine} {err : EvalError} (ha : arena.assigns? g = some true)
      (hd : Decides c scope g.condition m true s)
      (hr : Ends c (step c (.evaluate g.body scope)) s (.error err) m') :
      Stops index g rest m (.error err) m'
  /-- The statement is refused before anything of it is evaluated. -/
  | refused {text : String} {err : EvalError} (hg : arena.Blocks g rest)
      (ht : arena.print c.names g.body = .ok text)
      (herr : FailsAt c arena body index (.unreachableCode text) g.body err) :
      Stops index g rest m (.error err) m

/-- The questions of a statement: its condition, and its body once the condition has come out
true. -/
inductive Asks (g : Guard) (rest : List Guard) (m : Machine) : Request → Machine → Prop
  | condition {e : ExprId} (ha : (arena.assigns? g).isSome) (hc : g.condition = some e) :
      Asks g rest m (.evaluate e scope) m
  | body {s : Machine} (ha : (arena.assigns? g).isSome) (hg : ¬ arena.Blocks g rest)
      (hd : Decides c scope g.condition m true s) : Asks g rest m (.evaluate g.body scope) s

/-- Runs a statement that is to run, and the `rest` after an assignment. -/
def run (isAssignment : Bool) (index : Nat) (g : Guard) (rest : List Guard) : Eval Value :=
  evaluate g.body scope >>= fun v =>
    if isAssignment then statements c scope body (index + 1) v rest else pure v

end Relations

variable {α β : Type} {c : Context} {arena : Arena} {scope : ScopeId} {body : BodyRange}
  {index : Nat} {result : Value} {g g' : Guard} {guards rest rest' before : List Guard}
  {m m' s s' n : Machine} {b : Bool} {o : Option Value} {r : Except EvalError Value} {e : ExprId}
  {condition : Option ExprId} {err : EvalError} {cause : Cause} {q : Request}

/-! ## Conditions -/

theorem truth?_eq_some_iff {v : Value} : truth? c v = some b ↔ CountsAs c v b := by
  constructor
  · intro h
    unfold truth? at h
    split at h
    · cases h
      exact .bool b
    · exact .number h
    · cases h
  · intro h
    cases h with
    | bool => rfl
    | number h => exact h

/-- What has no truth value counts as neither. -/
theorem truth?_eq_none_iff {v : Value} : truth? c v = none ↔ ∀ b, ¬ CountsAs c v b := by
  rw [Option.eq_none_iff_forall_ne_some]
  exact forall_congr' fun b => not_congr truth?_eq_some_iff

/-! ## Reading the arena -/

/-- Whatever is evaluated, the arena is the same afterwards. -/
theorem arena_of_ends (h : Ends c (step c q) m r s) (harena : c.arena? m.arena = some arena) :
    c.arena? s.arena = some arena := by
  have hcontrol : SameControl m s := control_keptBy.ends trivial h
  rw [hcontrol.arena]
  exact harena

theorem Decides.keeps_arena (h : Decides c scope condition m b s)
    (harena : c.arena? m.arena = some arena) : c.arena? s.arena = some arena := by
  cases h with
  | always => exact harena
  | evaluated h _ => exact arena_of_ends h harena

theorem Passes.keeps_arena (h : Passes c arena scope g m o s)
    (harena : c.arena? m.arena = some arena) : c.arena? s.arena = some arena := by
  cases h with
  | skipped _ hd => exact hd.keeps_arena harena
  | assigned _ hd hv => exact arena_of_ends hv (hd.keeps_arena harena)

section Reading

variable (harena : c.arena? m.arena = some arena)
include harena

/-- On a machine whose arena is known, the arena that is current is that one. -/
theorem currentArena_apply : currentArena c m = .finished (.ok arena) m := by
  show found (c.arena? m.arena) m = _
  rw [harena]
  rfl

theorem expr_apply_of_arena : expr c e m = found (arena.expr? e) m := by
  rw [expr_apply, Context.expr?_of_arena harena]

theorem expr_apply_of_some {x : Expr} (hx : arena.expr? e = some x) :
    expr c e m = .finished (.ok x) m := by
  rw [expr_apply_of_arena harena, hx]
  rfl

/-- Printing is reading: it either gives the text to what comes next, or a handle dangles and
nothing ends. -/
theorem ends_printed_bind_iff {print : Arena → Except TreeFault String} {f : String → Eval α}
    {r : Except EvalError α} :
    Ends c (printed c print >>= f) m r m' ↔
      ∃ text, print arena = .ok text ∧ Ends c (f text) m r m' := by
  have hprinted : printed c print m = found (print arena).toOption m :=
    bind_of_finished (currentArena_apply harena)
  rw [ends_bind_iff_of_found hprinted]
  cases print arena with
  | error fault => constructor <;> rintro ⟨_, ⟨⟩, _⟩
  | ok text =>
      constructor
      · rintro ⟨_, ⟨⟩, h⟩
        exact ⟨text, rfl, h⟩
      · rintro ⟨_, ⟨⟩, h⟩
        exact ⟨text, rfl, h⟩

/-- Raising an error at an expression ends with that error. -/
theorem ends_failAt_iff {r : Except EvalError α} :
    Ends c (failAt c cause e body index) m r m' ↔
      m' = m ∧ ∃ err, FailsAt c arena body index cause e err ∧ r = .error err := by
  unfold failAt statementNote
  rw [ends_bind_iff_of_found (expr_apply_of_arena harena)]
  simp only [bind_assoc, pure_bind, ends_printed_bind_iff harena, fail, ends_ofExcept_iff]
  constructor
  · rintro ⟨x, hx, text, ht, rfl, rfl⟩
    exact ⟨rfl, _, ⟨x, text, hx, ht, rfl⟩, rfl⟩
  · rintro ⟨rfl, _, ⟨x, text, hx, ht, rfl⟩, rfl⟩
    exact ⟨x, hx, text, ht, rfl, rfl⟩

theorem ends_refuseUnreachable_iff {r : Except EvalError α} :
    Ends c (refuseUnreachable c e body index) m r m' ↔
      m' = m ∧ ∃ text err, arena.print c.names e = .ok text ∧
        FailsAt c arena body index (.unreachableCode text) e err ∧ r = .error err := by
  unfold refuseUnreachable
  simp only [ends_printed_bind_iff harena, ends_failAt_iff harena]
  constructor
  · rintro ⟨text, ht, rfl, err, herr, rfl⟩
    exact ⟨rfl, text, err, ht, herr, rfl⟩
  · rintro ⟨rfl, text, err, ht, herr, rfl⟩
    exact ⟨text, ht, rfl, err, herr, rfl⟩

/-- **A condition** decides, or it fails, and there is nothing else that it can end with. -/
theorem ends_holds_iff {r : Except EvalError Bool} :
    Ends c (holds c condition scope body index) m r m' ↔
      (∃ b, Decides c scope condition m b m' ∧ r = .ok b) ∨
        ∃ err, ConditionFails c arena scope body index condition m err m' ∧ r = .error err := by
  cases condition with
  | none =>
      show Ends c (pure true) m r m' ↔ _
      rw [ends_pure_iff]
      constructor
      · rintro ⟨rfl, rfl⟩
        exact .inl ⟨true, .always, rfl⟩
      · rintro (⟨b, ⟨⟩, rfl⟩ | ⟨err, ⟨⟨⟩, -⟩ | ⟨⟨⟩, -, -, -⟩, -⟩)
        exact ⟨rfl, rfl⟩
  | some e =>
      unfold holds evaluate
      simp only [ends_bind_iff, ends_ask_iff]
      constructor
      · -- the value is true, false or neither, and in the last case the error names the closure
        rintro (⟨v, s, hv, h⟩ | ⟨err, h, rfl⟩)
        · cases htruth : truth? c v with
          | some b =>
              rw [htruth] at h
              obtain ⟨rfl, rfl⟩ := ends_pure_iff.mp h
              exact .inl ⟨b, .evaluated hv (truth?_eq_some_iff.mp htruth), rfl⟩
          | none =>
              rw [htruth] at h
              obtain ⟨rfl, err, herr, rfl⟩ := (ends_failAt_iff (arena_of_ends hv harena)).mp h
              exact .inr ⟨err, .illTyped rfl hv (truth?_eq_none_iff.mp htruth) herr, rfl⟩
        · exact .inr ⟨err, .failed rfl h, rfl⟩
      · rintro (⟨b, h, rfl⟩ | ⟨err, h, rfl⟩)
        · cases h with
          | evaluated hv htruth =>
              refine .inl ⟨_, _, hv, ?_⟩
              rw [truth?_eq_some_iff.mpr htruth]
              exact ends_pure_iff.mpr ⟨rfl, rfl⟩
        · cases h with
          | failed hc h =>
              cases hc
              exact .inr ⟨err, h, rfl⟩
          | illTyped hc hv htruth herr =>
              cases hc
              refine .inl ⟨_, _, hv, ?_⟩
              rw [truth?_eq_none_iff.mpr htruth]
              exact (ends_failAt_iff (arena_of_ends hv harena)).mpr ⟨rfl, err, herr, rfl⟩

/-! ## One statement -/

omit harena in
/-- A statement that is refused does not pass. -/
theorem not_passes_of_blocks (hg : arena.Blocks g rest) : ¬ Passes c arena scope g m o s := by
  intro h
  cases h with
  | skipped _ hd =>
      rw [hg.1] at hd
      cases hd
  | assigned ha =>
      rw [hg.2.1] at ha
      cases ha

omit harena in
/-- A statement whose condition failed has one, so it is not refused. -/
theorem not_blocks_of_conditionFails
    (h : ConditionFails c arena scope body index g.condition m err s) :
    ¬ arena.Blocks g rest := by
  rintro ⟨hc, -, -⟩
  cases h with
  | failed hc' | illTyped hc' =>
      rw [hc] at hc'
      cases hc'

omit harena in
/-- Whatever is done with a statement, its expression has been read first. -/
theorem Passes.isSome_assigns? (h : Passes c arena scope g m o s) :
    (arena.assigns? g).isSome := by
  cases h with
  | skipped ha => exact ha
  | assigned ha => simp [ha]

omit harena in
theorem Stops.isSome_assigns? (h : Stops c arena scope body index g rest m r s) :
    (arena.assigns? g).isSome := by
  cases h with
  | condition ha => exact ha
  | returned ha | assignment ha => simp [ha]
  | refused hg => simp [hg.2.1]

omit harena in
theorem Asks.isSome_assigns? (h : Asks c arena scope g rest m q s) :
    (arena.assigns? g).isSome := by
  cases h with
  | condition ha | body ha => exact ha

/-- The statement is looked up before anything else. -/
theorem statements_of_none (ha : arena.assigns? g = none) :
    statements c scope body index result (g :: rest) m = .panics .dangling := by
  refine bind_of_panics ?_
  rw [expr_apply_of_arena harena, Option.map_eq_none_iff.mp ha]
  rfl

/-- A statement that blocks the ones behind it is refused before it is evaluated. -/
theorem statements_of_blocks (hg : arena.Blocks g rest) :
    statements c scope body index result (g :: rest) m =
      refuseUnreachable c g.body body index m := by
  obtain ⟨hc, ha, hrest⟩ := hg
  obtain ⟨x, hx, hassign⟩ := Option.map_eq_some_iff.mp ha
  refine (bind_of_finished (expr_apply_of_some harena hx)).trans ?_
  simp [hc, hassign, hrest]

/-- Any other one is run if its condition holds, and the rest is run if it does not. -/
theorem statements_of_not_blocks (ha : arena.assigns? g = some b) (hg : ¬ arena.Blocks g rest) :
    statements c scope body index result (g :: rest) m =
      (holds c g.condition scope body index >>= fun isToRun =>
        if isToRun then run c scope body b index g rest
        else statements c scope body (index + 1) result rest) m := by
  obtain ⟨x, hx, rfl⟩ := Option.map_eq_some_iff.mp ha
  have hno : ¬ (g.condition.isNone && !rest.isEmpty && !x.node.isAssignment) = true := by
    intro h
    refine hg ⟨?_, ?_, ?_⟩ <;> simp_all
  refine (bind_of_finished (expr_apply_of_some harena hx)).trans ?_
  unfold run
  simp only [if_neg hno]

omit harena in
/-- A statement that is no assignment and is to run ends the list. -/
theorem ends_run_false_iff :
    Ends c (run c scope body false index g rest) m r m' ↔
      Ends c (step c (.evaluate g.body scope)) m r m' := by
  rw [← ends_ask_iff]
  unfold run evaluate
  simp only [Bool.false_eq_true, if_false, bind_pure]

omit harena in
/-- After an assignment the list goes on with its value. -/
theorem ends_run_true_iff :
    Ends c (run c scope body true index g rest) m r m' ↔
      (∃ v s, Ends c (step c (.evaluate g.body scope)) m (.ok v) s ∧
        Ends c (statements c scope body (index + 1) v rest) s r m') ∨
      ∃ err, Ends c (step c (.evaluate g.body scope)) m (.error err) m' ∧ r = .error err := by
  unfold run evaluate
  simp only [if_true, ends_bind_iff, ends_ask_iff]

/-- A statement that could never let the others run is refused where it is reached. -/
theorem ends_cons_iff_of_blocks (hg : arena.Blocks g rest) :
    Ends c (statements c scope body index result (g :: rest)) m r m' ↔
      Stops c arena scope body index g rest m r m' := by
  rw [ends_congr (statements_of_blocks harena hg), ends_refuseUnreachable_iff harena]
  constructor
  · rintro ⟨rfl, text, err, ht, herr, rfl⟩
    exact .refused hg ht herr
  · intro hstops
    cases hstops with
    | condition _ hfails => exact absurd hg (not_blocks_of_conditionFails hfails)
    | returned _ hg' => exact absurd hg hg'
    | assignment ha => exact absurd ha (by simp [hg.2.1])
    | refused _ ht herr => exact ⟨rfl, _, _, ht, herr, rfl⟩

/-- **The head of a list of statements**: it passes, and the rest is run, or the list stops with
it. -/
theorem ends_cons_iff_of_not_blocks (ha : arena.assigns? g = some b)
    (hg : ¬ arena.Blocks g rest) :
    Ends c (statements c scope body index result (g :: rest)) m r m' ↔
      (∃ o s, Passes c arena scope g m o s ∧
        Ends c (statements c scope body (index + 1) (o.getD result) rest) s r m') ∨
      Stops c arena scope body index g rest m r m' := by
  have hsome : (arena.assigns? g).isSome := by simp [ha]
  rw [ends_congr (statements_of_not_blocks harena ha hg), ends_bind_iff]
  simp only [ends_holds_iff harena]
  constructor
  · rintro (⟨isToRun, s, ⟨_, hd, ⟨⟩⟩ | ⟨_, _, ⟨⟩⟩, h⟩ | ⟨err, ⟨_, _, ⟨⟩⟩ | ⟨_, hfails, ⟨⟩⟩, rfl⟩)
    · -- a condition that decides: skip, return, or assign and go on
      cases isToRun with
      | false => exact .inl ⟨none, s, .skipped hsome hd, h⟩
      | true =>
          cases b with
          | false => exact .inr (.returned ha hg hd (ends_run_false_iff.mp h))
          | true =>
              rcases ends_run_true_iff.mp h with ⟨v, s', hv, h⟩ | ⟨err, herr, rfl⟩
              · exact .inl ⟨some v, s', .assigned ha hd hv, h⟩
              · exact .inr (.assignment ha hd herr)
    · exact .inr (.condition hsome hfails)
  · rintro (⟨o, s, hpasses, h⟩ | hstops)
    · cases hpasses with
      | skipped _ hd => exact .inl ⟨false, s, .inl ⟨false, hd, rfl⟩, h⟩
      | assigned ha' hd hv =>
          cases ha.symm.trans ha'
          refine .inl ⟨true, _, .inl ⟨true, hd, rfl⟩, ends_run_true_iff.mpr ?_⟩
          exact .inl ⟨_, s, hv, h⟩
    · cases hstops with
      | condition _ hfails => exact .inr ⟨_, .inr ⟨_, hfails, rfl⟩, rfl⟩
      | returned ha' _ hd hr =>
          cases ha.symm.trans ha'
          exact .inl ⟨true, _, .inl ⟨true, hd, rfl⟩, ends_run_false_iff.mpr hr⟩
      | assignment ha' hd hr =>
          cases ha.symm.trans ha'
          refine .inl ⟨true, _, .inl ⟨true, hd, rfl⟩, ends_run_true_iff.mpr ?_⟩
          exact .inr ⟨_, hr, rfl⟩
      | refused hg' => exact absurd hg' hg

/-- **One statement**: it passes, and the others go on with its value, or the list ends with it. -/
theorem ends_cons_iff :
    Ends c (statements c scope body index result (g :: rest)) m r m' ↔
      (∃ o s, Passes c arena scope g m o s ∧
        Ends c (statements c scope body (index + 1) (o.getD result) rest) s r m') ∨
      Stops c arena scope body index g rest m r m' := by
  cases ha : arena.assigns? g with
  | none =>
      refine iff_of_false (not_ends_of_eq_panics (statements_of_none harena ha)) ?_
      rintro (⟨o, s, hpasses, -⟩ | hstops)
      · simpa [ha] using hpasses.isSome_assigns?
      · simpa [ha] using hstops.isSome_assigns?
  | some b =>
      by_cases hg : arena.Blocks g rest
      · rw [ends_cons_iff_of_blocks harena hg]
        refine (or_iff_right ?_).symm
        rintro ⟨o, s, hpasses, -⟩
        exact not_passes_of_blocks hg hpasses
      · exact ends_cons_iff_of_not_blocks harena ha hg

end Reading

/-! ## Questions of one statement -/

/-- A step that asks nothing. -/
def Silent (c : Context) (x : Eval α) : Prop := ∀ m q n, ¬ Puts c x m q n

/-- Steps that ask nothing ask nothing together. -/
theorem Silent.bind {x : Eval α} {f : α → Eval β} (hx : Silent c x) (hf : ∀ a, Silent c (f a)) :
    Silent c (x >>= f) := by
  intro m q n h
  rcases h.of_bind with h | ⟨a, s, -, h⟩
  · exact hx m q n h
  · exact hf a s q n h

theorem silent_ofExcept (x : Except EvalError α) : Silent c (ofExcept x) := by
  rintro m q n ⟨⟩

theorem silent_found (o : Option α) : Silent c (found o) := by
  intro m q n h
  cases o <;> cases h

theorem silent_currentArena : Silent c (currentArena c) :=
  Silent.bind (fun _ _ _ h => by cases h) fun _ => silent_found _

theorem silent_expr (e : ExprId) : Silent c (expr c e) :=
  silent_currentArena.bind fun _ => silent_found _

theorem silent_printed (print : Arena → Except TreeFault String) : Silent c (printed c print) :=
  silent_currentArena.bind fun _ => silent_found _

theorem silent_failAt : Silent c (failAt (α := α) c cause e body index) :=
  (silent_expr e).bind fun _ =>
    ((silent_printed _).bind fun _ => silent_ofExcept (.ok _)).bind fun _ => silent_ofExcept _

theorem puts_evaluate_iff : Puts c (evaluate e scope) m q n ↔ q = .evaluate e scope ∧ n = m := by
  constructor
  · intro h
    cases h with
    | here => exact ⟨rfl, rfl⟩
    | later _ h => cases h
  · rintro ⟨rfl, rfl⟩
    exact .here

/-- The only question of a condition is the condition. -/
theorem puts_holds_iff :
    Puts c (holds c condition scope body index) m q n ↔
      ∃ e, condition = some e ∧ q = .evaluate e scope ∧ n = m := by
  cases condition with
  | none =>
      refine iff_of_false (silent_ofExcept (.ok true) m q n) ?_
      rintro ⟨_, ⟨⟩, -⟩
  | some e =>
      unfold holds
      rw [puts_bind_iff, puts_evaluate_iff]
      constructor
      · rintro (⟨rfl, rfl⟩ | ⟨v, s, -, h⟩)
        · exact ⟨e, rfl, rfl, rfl⟩
        · cases htruth : truth? c v with
          | some b =>
              rw [htruth] at h
              exact absurd h (silent_ofExcept (.ok b) s q n)
          | none =>
              rw [htruth] at h
              exact absurd h (silent_failAt s q n)
      · rintro ⟨_, ⟨⟩, rfl, rfl⟩
        exact .inl ⟨rfl, rfl⟩

/-- A statement that is to run asks for its expression, and after an assignment for what the rest
asks. -/
theorem puts_run_iff :
    Puts c (run c scope body b index g rest) m q n ↔
      (q = .evaluate g.body scope ∧ n = m) ∨
      ∃ v s, b = true ∧ Ends c (step c (.evaluate g.body scope)) m (.ok v) s ∧
        Puts c (statements c scope body (index + 1) v rest) s q n := by
  unfold run
  rw [puts_bind_iff, puts_evaluate_iff]
  refine or_congr_right ?_
  constructor
  · rintro ⟨v, s, hv, h⟩
    cases b with
    | true => exact ⟨v, s, rfl, ends_ask_iff.mp hv, h⟩
    | false => exact absurd h (silent_ofExcept (.ok v) s q n)
  · rintro ⟨v, s, rfl, hv, h⟩
    exact ⟨v, s, ends_ask_iff.mpr hv, h⟩

/-- **What a list asks** is what its first statement asks, and behind one that passes what the rest
asks. -/
theorem puts_cons_iff_of_not_blocks (harena : c.arena? m.arena = some arena)
    (ha : arena.assigns? g = some b) (hg : ¬ arena.Blocks g rest) :
    Puts c (statements c scope body index result (g :: rest)) m q n ↔
      Asks c arena scope g rest m q n ∨
      ∃ o s, Passes c arena scope g m o s ∧
        Puts c (statements c scope body (index + 1) (o.getD result) rest) s q n := by
  have hsome : (arena.assigns? g).isSome := by simp [ha]
  rw [puts_congr (statements_of_not_blocks harena ha hg), puts_bind_iff, puts_holds_iff]
  simp only [ends_holds_iff harena]
  constructor
  · -- the condition is asked, then the body, then the other statements
    rintro (⟨e, hc, rfl, rfl⟩ | ⟨isToRun, s, ⟨_, hd, ⟨⟩⟩ | ⟨_, _, ⟨⟩⟩, h⟩)
    · exact .inl (.condition hsome hc)
    · cases isToRun with
      | false => exact .inr ⟨none, s, .skipped hsome hd, h⟩
      | true =>
          rcases puts_run_iff.mp h with ⟨rfl, rfl⟩ | ⟨v, s', rfl, hv, h⟩
          · exact .inl (.body hsome hg hd)
          · exact .inr ⟨some v, s', .assigned ha hd hv, h⟩
  · rintro (h | ⟨o, s, hpasses, h⟩)
    · cases h with
      | condition _ hc => exact .inl ⟨_, hc, rfl, rfl⟩
      | body _ _ hd =>
          exact .inr ⟨true, n, .inl ⟨true, hd, rfl⟩, puts_run_iff.mpr (.inl ⟨rfl, rfl⟩)⟩
    · cases hpasses with
      | skipped _ hd => exact .inr ⟨false, s, .inl ⟨false, hd, rfl⟩, h⟩
      | assigned ha' hd hv =>
          cases ha.symm.trans ha'
          refine .inr ⟨true, _, .inl ⟨true, hd, rfl⟩, puts_run_iff.mpr ?_⟩
          exact .inr ⟨_, s, rfl, hv, h⟩

/-- **What one statement asks**, and what the others ask once it has passed. -/
theorem puts_cons_iff (harena : c.arena? m.arena = some arena) :
    Puts c (statements c scope body index result (g :: rest)) m q n ↔
      Asks c arena scope g rest m q n ∨
      ∃ o s, Passes c arena scope g m o s ∧
        Puts c (statements c scope body (index + 1) (o.getD result) rest) s q n := by
  cases ha : arena.assigns? g with
  | none =>
      refine iff_of_false ?_ ?_
      · rw [Puts, statements_of_none harena ha]
        rintro ⟨⟩
      · rintro (h | ⟨o, s, hpasses, -⟩)
        · simpa [ha] using h.isSome_assigns?
        · simpa [ha] using hpasses.isSome_assigns?
  | some b =>
      by_cases hg : arena.Blocks g rest
      · rw [puts_congr (statements_of_blocks harena hg)]
        have hsilent : Silent c (refuseUnreachable (α := Value) c g.body body index) :=
          (silent_printed _).bind fun _ => silent_failAt
        refine iff_of_false (hsilent m q n) ?_
        rintro (h | ⟨o, s, hpasses, -⟩)
        · cases h with
          | condition _ hc =>
              rw [hg.1] at hc
              cases hc
          | body _ hg' => exact hg' hg
        · exact not_passes_of_blocks hg hpasses
      · exact puts_cons_iff_of_not_blocks harena ha hg

/-! ## All statements -/

/-- The value of the last assignment, if there was one. -/
theorem getLast?_toList_append (o : Option Value) (vs : List Value) :
    (o.toList ++ vs).getLast?.getD result = vs.getLast?.getD (o.getD result) := by
  rw [List.getLast?_append]
  cases o <;> cases vs.getLast? <;> rfl

/-- A statement that is reached is one of the list. -/
theorem Reached.mem (h : Reached c arena scope guards m before g rest s) : g ∈ guards := by
  rw [h.1]
  exact List.mem_append_right _ List.mem_cons_self

/-- The statements behind a statement that has passed are reached from there. -/
theorem Reached.cons (hg : Passes c arena scope g m o s)
    (h : Reached c arena scope rest s before g' rest' s') :
    Reached c arena scope (g :: rest) m (g :: before) g' rest' s' := by
  obtain ⟨rfl, vs, hvs⟩ := h
  exact ⟨rfl, _, .cons hg hvs⟩

/-- The first statement is reached at once, and the others if it passes. -/
theorem Reached.cases_cons (h : Reached c arena scope (g :: rest) m before g' rest' s') :
    (before = [] ∧ g' = g ∧ rest' = rest ∧ s' = m) ∨
      ∃ o s before', Passes c arena scope g m o s ∧ before = g :: before' ∧
        Reached c arena scope rest s before' g' rest' s' := by
  obtain ⟨heq, vs, hvs⟩ := h
  cases before with
  | nil =>
      cases heq
      cases hvs
      exact .inl ⟨rfl, rfl, rfl, rfl⟩
  | cons =>
      cases heq
      cases hvs with
      | cons hg hvs => exact .inr ⟨_, _, _, hg, rfl, rfl, _, hvs⟩

theorem not_reached_nil : ¬ Reached c arena scope [] m before g rest s := by
  rintro ⟨heq, -⟩
  cases before <;> cases heq

/-- **All statements**: each of them passes, and the last assignment gives the result, or the list
ends with the first one that stops. -/
theorem ends_iff (harena : c.arena? m.arena = some arena) :
    Ends c (statements c scope body index result guards) m r m' ↔
      (∃ vs, AllPass c arena scope guards m vs m' ∧ r = .ok (vs.getLast?.getD result)) ∨
      ∃ before g rest s, Reached c arena scope guards m before g rest s ∧
        Stops c arena scope body (index + before.length) g rest s r m' := by
  induction guards generalizing index result m with
  | nil =>
      show Ends c (pure result) m r m' ↔ _
      rw [ends_pure_iff]
      constructor
      · rintro ⟨rfl, rfl⟩
        exact .inl ⟨[], .nil, rfl⟩
      · rintro (⟨_, ⟨⟩, rfl⟩ | ⟨_, _, _, _, h, -⟩)
        · exact ⟨rfl, rfl⟩
        · exact absurd h not_reached_nil
  | cons g rest ih =>
      have hindex : ∀ before : List Guard,
          index + 1 + before.length = index + (g :: before).length := by
        intro before
        rw [List.length_cons]
        omega
      rw [ends_cons_iff harena]
      constructor
      · rintro (⟨o, s, hg, h⟩ | h)
        · -- the first statement passes, and the others go on as by induction, one index further
          rcases (ih (hg.keeps_arena harena)).mp h with
            ⟨vs, hvs, rfl⟩ | ⟨before, g', rest', s', hreached, hstops⟩
          · exact .inl ⟨_, .cons hg hvs, by rw [getLast?_toList_append]⟩
          · rw [hindex] at hstops
            exact .inr ⟨_, _, _, _, hreached.cons hg, hstops⟩
        · -- the first statement is the one that stops
          exact .inr ⟨[], g, rest, m, ⟨rfl, _, .nil⟩, h⟩
      · rintro (⟨_, hvs, rfl⟩ | ⟨before, g', rest', s', hreached, hstops⟩)
        · cases hvs with
          | cons hg hvs =>
              refine .inl ⟨_, _, hg, (ih (hg.keeps_arena harena)).mpr (.inl ?_)⟩
              exact ⟨_, hvs, by rw [getLast?_toList_append]⟩
        · rcases hreached.cases_cons with ⟨rfl, rfl, rfl, rfl⟩ | ⟨o, s, before, hg, rfl, hrest⟩
          · exact .inr hstops
          · rw [← hindex] at hstops
            refine .inl ⟨o, s, hg, (ih (hg.keeps_arena harena)).mpr (.inr ?_)⟩
            exact ⟨_, _, _, _, hrest, hstops⟩

/-- **What a list asks** are the questions of the statements that are reached. -/
theorem puts_iff (harena : c.arena? m.arena = some arena) :
    Puts c (statements c scope body index result guards) m q n ↔
      ∃ before g rest s, Reached c arena scope guards m before g rest s ∧
        Asks c arena scope g rest s q n := by
  induction guards generalizing index result m with
  | nil =>
      refine iff_of_false (silent_ofExcept (.ok result) m q n) ?_
      rintro ⟨_, _, _, _, h, -⟩
      exact not_reached_nil h
  | cons g rest ih =>
      rw [puts_cons_iff harena]
      constructor
      · rintro (h | ⟨o, s, hg, h⟩)
        · exact ⟨[], g, rest, m, ⟨rfl, _, .nil⟩, h⟩
        · obtain ⟨before, g', rest', s', hreached, hasks⟩ :=
            (ih (hg.keeps_arena harena)).mp h
          exact ⟨_, _, _, _, hreached.cons hg, hasks⟩
      · rintro ⟨before, g', rest', s', hreached, hasks⟩
        rcases hreached.cases_cons with ⟨rfl, rfl, rfl, rfl⟩ | ⟨o, s, before, hg, rfl, hrest⟩
        · exact .inl hasks
        · refine .inr ⟨o, s, hg, (ih (hg.keeps_arena harena)).mpr ?_⟩
          exact ⟨_, _, _, _, hrest, hasks⟩

end Statement

end Eval

end ArrayLang

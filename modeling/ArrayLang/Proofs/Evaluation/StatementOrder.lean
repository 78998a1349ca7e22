import ArrayLang.Proofs.Evaluation.Statements
import ArrayLang.Proofs.Source.ChildrenFirst

/-!
# What decides over a list of statements

There is one way through a list of statements: those before the first one that stops pass, and what
stands behind it does not matter, whatever it is. `Eval.statements_in_order` says so of the
statements of a closure body, and which statements the list refuses by itself.
-/

namespace ArrayLang

namespace Eval

namespace Statement

variable {c : Context} {arena : Arena} {scope : ScopeId} {body body' : BodyRange} {index : Nat}
  {result : Value} {g g' : Guard} {guards rest rest' before before' : List Guard}
  {m m' s s' n : Machine} {b b' : Bool} {o o' : Option Value} {vs vs' : List Value}
  {r : Except EvalError Value} {e : ExprId} {condition : Option ExprId} {err : EvalError}
  {cause : Cause} {q : Request}

/-! ## There is one way -/

/-- No value counts both as true and as false. -/
theorem CountsAs.unique {v : Value} (h : CountsAs c v b) (h' : CountsAs c v b') : b = b' := by
  rw [← truth?_eq_some_iff] at h h'
  exact Option.some.inj (h.symm.trans h')

/-- A condition decides in one way only. -/
theorem Decides.unique (h : Decides c scope condition m b s)
    (h' : Decides c scope condition m b' s') : b' = b ∧ s' = s := by
  cases h with
  | always =>
      cases h'
      exact ⟨rfl, rfl⟩
  | evaluated h hb =>
      cases h' with
      | evaluated h' hb' =>
          obtain ⟨heq, rfl⟩ := h.unique h'
          cases heq
          exact ⟨hb'.unique hb, rfl⟩

/-- A statement that passes does so in one way only. -/
theorem Passes.unique (h : Passes c arena scope g m o s) (h' : Passes c arena scope g m o' s') :
    o' = o ∧ s' = s := by
  cases h with
  | skipped _ hd =>
      cases h' with
      | skipped _ hd' => exact ⟨rfl, (hd.unique hd').2⟩
      | assigned _ hd' _ => cases (hd.unique hd').1
  | assigned _ hd hv =>
      cases h' with
      | skipped _ hd' => cases (hd.unique hd').1
      | assigned _ hd' hv' =>
          obtain ⟨-, rfl⟩ := hd.unique hd'
          obtain ⟨heq, rfl⟩ := hv.unique hv'
          cases heq
          exact ⟨rfl, rfl⟩

theorem AllPass.unique (h : AllPass c arena scope guards m vs s)
    (h' : AllPass c arena scope guards m vs' s') : vs' = vs ∧ s' = s := by
  induction h generalizing vs' with
  | nil =>
      cases h'
      exact ⟨rfl, rfl⟩
  | cons hg h ih =>
      cases h' with
      | cons hg' h' =>
          obtain ⟨rfl, rfl⟩ := hg.unique hg'
          obtain ⟨rfl, rfl⟩ := ih h'
          exact ⟨rfl, rfl⟩

/-- To pass a list is to pass its parts. -/
theorem AllPass.of_append (h : AllPass c arena scope (before ++ rest) m vs m') :
    ∃ us ws s, AllPass c arena scope before m us s ∧ AllPass c arena scope rest s ws m' := by
  induction before generalizing m vs with
  | nil => exact ⟨[], vs, m, .nil, h⟩
  | cons g before ih =>
      cases h with
      | cons hg h =>
          obtain ⟨us, ws, s, hbefore, hrest⟩ := ih h
          exact ⟨_, ws, s, .cons hg hbefore, hrest⟩

/-- A condition that decides does not fail. -/
theorem Decides.not_conditionFails (h : Decides c scope condition m b s) :
    ¬ ConditionFails c arena scope body index condition m err s' := by
  intro hfails
  cases hfails with
  | failed hc h' =>
      cases hc
      cases h with
      | evaluated h _ => cases (h.unique h').1
  | illTyped hc h' hv _ =>
      cases hc
      cases h with
      | evaluated h hb =>
          obtain ⟨heq, -⟩ := h.unique h'
          cases heq
          exact hv _ hb

/-- What passes does not stop. -/
theorem Passes.not_stops (h : Passes c arena scope g m o s) :
    ¬ Stops c arena scope body index g rest m r m' := by
  intro hstops
  cases hstops with
  | condition _ hfails =>
      cases h with
      | skipped _ hd => exact hd.not_conditionFails hfails
      | assigned _ hd _ => exact hd.not_conditionFails hfails
  | returned ha _ hd _ =>
      cases h with
      | skipped _ hd' => cases (hd.unique hd').1
      | assigned ha' =>
          rw [ha] at ha'
          cases ha'
  | assignment _ hd hr =>
      cases h with
      | skipped _ hd' => cases (hd.unique hd').1
      | assigned _ hd' hv =>
          obtain ⟨-, rfl⟩ := hd.unique hd'
          cases (hr.unique hv).1
  | refused hg => exact not_passes_of_blocks hg h

/-- Of two ways to divide a list, the longer first part begins with the shorter one. -/
theorem exists_append_of_length_lt {α : Type} {a a' : α} {xs xs' ys ys' : List α}
    (h : xs ++ a :: ys = xs' ++ a' :: ys') (hlt : xs.length < xs'.length) :
    ∃ zs, xs' = xs ++ a :: zs ∧ ys = zs ++ a' :: ys' := by
  rcases List.append_eq_append_iff.mp h with ⟨zs, rfl, hzs⟩ | ⟨zs, rfl, -⟩
  · cases zs with
    | nil => simp at hlt
    | cons z zs =>
        cases hzs
        exact ⟨zs, rfl, rfl⟩
  · rw [List.length_append] at hlt
    omega

/-- The statements that are reached are reached one after the other: those before pass. -/
theorem Reached.passes (h : Reached c arena scope guards m before g rest s)
    (h' : Reached c arena scope guards m before' g' rest' s')
    (hlt : before.length < before'.length) : ∃ o t, Passes c arena scope g s o t := by
  obtain ⟨rfl, vs, hbefore⟩ := h
  obtain ⟨heq, vs', hbefore'⟩ := h'
  obtain ⟨more, rfl, -⟩ := exists_append_of_length_lt heq hlt
  obtain ⟨us, ws, t, hfirst, hmore⟩ := hbefore'.of_append
  obtain ⟨rfl, rfl⟩ := hbefore.unique hfirst
  cases hmore with
  | cons hg _ => exact ⟨_, _, hg⟩

/-- One statement is reached in one way. -/
theorem Reached.unique (h : Reached c arena scope guards m before g rest s)
    (h' : Reached c arena scope guards m before' g' rest' s')
    (hlength : before'.length = before.length) :
    before' = before ∧ g' = g ∧ rest' = rest ∧ s' = s := by
  obtain ⟨rfl, vs, hbefore⟩ := h
  obtain ⟨heq, vs', hbefore'⟩ := h'
  obtain ⟨rfl, htail⟩ := List.append_inj heq hlength.symm
  cases htail
  exact ⟨rfl, rfl, rfl, (hbefore.unique hbefore').2⟩

/-- Nothing is reached behind a statement that does not pass. -/
theorem Reached.length_le (h : Reached c arena scope guards m before g rest s)
    (hno : ∀ o t, ¬ Passes c arena scope g s o t)
    (h' : Reached c arena scope guards m before' g' rest' s') :
    before'.length ≤ before.length := by
  refine Nat.le_of_not_lt fun hlt => ?_
  obtain ⟨o, t, hpasses⟩ := h.passes h' hlt
  exact hno o t hpasses

/-- All that a statement asks is answered by a value if the statement passes. -/
theorem Passes.ok_of_asks (h : Passes c arena scope g m o s)
    (hasks : Asks c arena scope g rest m q n) (hr : Ends c (step c q) n r m') : ∃ v, r = .ok v := by
  have hcondition : ∀ e b t, g.condition = some e → Decides c scope g.condition m b t →
      Ends c (step c (.evaluate e scope)) m r m' → ∃ v, r = .ok v := by
    intro e b t he hd hr
    rw [he] at hd
    cases hd with
    | evaluated hv _ => exact ⟨_, (hv.unique hr).1⟩
  cases hasks with
  | condition _ he =>
      cases h with
      | skipped _ hd => exact hcondition _ _ _ he hd hr
      | assigned _ hd _ => exact hcondition _ _ _ he hd hr
  | body _ _ hd =>
      cases h with
      | skipped _ hd' => cases (hd.unique hd').1
      | assigned _ hd' hv =>
          obtain ⟨-, rfl⟩ := hd.unique hd'
          exact ⟨_, (hv.unique hr).1⟩

/-! ## Statements that are never reached -/

/-- The cause is the one that the statement was stopped by. -/
theorem FailsAt.cause_eq (h : FailsAt c arena body index cause e err) : err.cause = cause := by
  obtain ⟨x, text, -, -, rfl⟩ := h
  exact EvalError.cause_locate _ _

/-- In another body of the same arena, the failure is the same apart from the note that prints the
closure. -/
theorem FailsAt.transport (h : FailsAt c arena body index cause e err)
    (hclosure : Arena.Reads (arena.printClosure c.names body')) :
    ∃ err', FailsAt c arena body' index cause e err' := by
  obtain ⟨x, -, hx, -, -⟩ := h
  obtain ⟨text, ht⟩ := hclosure
  exact ⟨_, x, text, hx, ht, rfl⟩

/-- A statement stops in any other list as it does in this one, as long as it is refused in both or
in none. Only the notes of errors tell the lists apart. -/
theorem Stops.transport (h : Stops c arena scope body index g rest m r m')
    (hg : arena.Blocks g rest ↔ arena.Blocks g rest')
    (hclosure : Arena.Reads (arena.printClosure c.names body')) :
    ∃ r', Stops c arena scope body' index g rest' m r' m' ∧
      r'.mapError EvalError.cause = r.mapError EvalError.cause := by
  have herror : ∀ {cause e err err'}, FailsAt c arena body index cause e err →
      FailsAt c arena body' index cause e err' →
      (Except.error (α := Value) err').mapError EvalError.cause =
        (Except.error err).mapError EvalError.cause := by
    intro cause e err err' h h'
    exact congrArg Except.error (h'.cause_eq.trans h.cause_eq.symm)
  cases h with
  | condition ha hfails =>
      cases hfails with
      | failed hc hr => exact ⟨_, .condition ha (.failed hc hr), rfl⟩
      | illTyped hc hv htruth herr =>
          obtain ⟨err', herr'⟩ := herr.transport hclosure
          exact ⟨_, .condition ha (.illTyped hc hv htruth herr'), herror herr herr'⟩
  | returned ha hg' hd hr => exact ⟨r, .returned ha (mt hg.mpr hg') hd hr, rfl⟩
  | assignment ha hd hr => exact ⟨_, .assignment ha hd hr, rfl⟩
  | refused hg' ht herr =>
      obtain ⟨err', herr'⟩ := herr.transport hclosure
      exact ⟨_, .refused (hg.mp hg') ht herr', herror herr herr'⟩

/-- Once every statement has passed, so has any that was reached. -/
theorem AllPass.passes (h : AllPass c arena scope guards m vs m')
    (hreached : Reached c arena scope guards m before g rest s) :
    ∃ o t, Passes c arena scope g s o t := by
  obtain ⟨rfl, us, hbefore⟩ := hreached
  obtain ⟨us', ws, t, hfirst, hmore⟩ := h.of_append
  obtain ⟨rfl, rfl⟩ := hbefore.unique hfirst
  cases hmore with
  | cons hg _ => exact ⟨_, _, hg⟩

/-- A statement that is no assignment does not pass while its condition is not false. -/
theorem not_passes_of_not_assigns (ha : arena.assigns? g = some false)
    (hd : ∀ t, ¬ Decides c scope g.condition m false t) : ¬ Passes c arena scope g m o s := by
  intro h
  cases h with
  | skipped _ hd' => exact hd s hd'
  | assigned ha' =>
      rw [ha] at ha'
      cases ha'

theorem not_passes_of_decides (ha : arena.assigns? g = some false)
    (hd : Decides c scope g.condition m true s') : ¬ Passes c arena scope g m o s :=
  not_passes_of_not_assigns ha fun _ hd' => by cases (hd.unique hd').1

/-- The first statement that is to run and is no assignment gives the result, whatever follows. -/
theorem ends_iff_of_reached (harena : c.arena? m.arena = some arena)
    (hreached : Reached c arena scope guards m before g rest s) (ha : arena.assigns? g = some false)
    (hg : ¬ arena.Blocks g rest) (hd : Decides c scope g.condition s true s') :
    Ends c (statements c scope body index result guards) m r m' ↔
      Ends c (step c (.evaluate g.body scope)) s' r m' := by
  have hno : ∀ o t, ¬ Passes c arena scope g s o t := fun o t => not_passes_of_decides ha hd
  rw [ends_iff harena]
  constructor
  · rintro (⟨vs, hvs, -⟩ | ⟨before', g', rest', t, hreached', hstops⟩)
    · obtain ⟨o, t, hpasses⟩ := hvs.passes hreached
      exact absurd hpasses (hno o t)
    · rcases Nat.lt_trichotomy before'.length before.length with hlt | heq | hlt
      · obtain ⟨o, t, hpasses⟩ := hreached'.passes hreached hlt
        exact absurd hstops hpasses.not_stops
      · obtain ⟨rfl, rfl, rfl, rfl⟩ := hreached.unique hreached' heq
        cases hstops with
        | condition _ hfails => exact absurd hfails hd.not_conditionFails
        | returned _ _ hd' hr =>
            obtain ⟨-, rfl⟩ := hd.unique hd'
            exact hr
        | assignment ha' =>
            rw [ha] at ha'
            cases ha'
        | refused hg' => exact absurd hg' hg
      · obtain ⟨o, t, hpasses⟩ := hreached.passes hreached' hlt
        exact absurd hpasses (hno o t)
  · exact fun hr => .inr ⟨before, g, rest, s, hreached, .returned ha hg hd hr⟩

/-- Lists that agree up to a statement that never lets the next one run end alike. -/
theorem exists_ends_of_common (harena : c.arena? m.arena = some arena)
    (hclosure : Arena.Reads (arena.printClosure c.names body')) (hc : g.condition ≠ none)
    (ha : arena.assigns? g = some false)
    (hd : ∀ s t, Reached c arena scope (before ++ g :: rest) m before g rest s →
      ¬ Decides c scope g.condition s false t)
    (hr : Ends c (statements c scope body index result (before ++ g :: rest)) m r m') :
    ∃ r', Ends c (statements c scope body' index result (before ++ g :: rest')) m r' m' ∧
      r'.mapError EvalError.cause = r.mapError EvalError.cause := by
  have hno : ∀ s o t, Reached c arena scope (before ++ g :: rest) m before g rest s →
      ¬ Passes c arena scope g s o t := fun s o t hreached =>
    not_passes_of_not_assigns ha fun t => hd s t hreached
  rcases (ends_iff harena).mp hr with
    ⟨vs, hvs, -⟩ | ⟨before', g', rest'', s, ⟨heq, us, hbefore'⟩, hstops⟩
  · obtain ⟨us, ws, s, hbefore, -⟩ := hvs.of_append
    obtain ⟨o, t, hpasses⟩ := hvs.passes ⟨rfl, us, hbefore⟩
    exact absurd hpasses (hno s o t ⟨rfl, us, hbefore⟩)
  · -- the list stops in front of the statement, at it, or behind it
    rcases Nat.lt_trichotomy before'.length before.length with hlt | hlength | hlt
    · obtain ⟨more, rfl, rfl⟩ := exists_append_of_length_lt heq.symm hlt
      have hsame : arena.Blocks g' (more ++ g :: rest) ↔ arena.Blocks g' (more ++ g :: rest') :=
        Arena.blocks_congr (by simp)
      obtain ⟨r', hstops', hr'⟩ := hstops.transport hsame hclosure
      refine ⟨r', (ends_iff harena).mpr (.inr ?_), hr'⟩
      exact ⟨before', g', _, s, ⟨by simp, us, hbefore'⟩, hstops'⟩
    · obtain ⟨rfl, htail⟩ := List.append_inj heq hlength.symm
      cases htail
      -- a statement with a condition is never unreachable code
      have hsame : arena.Blocks g rest ↔ arena.Blocks g rest' :=
        iff_of_false (fun hg => hc hg.1) fun hg => hc hg.1
      obtain ⟨r', hstops', hr'⟩ := hstops.transport hsame hclosure
      refine ⟨r', (ends_iff harena).mpr (.inr ?_), hr'⟩
      exact ⟨before, g, rest', s, ⟨rfl, us, hbefore'⟩, hstops'⟩
    · obtain ⟨more, rfl, -⟩ := exists_append_of_length_lt heq hlt
      obtain ⟨us, ws, t, hbefore, hmore⟩ := hbefore'.of_append
      cases hmore with
      | cons hg _ => exact absurd hg (hno t _ _ ⟨rfl, us, hbefore⟩)

/-- A statement that could never let the others run is refused when it is reached, and nothing of
it is asked. -/
theorem exists_ends_of_blocks (index : Nat) (result : Value)
    (harena : c.arena? m.arena = some arena)
    (hclosure : Arena.Reads (arena.printClosure c.names body))
    (hprint : Arena.Reads (arena.print c.names g.body))
    (hreached : Reached c arena scope guards m before g rest s) (hg : arena.Blocks g rest) :
    (∃ text err, arena.print c.names g.body = .ok text ∧
      FailsAt c arena body (index + before.length) (.unreachableCode text) g.body err ∧
      Ends c (statements c scope body index result guards) m (.error err) s) ∧
    ∀ before' g' rest' s' q n, Reached c arena scope guards m before' g' rest' s' →
      Asks c arena scope g' rest' s' q n → before'.length < before.length := by
  obtain ⟨text, ht⟩ := hprint
  obtain ⟨closure, hclosure⟩ := hclosure
  obtain ⟨x, hx, -⟩ := Option.map_eq_some_iff.mp hg.2.1
  have herr : FailsAt c arena body (index + before.length) (.unreachableCode text) g.body _ :=
    ⟨x, closure, hx, hclosure, rfl⟩
  have hstops : Stops c arena scope body (index + before.length) g rest s (.error _) s :=
    .refused hg ht herr
  refine ⟨⟨text, _, ht, herr, ?_⟩, ?_⟩
  · exact (ends_iff harena).mpr (.inr ⟨before, g, rest, s, hreached, hstops⟩)
  · -- the refused statement is the last that is reached, and it asks nothing
    intro before' g' rest' s' q n hreached' hasks
    have hle := hreached.length_le (fun _ _ => not_passes_of_blocks hg) hreached'
    refine Nat.lt_of_le_of_ne hle fun hlength => ?_
    obtain ⟨rfl, rfl, rfl, rfl⟩ := hreached.unique hreached' hlength
    cases hasks with
    | condition _ he =>
        rw [hg.1] at he
        cases he
    | body _ hg' => exact hg' hg

/-- **The list itself refuses a statement** if and only if it reaches one that could never let the
others run. Where an evaluation of the list has failed, it is that error and not one of the list. -/
theorem refuses_iff (harena : c.arena? m.arena = some arena)
    (hclosure : Arena.Reads (arena.printClosure c.names body))
    (hprints : ∀ g ∈ guards, Arena.Reads (arena.print c.names g.body)) :
    (∃ err n, Ends c (statements c scope body index result guards) m (.error err) n ∧
      (∃ text, err.cause = .unreachableCode text) ∧
      ∀ q n r n', Puts c (statements c scope body index result guards) m q n →
        Ends c (step c q) n r n' → ∃ v, r = .ok v) ↔
      ∃ before g rest s, Reached c arena scope guards m before g rest s ∧ arena.Blocks g rest := by
  constructor
  · rintro ⟨err, n, hends, ⟨text, hcause⟩, hok⟩
    rcases (ends_iff harena).mp hends with ⟨_, -, ⟨⟩⟩ | ⟨before, g, rest, s, hreached, hstops⟩
    -- no question of this statement fails, so the error is the statement's own
    have hasked : ∀ q n n' e, Asks c arena scope g rest s q n →
        ¬ Ends c (step c q) n (.error e) n' := by
      intro q n n' e hasks hr
      have hputs : Puts c (statements c scope body index result guards) m q n :=
        (puts_iff harena).mpr ⟨before, g, rest, s, hreached, hasks⟩
      obtain ⟨v, hv⟩ := hok q n _ n' hputs hr
      cases hv
    have hsome : (arena.assigns? g).isSome := hstops.isSome_assigns?
    -- of all ways to stop only the refusal has this cause
    cases hstops with
    | condition _ hfails =>
        cases hfails with
        | failed hc hr => exact absurd hr (hasked _ _ _ _ (.condition hsome hc))
        | illTyped _ _ _ herr =>
            rw [herr.cause_eq] at hcause
            cases hcause
    | returned _ hg hd hr => exact absurd hr (hasked _ _ _ _ (.body hsome hg hd))
    | assignment ha hd hr =>
        refine absurd hr (hasked _ _ _ _ (.body hsome (fun hg => ?_) hd))
        rw [hg.2.1] at ha
        cases ha
    | refused hg => exact ⟨before, g, rest, _, hreached, hg⟩
  · rintro ⟨before, g, rest, s, hreached, hg⟩
    obtain ⟨⟨text, err, -, herr, hends⟩, hearlier⟩ :=
      exists_ends_of_blocks index result harena hclosure (hprints g hreached.mem) hreached hg
    refine ⟨err, s, hends, ⟨text, herr.cause_eq⟩, fun q n r n' hputs hr => ?_⟩
    obtain ⟨before', g', rest', s', hreached', hasks⟩ := (puts_iff harena).mp hputs
    -- whatever asked before the refused statement has passed, so its questions had values
    obtain ⟨o, t, hpasses⟩ := hreached'.passes hreached (hearlier _ _ _ _ _ _ hreached' hasks)
    exact hpasses.ok_of_asks hasks hr

end Statement

/-! ## The statements of a body -/

open Statement

variable {c : Context} {arena : Arena} {scope : ScopeId} {body : BodyRange} {guards : List Guard}
  {m : Machine}

/-- A body in an arena is its list of statements, with the empty array as the result so far. -/
theorem bodyIn_apply (harena : c.arena? m.arena = some arena)
    (hguards : arena.body? body = some guards) :
    bodyIn c body scope m = statements c scope body 0 .emptyArray guards m := by
  refine (bind_of_finished (currentArena_apply harena)).trans ?_
  rw [hguards]
  rfl

/-- **The statements of a closure run in order.** A list ends because all its statements pass, with
the value of the last assignment, or because one that is reached stops it; it asks what the
statements ask that are reached, and behind one that stops none is reached. A statement that is to
run and is no assignment gives the result. So two lists that agree up to a conditional statement of
that kind, whose condition never comes out false where it is reached, end alike whatever follows:
with the same value, or with errors of the same cause, and on the same machine. The list refuses a
statement itself if and only if it reaches one that could never let the others run; nothing of that
one is asked, and the machine stays as it is.

The errors of the list itself come with a note on the closure, so where it is about them the closure
has to be one that can be printed, like every closure of an arena that was built children first
(`Arena.Layered.reads_printClosure`). -/
theorem statements_in_order (harena : c.arena? m.arena = some arena)
    (hguards : arena.body? body = some guards) (scope : ScopeId) :
    (∀ r m', Ends c (bodyIn c body scope) m r m' ↔
      (∃ vs, AllPass c arena scope guards m vs m' ∧ r = .ok (vs.getLast?.getD .emptyArray)) ∨
      ∃ before g rest s, Reached c arena scope guards m before g rest s ∧
        Stops c arena scope body before.length g rest s r m') ∧
    (∀ q n, Puts c (bodyIn c body scope) m q n ↔
      ∃ before g rest s, Reached c arena scope guards m before g rest s ∧
        Asks c arena scope g rest s q n) ∧
    (∀ before g rest s r m', Reached c arena scope guards m before g rest s →
      Stops c arena scope body before.length g rest s r m' →
      ∀ before' g' rest' s', Reached c arena scope guards m before' g' rest' s' →
        before'.length ≤ before.length) ∧
    (∀ before g rest s t, Reached c arena scope guards m before g rest s →
      arena.assigns? g = some false → ¬ arena.Blocks g rest →
      Decides c scope g.condition s true t →
      (∀ r m', Ends c (bodyIn c body scope) m r m' ↔
        Ends c (step c (.evaluate g.body scope)) t r m') ∧
      ∀ before' g' rest' s', Reached c arena scope guards m before' g' rest' s' →
        before'.length ≤ before.length) ∧
    (∀ body' before g rest rest', guards = before ++ g :: rest →
      arena.body? body' = some (before ++ g :: rest') →
      Arena.Reads (arena.printClosure c.names body') → g.condition ≠ none →
      arena.assigns? g = some false →
      (∀ s t, Reached c arena scope guards m before g rest s →
        ¬ Decides c scope g.condition s false t) →
      ∀ r m', Ends c (bodyIn c body scope) m r m' → ∃ r', Ends c (bodyIn c body' scope) m r' m' ∧
        r'.mapError EvalError.cause = r.mapError EvalError.cause) ∧
    (Arena.Reads (arena.printClosure c.names body) →
      ((∃ err n, Ends c (bodyIn c body scope) m (.error err) n ∧
          (∃ text, err.cause = .unreachableCode text) ∧
          ∀ q n r n', Puts c (bodyIn c body scope) m q n → Ends c (step c q) n r n' →
            ∃ v, r = .ok v) ↔
        ∃ before g rest s, Reached c arena scope guards m before g rest s ∧
          arena.Blocks g rest) ∧
      ∀ before g rest s, Reached c arena scope guards m before g rest s → arena.Blocks g rest →
        (∃ text err, arena.print c.names g.body = .ok text ∧
          FailsAt c arena body before.length (.unreachableCode text) g.body err ∧
          Ends c (bodyIn c body scope) m (.error err) s) ∧
        ∀ before' g' rest' s' q n, Reached c arena scope guards m before' g' rest' s' →
          Asks c arena scope g' rest' s' q n → before'.length < before.length) := by
  -- the arena is found, so the body is its list of statements
  have happly : ∀ {body guards}, arena.body? body = some guards →
      bodyIn c body scope m = statements c scope body 0 .emptyArray guards m :=
    fun h => bodyIn_apply harena h
  have hends : ∀ r m', Ends c (bodyIn c body scope) m r m' ↔
      Ends c (statements c scope body 0 .emptyArray guards) m r m' :=
    fun _ _ => ends_congr (happly hguards)
  have hputs : ∀ q n, Puts c (bodyIn c body scope) m q n ↔
      Puts c (statements c scope body 0 .emptyArray guards) m q n :=
    fun _ _ => puts_congr (happly hguards)
  simp only [hends, hputs]
  refine ⟨fun r m' => ?_, fun q n => puts_iff harena,
    fun before g rest s r m' h hstops _ _ _ _ h' =>
      h.length_le (fun _ _ hpasses => hpasses.not_stops hstops) h',
    fun before g rest s t h ha hg hd => ⟨fun r m' => ends_iff_of_reached harena h ha hg hd,
      fun _ _ _ _ h' => h.length_le (fun _ _ => not_passes_of_decides ha hd) h'⟩, ?_,
    fun hclosure => ?_⟩
  · have hall : Ends c (statements c scope body 0 .emptyArray guards) m r m' ↔ _ :=
      ends_iff harena
    simpa only [Nat.zero_add] using hall
  · -- what follows a statement that does not pass is never looked at, except for being there
    rintro body' before g rest rest' rfl hguards' hclosure hc ha hd r m' hr
    obtain ⟨r', hr', hcause⟩ := exists_ends_of_common harena hclosure hc ha hd hr
    exact ⟨r', (ends_congr (happly hguards')).mpr hr', hcause⟩
  · -- the text of the refused statement is printed, since the closure can be
    have hprints := Arena.reads_print_of_printClosure hclosure hguards
    refine ⟨refuses_iff harena hclosure hprints, fun before g rest s h hg => ?_⟩
    have hrefused := exists_ends_of_blocks 0 .emptyArray harena hclosure (hprints g h.mem) h hg
    simpa only [Nat.zero_add] using hrefused

end Eval

/-! ## Two lists of one arena -/

/-- `X←7`, `1:X`, `2` and `2`. -/
def Arena.early : Arena :=
  let a := (Arena.empty.addExpr ⟨.int 7, .dummy⟩).2
  let a := (a.addExpr ⟨.assign ⟨14⟩ ⟨0⟩, .dummy⟩).2
  let a := (a.addExpr ⟨.int 1, .dummy⟩).2
  let a := (a.addExpr ⟨.variable ⟨14⟩, .dummy⟩).2
  let a := (a.addExpr ⟨.int 2, .dummy⟩).2
  (a.addBody [⟨none, ⟨1⟩⟩, ⟨some ⟨2⟩, ⟨3⟩⟩, ⟨none, ⟨4⟩⟩, ⟨none, ⟨4⟩⟩]).2

theorem Arena.childrenFirst_early : Arena.early.ChildrenFirst := by
  refine .body (.expr (.expr (.expr (.expr (.expr .empty ?_) ?_) ?_) ?_) ?_) ?_
  · exact ⟨by decide, rfl⟩
  · exact ⟨by decide, rfl⟩
  · exact ⟨by decide, rfl⟩
  · exact ⟨by decide, rfl⟩
  · exact ⟨by decide, rfl⟩
  · decide

/-- The arena with no library. -/
def Context.early : Context where
  registry := .empty .initial
  tower := .standard
  arenas := #[.early]

def Machine.early : Machine where
  arena := ⟨0⟩
  calls := .empty 3
  scopes := Scopes.empty.outermost.2

open Eval Statement in
/-- `{X←7 ⋄ 1:X ⋄ 2 ⋄ 2}` gives 7, though its third statement could never let the last one run. The
same two statements in a closure of their own are refused. -/
theorem Eval.statements_in_order_early :
    (∃ m', Ends .early (bodyIn .early ⟨0, 4⟩ ⟨0⟩) .early (.ok (.number (.int 7))) m') ∧
    ∃ err, err.cause = .unreachableCode "2" ∧
      Ends .early (bodyIn .early ⟨2, 2⟩ ⟨0⟩) .early (.error err) .early := by
  have hlayered : Arena.early.Layered := Arena.childrenFirst_early.layered
  have harena : Context.early.arena? Machine.early.arena = some .early := rfl
  constructor
  · have hguards : Arena.early.body? ⟨0, 4⟩ =
        some [⟨none, ⟨1⟩⟩, ⟨some ⟨2⟩, ⟨3⟩⟩, ⟨none, ⟨4⟩⟩, ⟨none, ⟨4⟩⟩] := rfl
    obtain ⟨-, -, -, hfirst, -⟩ := statements_in_order harena hguards ⟨0⟩
    have hruns : ∃ s v t m', Passes .early .early ⟨0⟩ ⟨none, ⟨1⟩⟩ .early (some v) s ∧
        Decides .early ⟨0⟩ (some ⟨2⟩) s true t ∧
        Ends .early (step .early (.evaluate ⟨3⟩ ⟨0⟩)) t (.ok (.number (.int 7))) m' :=
      ⟨_, _, _, _, .assigned rfl .always ⟨20, rfl⟩, .evaluated ⟨20, rfl⟩ (.number rfl), ⟨20, rfl⟩⟩
    obtain ⟨s, v, t, m', hpasses, hdecides, hvalue⟩ := hruns
    have hends := (hfirst [⟨none, ⟨1⟩⟩] ⟨some ⟨2⟩, ⟨3⟩⟩ _ s t ⟨rfl, _, .cons hpasses .nil⟩ rfl
      (by rintro ⟨⟨⟩, -⟩) hdecides).1
    exact ⟨m', (hends _ _).mpr hvalue⟩
  · have hguards : Arena.early.body? ⟨2, 2⟩ = some [⟨none, ⟨4⟩⟩, ⟨none, ⟨4⟩⟩] := rfl
    obtain ⟨-, -, -, -, -, hrefuses⟩ := statements_in_order harena hguards ⟨0⟩
    have hblocks : Arena.early.Blocks ⟨none, ⟨4⟩⟩ [⟨none, ⟨4⟩⟩] := ⟨rfl, rfl, by simp⟩
    obtain ⟨-, hrefused⟩ := hrefuses (hlayered.reads_printClosure _ rfl)
    obtain ⟨⟨text, err, htext, herr, hends⟩, -⟩ := hrefused [] _ _ _ ⟨rfl, _, .nil⟩ hblocks
    cases htext
    exact ⟨err, herr.cause_eq, hends⟩

end ArrayLang

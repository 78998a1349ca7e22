import ArrayLang.Proofs.Evaluation.Calls

/-!
# Panics

A panic stops the whole evaluation, and no step can go on after one of its questions panicked. So
there are two ways to look at it. `Eval.Panics` says that a step comes to a panic, in whichever
question that is, and `Eval.Breaks` that it does so by itself, with all its questions answered.

* `Eval.panics_iff` — an evaluation panics exactly if it leads to a request whose own step breaks.
* `Eval.exists_executes_of_breaks` — but for dangling handles, what breaks is a body that is
  executed there.
* `Eval.Within.ends_or_panics` — a step within a licence ends, or panics as the licence permits, if
  its questions do.
-/

namespace ArrayLang

theorem Outcome.mapEnd_eq_panics_iff {α : Type} {o : Outcome α} {f : EvalError → EvalError}
    {g : Machine → Machine} {why : Panic} : o.mapEnd f g = .panics why ↔ o = .panics why := by
  cases o with
  | finished r m => cases r <;> exact ⟨nofun, nofun⟩
  | panics why' => exact Iff.rfl
  | unfinished => exact Iff.rfl

namespace Progress

variable {α : Type} {answers : Request → Machine → Except EvalError Value → Machine → Prop}
  {p : Progress α} {why : Panic}

/-- The step comes to this panic when its questions are answered as `answers` says. -/
inductive Breaks (answers : Request → Machine → Except EvalError Value → Machine → Prop) :
    Progress α → Panic → Prop
  | here {why : Panic} : Breaks answers (.panics why) why
  | later {q : Request} {m m' : Machine} {r : Except EvalError Value} {why : Panic}
      {resume : Except EvalError Value → Machine → Progress α} (hr : answers q m r m')
      (h : Breaks answers (resume r m') why) : Breaks answers (.asks q m resume) why

/-- A panic behind answered questions is there for whoever gives the same answers. -/
theorem Breaks.mono {answers' : Request → Machine → Except EvalError Value → Machine → Prop}
    (h : p.Breaks answers why) (himp : ∀ q m r m', answers q m r m' → answers' q m r m') :
    p.Breaks answers' why := by
  induction h with
  | here => exact .here
  | later hr _ ih => exact .later (himp _ _ _ _ hr) ih

/-- Changing the end changes nothing about panics. -/
theorem breaks_mapEnd_iff {f : EvalError → EvalError} {g : Machine → Machine} :
    (p.mapEnd f g).Breaks answers why ↔ p.Breaks answers why := by
  induction p with
  | finished r m =>
      cases r with
      | ok a => exact ⟨by rintro ⟨⟩, by rintro ⟨⟩⟩
      | error e => exact ⟨by rintro ⟨⟩, by rintro ⟨⟩⟩
  | asks q m resume ih =>
      constructor
      · intro h
        cases h with
        | later hr h => exact .later hr ((ih _ _).mp h)
      · intro h
        cases h with
        | later hr h => exact .later hr ((ih _ _).mpr h)
  | panics why => exact Iff.rfl

/-- A step that asks panics in its question or after it. -/
theorem resolve_asks_eq_panics_iff {answer : Request → Machine → Outcome Value} {q : Request}
    {m : Machine} {resume : Except EvalError Value → Machine → Progress α} :
    (asks q m resume).resolve answer = .panics why ↔
      answer q m = .panics why ∨
        ∃ r s, answer q m = .finished r s ∧ (resume r s).resolve answer = .panics why := by
  simp only [resolve]
  cases answer q m <;> simp

/-- A step that panics does so by itself, or in a question that it comes to. -/
theorem breaks_or_puts {answer : Request → Machine → Outcome Value}
    (h : p.resolve answer = .panics why) :
    p.Breaks (fun q m r m' => answer q m = .finished r m') why ∨
      ∃ q m, p.Puts (fun q m r m' => answer q m = .finished r m') q m ∧
        answer q m = .panics why := by
  induction p with
  | finished r m => cases h
  | asks q m resume ih =>
      rcases resolve_asks_eq_panics_iff.mp h with hq | ⟨r, m', hq, h⟩
      · exact .inr ⟨q, m, .here, hq⟩
      · rcases ih r m' h with hb | ⟨q', n, hput, hq'⟩
        · exact .inl (.later hq hb)
        · exact .inr ⟨q', n, .later hq hput, hq'⟩
  | panics why' =>
      cases h
      exact .inl .here

/-- What a step may panic with is up to its contract, as long as the answers keep it. -/
theorem Meets.of_breaks {k : Contract} {post : Except EvalError α → Machine → Prop}
    {d : Panic → Prop} (h : p.Meets k post d) (hb : p.Breaks answers why)
    (hans : ∀ q m r m', k.requires q m → answers q m r m' → k.ensures q m r m') : d why := by
  induction hb with
  | here => exact h
  | later hr _ ih =>
      obtain ⟨hreq, hres⟩ := h
      exact ih (hres _ _ (hans _ _ _ _ hreq hr))

end Progress

namespace Eval

variable {α β : Type} {c : Context} {x : Eval α} {q q' : Request} {m m' n : Machine}
  {why : Panic}

/-- The step comes to this panic by itself, when the evaluator answers its questions. -/
def Breaks (c : Context) (x : Eval α) (m : Machine) (why : Panic) : Prop :=
  (x m).Breaks (fun q m r m' => Ends c (step c q) m r m') why

/-- The step comes to this panic, by itself or in one of its questions. -/
def Panics (c : Context) (x : Eval α) (m : Machine) (why : Panic) : Prop :=
  ∃ depth, (x m).resolve (run c depth) = .panics why

/-! ## Where panics come from -/

/-- An evaluation panics if some run of it does. -/
theorem panics_step_iff : Panics c (step c q) m why ↔ ∃ depth, run c depth q m = .panics why := by
  constructor
  · rintro ⟨d, hd⟩
    exact ⟨d + 1, hd⟩
  · rintro ⟨d, hd⟩
    cases d with
    | zero => cases hd
    | succ d => exact ⟨d, hd⟩

/-- A question that is answered changes nothing about the panic behind it. -/
theorem panics_asks_of_ends {k : Except EvalError Value → Machine → Progress α}
    {r : Except EvalError Value}
    (hq : Ends c (step c q) m r n) (h : Panics c (k r) n why) :
    Panics c (fun m => .asks q m k) m why := by
  obtain ⟨d, hd⟩ := ends_step_iff.mp hq
  obtain ⟨d', hd'⟩ := h
  -- a depth that is enough for the question and for what follows
  refine ⟨max d d', Progress.resolve_asks_eq_panics_iff.mpr (.inr ⟨r, n, ?_, ?_⟩)⟩
  · rw [run_eq_of_le (Nat.le_max_left d d') (by simp [hd]), hd]
  rw [← hd']
  exact Progress.resolve_eq_of_extends (fun _ _ => run_eq_of_le (Nat.le_max_right d d')) _
    (by simp [hd'])

/-- A question that panics is the end of the step that put it. -/
theorem panics_asks {k : Except EvalError Value → Machine → Progress α}
    (h : Panics c (step c q) m why) :
    Panics c (fun m => .asks q m k) m why := by
  obtain ⟨d, hd⟩ := panics_step_iff.mp h
  exact ⟨d, Progress.resolve_asks_eq_panics_iff.mpr (.inl hd)⟩

/-- A step that breaks by itself panics. -/
theorem Breaks.panics (h : Breaks c x m why) : Panics c x m why := by
  change (x m).Breaks _ why at h
  show ∃ depth, (x m).resolve (run c depth) = .panics why
  generalize x m = p at h
  induction h with
  | here => exact ⟨0, rfl⟩
  | @later q m n r why resume hr _ ih => exact panics_asks_of_ends (k := resume) hr ih

/-- A question that panics lets the step panic that puts it. -/
theorem Puts.panics (hp : Puts c x m q n) (h : Panics c (step c q) n why) : Panics c x m why := by
  change (x m).Puts _ q n at hp
  show ∃ depth, (x m).resolve (run c depth) = .panics why
  generalize x m = p at hp
  induction hp with
  | @here q m resume => exact panics_asks (k := resume) h
  | @later q q' m n s r resume hr _ ih => exact panics_asks_of_ends (k := resume) hr (ih h)

/-- A panic comes out of any depth. -/
theorem Leads.panics (hl : Leads c q m q' n) (h : Panics c (step c q') n why) :
    Panics c (step c q) m why := by
  induction hl with
  | refl => exact h
  | tail _ hp ih => exact ih (hp.panics h)

/-- **An evaluation panics exactly if a step on the way does by itself.** -/
theorem panics_iff :
    Panics c (step c q) m why ↔ ∃ q' n, Leads c q m q' n ∧ Breaks c (step c q') n why := by
  constructor
  · intro h
    obtain ⟨depth, hrun⟩ := panics_step_iff.mp h
    clear h
    induction depth generalizing q m with
    | zero => cases hrun
    | succ depth ih =>
        rcases Progress.breaks_or_puts hrun with hb | ⟨q₁, m₁, hput, hq₁⟩
        · exact ⟨q, m, .refl, hb.mono fun _ _ _ _ h => ends_step_iff.mpr ⟨depth, h⟩⟩
        · obtain ⟨q', n, hl, hb⟩ := ih hq₁
          exact ⟨q', n, .head (hput.mono fun _ _ _ _ h => ends_step_iff.mpr ⟨depth, h⟩) hl, hb⟩
  · rintro ⟨q', n, hl, hb⟩
    exact hl.panics hb.panics

/-! ## Bodies that are executed -/

/-- The request is answered by executing this body. -/
inductive Executes (c : Context) : Request → Body Value → Prop
  | primitive {symbol : Name} {left : Option Value} {right : Value} {scope : ScopeId} {d : Dispatch}
      (h : c.registry.resolve c.tower symbol left right = .ok d) :
      Executes c (.call (.primitive symbol) left right scope) (d.body c.tower d.left d.right)
  | derived {f : Derived} {left : Option Value} {right : Value} {scope : ScopeId}
      {body : OperatorBody} (h : c.registry.body? f.body = some body) :
      Executes c (.call (.derived f) left right scope) (body c.tower f.left f.right left right)

variable {b : Body Value}

/-- Whatever is executed was registered. -/
theorem Executes.hasBody (h : Executes c q b) : c.registry.HasBody c.tower b := by
  cases h with
  | primitive h => exact Registry.hasBody_of_resolve h
  | derived h => exact Registry.hasBody_of_body? h ..

/-- The step of such a request is the body, with its calls made in the scope of the request. -/
theorem Executes.step_eq (h : Executes c q b) : step c q = ofBody q.scope b := by
  cases h with
  | @primitive symbol left right scope d h =>
      show (ofExcept (c.registry.resolve c.tower symbol left right) >>= _) = _
      rw [h]
      rfl
  | @derived f left right scope body h =>
      show (found (c.registry.body? f.body) >>= _) = _
      rw [h]
      rfl

/-- A request is executed, or it is an expression or the call of a closure, or it ends or panics at
once. -/
theorem executes_or (c : Context) (q : Request) :
    (∃ b, Executes c q b) ∨ (∃ e scope, q = .evaluate e scope) ∨
      (∃ f left right scope, q = .call (.closure f) left right scope) ∨
      (∃ e, e.cause.refusesUse = true ∧ step c q = ofExcept (.error e)) ∨
      step c q = fun _ => .panics .dangling := by
  match q with
  | .evaluate e scope => exact .inr (.inl ⟨e, scope, rfl⟩)
  | .call (.closure f) left right scope => exact .inr (.inr (.inl ⟨f, left, right, scope, rfl⟩))
  | .call (.primitive symbol) left right scope =>
      cases h : c.registry.resolve c.tower symbol left right with
      | ok d => exact .inl ⟨_, .primitive h⟩
      | error e =>
          refine .inr (.inr (.inr (.inl ⟨e, resolve_error h, ?_⟩)))
          show (ofExcept (c.registry.resolve c.tower symbol left right) >>= _) = _
          rw [h]
          rfl
  | .call (.derived f) left right scope =>
      cases h : c.registry.body? f.body with
      | some body => exact .inl ⟨_, .derived h⟩
      | none =>
          refine .inr (.inr (.inr (.inr ?_)))
          show (found (c.registry.body? f.body) >>= _) = _
          rw [h]
          rfl

/-- The licence that permits everything but panics of bodies. -/
def calm (arena : ArenaId) (scope : ScopeId) : Licence :=
  { Licence.free arena scope with panics := (· = .dangling) }

theorem open_calm (arena : ArenaId) (scope : ScopeId) : (calm arena scope).Open :=
  ⟨fun _ => trivial, fun _ => trivial, rfl⟩

/-- Every answer comes back in the arena and the calls of its question. -/
theorem Within.meets_calm {scope : ScopeId} {p : α → Prop}
    (hx : Within c (calm m.arena scope) p x) :
    (x m).Meets (.keeping SameControl) (fun _ _ => True) (· = .dangling) := by
  have hmeets := hx.meets_or (k := .keeping SameControl) (d := (· = .dangling))
    (invariant_control rfl fun _ => trivial) (fun _ h => h)
    (fun q n _ hn => ⟨trivial, fun r n' hr => ?_⟩) ⟨rfl, rfl⟩
  · exact hmeets.mono fun _ _ _ => trivial
  · refine ⟨trans_of SameControl hn hr, ?_⟩
    cases r <;> trivial

/-- A body by itself panics only with an answer that lets it. -/
theorem panics_of_breaks_ofBody {scope : ScopeId} {b : Body α}
    (h : Breaks c (ofBody scope b) m why) : why = .body ∧ b.Panics := by
  change (ofBody scope b m).Breaks _ why at h
  induction b generalizing m with
  | done r => cases h
  | call f left right resume ih =>
      cases h with
      | @later _ _ s r _ _ _ h =>
          obtain ⟨rfl, hb⟩ := ih r h
          exact ⟨rfl, r, hb⟩
  | panics =>
      cases h
      exact ⟨rfl, trivial⟩

/-- **What breaks is a body**, if it is no dangling handle. -/
theorem exists_executes_of_breaks (h : Breaks c (step c q) m .body) :
    ∃ b, Executes c q b ∧ b.Panics := by
  have hcalm : ∀ {p : Progress Value},
      p.Meets (.keeping SameControl) (fun _ _ => True) (· = .dangling) →
        ¬ p.Breaks (fun q m r m' => Ends c (step c q) m r m') .body := by
    intro p hp hb
    cases hp.of_breaks hb fun _ _ _ _ _ hr => control_keptBy.ends trivial hr
  rcases executes_or c q with ⟨b, hb⟩ | ⟨e, scope, rfl⟩ | ⟨f, left, right, scope, rfl⟩ |
    ⟨e, -, hstep⟩ | hstep
  · rw [hb.step_eq] at h
    exact ⟨b, hb, (panics_of_breaks_ofBody h).2⟩
  · have hx : Within c (calm m.arena scope) _ (step c (.evaluate e scope)) :=
      within_open_evaluate (open_calm ..) (fun _ _ => trivial) (fun _ => trivial)
        (fun _ => trivial) (fun _ => trivial) e
    exact absurd h (hcalm hx.meets_calm)
  · have hbody : Within c (calm f.arena ⟨m.scopes.size⟩) _ (bodyIn c f.body ⟨m.scopes.size⟩) :=
      within_open_bodyIn (open_calm ..) (fun _ _ => trivial) (fun _ => trivial) f.body
    refine absurd h
      (hcalm (meets_callClosure (fun _ => trivial) (fun _ _ => trivial) fun _ _ => ?_))
    exact hbody.meets_calm (m := m.enter f left right scope)
  · unfold Breaks at h
    rw [hstep] at h
    cases h
  · unfold Breaks at h
    rw [hstep] at h
    cases h

/-! ## Steps that end or panic -/

/-- There is no going on behind a panic. -/
theorem panics_bind_left {f : α → Eval β} (h : Panics c x m why) : Panics c (x >>= f) m why := by
  obtain ⟨d, hd⟩ := h
  refine ⟨d, ?_⟩
  rw [bind_apply, Progress.resolve_bind, hd]
  rfl

/-- A panic of the second step is one of both. -/
theorem panics_bind_right {f : α → Eval β} {a : α} (hx : Ends c x m (.ok a) n)
    (h : Panics c (f a) n why) : Panics c (x >>= f) m why := by
  obtain ⟨d, hd⟩ := hx
  obtain ⟨d', hd'⟩ := h
  refine ⟨max d d', ?_⟩
  rw [bind_apply, Progress.resolve_bind, resolve_run_of_le (Nat.le_max_left d d') hd]
  show (f a n).resolve _ = _
  rw [← hd']
  exact Progress.resolve_eq_of_extends (fun _ _ => run_eq_of_le (Nat.le_max_right d d')) _
    (by simp [hd'])

section Closures

variable {f : Closure} {left : Option Value} {right : Value} {scope : ScopeId}

/-- A closure call panics exactly if it is entered and its statements panic. -/
theorem resolve_callClosure_eq_panics_iff {answer : Request → Machine → Outcome Value} :
    (step c (.call (.closure f) left right scope) m).resolve answer = .panics why ↔
      m.calls.depth < m.calls.limit ∧ ¬ f.body.isEmpty = true ∧
        (bodyIn c f.body ⟨m.scopes.size⟩ (m.enter f left right scope)).resolve answer =
          .panics why := by
  show (callClosure c f left right scope m).resolve _ = _ ↔ _
  rw [callClosure_apply]
  by_cases hfull : m.calls.limit ≤ m.calls.depth
  · rw [if_pos hfull]
    exact ⟨by rintro ⟨⟩, fun h => absurd h.1 (Nat.not_lt_of_le hfull)⟩
  · rw [if_neg hfull]
    by_cases hempty : f.body.isEmpty = true
    · rw [if_pos hempty]
      exact ⟨by rintro ⟨⟩, fun h => absurd hempty h.2.1⟩
    · rw [if_neg hempty, Progress.resolve_mapEnd, Outcome.mapEnd_eq_panics_iff]
      exact ⟨fun h => ⟨Nat.lt_of_not_le hfull, hempty, h⟩, fun h => h.2.2⟩

/-- A closure call panics if its statements do. -/
theorem panics_callClosure (hlt : m.calls.depth < m.calls.limit) (hempty : ¬ f.body.isEmpty = true)
    (h : Panics c (bodyIn c f.body ⟨m.scopes.size⟩) (m.enter f left right scope) why) :
    Panics c (step c (.call (.closure f) left right scope)) m why := by
  obtain ⟨d, hd⟩ := h
  exact ⟨d, resolve_callClosure_eq_panics_iff.mpr ⟨hlt, hempty, hd⟩⟩

end Closures

theorem panics_locating {s : Span} (h : Panics c x m why) : Panics c (locating s x) m why := by
  obtain ⟨d, hd⟩ := h
  refine ⟨d, ?_⟩
  show ((x m).mapEnd _ id).resolve _ = _
  rw [Progress.resolve_mapEnd, hd]
  rfl

variable {l : Licence} {I : Machine → Prop} {p : α → Prop}

/-- **A step within a licence comes to an end or panics as the licence lets it**, if its questions
do. -/
theorem Within.ends_or_panics (h : Within c l p x) (hI : l.Invariant I)
    (hask : ∀ q m, l.Asks q → I m →
      (∃ r m', Ends c (step c q) m r m' ∧ I m' ∧ l.Allows l.value r) ∨
        ∃ why, l.panics why ∧ Panics c (step c q) m why) (hm : I m) :
    (∃ r m', Ends c x m r m' ∧ I m' ∧ l.Allows p r) ∨
      ∃ why, l.panics why ∧ Panics c x m why := by
  -- along the licence, with the invariant for the machine that each part begins on
  induction h generalizing m with
  | result h => exact .inl ⟨_, m, ends_ofExcept_iff.mpr ⟨rfl, rfl⟩, hm, h⟩
  | bind _ _ ihx ihf =>
      rcases ihx hm with ⟨r, m', hx, hm', hr⟩ | ⟨why, hwhy, hx⟩
      · cases r with
        | ok a =>
            rcases ihf a hr hm' with ⟨s, m'', hf, hm'', hs⟩ | ⟨why, hwhy, hf⟩
            · exact .inl ⟨s, m'', ends_bind_iff.mpr (.inl ⟨a, m', hx, hf⟩), hm'', hs⟩
            · exact .inr ⟨why, hwhy, panics_bind_right hx hf⟩
        | error e => exact .inl ⟨.error e, m', ends_bind_iff.mpr (.inr ⟨e, hx, rfl⟩), hm', hr⟩
      · exact .inr ⟨why, hwhy, panics_bind_left hx⟩
  | locating _ s ih =>
      rcases ih hm with ⟨r, m', hx, hm', hr⟩ | ⟨why, hwhy, hx⟩
      · refine .inl ⟨_, m', ends_locating_iff.mpr ⟨r, hx, rfl⟩, hm', ?_⟩
        cases r with
        | ok a => exact hr
        | error e =>
            show l.fails (e.locate s).cause
            rw [EvalError.cause_locate]
            exact hr
      · exact .inr ⟨why, hwhy, panics_locating hx⟩
  | arena => exact .inl ⟨.ok m.arena, m, ⟨0, rfl⟩, hm, hI.arena m hm⟩
  | @found _ o h =>
      cases o with
      | none => exact .inr ⟨.dangling, h rfl, 0, rfl⟩
      | some a => exact .inl ⟨.ok a, m, ends_found_iff.mpr ⟨a, rfl, rfl, rfl⟩, hm, rfl⟩
  | @lookup x h =>
      cases hv : m.scopes.lookup? l.scope x with
      | some v =>
          refine .inl ⟨.ok v, m, ends_variableValue_ok_iff.mpr ⟨hv, rfl⟩, hm, ?_⟩
          exact hI.lookup m x v hm hv
      | none => exact .inl ⟨_, m, ends_of_eq (variableValue_of_none hv), hm, h⟩
  | define hx hv => exact .inl ⟨.ok (), _, ⟨0, rfl⟩, hI.define m _ _ hm hx hv, trivial⟩
  | @store x v hx hv h =>
      cases hs : m.scopes.assign? l.scope x v with
      | some scopes =>
          refine .inl ⟨.ok (), _, ends_of_eq (store_of_some hs), ?_, trivial⟩
          exact hI.store m _ _ scopes hm hx hv hs
      | none => exact .inl ⟨_, m, ends_of_eq (store_of_none hs), hm, h⟩
  | asks hq _ _ ih =>
      rcases hask _ m hq hm with ⟨s, n, hs, hn, hs'⟩ | ⟨why, hwhy, hs⟩
      · -- the answer is allowed, so the rest goes on as the licence says
        rcases ih s hs' hn with ⟨r, m', hr, hm', hr'⟩ | ⟨why, hwhy, hr⟩
        · exact .inl ⟨r, m', ends_asks_iff.mpr ⟨s, n, hs, hr⟩, hm', hr'⟩
        · exact .inr ⟨why, hwhy, panics_asks_of_ends hs hr⟩
      · exact .inr ⟨why, hwhy, panics_asks hs⟩
  | panics h => exact .inr ⟨.body, h, 0, rfl⟩

end Eval

end ArrayLang

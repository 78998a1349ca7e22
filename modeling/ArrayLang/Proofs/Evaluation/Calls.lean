import ArrayLang.Proofs.Evaluation.Questions
import ArrayLang.Proofs.Scopes.Growth

/-!
# Calls of closures

A closure call is refused at the limit, gives the empty array if there are no statements, and else
runs them on a machine of its own, `Machine.enter`, and gives the arena and the stack of calls back
(`Eval.callClosure_apply`); what it does is therefore what these three do
(`Eval.meets_callClosure`). All other steps stay in the arena and the calls they begin in
(`Eval.within_step_or_closure`).

All questions of an evaluation are therefore put in the arena it began in or in that of a closure
that is run on the way (`Eval.Leads.arena`), and under the same limit (`Eval.Leads.limit_eq`).
-/

namespace ArrayLang

/-- The scope that the request is made from. -/
def Request.scope : Request → ScopeId
  | .evaluate _ scope | .call _ _ _ scope => scope

/-- The machine on which the statements of a closure begin, when it is called from `scope`. -/
def Machine.enter (m : Machine) (f : Closure) (left : Option Value) (right : Value)
    (scope : ScopeId) : Machine where
  arena := f.arena
  calls := { m.calls with frames := m.calls.frames.push ⟨f.body⟩ }
  scopes := m.scopes.withArguments left right scope

/-- A machine on which a closure call has ended, with the arena and the calls given back that `m`
had. -/
def Machine.leaveTo (m s : Machine) : Machine := { s with arena := m.arena, calls := s.calls.pop }

/-- A call has a scope of its own. -/
theorem Machine.size_lt_enter (m : Machine) (f : Closure) (left : Option Value) (right : Value)
    (scope : ScopeId) : m.scopes.size < (m.enter f left right scope).scopes.size := by
  show _ < (m.scopes.withArguments left right scope).size
  rw [Scopes.size_withArguments]
  exact Nat.lt_succ_self _

namespace Eval

variable {c : Context} {f : Closure} {left : Option Value} {right : Value} {scope : ScopeId}
  {m m' : Machine} {q q' : Request}

/-- **A closure call** in one equation. -/
theorem callClosure_apply :
    callClosure c f left right scope m =
      if m.calls.limit ≤ m.calls.depth then
        .finished (.error (.of (.stackOverflow m.calls.limit))) m
      else if f.body.isEmpty then .finished (.ok .emptyArray) m
      else (bodyIn c f.body ⟨m.scopes.size⟩ (m.enter f left right scope)).mapEnd id m.leaveTo := by
  obtain ⟨arena, calls, scopes⟩ := m
  show ((enter f _).bind fun _ m' => _) = _
  unfold enter CallStack.push
  by_cases hfull : calls.limit ≤ calls.depth
  · simp only [if_pos hfull]
    rfl
  · simp only [if_neg hfull]
    show (runBody c f.body left right scope _).mapEnd id _ = _
    unfold runBody
    by_cases hempty : f.body.isEmpty = true
    · simp only [if_pos hempty]
      show Progress.finished _ _ = Progress.finished _ _
      simp [CallStack.pop]
    · simp only [if_neg hempty]
      show ((argumentScope left right scope _).bind _).mapEnd id _ = _
      rw [argumentScope_apply]
      rfl

/-- A closure call does what its refusal, the empty body or the statements do. -/
theorem meets_callClosure {k : Contract} {post : Except EvalError Value → Machine → Prop}
    {d : Panic → Prop}
    (hfull : m.calls.limit ≤ m.calls.depth → post (.error (.of (.stackOverflow m.calls.limit))) m)
    (hempty : m.calls.depth < m.calls.limit → f.body.isEmpty = true → post (.ok .emptyArray) m)
    (hbody : m.calls.depth < m.calls.limit → ¬ f.body.isEmpty = true →
      (bodyIn c f.body ⟨m.scopes.size⟩ (m.enter f left right scope)).Meets k
        (fun r s => post r (m.leaveTo s)) d) :
    (step c (.call (.closure f) left right scope) m).Meets k post d := by
  show (callClosure c f left right scope m).Meets k post d
  rw [callClosure_apply]
  split
  · next hle => exact hfull hle
  · next hlt =>
      split
      · next h => exact hempty (Nat.lt_of_not_le hlt) h
      · next h => exact (hbody (Nat.lt_of_not_le hlt) h).mapEnd (fun _ _ h => h) fun _ _ h => h

/-- At the limit a closure call is refused, and its arguments and its body do not count. -/
theorem ends_callClosure_of_le (h : m.calls.limit ≤ m.calls.depth) :
    Ends c (step c (.call (.closure f) left right scope)) m
      (.error (.of (.stackOverflow m.calls.limit))) m := by
  refine ⟨0, ?_⟩
  show (callClosure c f left right scope m).resolve _ = _
  rw [callClosure_apply, if_pos h]
  rfl

/-- A closure without statements gives the empty array; it has to be entered for that, too. -/
theorem ends_callClosure_of_isEmpty (hlt : m.calls.depth < m.calls.limit)
    (hempty : f.body.isEmpty = true) :
    Ends c (step c (.call (.closure f) left right scope)) m (.ok .emptyArray) m := by
  refine ⟨0, ?_⟩
  show (callClosure c f left right scope m).resolve _ = _
  rw [callClosure_apply, if_neg (Nat.not_le_of_lt hlt), if_pos hempty]
  rfl

/-- Below the limit a closure call ends as its statements do. -/
theorem ends_callClosure_iff {r : Except EvalError Value} (hlt : m.calls.depth < m.calls.limit)
    (hempty : ¬ f.body.isEmpty = true) :
    Ends c (step c (.call (.closure f) left right scope)) m r m' ↔
      ∃ s, Ends c (bodyIn c f.body ⟨m.scopes.size⟩) (m.enter f left right scope) r s ∧
        m' = m.leaveTo s := by
  have hstep : ∀ d, (step c (.call (.closure f) left right scope) m).resolve (run c d) =
      ((bodyIn c f.body ⟨m.scopes.size⟩ (m.enter f left right scope)).resolve (run c d)).mapEnd
        id m.leaveTo := by
    intro d
    rw [← Progress.resolve_mapEnd]
    show (callClosure c f left right scope m).resolve _ = _
    rw [callClosure_apply, if_neg (Nat.not_le_of_lt hlt), if_neg hempty]
  constructor
  · intro ⟨d, hd⟩
    rw [hstep] at hd
    cases hx : (bodyIn c f.body ⟨m.scopes.size⟩ (m.enter f left right scope)).resolve (run c d) with
    | finished r₀ s =>
        rw [hx] at hd
        cases r₀ <;> cases hd <;> exact ⟨s, ⟨d, hx⟩, rfl⟩
    | panics why => rw [hx] at hd; cases hd
    | unfinished => rw [hx] at hd; cases hd
  · rintro ⟨s, ⟨d, hx⟩, rfl⟩
    refine ⟨d, ?_⟩
    rw [hstep, hx]
    cases r <;> rfl

/-- Leaving a call gives the arena and the calls back. -/
theorem sameControl_leaveTo {s : Machine} (h : SameControl (m.enter f left right scope) s) :
    SameControl m (m.leaveTo s) := by
  refine ⟨rfl, ?_⟩
  show s.calls.pop = m.calls
  rw [h.calls]
  simp [Machine.enter, CallStack.pop]

/-- **Every step but that of a closure call** stays within the licences that draw a line around
errors alone, if the registered bodies do. -/
theorem within_step_or_closure {fails : Cause → Prop} {catching : Prop} {arena : ArenaId}
    (hfails : ∀ cause, (∀ limit, cause ≠ .stackOverflow limit) → fails cause)
    (hbodies : ∀ scope b, c.registry.HasBody c.tower b →
      b.Within (.raising fails catching arena scope) fun _ => True) (q : Request) :
    (∃ scope, Within c (.raising fails catching arena scope) (fun _ => True) (step c q)) ∨
      ∃ f left right scope, q = .call (.closure f) left right scope := by
  match q with
  | .evaluate e scope =>
      exact .inl ⟨scope, within_open_evaluate (Licence.open_raising ..) hfails (fun _ => trivial)
        (fun _ => trivial) (fun _ => trivial) e⟩
  | .call (.primitive symbol) left right scope =>
      refine .inl ⟨scope, within_callPrimitive (fun cause hcause => ?_) fun d hd =>
        hbodies scope _ (Registry.hasBody_of_resolve hd)⟩
      exact hfails cause (Cause.ne_stackOverflow hcause)
  | .call (.derived d) left right scope =>
      exact .inl ⟨scope, within_callDerived (fun _ => trivial) fun body hbody =>
        hbodies scope _ (Registry.hasBody_of_body? hbody ..)⟩
  | .call (.closure f) left right scope => exact .inr ⟨f, left, right, scope, rfl⟩

end Eval

/-! ## Where questions are put -/

namespace Progress

variable {α : Type} {answers : Request → Machine → Except EvalError Value → Machine → Prop}

theorem puts_mapEnd_iff {p : Progress α} {f : EvalError → EvalError} {g : Machine → Machine}
    {q : Request} {m : Machine} : (p.mapEnd f g).Puts answers q m ↔ p.Puts answers q m := by
  induction p with
  | finished r m' =>
      cases r with
      | ok a => exact ⟨by rintro ⟨⟩, by rintro ⟨⟩⟩
      | error e => exact ⟨by rintro ⟨⟩, by rintro ⟨⟩⟩
  | asks q' m' resume ih =>
      constructor
      · intro h
        cases h with
        | here => exact .here
        | later hr h => exact .later hr ((ih _ _).mp h)
      · intro h
        cases h with
        | here => exact .here
        | later hr h => exact .later hr ((ih _ _).mpr h)
  | panics why => exact ⟨by rintro ⟨⟩, by rintro ⟨⟩⟩

end Progress

namespace Eval

variable {c : Context} {f : Closure} {left : Option Value} {right : Value} {scope : ScopeId}
  {m m' : Machine} {q q' : Request}

/-- What a step keeps as it goes within a licence that does not look at values. -/
theorem invariant_control {l : Licence} (harena : m.arena = l.arena) (hvalue : ∀ v, l.value v) :
    l.Invariant (SameControl m) where
  arena _ h := h.arena.trans harena
  lookup _ _ v _ _ := hvalue v
  define _ _ _ h _ _ := ⟨h.arena, h.calls⟩
  store _ _ _ _ h _ _ _ := ⟨h.arena, h.calls⟩

/-- A step that stays within such a licence asks all its questions in the arena and the calls that
it began in. -/
theorem Within.control_of_puts {α : Type} {p : α → Prop} {x : Eval α}
    (hx : Within c (.raising (fun _ => True) True m.arena scope) p x) (h : Puts c x m q' m') :
    SameControl m m' := by
  let k : Contract :=
    { requires := fun _ n => SameControl m n, ensures := fun _ n _ n' => SameControl n n' }
  have hmeets : (x m).Meets k fun r n => SameControl m n ∧ _ :=
    hx.meets (invariant_control rfl fun _ => trivial)
      (fun q n _ hn => ⟨hn, fun r n' hr => ?_⟩) ⟨rfl, rfl⟩
  · exact hmeets.requires_of_puts h fun _ _ _ _ _ _ hr => control_keptBy.ends trivial hr
  · refine ⟨trans_of SameControl hn hr, ?_⟩
    cases r <;> trivial

/-- The questions of a closure call are those of its statements. -/
theorem puts_callClosure_iff
    {answers : Request → Machine → Except EvalError Value → Machine → Prop} :
    (step c (.call (.closure f) left right scope) m).Puts answers q' m' ↔
      m.calls.depth < m.calls.limit ∧ ¬ f.body.isEmpty = true ∧
        (bodyIn c f.body ⟨m.scopes.size⟩ (m.enter f left right scope)).Puts answers q' m' := by
  show (callClosure c f left right scope m).Puts answers q' m' ↔ _
  rw [callClosure_apply]
  by_cases hfull : m.calls.limit ≤ m.calls.depth
  · rw [if_pos hfull]
    exact ⟨by rintro ⟨⟩, fun h => absurd h.1 (Nat.not_lt_of_le hfull)⟩
  · rw [if_neg hfull]
    by_cases hempty : f.body.isEmpty = true
    · rw [if_pos hempty]
      exact ⟨by rintro ⟨⟩, fun h => absurd hempty h.2.1⟩
    · rw [if_neg hempty, Progress.puts_mapEnd_iff]
      exact ⟨fun h => ⟨Nat.lt_of_not_le hfull, hempty, h⟩, fun h => h.2.2⟩

theorem puts_callClosure (h : Puts c (step c (.call (.closure f) left right scope)) m q' m') :
    m.calls.depth < m.calls.limit ∧ ¬ f.body.isEmpty = true ∧
      Puts c (bodyIn c f.body ⟨m.scopes.size⟩) (m.enter f left right scope) q' m' :=
  puts_callClosure_iff.mp h

/-- **Where the questions of a step are put**: in the arena and the calls it began in, or, by a
closure that is run, where its statements begin. -/
theorem Puts.control (h : Puts c (step c q) m q' m') :
    SameControl m m' ∨ ∃ f left right scope, q = .call (.closure f) left right scope ∧
      m.calls.depth < m.calls.limit ∧ SameControl (m.enter f left right scope) m' := by
  have hbody : ∀ scope b, c.registry.HasBody c.tower b →
      b.Within (.raising (fun _ => True) True m.arena scope) fun _ => True :=
    fun _ _ _ => Body.within_of_catching (Licence.open_raising ..) (fun _ => trivial) trivial
      fun _ => trivial
  rcases within_step_or_closure (fun _ _ => trivial) hbody q with
    ⟨scope, hstep⟩ | ⟨f, left, right, scope, rfl⟩
  · exact .inl (hstep.control_of_puts h)
  · obtain ⟨hlt, -, hput⟩ := puts_callClosure h
    have hbodyIn := within_raising_bodyIn (c := c) True f.arena ⟨m.scopes.size⟩ f.body
    refine .inr ⟨f, left, right, scope, rfl, hlt, ?_⟩
    exact Within.control_of_puts (m := m.enter f left right scope) hbodyIn hput

/-- The statements of the closure are run on the way from the request. -/
def Runs (c : Context) (q : Request) (m : Machine) (f : Closure) : Prop :=
  ∃ left right scope n, Leads c q m (.call (.closure f) left right scope) n ∧
    n.calls.depth < n.calls.limit

/-- **Every question on the way is put in the arena of the first one, or in that of a closure that
is run on the way.** -/
theorem Leads.arena (h : Leads c q m q' m') :
    m'.arena = m.arena ∨ ∃ f, Runs c q m f ∧ m'.arena = f.arena := by
  induction h with
  | refl => exact .inl rfl
  | tail hl hp ih =>
      rcases hp.control with hsame | ⟨f, left, right, scope, rfl, hlt, hsame⟩
      · rw [hsame.arena]
        exact ih
      · exact .inr ⟨f, ⟨left, right, scope, _, hl, hlt⟩, hsame.arena⟩

/-- The limit is the same all the way, and no question is put beyond it. -/
theorem Leads.limit_eq (h : Leads c q m q' m') : m'.calls.limit = m.calls.limit := by
  induction h with
  | refl => rfl
  | tail _ hp ih =>
      rcases hp.control with hsame | ⟨f, left, right, scope, -, -, hsame⟩
      · rw [hsame.calls]
        exact ih
      · rw [hsame.calls]
        exact ih

/-- Along questions the calls in progress stay within the limit. -/
theorem Leads.depth_le (h : Leads c q m q' m') (hm : m.calls.depth ≤ m.calls.limit) :
    m'.calls.depth ≤ m'.calls.limit := by
  induction h with
  | refl => exact hm
  | tail _ hp ih =>
      rcases hp.control with hsame | ⟨f, left, right, scope, -, hlt, hsame⟩
      · rw [hsame.calls]
        exact ih
      · rw [hsame.calls]
        show (Array.push _ _).size ≤ _
        rw [Array.size_push]
        exact hlt

end Eval

end ArrayLang

import ArrayLang.Proofs.Evaluation.Calls

/-!
# The moments of a run

The loop `Eval.exec` goes from question to question: at every moment one step is at hand, and others
wait for its answer. `Eval.Turn` is one turn of the loop, and what comes at a later moment is
what turns lead to; a run ends as the request does that it began with (`Eval.ends_iff_turns`).

From each moment to the next the scopes only grow (`Eval.Turn.growsTo`). So whatever is once in
place stays so at every later moment of the run, whichever steps are at hand
(`Eval.growsTo_of_turns`).
-/

namespace ArrayLang

namespace Progress

variable {α β : Type} {home m n : Machine} {post : α → Prop} {post' : β → Prop} {p : Progress α}

/-- The machine that the step stands on. -/
def machine? : Progress α → Option Machine
  | .finished _ m => some m
  | .asks _ m _ => some m
  | .panics _ => none

/-- The scopes grow from those of `m` to where the step stands, and from each answer that it gets to
where it stands then. It ends with the arena and the calls of `home`. -/
def Growing (home : Machine) (post : α → Prop) (m : Machine) : Progress α → Prop
  | .finished r m' => SameControl home m' ∧ ScopesGrow m m' ∧ ∀ a, r = .ok a → post a
  | .asks _ m' resume =>
    ScopesGrow m m' ∧ ∀ r n, SameControl m' n → (resume r n).Growing home post n
  | .panics _ => True

/-- What grows from a later machine grows from an earlier one. -/
theorem Growing.of_grow (h : p.Growing home post n) (hmn : ScopesGrow m n) :
    p.Growing home post m := by
  cases p with
  | finished r m' => exact ⟨h.1, trans_of ScopesGrow hmn h.2.1, h.2.2⟩
  | asks q m' resume => exact ⟨trans_of ScopesGrow hmn h.1, h.2⟩
  | panics why => trivial

theorem Growing.grow (h : p.Growing home post m) (hn : p.machine? = some n) : ScopesGrow m n := by
  cases p with
  | finished r m' =>
      cases hn
      exact h.2.1
  | asks q m' resume =>
      cases hn
      exact h.1
  | panics why => cases hn

/-- Steps that grow one after the other grow together. -/
theorem Growing.bind {next : α → Machine → Progress β} (h : p.Growing home post m)
    (hnext : ∀ a n, post a → SameControl home n → (next a n).Growing home post' n) :
    (p.bind next).Growing home post' m := by
  induction p generalizing m with
  | finished r m' =>
      obtain ⟨hhome, hgrow, hpost⟩ := h
      cases r with
      | ok a => exact (hnext a m' (hpost a rfl) hhome).of_grow hgrow
      | error e => exact ⟨hhome, hgrow, nofun⟩
  | asks q m' resume ih => exact ⟨h.1, fun r n hn => ih r n (h.2 r n hn)⟩
  | panics why => trivial

/-- A change of the ending that leaves the scopes alone, and takes the control elsewhere. -/
theorem Growing.mapEnd {home' : Machine} {f : EvalError → EvalError} {g : Machine → Machine}
    (h : p.Growing home post m) (hscopes : ∀ m, (g m).scopes = m.scopes)
    (hcontrol : ∀ m, SameControl home m → SameControl home' (g m)) :
    (p.mapEnd f g).Growing home' post m := by
  induction p generalizing m with
  | finished r m' =>
      obtain ⟨hhome, hgrow, hpost⟩ := h
      have hend : ScopesGrow m (g m') := by
        unfold ScopesGrow
        rw [hscopes]
        exact hgrow
      cases r with
      | ok a => exact ⟨hcontrol m' hhome, hend, hpost⟩
      | error e => exact ⟨hcontrol m' hhome, hend, nofun⟩
  | asks q m' resume ih => exact ⟨h.1, fun r n hn => ih r n (h.2 r n hn)⟩
  | panics why => trivial

end Progress

namespace Eval

variable {α : Type} {c : Context} {q : Request} {m m' : Machine}

/-! ## One step -/

/-- While a step within a licence is taken the scopes grow, whatever it is answered, if the licence
allows all answers. -/
theorem Within.growing {home : Machine} {l : Licence} {p : α → Prop} {x : Eval α}
    (h : Within c l p x) (hall : ∀ r, l.Allows l.value r) (harena : home.arena = l.arena)
    (hm : SameControl home m) : (x m).Growing home p m := by
  -- a part that asks nothing ends on a machine with the same or more scopes
  have hstay : ∀ {β : Type} {post : β → Prop} {r : Except EvalError β} {m : Machine},
      SameControl home m → l.Allows post r → (Progress.finished r m).Growing home post m :=
    fun hm hr => ⟨hm, refl_of ScopesGrow _, fun a ha => by rw [ha] at hr; exact hr⟩
  induction h generalizing m with
  | result h => exact hstay hm h
  | bind _ _ ihx ihf => exact (ihx hm).bind fun a n ha hn => ihf a ha hn
  | locating _ s ih => exact (ih hm).mapEnd (fun _ => rfl) fun _ h => h
  | arena => exact hstay (r := .ok m.arena) hm (hm.arena.trans harena)
  | @found _ o _ =>
      cases o with
      | none => trivial
      | some a => exact hstay (r := .ok a) hm rfl
  | @lookup x h =>
      unfold variableValue
      split
      · next v _ => exact hstay hm (hall (.ok v))
      · exact hstay hm h
  | define _ _ =>
      exact ⟨⟨hm.arena, hm.calls⟩, m.scopes.growsTo_define l.scope _ _, fun _ _ => trivial⟩
  | store _ _ h =>
      unfold Eval.store
      split
      · next scopes hs =>
          obtain ⟨d, -, rfl⟩ := Scopes.assign?_eq_some_iff.mp hs
          exact ⟨⟨hm.arena, hm.calls⟩, m.scopes.growsTo_define d _ _, fun _ _ => trivial⟩
      · exact hstay hm h
  | asks _ _ _ ih =>
      exact ⟨refl_of ScopesGrow m, fun r n hn => ih r (hall r) (trans_of SameControl hm hn)⟩
  | panics _ => trivial

/-- **While a step is taken the scopes grow**, whatever it is answered. -/
theorem step_growing (c : Context) (q : Request) (m : Machine) :
    (step c q m).Growing m (fun _ => True) m := by
  have hall : ∀ (arena : ArenaId) (scope : ScopeId) (r : Except EvalError Value),
      (Licence.raising (fun _ => True) True arena scope).Allows (fun _ => True) r := by
    intro arena scope r
    cases r <;> trivial
  have hbody : ∀ scope b, c.registry.HasBody c.tower b →
      b.Within (.raising (fun _ => True) True m.arena scope) fun _ => True :=
    fun _ _ _ => Body.within_of_catching (Licence.open_raising ..) (fun _ => trivial) trivial
      fun _ => trivial
  rcases within_step_or_closure (fun _ _ => trivial) hbody q with
    ⟨scope, hstep⟩ | ⟨f, left, right, scope, rfl⟩
  · exact hstep.growing (hall _ _) rfl (refl_of SameControl m)
  · show (callClosure c f left right scope m).Growing m _ m
    rw [callClosure_apply]
    split
    · exact ⟨refl_of SameControl m, refl_of ScopesGrow m, fun _ _ => trivial⟩
    · split
      · exact ⟨refl_of SameControl m, refl_of ScopesGrow m, fun _ _ => trivial⟩
      · have hin := within_raising_bodyIn (c := c) True f.arena ⟨m.scopes.size⟩ f.body
        have hgrowing : (bodyIn c f.body ⟨m.scopes.size⟩ (m.enter f left right scope)).Growing
            (m.enter f left right scope) (fun _ => True) (m.enter f left right scope) :=
          hin.growing (hall _ _) rfl (refl_of SameControl _)
        exact (hgrowing.of_grow (m.scopes.growsTo_withArguments left right scope)).mapEnd
          (fun _ => rfl) fun _ => sameControl_leaveTo

/-! ## Turns -/

/-- What the loop has before it: the step at hand, and those that wait for answers. -/
structure Moment where
  now : Progress Value
  waiting : List Pending

namespace Moment

/-- The moment at which a request is taken up. -/
def start (c : Context) (q : Request) (m : Machine) : Moment := ⟨step c q m, []⟩

/-- The moment at which all is answered. -/
def done (r : Except EvalError Value) (m : Machine) : Moment := ⟨.finished r m, []⟩

def machine? (t : Moment) : Option Machine := t.now.machine?

end Moment

/-- One turn of the loop: a question is taken up, or an answer is handed on. -/
inductive Turn (c : Context) : Moment → Moment → Prop
  | question {q : Request} {m : Machine} {resume : Pending} {waiting : List Pending} :
      Turn c ⟨.asks q m resume, waiting⟩ ⟨step c q m, resume :: waiting⟩
  | answer {r : Except EvalError Value} {m : Machine} {resume : Pending} {waiting : List Pending} :
      Turn c ⟨.finished r m, resume :: waiting⟩ ⟨resume r m, waiting⟩

/-- The later moment comes in the course of a run after the earlier one, or is the same. -/
def Later (c : Context) : Moment → Moment → Prop := Relation.ReflTransGen (Turn c)

/-- A turn is one round of the loop. -/
theorem exec_of_turn {s t : Moment} (h : Turn c s t) (count : Nat) :
    exec c (count + 1) s.now s.waiting = exec c count t.now t.waiting := by
  cases h <;> rfl

/-- **The loop ends where its turns lead to.** -/
theorem exec_eq_finished_iff {s : Moment} {r : Except EvalError Value} :
    (∃ count, exec c count s.now s.waiting = .finished r m) ↔ Later c s (.done r m) := by
  constructor
  · rintro ⟨count, h⟩
    induction count generalizing s with
    | zero => cases h
    | succ count ih =>
        have hturn : ∀ {t}, Turn c s t → Later c s (.done r m) := fun {t} hst =>
          .head hst (ih ((exec_of_turn hst count).symm.trans h))
        obtain ⟨now, waiting⟩ := s
        match now, waiting with
        | .panics _, _ => cases h
        | .finished _ _, [] =>
            cases h
            exact .refl
        | .finished _ _, _ :: _ => exact hturn .answer
        | .asks _ _ _, _ => exact hturn .question
  · intro h
    induction h using Relation.ReflTransGen.head_induction_on with
    | refl => exact ⟨1, rfl⟩
    | head hst _ ih =>
        obtain ⟨count, h⟩ := ih
        exact ⟨count + 1, (exec_of_turn hst count).trans h⟩

/-- **A run comes to its last moment as the request ends that it began with.** -/
theorem ends_iff_turns {r : Except EvalError Value} :
    Ends c (step c q) m r m' ↔ Later c (.start c q m) (.done r m') := by
  have hloop := exec_eq_iff_run_eq (c := c) (q := q) (m := m) (o := .finished r m') nofun
  exact ends_step_iff.trans (hloop.symm.trans (exec_eq_finished_iff (s := .start c q m)))

/-! ## Growth from moment to moment -/

/-- The steps that wait for an answer to a question put on `m` let the scopes grow when they get
it. -/
def Serving (m : Machine) : List Pending → Prop
  | [] => True
  | resume :: waiting => ∃ home,
      (∀ r n, SameControl m n → (resume r n).Growing home (fun _ => True) n) ∧ Serving home waiting

/-- The step at hand lets the scopes grow, and so do those that wait. -/
def Moment.Growing (t : Moment) : Prop :=
  ∃ home m, t.now.Growing home (fun _ => True) m ∧ Serving home t.waiting

/-- In the beginning nothing waits and nothing has changed. -/
theorem Moment.growing_start (c : Context) (q : Request) (m : Machine) :
    (Moment.start c q m).Growing := ⟨m, m, step_growing c q m, trivial⟩

/-- Each turn keeps what has been there since any step on the list was put aside. -/
theorem Turn.growing {s t : Moment} (h : Turn c s t) (hs : s.Growing) : t.Growing := by
  obtain ⟨home, m₀, hnow, hwait⟩ := hs
  cases h with
  | question => exact ⟨_, _, step_growing c _ _, home, hnow.2, hwait⟩
  | answer =>
      obtain ⟨home', hresume, hwait'⟩ := hwait
      exact ⟨home', _, hresume _ _ hnow.1, hwait'⟩

/-- **In one turn the scopes grow.** -/
theorem Turn.growsTo {s t : Moment} {n n' : Machine} (h : Turn c s t) (hs : s.Growing)
    (hn : s.machine? = some n) (hn' : t.machine? = some n') : n.scopes.GrowsTo n'.scopes := by
  obtain ⟨home, m₀, hnow, hwait⟩ := hs
  cases h with
  | question =>
      cases hn
      exact (step_growing c _ _).grow hn'
  | answer =>
      cases hn
      obtain ⟨home', hresume, -⟩ := hwait
      exact (hresume _ _ hnow.1).grow hn'

theorem Turn.machine?_isSome {s t : Moment} (h : Turn c s t) : ∃ n, s.machine? = some n := by
  cases h <;> exact ⟨_, rfl⟩

theorem Later.growing {s t : Moment} (h : Later c s t) (hs : s.Growing) : t.Growing := by
  induction h with
  | refl => exact hs
  | tail _ hturn ih => exact hturn.growing ih

/-- **From every moment of a run to every later one the scopes grow.** -/
theorem growsTo_of_turns {s t : Moment} {n n' : Machine} (hs : Later c (.start c q m) s)
    (ht : Later c s t) (hn : s.machine? = some n) (hn' : t.machine? = some n') :
    n.scopes.GrowsTo n'.scopes := by
  have hgrowing := hs.growing (Moment.growing_start c q m)
  induction ht generalizing n' with
  | refl =>
      rw [hn] at hn'
      cases hn'
      exact .refl n.scopes
  | tail hmid hturn ih =>
      obtain ⟨u, hu⟩ := hturn.machine?_isSome
      exact (ih hu).trans (hturn.growsTo (Later.growing hmid hgrowing) hu hn')

end Eval

end ArrayLang

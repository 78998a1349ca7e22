import ArrayLang.Proofs.Evaluation.Errors
import ArrayLang.Proofs.Evaluation.Panics
import ArrayLang.Proofs.Library.Core

/-!
# The limit of calls

A closure call at the limit ends with an error, and in a registry that passes errors nothing stops
that error on its way out (`Eval.fails_of_leads`). So an evaluation *overflows* if a call on the way
from it is refused, and only then, unless a body that is executed on the way makes such an error up
(`Eval.overflowExplained`).
An evaluation that does not overflow never comes to know the limit, and ends the same under every
larger one (`Eval.ends_withLimit`).
-/

namespace ArrayLang

/-- The machine with another limit of calls. -/
def Machine.withLimit (m : Machine) (limit : Nat) : Machine :=
  { m with calls := { m.calls with limit := limit } }

namespace Eval

variable {α : Type} {c : Context} {q q' : Request} {m m' n : Machine} {e : EvalError}

/-! ## Overflows -/

/-- The result is the error of a call beyond the limit. -/
def Overflows (r : Except EvalError α) : Prop := ∃ e n, r = .error e ∧ e.cause = .stackOverflow n

@[simp] theorem not_overflows_ok (a : α) : ¬ Overflows (.ok a) := by
  rintro ⟨_, _, h, _⟩
  cases h

@[simp] theorem overflows_error_iff :
    Overflows (.error e : Except EvalError α) ↔ ∃ n, e.cause = .stackOverflow n := by
  constructor
  · rintro ⟨_, n, h, hcause⟩
    cases h
    exact ⟨n, hcause⟩
  · rintro ⟨n, hcause⟩
    exact ⟨e, n, rfl, hcause⟩

/-- A closure call on the way from the request is refused, with as many calls in progress as there
may be. -/
def Refuses (c : Context) (q : Request) (m : Machine) : Prop :=
  ∃ f left right scope n, Leads c q m (.call (.closure f) left right scope) n ∧
    n.calls.depth = m.calls.limit

/-! ## Errors on their way out -/

/-- Steps that do not go on after errors. -/
abbrev passing : ArenaId → ScopeId → Licence := .raising (fun _ => True) False

/-- A step within a licence that passes errors comes back with what the licence promises of
values. -/
theorem Within.ends_passing {scope : ScopeId} {p : α → Prop} {x : Eval α} {r : Except EvalError α}
    (hx : Within c (passing m.arena scope) p x) (h : Ends c x m r m') :
    SameControl m m' ∧ ∀ a, r = .ok a → p a := by
  have hmeets : (x m).Meets (.keeping SameControl) fun r n =>
      SameControl m n ∧ (passing m.arena scope).Allows p r :=
    hx.meets (invariant_control rfl fun _ => trivial) (fun q n _ hn => ⟨trivial, fun r n' hr => ?_⟩)
      ⟨rfl, rfl⟩
  · obtain ⟨hsame, hr⟩ := control_keptBy.ends_of_meets hmeets h
    refine ⟨hsame, ?_⟩
    rintro a rfl
    exact hr
  · refine ⟨trans_of SameControl hn hr, ?_⟩
    cases r <;> trivial

/-- A step that does not go on after errors fails when one of its questions does. -/
theorem Within.fails_of_puts {arena : ArenaId} {scope : ScopeId} {p : α → Prop} {x : Eval α}
    (hx : Within c (passing arena scope) p x) (hm : m.arena = arena) (hp : Puts c x m q' m')
    (he : Ends c (step c q') m' (.error e) n) :
    ∃ e' n', Ends c x m (.error e') n' ∧ e.Reaches e' := by
  induction hx generalizing m with
  | result h => cases hp
  | bind hx hf ihx ihf =>
      subst hm
      rcases hp.of_bind with hput | ⟨a, s, hends, hput⟩
      · obtain ⟨e', n', h, hreach⟩ := ihx rfl hput
        exact ⟨e', n', ends_bind_iff.mpr (.inr ⟨e', h, rfl⟩), hreach⟩
      · obtain ⟨hsame, ha⟩ := hx.ends_passing hends
        obtain ⟨e', n', h, hreach⟩ := ihf a (ha a rfl) hsame.arena hput
        exact ⟨e', n', ends_bind_iff.mpr (.inl ⟨a, s, hends, h⟩), hreach⟩
  | locating _ s ih =>
      obtain ⟨e', n', h, hreach⟩ := ih hm (Progress.puts_mapEnd_iff.mp hp)
      exact ⟨e'.locate s, n', ends_locating_iff.mpr ⟨_, h, rfl⟩,
        hreach.trans (EvalError.reaches_locate e' s)⟩
  | arena => cases hp
  | @found _ o _ => cases o <;> cases hp
  | lookup _ =>
      unfold Puts variableValue at hp
      split at hp <;> cases hp
  | define _ _ => cases hp
  | store _ _ _ =>
      unfold Puts Eval.store at hp
      split at hp <;> cases hp
  | @asks _ _ q k hq hcatch _ ih =>
      -- nothing is caught: an error in the answer is what the step ends with
      have hfail := hcatch.resolve_left id
      cases hp with
      | here =>
          refine ⟨e, n, ends_asks_iff.mpr ⟨_, n, he, ?_⟩, .refl⟩
          rw [hfail]
          exact ends_ofExcept_iff.mpr ⟨rfl, rfl⟩
      -- a later question: the first one has been answered in the same control
      | @later _ _ _ s _ r _ hr hput =>
          have hsame : SameControl m s := control_keptBy.ends trivial hr
          have hallows : (passing arena scope).Allows (fun _ => True) r := by cases r <;> trivial
          obtain ⟨e', n', h, hreach⟩ := ih r hallows (hsame.arena.trans hm) hput
          exact ⟨e', n', ends_asks_iff.mpr ⟨r, s, hr, h⟩, hreach⟩
  | panics _ => cases hp

/-- No expression catches the error of another one. -/
theorem within_passing_evaluate (arena : ArenaId) (scope : ScopeId) (e : ExprId) :
    Within c (passing arena scope) (fun _ => True) (step c (.evaluate e scope)) :=
  within_open_evaluate (Licence.open_raising ..) (fun _ _ => trivial) (fun _ => trivial)
    (fun _ => trivial) (fun _ => trivial) e

/-- In a registry that passes errors every step but that of a closure call does not go on after
errors. -/
theorem within_passing_or_closure (hpass : c.registry.PassesErrors) (arena : ArenaId)
    (q : Request) :
    (∃ scope, Within c (passing arena scope) (fun _ => True) (step c q)) ∨
      ∃ f left right scope, q = .call (.closure f) left right scope :=
  within_step_or_closure (fun _ _ => trivial)
    (fun _ b hb =>
      (hpass _ b hb).within (Licence.open_raising ..) (fun _ _ => trivial) fun _ => trivial) q

theorem within_passing_bodyIn (f : Closure) (scope : ScopeId) :
    Within c (passing f.arena scope) (fun _ => True) (bodyIn c f.body scope) :=
  within_raising_bodyIn False f.arena scope f.body

/-- The statements of a closure do not go on after errors, whatever the registry. -/
theorem fails_of_puts_closure {f : Closure} {left : Option Value} {right : Value} {scope : ScopeId}
    (hp : Puts c (step c (.call (.closure f) left right scope)) m q' m')
    (he : Ends c (step c q') m' (.error e) n) :
    ∃ e' n', Ends c (step c (.call (.closure f) left right scope)) m (.error e') n' ∧
      e.Reaches e' := by
  obtain ⟨hlt, hempty, hput⟩ := puts_callClosure hp
  have hbody := within_passing_bodyIn (c := c) f ⟨m.scopes.size⟩
  obtain ⟨e', s, h, hreach⟩ := hbody.fails_of_puts rfl hput he
  exact ⟨e', m.leaveTo s, (ends_callClosure_iff hlt hempty).mpr ⟨s, h, rfl⟩, hreach⟩

/-- In a registry that passes errors a step fails when one of its questions does. -/
theorem fails_of_puts (hpass : c.registry.PassesErrors) (hp : Puts c (step c q) m q' m')
    (he : Ends c (step c q') m' (.error e) n) :
    ∃ e' n', Ends c (step c q) m (.error e') n' ∧ e.Reaches e' := by
  rcases within_passing_or_closure hpass m.arena q with ⟨scope, hx⟩ | ⟨f, left, right, scope, rfl⟩
  · exact hx.fails_of_puts rfl hp he
  · exact fails_of_puts_closure hp he

/-- A body that is executed on the way from the request ends with an error of this cause, though
every function that it calls gives it a value. -/
def MakesUp (c : Context) (q : Request) (m : Machine) (cause : Cause) : Prop :=
  ∃ q' n b e n', Leads c q m q' n ∧ Executes c q' b ∧ Ends c (step c q') n (.error e) n' ∧
    e.cause = cause ∧
    ∀ q₁ n₁, Puts c (step c q') n q₁ n₁ → ∃ v n₂, Ends c (step c q₁) n₁ (.ok v) n₂

/-- The error is that of a refused call on the way, or of a body there that makes it up. -/
def OverflowExplained (c : Context) (q : Request) (m : Machine) (limit : Nat) : Prop :=
  (limit = m.calls.limit ∧ Refuses c q m) ∨ MakesUp c q m (.stackOverflow limit)

/-- What explains the overflow of a question explains that of the step which put it. -/
theorem OverflowExplained.of_puts {limit : Nat} (hp : Puts c (step c q) m q' m')
    (h : OverflowExplained c q' m' limit) : OverflowExplained c q m limit := by
  have hlimit : m'.calls.limit = m.calls.limit := (Leads.refl.tail hp).limit_eq
  rcases h with ⟨rfl, f, left, right, scope, n, hl, hdepth⟩ | ⟨q₁, n, b, e, n', hl, h⟩
  · exact .inl ⟨hlimit, f, left, right, scope, n, .head hp hl, hdepth.trans hlimit⟩
  · exact .inr ⟨q₁, n, b, e, n', .head hp hl, h⟩

/-- A step whose questions all give values does not overflow, if it does not enter a closure. -/
theorem Within.ne_stackOverflow {scope : ScopeId} {p : α → Prop} {x : Eval α}
    (hx : Within c
      (.raising (fun cause => ∀ limit, cause ≠ .stackOverflow limit) False m.arena scope) p x)
    (h : Ends c x m (.error e) m')
    (hall : ∀ q₁ n₁, Puts c x m q₁ n₁ → ∃ v n₂, Ends c (step c q₁) n₁ (.ok v) n₂) (limit : Nat) :
    e.cause ≠ .stackOverflow limit := by
  let k : Contract :=
    { requires := fun _ _ => True, ensures := fun _ n r n' => SameControl n n' ∧ ∃ v, r = .ok v }
  have hmeets : (x m).Meets k fun r n => SameControl m n ∧ _ :=
    hx.meets (invariant_control rfl fun _ => trivial) (fun q n _ hn => ⟨trivial, fun r n' hr => ?_⟩)
      ⟨rfl, rfl⟩
  · obtain ⟨depth, hd⟩ := h
    refine (hmeets.of_resolve_of_puts (fun q₁ n₁ r₁ n₂ hput _ hrun => ?_) hd).2 limit
    have hends : Ends c (step c q₁) n₁ r₁ n₂ := ends_step_iff.mpr ⟨depth, hrun⟩
    obtain ⟨v, n₃, hv⟩ := hall q₁ n₁ (hput.mono fun _ _ _ _ h => ends_step_iff.mpr ⟨depth, h⟩)
    exact ⟨control_keptBy.ends trivial hends, v, (hv.unique hends).1⟩
  · obtain ⟨hsame, v, rfl⟩ := hr
    exact ⟨trans_of SameControl hn hsame, trivial⟩

/-- **An overflow comes from a refused call**, unless a body makes one up. -/
theorem overflowExplained (hpass : c.registry.PassesErrors) (hm : m.calls.depth ≤ m.calls.limit)
    (h : Ends c (step c q) m (.error e) m') {limit : Nat}
    (hcause : e.cause = .stackOverflow limit) :
    OverflowExplained c q m limit := by
  -- by induction on the evaluation, with the question as it is explained for the conclusion
  let Q : Request → Machine → Except EvalError Value → Machine → Prop := fun q m r _ =>
    m.calls.depth ≤ m.calls.limit → ∀ e, r = .error e → e.cause = .stackOverflow limit →
      OverflowExplained c q m limit
  refine h.induction (Q := Q) ?_ hm e rfl hcause
  clear h hm hcause
  rintro q m r m' h ih hm e rfl hcause
  by_cases hall : ∀ q₁ n₁, Puts c (step c q) m q₁ n₁ → ∃ v n₂, Ends c (step c q₁) n₁ (.ok v) n₂
  · -- the step raises the error itself
    rcases executes_or c q with ⟨b, hb⟩ | ⟨e₁, scope, rfl⟩ | ⟨f, left, right, scope, rfl⟩ |
      ⟨e₁, hrefuses, hstep⟩ | hstep
    · -- a registered body has made the error up
      exact .inr ⟨q, m, b, e, m', .refl, hb, h, hcause, hall⟩
    · -- an expression raises no overflow
      have hx : Within c (.raising (fun cause => ∀ limit, cause ≠ .stackOverflow limit) False
          m.arena scope) (fun _ => True) (step c (.evaluate e₁ scope)) :=
        within_open_evaluate (Licence.open_raising ..) (fun _ h => h) (fun _ => trivial)
          (fun _ => trivial) (fun _ => trivial) e₁
      exact absurd hcause (hx.ne_stackOverflow h hall limit)
    · -- a call is entered or refused
      rcases Nat.lt_or_ge m.calls.depth m.calls.limit with hlt | hfull
      · by_cases hempty : f.body.isEmpty = true
        · cases ((ends_callClosure_of_isEmpty hlt hempty).unique h).1
        · -- the statements of a closure raise none by themselves
          obtain ⟨s, hs, -⟩ := (ends_callClosure_iff hlt hempty).mp h
          have hbody : Within c (.raising (fun cause => ∀ limit, cause ≠ .stackOverflow limit) False
              f.arena ⟨m.scopes.size⟩) (fun _ => True) (bodyIn c f.body ⟨m.scopes.size⟩) :=
            within_open_bodyIn (Licence.open_raising ..) (fun _ h => h) (fun _ => trivial) f.body
          refine absurd hcause
            (hbody.ne_stackOverflow (m := m.enter f left right scope) hs ?_ limit)
          exact fun q₁ n₁ hput => hall q₁ n₁ (puts_callClosure_iff.mpr ⟨hlt, hempty, hput⟩)
      · -- the call that is refused
        cases ((ends_callClosure_of_le hfull).unique h).1
        cases hcause
        exact .inl ⟨rfl, f, left, right, scope, m, .refl, Nat.le_antisymm hm hfull⟩
    · rw [hstep] at h
      cases (ends_ofExcept_iff.mp h).1
      rw [hcause] at hrefuses
      cases hrefuses
    · exact absurd h (not_ends_of_eq_panics (congrFun hstep m))
  · -- one of its questions fails, with this error
    push Not at hall
    obtain ⟨q₁, n₁, hput, hne⟩ := hall
    obtain ⟨r₁, n₂, hends⟩ : ∃ r₁ n₂, Ends c (step c q₁) n₁ r₁ n₂ := by
      obtain ⟨depth, hd⟩ := h
      obtain ⟨r₁, n₂, hrun⟩ := hput.exists_run hd
      exact ⟨r₁, n₂, ends_step_iff.mpr ⟨depth, hrun⟩⟩
    cases r₁ with
    | ok v => exact absurd hends (hne v n₂)
    | error e₁ =>
        obtain ⟨e', n', hfails, hreach⟩ := fails_of_puts hpass hput hends
        cases (h.unique hfails).1
        have hl : Leads c q m q₁ n₁ := Leads.refl.tail hput
        exact .of_puts hput
          (ih q₁ n₁ _ n₂ hput hends (hl.depth_le hm) e₁ rfl (hreach.cause_eq.symm.trans hcause))

/-- Such a body may raise the error, with values for its calls. -/
theorem raises_of_ends_ofBody {scope : ScopeId} {b : Body Value}
    (h : Ends c (ofBody scope b) m (.error e) m')
    (hall : ∀ q₁ n₁, Puts c (ofBody scope b) m q₁ n₁ → ∃ v n₂, Ends c (step c q₁) n₁ (.ok v) n₂) :
    b.Raises e.cause := by
  induction b generalizing m with
  | done r =>
      cases (ends_ofExcept_iff.mp h).1
      exact rfl
  | call f left right resume ih =>
      obtain ⟨s, n, hs, hrest⟩ := ends_asks_iff.mp h
      obtain ⟨v, n', hv⟩ := hall _ m .here
      obtain ⟨rfl, rfl⟩ := hs.unique hv
      exact ⟨v, ih _ hrest fun q₁ n₁ hput => hall q₁ n₁ (.later hs hput)⟩
  | panics => exact absurd h (not_ends_of_eq_panics rfl)

/-- A body that makes an error up while it is executed is one that may raise it. -/
theorem MakesUp.raises {cause : Cause} (h : MakesUp c q m cause) :
    c.registry.Raises c.tower cause := by
  obtain ⟨q', n, b, e, n', -, hb, hends, rfl, hall⟩ := h
  rw [hb.step_eq] at hends hall
  exact ⟨b, hb.hasBody, raises_of_ends_ofBody hends hall⟩

/-! ## Larger limits -/

/-- Under a limit of at most `d`, an answer that does not overflow is the same with `d`. -/
def relimiting (c : Context) (d : Nat) : Contract where
  requires _ m := m.calls.limit ≤ d
  ensures q m r m' := SameControl m m' ∧
    (¬ Overflows r → Ends c (step c q) (m.withLimit d) r (m'.withLimit d))

/-- A step that does not go on after errors never comes to know the limit, unless it is told by a
call that overflows. -/
theorem Within.meets_relimiting {arena : ArenaId} {scope : ScopeId} {p : α → Prop} {x : Eval α}
    {d : Nat} (hx : Within c (passing arena scope) p x) (hm : m.arena = arena)
    (hd : m.calls.limit ≤ d) :
    (x m).Meets (relimiting c d) fun r m' => SameControl m m' ∧ (∀ a, r = .ok a → p a) ∧
      (¬ Overflows r → Ends c x (m.withLimit d) r (m'.withLimit d)) := by
  -- along the licence: whatever does not depend on the limit is done again on the other machine
  induction hx generalizing m with
  | @result _ _ r h =>
      refine ⟨⟨rfl, rfl⟩, ?_, fun _ => ends_ofExcept_iff.mpr ⟨rfl, rfl⟩⟩
      rintro a rfl
      exact h
  | bind _ _ ihx ihf =>
      refine (ihx hm hd).bind ?_ ?_
      · intro a s ⟨hsame, ha, hends⟩
        have hd' : s.calls.limit ≤ d := by
          rw [hsame.calls]
          exact hd
        have hf := ihf a (ha a rfl) (hsame.arena.trans hm) hd'
        refine hf.mono fun r m' ⟨hsame', hb, hends'⟩ => ?_
        refine ⟨trans_of SameControl hsame hsame', hb, fun hr => ends_bind_iff.mpr (.inl ?_)⟩
        exact ⟨a, s.withLimit d, hends (not_overflows_ok a), hends' hr⟩
      · intro e s ⟨hsame, _, hends⟩
        refine ⟨hsame, nofun, fun hr => ends_bind_iff.mpr (.inr ⟨e, hends ?_, rfl⟩)⟩
        simpa using hr
  | locating _ s ih =>
      refine (ih hm hd).mapEnd ?_ ?_
      · intro a m' ⟨hsame, ha, hends⟩
        exact ⟨hsame, ha, fun hr => ends_locating_iff.mpr ⟨_, hends hr, rfl⟩⟩
      · intro e m' ⟨hsame, ha, hends⟩
        refine ⟨hsame, nofun, fun hr => ends_locating_iff.mpr ⟨_, hends ?_, rfl⟩⟩
        simpa using hr
  | arena =>
      refine ⟨⟨rfl, rfl⟩, ?_, fun _ => ⟨0, rfl⟩⟩
      rintro a ⟨⟩
      exact hm
  | @found _ o _ =>
      -- a dangling handle panics, and a panic is no end
      cases o with
      | none => trivial
      | some a =>
          refine ⟨⟨rfl, rfl⟩, ?_, fun _ => ends_found_iff.mpr ⟨a, rfl, rfl, rfl⟩⟩
          rintro b ⟨⟩
          rfl
  | @lookup x _ =>
      show (variableValue c x scope m).Meets _ _
      cases hv : m.scopes.lookup? scope x with
      | some v =>
          rw [variableValue_of_some hv]
          refine ⟨⟨rfl, rfl⟩, fun _ _ => trivial, fun _ => ?_⟩
          exact ends_of_eq (variableValue_of_some (m := m.withLimit d) hv)
      | none =>
          rw [variableValue_of_none hv]
          refine ⟨⟨rfl, rfl⟩, nofun, fun _ => ?_⟩
          exact ends_of_eq (variableValue_of_none (m := m.withLimit d) hv)
  | define _ _ => exact ⟨⟨rfl, rfl⟩, fun _ _ => trivial, fun _ => ⟨0, rfl⟩⟩
  | @store x v _ _ _ =>
      show (Eval.store c x v scope m).Meets _ _
      cases hs : m.scopes.assign? scope x v with
      | some scopes =>
          rw [store_of_some hs]
          refine ⟨⟨rfl, rfl⟩, fun _ _ => trivial, fun _ => ?_⟩
          exact ends_of_eq (store_of_some (m := m.withLimit d) hs)
      | none =>
          rw [store_of_none hs]
          refine ⟨⟨rfl, rfl⟩, nofun, fun _ => ?_⟩
          exact ends_of_eq (store_of_none (m := m.withLimit d) hs)
  | @asks _ _ q k hq hcatch _ ih =>
      refine ⟨hd, fun r s ⟨hsame, hends⟩ => ?_⟩
      have hallows : (passing arena scope).Allows (fun _ => True) r := by cases r <;> trivial
      have hd' : s.calls.limit ≤ d := by
        rw [hsame.calls]
        exact hd
      by_cases hover : Overflows r
      · -- the step ends with this error, and says nothing about larger limits
        obtain ⟨e, n, rfl, hcause⟩ := hover
        rw [hcatch.resolve_left id]
        exact ⟨hsame, nofun, fun hr => absurd (overflows_error_iff.mpr ⟨n, hcause⟩) hr⟩
      · -- any other answer is given under the larger limit, too, and the rest goes on from it
        refine (ih r hallows (hsame.arena.trans hm) hd').mono fun r' m' ⟨hsame', hb, hends'⟩ => ?_
        refine ⟨trans_of SameControl hsame hsame', hb, fun hr => ends_asks_iff.mpr ?_⟩
        exact ⟨r, s.withLimit d, hends hover, hends' hr⟩
  | panics _ => trivial

/-- Every step does under a larger limit what it did, until it is told of an overflow. -/
theorem relimiting_keptBy (hpass : c.registry.PassesErrors) (d : Nat) :
    (relimiting c d).KeptBy c := by
  intro q m hd
  rcases within_passing_or_closure hpass m.arena q with ⟨scope, hx⟩ | ⟨f, left, right, scope, rfl⟩
  · exact (hx.meets_relimiting rfl hd).mono fun _ _ h => ⟨h.1, h.2.2⟩
  · have hlarger (hlt : m.calls.depth < m.calls.limit) :
        (m.withLimit d).calls.depth < (m.withLimit d).calls.limit := Nat.lt_of_lt_of_le hlt hd
    refine meets_callClosure (fun _ => ?_) (fun hlt hempty => ?_) fun hlt hempty => ?_
    · exact ⟨⟨rfl, rfl⟩, fun hr => absurd (overflows_error_iff.mpr ⟨_, rfl⟩) hr⟩
    · exact ⟨⟨rfl, rfl⟩, fun _ => ends_callClosure_of_isEmpty (hlarger hlt) hempty⟩
    · have hbody := within_passing_bodyIn (c := c) f ⟨m.scopes.size⟩
      refine (hbody.meets_relimiting (m := m.enter f left right scope) rfl hd).mono ?_
      intro r s ⟨hsame, _, hends⟩
      refine ⟨sameControl_leaveTo hsame, fun hr => ?_⟩
      exact (ends_callClosure_iff (hlarger hlt) hempty).mpr ⟨s.withLimit d, hends hr, rfl⟩

/-- An evaluation that does not overflow ends the same under every larger limit. -/
theorem ends_withLimit (hpass : c.registry.PassesErrors) {r : Except EvalError Value} {d : Nat}
    (hd : m.calls.limit ≤ d) (hr : ¬ Overflows r) (h : Ends c (step c q) m r m') :
    Ends c (step c q) (m.withLimit d) r (m'.withLimit d) :=
  ((relimiting_keptBy hpass d).ends hd h).2 hr

section Panics

variable {d depth : Nat} {why : Panic}

end Panics

/-- **The limit of calls decides nothing but whether an evaluation overflows**, in a registry that
passes errors, as the core library does. Whatever else an evaluation ends with, it ends with under
every larger limit too. An overflow carries the limit and was raised by a call from within as many
closure calls, unless it was made up: a body that the evaluation executed came up with that error by
itself, when all functions it called had given values. No body of the core library does. At the
limit zero every closure call is refused. -/
theorem limit_decides_overflow (c : Context) (hpass : c.registry.PassesErrors) :
    (∀ q (m : Machine) d₁ d₂ r m', d₁ ≤ d₂ → Ends c (step c q) (m.withLimit d₁) r m' →
      ¬ Overflows r → Ends c (step c q) (m.withLimit d₂) r (m'.withLimit d₂)) ∧
    (∀ q m e m' n, m.calls.depth ≤ m.calls.limit → Ends c (step c q) m (.error e) m' →
      e.cause = .stackOverflow n →
      (n = m.calls.limit ∧ ∃ f left right scope s,
        Leads c q m (.call (.closure f) left right scope) s ∧ s.calls.depth = n ∧
        Ends c (step c (.call (.closure f) left right scope)) s
          (.error (.of (.stackOverflow n))) s) ∨
      MakesUp c q m (.stackOverflow n)) ∧
    (∀ f left right scope m, m.calls.limit = 0 →
      Ends c (step c (.call (.closure f) left right scope)) m (.error (.of (.stackOverflow 0))) m) ∧
    ∀ names, (Library.core names).PassesErrors ∧
      (c.registry = Library.core names → ∀ q m n, ¬ MakesUp c q m (.stackOverflow n)) := by
  refine ⟨?_, ?_, ?_, fun names => ⟨Library.passesErrors_core names, fun hcore q m n h => ?_⟩⟩
  · intro q m d₁ d₂ r m' hd h hr
    exact ends_withLimit hpass (m := m.withLimit d₁) hd hr h
  · intro q m e m' n hm h hcause
    rcases overflowExplained hpass hm h hcause with ⟨rfl, hrefuses⟩ | hmakes
    · obtain ⟨f, left, right, scope, s, hl, hdepth⟩ := hrefuses
      refine .inl ⟨rfl, f, left, right, scope, s, hl, hdepth, ?_⟩
      rw [← hl.limit_eq]
      exact ends_callClosure_of_le (Nat.le_of_eq (hl.limit_eq.trans hdepth.symm))
    · exact .inr hmakes
  · intro f left right scope m hm
    have hends : Ends c (step c (.call (.closure f) left right scope)) m
        (.error (.of (.stackOverflow m.calls.limit))) m :=
      ends_callClosure_of_le (by rw [hm]; exact Nat.zero_le _)
    rw [hm] at hends
    exact hends
  · have hraises := h.raises
    rw [hcore] at hraises
    exact Library.not_raises_core names c.tower n hraises

end Eval

/-- Programs with the operator *each* alone: `Y¨7` for the closure `{⍵}`, and `X¨7` for the closure
`{X¨⍵}`, which calls itself again and again. -/
def Context.mapping : Context where
  registry := ((Registry.empty .initial).registerOperator "¨" .monadic
    (.monadic (some Library.function)) Library.each).2
  tower := .standard
  arenas := #[{
    exprs := #[⟨.variable .rightArgument, .dummy⟩, ⟨.variable ⟨6⟩, .dummy⟩,
      ⟨.derived ⟨5⟩ ⟨1⟩ none, .dummy⟩, ⟨.call ⟨2⟩ none ⟨0⟩, .dummy⟩, ⟨.variable ⟨7⟩, .dummy⟩,
      ⟨.derived ⟨5⟩ ⟨4⟩ none, .dummy⟩, ⟨.int 7, .dummy⟩, ⟨.call ⟨5⟩ none ⟨6⟩, .dummy⟩,
      ⟨.call ⟨2⟩ none ⟨6⟩, .dummy⟩]
    items := #[]
    guards := #[⟨none, ⟨3⟩⟩, ⟨none, ⟨0⟩⟩] }]

/-- A scope with both closures. -/
def Machine.mapping : Machine where
  arena := ⟨0⟩
  calls := .empty 3
  scopes := (Scopes.empty.outermost.2.define ⟨0⟩ ⟨6⟩ (.closure ⟨⟨0⟩, ⟨0, 1⟩⟩)).define ⟨0⟩ ⟨7⟩
    (.closure ⟨⟨0⟩, ⟨1, 1⟩⟩)

namespace Eval

/-- The one body of this library ends with the error of its call. -/
theorem within_mapping {tower : Tower} {b : Body Value}
    (hb : Context.mapping.registry.HasBody tower b) {fails : Cause → Prop}
    (h : ∀ message, fails (.custom message)) :
    b.Within (.raising fails False ⟨0⟩ ⟨0⟩) fun _ => True := by
  cases hb with
  | primitive hmem _ _ => cases hmem
  | operator hmem operand unused left right =>
      have hpermits := Library.permits_raising h False ⟨0⟩ ⟨0⟩
      cases List.mem_singleton.mp hmem.val
      exact Library.within_each hpermits (fun _ _ => trivial) (fun _ _ => trivial) trivial

/-- `Y¨7` ends under the limit one, and so under the limit five. `X¨7` overflows with a call in
progress for each of the three that there may be. -/
theorem limit_decides_overflow_mapping :
    (∃ m', Ends .mapping (step .mapping (.evaluate ⟨7⟩ ⟨0⟩)) (Machine.mapping.withLimit 5)
      (.ok (.vector [.int 7])) m') ∧
    (∃ f left right scope s,
      Leads .mapping (.evaluate ⟨8⟩ ⟨0⟩) .mapping (.call (.closure f) left right scope) s ∧
      s.calls.depth = 3) ∧
    Ends .mapping (step .mapping (.call (.closure ⟨⟨0⟩, ⟨1, 0⟩⟩) none (.int 7) ⟨0⟩))
      (Machine.mapping.withLimit 0) (.error (.of (.stackOverflow 0)))
      (Machine.mapping.withLimit 0) := by
  have hpass : Context.mapping.registry.PassesErrors :=
    Registry.passesErrors_of_within fun _ _ hb => within_mapping hb fun _ => trivial
  have hraises : ¬ Context.mapping.registry.Raises .standard (.stackOverflow 3) :=
    Registry.not_raises_of_within fun _ hb => within_mapping hb fun _ => nofun
  have hmakes : ¬ MakesUp .mapping (.evaluate ⟨8⟩ ⟨0⟩) .mapping (.stackOverflow 3) :=
    fun h => hraises h.raises
  obtain ⟨hlarger, hoverflow, hzero, -⟩ := limit_decides_overflow .mapping hpass
  refine ⟨?_, ?_, hzero _ _ _ _ _ rfl⟩
  · have h : ∃ m', Ends .mapping (step .mapping (.evaluate ⟨7⟩ ⟨0⟩)) (Machine.mapping.withLimit 1)
        (.ok (.vector [.int 7])) m' := ⟨_, ⟨20, rfl⟩⟩
    obtain ⟨m', h⟩ := h
    exact ⟨_, hlarger _ _ 1 5 _ _ (by decide) h (not_overflows_ok _)⟩
  · have h : ∃ e m', Ends .mapping (step .mapping (.evaluate ⟨8⟩ ⟨0⟩)) .mapping (.error e) m' ∧
        e.cause = .stackOverflow 3 := ⟨_, _, ⟨30, rfl⟩, rfl⟩
    obtain ⟨e, m', h, hcause⟩ := h
    obtain ⟨-, f, left, right, scope, s, hl, hdepth, -⟩ :=
      (hoverflow _ _ _ _ 3 (by decide) h hcause).resolve_right hmakes
    exact ⟨f, left, right, scope, s, hl, hdepth⟩

end Eval

end ArrayLang

import ArrayLang.Proofs.Evaluation.Moments
import ArrayLang.Proofs.Selection.Assignment

/-!
# Names are never lost

While a program runs scopes only grow, so what a name once was declared, bound or seen as it stays
at every later moment of the run. A selective assignment reads its target, lets other code run and
then stores; since the target was seen when it was read, there is something to store into, and the
store cannot fail. An error about an undefined name comes from a part of the assignment, or from
where the target was read (`Eval.names_never_lost`).
-/

namespace ArrayLang

namespace Scopes

variable {s t : Scopes} {e : ScopeId} {x : Name}

/-- The chain from a scope outward comes to a scope without a parent. -/
def Rooted (s : Scopes) (e : ScopeId) : Prop :=
  ∃ root, Relation.ReflTransGen (fun d p => s.parent? d = some p) e root ∧ s.parent? root = none

/-- Parents have smaller numbers than their children, so every chain ends at a root. -/
theorem rooted (s : Scopes) (e : ScopeId) : s.Rooted e := by
  induction hk : e.index using Nat.strongRecOn generalizing e with
  | ind k ih =>
      cases hp : s.parent? e with
      | none => exact ⟨e, .refl, hp⟩
      | some p =>
          have hlt : p.index < k := hk ▸ index_lt_of_parent? hp
          obtain ⟨root, hpath, hroot⟩ := ih p.index hlt p rfl
          exact ⟨root, .head hp hpath, hroot⟩

/-- A name that has a value in a scope keeps having one there. -/
theorem GrowsTo.find?_eq_bound (h : s.GrowsTo t) {v : Value}
    (hv : s.find? e x = some (.bound v)) : ∃ w, t.find? e x = some (.bound w) := by
  have hdecl : s.declares e x = true := declares_iff.mpr ⟨_, hv⟩
  obtain ⟨b, hb⟩ := declares_iff.mp (h.declares e x hdecl)
  cases b with
  | bound w => exact ⟨w, hb⟩
  | absent =>
      have habsent := h.absent e x (index_lt_of_declares hdecl) hb
      rw [hv] at habsent
      cases habsent

/-- Where a name can be seen it can be stored to. -/
theorem exists_assign?_of_lookup? {v : Value} (h : s.lookup? e x = some v) (w : Value) :
    ∃ t, s.assign? e x w = some t := by
  obtain ⟨d, hd, -⟩ := lookup?_eq_some_iff.mp h
  exact ⟨_, assign?_eq_some_iff.mpr ⟨d, hd, rfl⟩⟩

end Scopes

namespace Eval

variable {α β : Type} {c : Context} {x : Eval α} {f : α → Eval β} {P : Cause → Prop}
  {target : Name} {function value : ExprId} {left : Option ExprId} {scope : ScopeId}
  {m m' : Machine} {err : EvalError}

/-! ## Where errors come from -/

/-- The step ended on `m'` with the error of a question that it had put. -/
def Passes (c : Context) (x : Eval α) (m : Machine) (err : EvalError) (m' : Machine) : Prop :=
  ∃ q n, Puts c x m q n ∧ Ends c (step c q) n (.error err) m'

theorem Passes.bind_left (h : Passes c x m err m') : Passes c (x >>= f) m err m' := by
  obtain ⟨q, n, hput, hend⟩ := h
  exact ⟨q, n, hput.bind_left, hend⟩

theorem Passes.bind_right {a : α} {n : Machine} (hx : Ends c x m (.ok a) n)
    (h : Passes c (f a) n err m') : Passes c (x >>= f) m err m' := by
  obtain ⟨q, k, hput, hend⟩ := h
  exact ⟨q, k, hput.bind_right hx, hend⟩

/-- The errors of the step that are not those of its questions have such causes. -/
def RaisesOnly (c : Context) (P : Cause → Prop) (x : Eval α) : Prop :=
  ∀ m err m', Ends c x m (.error err) m' → Passes c x m err m' ∨ P err.cause

theorem raisesOnly_ofExcept {r : Except EvalError α} (h : ∀ e, r = .error e → P e.cause) :
    RaisesOnly c P (ofExcept r) := by
  intro m err m' hend
  obtain ⟨hr, -⟩ := ends_ofExcept_iff.mp hend
  exact .inr (h err hr.symm)

theorem raisesOnly_pure (a : α) : RaisesOnly c P (pure a : Eval α) :=
  raisesOnly_ofExcept (r := .ok a) nofun

/-- A question raises nothing by itself: its errors come from what answers it. -/
theorem raisesOnly_ask (q : Request) : RaisesOnly c P (ask q) :=
  fun m _ _ hend => .inl ⟨q, m, .here, ends_ask_iff.mp hend⟩

theorem raisesOnly_expr (e : ExprId) : RaisesOnly c P (expr c e) := by
  intro m err m' hend
  obtain ⟨_, -, hr, -⟩ := ends_expr_iff.mp hend
  cases hr

/-- What two steps raise was raised by one of them. -/
theorem RaisesOnly.bind (hx : RaisesOnly c P x) (hf : ∀ a, RaisesOnly c P (f a)) :
    RaisesOnly c P (x >>= f) := by
  intro m err m' hend
  rcases ends_bind_iff.mp hend with ⟨a, n, hok, hend⟩ | ⟨e, hend, he⟩
  · exact (hf a n err m' hend).imp_left fun h => h.bind_right hok
  · cases he
    exact (hx m err m' hend).imp_left fun h => h.bind_left

theorem raisesOnly_evaluateOptional (e : Option ExprId) (scope : ScopeId) :
    RaisesOnly c P (evaluateOptional e scope) := by
  cases e with
  | none => exact raisesOnly_pure none
  | some e => exact (raisesOnly_ask _).bind fun v => raisesOnly_pure (some v)

/-- What makes the function of a selective assignment raises no error about an undefined name. -/
theorem raisesOnly_selector (function : ExprId) (scope : ScopeId) :
    RaisesOnly c (fun cause => ∀ name, cause ≠ .undefinedVariable name)
      (selector c function scope) := by
  refine (raisesOnly_expr function).bind fun x => ?_
  split
  · refine RaisesOnly.bind ?_ fun p => (raisesOnly_ofExcept fun e he name hname => ?_).bind
      fun f => raisesOnly_pure _
    · refine (raisesOnly_evaluateOptional _ scope).bind fun r => ?_
      exact (raisesOnly_ask _).bind fun v => raisesOnly_pure _
    · have hrefuses := derive_error he
      rw [hname] at hrefuses
      cases hrefuses
  · refine (raisesOnly_ask _).bind fun v => ?_
    split
    · exact raisesOnly_pure _
    · refine raisesOnly_ofExcept fun e he name => ?_
      cases he
      exact nofun

theorem raisesOnly_pick (f : Callable) (left : Option Value) (current : Value) (scope : ScopeId) :
    RaisesOnly c P (pick f left current scope) := by
  unfold pick
  split
  · exact raisesOnly_pure none
  · exact (raisesOnly_ask _).bind fun v => raisesOnly_pure (some v)

/-- The target is looked up when both sides of it have been evaluated, and has no value. -/
def Unseen (c : Context) (target : Name) (left : Option ExprId) (value : ExprId) (scope : ScopeId)
    (m m' : Machine) : Prop :=
  ∃ w v l, Ends c (evaluate value scope) m (.ok w) v ∧
    Ends c (evaluateOptional left scope) v (.ok l) m' ∧ m'.scopes.lookup? scope target = none

/-- An undefined name in the preparation is that of a part, or the target itself. -/
theorem undefined_of_ends_prepared {name : String}
    (h : Ends c (prepared c target function left value scope) m (.error err) m')
    (hcause : err.cause = .undefinedVariable name) :
    Passes c (prepared c target function left value scope) m err m' ∨
      Unseen c target left value scope m m' ∧
        err = .of (.undefinedVariable (c.names.lookup target)) := by
  unfold prepared at h ⊢
  rcases ends_bind_iff.mp h with ⟨w, v, hv, h⟩ | ⟨e, hend, he⟩
  rotate_left
  · cases he
    exact .inl (Passes.bind_left ⟨_, m, .here, ends_ask_iff.mp hend⟩)
  rcases ends_bind_iff.mp h with ⟨l, t, ht, h⟩ | ⟨e, hend, he⟩
  rotate_left
  · cases he
    refine .inl (Passes.bind_right hv (Passes.bind_left ?_))
    exact (raisesOnly_evaluateOptional (P := fun _ => False) left scope v _ _ hend).resolve_right id
  have hread := ends_bind_iff.mp h
  cases hx : t.scopes.lookup? scope target with
  | none =>
      have hunseen : Ends c (variableValue c target scope) t
          (.error (.of (.undefinedVariable (c.names.lookup target)))) t :=
        ends_of_eq (variableValue_of_none hx)
      rcases hread with ⟨current, _, hcurrent, -⟩ | ⟨e, hend, he⟩
      · cases (hunseen.unique hcurrent).1
      · obtain ⟨heq, rfl⟩ := hunseen.unique hend
        cases heq
        cases he
        exact .inr ⟨⟨w, v, l, hv, ht, hx⟩, rfl⟩
  | some current =>
      have hseen : Ends c (variableValue c target scope) t (.ok current) t :=
        ends_of_eq (variableValue_of_some hx)
      rcases hread with ⟨_, _, hcurrent, hrest⟩ | ⟨e, hend, -⟩
      · obtain ⟨heq, rfl⟩ := hseen.unique hcurrent
        cases heq
        -- what comes after the target has been read raises no such error of its own
        have hraises := (raisesOnly_selector (c := c) function scope).bind fun f =>
          (raisesOnly_pick f l current scope).bind fun picked =>
            raisesOnly_pure (Selected.mk w current picked)
        rcases hraises _ _ _ hrest with hpass | hne
        · exact .inl (((hpass.bind_right hcurrent).bind_right ht).bind_right hv)
        · exact absurd hcause (hne name)
      · cases (hseen.unique hend).1

/-- No more does the end of the assignment, since there is something to store into. -/
theorem undefined_of_ends_selectiveAssign {name : String} {e : ExprId} {span : Span}
    (hexpr : c.expr? m.arena e = some ⟨.selectiveAssign target function left value, span⟩)
    (h : Ends c (step c (.evaluate e scope)) m (.error err) m')
    (hcause : err.cause = .undefinedVariable name) :
    ∃ err₀, err = err₀.locate span ∧
      (Passes c (selectiveAssign c target function left value scope) m err₀ m' ∨
        Unseen c target left value scope m m' ∧
          err₀ = .of (.undefinedVariable (c.names.lookup target))) := by
  rcases ends_selectiveAssign hexpr h with
    ⟨err₀, hend, hr⟩ | ⟨p, s, holder, held, hp, -, -, ⟨err₀, herr, hr, -⟩ | ⟨_, _, hr, _⟩⟩
  · cases hr
    rw [EvalError.cause_locate] at hcause
    refine ⟨err₀, rfl, (undefined_of_ends_prepared hend hcause).imp_left fun hpass => ?_⟩
    rw [selectiveAssign_eq]
    exact hpass.bind_left
  · -- once the function has returned only the positions and the values can be wrong
    cases hr
    rw [EvalError.cause_locate] at hcause
    obtain ⟨cause, rfl, hrejects⟩ := Selected.exists_of_updated_error herr
    obtain rfl : cause = .undefinedVariable name := hcause
    rcases hrejects with hrej | ⟨shape, n, hshape⟩
    · cases hrej
    · cases hshape
  · cases hr

/-- The target was read, so it is still declared when the value is stored. -/
theorem exists_assign?_of_ends_replacement {r : Replacement}
    (h : Ends c (replacement c target function left value scope) m (.ok r) m') (v : Value) :
    ∃ scopes, m'.scopes.assign? scope target v = some scopes := by
  rw [replacement_eq] at h
  simp only [ends_bind_ok_iff, ends_ofExcept_iff, ends_pure_iff] at h
  obtain ⟨p, s, hp, positions, _, ⟨-, rfl⟩, -, rfl⟩ := h
  obtain ⟨held, hheld⟩ := lookup?_of_ends_prepared hp
  exact Scopes.exists_assign?_of_lookup? hheld v

/-! ## Names in a run -/

/-- **Names are never lost**, and the store of a selective assignment never fails.

From a moment of any run to every later one, the last one included, declared names stay declared
and bound ones bound, scopes keep their parents and have chains that end, and what can be looked up
can still be. When everything before the store of a selective assignment has been evaluated, any
value can be stored. If the assignment ends with an error about an undefined name, this is the error
of something that was evaluated or called for it, or the target had no value when it was looked up,
before the function was evaluated. -/
theorem names_never_lost (c : Context) (q : Request) (m : Machine) :
    (∀ r m', Ends c (step c q) m r m' ↔ Later c (.start c q m) (.done r m')) ∧
    (∀ s t n n', Later c (.start c q m) s → Later c s t → s.machine? = some n →
      t.machine? = some n' →
        (∀ e x, n.scopes.declares e x = true → n'.scopes.declares e x = true) ∧
        (∀ e x v, n.scopes.find? e x = some (.bound v) →
          ∃ w, n'.scopes.find? e x = some (.bound w)) ∧
        (∀ e : ScopeId, e.index < n.scopes.size → n'.scopes.parent? e = n.scopes.parent? e) ∧
        (∀ e, n'.scopes.Rooted e) ∧
        ∀ e x v, n.scopes.lookup? e x = some v → ∃ w, n'.scopes.lookup? e x = some w) ∧
    ∀ n scope e span target function left value,
      c.expr? n.arena e = some ⟨.selectiveAssign target function left value, span⟩ →
        (∀ r s, Ends c (replacement c target function left value scope) n (.ok r) s →
          ∀ v, ∃ scopes, s.scopes.assign? scope target v = some scopes) ∧
        ∀ err n' name, Ends c (step c (.evaluate e scope)) n (.error err) n' →
          err.cause = .undefinedVariable name →
            ∃ err₀, err = err₀.locate span ∧
              (Passes c (selectiveAssign c target function left value scope) n err₀ n' ∨
                Unseen c target left value scope n n' ∧
                  err₀ = .of (.undefinedVariable (c.names.lookup target))) := by
  refine ⟨fun r m' => ends_iff_turns, fun s t n n' hs hst hn hn' => ?_,
    fun n scope e span target function left value hexpr => ⟨fun r s h v => ?_, ?_⟩⟩
  · have hgrow : n.scopes.GrowsTo n'.scopes := growsTo_of_turns hs hst hn hn'
    exact ⟨hgrow.declares, fun e x v hv => hgrow.find?_eq_bound hv, hgrow.parent?_eq,
      n'.scopes.rooted, fun e x v hv => hgrow.lookup?_eq_some hv⟩
  · exact exists_assign?_of_ends_replacement h v
  · intro err n' name h hcause
    exact undefined_of_ends_selectiveAssign hexpr h hcause

/-- `({1} X)←9` in the inner scope. The `X` that it reads is there in the end, and for the store.
Where there is no `X` at all, it fails as it looks for it. -/
theorem names_never_lost_selecting :
    (∃ m' w, Ends .selecting (step .selecting (.evaluate ⟨9⟩ ⟨1⟩)) .selecting (.ok (.int 9)) m' ∧
      m'.scopes.lookup? ⟨1⟩ ⟨5⟩ = some w) ∧
    (∃ r s, Ends .selecting (replacement .selecting ⟨5⟩ ⟨6⟩ none ⟨8⟩ ⟨1⟩) .selecting (.ok r) s ∧
      ∀ v, ∃ scopes, s.scopes.assign? ⟨1⟩ ⟨5⟩ v = some scopes) ∧
    ∃ m err m', Ends .selecting (step .selecting (.evaluate ⟨9⟩ ⟨0⟩)) m (.error err) m' ∧
      m.scopes.size = 1 ∧ (∃ name, err.cause = .undefinedVariable name) ∧
      Unseen .selecting ⟨5⟩ none ⟨8⟩ ⟨0⟩ m m' := by
  obtain ⟨hends, hlater, hstores⟩ := names_never_lost .selecting (.evaluate ⟨9⟩ ⟨1⟩) .selecting
  refine ⟨?_, ?_, ?_⟩
  · have hend : ∃ m', Ends .selecting (step .selecting (.evaluate ⟨9⟩ ⟨1⟩)) .selecting
        (.ok (.int 9)) m' := ⟨_, ⟨20, rfl⟩⟩
    obtain ⟨m', hend⟩ := hend
    have hrun := hlater _ _ _ m' .refl ((hends _ _).mp hend) rfl rfl
    obtain ⟨w, hw⟩ := hrun.2.2.2.2 ⟨1⟩ ⟨5⟩ _ rfl
    exact ⟨m', w, hend, hw⟩
  · have hend : ∃ r s, Ends .selecting (replacement .selecting ⟨5⟩ ⟨6⟩ none ⟨8⟩ ⟨1⟩) .selecting
        (.ok r) s := ⟨_, _, ⟨20, rfl⟩⟩
    obtain ⟨r, s, hend⟩ := hend
    exact ⟨r, s, hend, (hstores _ ⟨1⟩ ⟨9⟩ _ _ _ _ _ rfl).1 r s hend⟩
  · -- in the outermost scope the name is not declared, so reading it fails
    have hend : ∃ err m', Ends .selecting (step .selecting (.evaluate ⟨9⟩ ⟨0⟩))
        { Machine.selecting with scopes := Scopes.empty.outermost.2 } (.error err) m' ∧
        ∃ name, err.cause = .undefinedVariable name := ⟨_, _, ⟨20, rfl⟩, _, rfl⟩
    obtain ⟨err, m', hend, name, hcause⟩ := hend
    have hnine : Ends .selecting (step .selecting (.evaluate ⟨8⟩ ⟨0⟩))
        { Machine.selecting with scopes := Scopes.empty.outermost.2 } (.ok (.int 9))
        { Machine.selecting with scopes := Scopes.empty.outermost.2 } := ⟨20, rfl⟩
    obtain ⟨err₀, rfl, hpass | hunseen⟩ :=
      (hstores _ ⟨0⟩ ⟨9⟩ _ _ _ _ _ rfl).2 err m' name hend hcause
    · -- the one question, on the right side, has no error
      obtain ⟨q, n, hput, herr⟩ := hpass
      cases hput with
      | here => cases (hnine.unique herr).1
      | later hr hput =>
          obtain ⟨rfl, rfl⟩ := hnine.unique hr
          cases hput
    · exact ⟨_, _, m', hend, rfl, ⟨name, hcause⟩, hunseen.1⟩

end Eval

end ArrayLang

import ArrayLang.Proofs.Selection.Phases

/-!
# Selective assignments

`(L f X)←V` stores once, at its very end, in the scope that declares `X` there and then. So it is
atomic (`Eval.selectiveAssign_atomic`): it either leaves the scopes as the evaluation of its parts
left them, or changes one binding.

The array that is changed was read earlier than that, before `f` was evaluated and called. What `f`
itself stores in `X` is lost, and `Eval.unselected_kept_iff` says exactly when nothing is.
-/

namespace ArrayLang

namespace Eval

variable {c : Context} {target : Name} {function value : ExprId} {left : Option ExprId}
  {scope holder : ScopeId} {m m' s : Machine} {p : Selected} {r : Except EvalError Value}

/-! ## The machines between the phases -/

/-- `t` is where the target is read. -/
theorem ends_prepared_ok (h : Ends c (prepared c target function left value scope) m (.ok p) s) :
    ∃ v t u l f, Ends c (evaluate value scope) m (.ok p.value) v ∧
      Ends c (evaluateOptional left scope) v (.ok l) t ∧
      t.scopes.lookup? scope target = some p.current ∧
      Ends c (selector c function scope) t (.ok f) u ∧
      Ends c (pick f l p.current scope) u (.ok p.picked) s := by
  unfold prepared at h
  simp only [ends_bind_ok_iff, ends_variableValue_ok_iff, ends_pure_iff] at h
  obtain ⟨w, v, hv, l, t, ht, current, _, ⟨hx, rfl⟩, f, u, hu, picked, _, hs, hp, rfl⟩ := h
  cases hp
  exact ⟨v, _, u, l, f, hv, ht, hx, hu, hs⟩

/-- Making the function of a selective assignment may run code, under which scopes only grow. -/
theorem keeps_growth_selector (function : ExprId) (scope : ScopeId) :
    Keeps (.keeping ScopesGrow) ScopesGrow (selector c function scope) := by
  have hin : KeptIn c (.keeping ScopesGrow) ScopesGrow scope := keptIn_growth scope
  refine (keeps_expr function).bind fun x => ?_
  split
  · exact (hin.operands _ _).bind fun _ => (keeps_ofExcept _).bind fun _ => keeps_pure _
  · exact hin.evaluateCallable function

theorem keeps_growth_pick (f : Callable) (left : Option Value) (current : Value)
    (scope : ScopeId) : Keeps (.keeping ScopesGrow) ScopesGrow (pick f left current scope) := by
  unfold pick
  split
  · exact keeps_pure none
  · exact (keeps_keeping_ask _).map some

/-- Whatever the function did, the target can still be looked up when it has returned. -/
theorem lookup?_of_ends_prepared
    (h : Ends c (prepared c target function left value scope) m (.ok p) s) :
    ∃ held, s.scopes.lookup? scope target = some held := by
  obtain ⟨v, t, u, l, f, -, -, hx, hu, hs⟩ := ends_prepared_ok h
  have hgrow := (hu.growsTo (keeps_growth_selector function scope)).trans
    (hs.growsTo (keeps_growth_pick f l p.current scope))
  exact hgrow.lookup?_eq_some hx

/-- The last phase either fails and changes nothing, or rebinds the target in the scope that holds
it. -/
theorem ends_finish_iff (hx : s.scopes.holder? scope target = some holder) :
    Ends c (finish c target scope p) s r m' ↔
      (∃ e, p.updated c.tower = .error e ∧ r = .error e ∧ m' = s) ∨
      ∃ v, p.updated c.tower = .ok v ∧ r = .ok p.value ∧
        m' = { s with scopes := s.scopes.define holder target v } := by
  -- the name has a holder, so the store itself cannot fail
  have hstore : ∀ v, Ends c (store c target v scope >>= fun _ => pure p.value) s r m' ↔
      r = .ok p.value ∧ m' = { s with scopes := s.scopes.define holder target v } := by
    intro v
    simp only [ends_bind_iff, ends_store_iff hx, ends_pure_iff]
    constructor
    · rintro (⟨_, _, ⟨-, rfl⟩, h⟩ | ⟨_, ⟨⟨⟩, -⟩, -⟩)
      exact h
    · intro h
      exact .inl ⟨(), _, ⟨trivial, rfl⟩, h⟩
  unfold finish
  rw [ends_bind_iff]
  simp only [ends_ofExcept_iff]
  constructor
  · rintro (⟨v, _, ⟨hv, rfl⟩, h⟩ | ⟨e, ⟨he, hm⟩, hr⟩)
    · exact .inr ⟨v, hv.symm, (hstore v).mp h⟩
    · exact .inl ⟨e, he.symm, hr, hm⟩
  · rintro (⟨e, he, hr, hm⟩ | ⟨v, hv, h⟩)
    · exact .inr ⟨e, ⟨he.symm, hm⟩, hr⟩
    · exact .inl ⟨v, s, ⟨hv.symm, rfl⟩, (hstore v).mpr h⟩

/-- The ways in which a selective assignment can end: before its function has returned, after that
with nothing stored, or with one store into the binding that is seen at that time. -/
theorem ends_selectiveAssign {e : ExprId} {span : Span}
    (hexpr : c.expr? m.arena e = some ⟨.selectiveAssign target function left value, span⟩)
    (h : Ends c (step c (.evaluate e scope)) m r m') :
    (∃ err, Ends c (prepared c target function left value scope) m (.error err) m' ∧
      r = .error (err.locate span)) ∨
    ∃ p s holder held, Ends c (prepared c target function left value scope) m (.ok p) s ∧
      s.scopes.holder? scope target = some holder ∧
      s.scopes.find? holder target = some (.bound held) ∧
      ((∃ err, p.updated c.tower = .error err ∧ r = .error (err.locate span) ∧ m' = s) ∨
        ∃ updated, p.updated c.tower = .ok updated ∧ r = .ok p.value ∧
          m' = { s with scopes := s.scopes.define holder target updated }) := by
  obtain ⟨r₀, hr₀, hr⟩ := (ends_evaluate_iff hexpr).mp h
  have hr₀ : Ends c (selectiveAssign c target function left value scope) m r₀ m' := hr₀
  rw [selectiveAssign_eq, ends_bind_iff] at hr₀
  rcases hr₀ with ⟨p, s, hp, hfinish⟩ | ⟨err, herr, rfl⟩
  · obtain ⟨held, hheld⟩ := lookup?_of_ends_prepared hp
    obtain ⟨holder, hholder, hfind⟩ := Scopes.lookup?_eq_some_iff.mp hheld
    refine .inr ⟨p, s, holder, held, hp, hholder, hfind, ?_⟩
    rcases (ends_finish_iff hholder).mp hfinish with ⟨err, herr, rfl, hm⟩ | ⟨v, hv, rfl, hm⟩
    · exact .inl ⟨err, herr, hr, hm⟩
    · exact .inr ⟨v, hv, hr, hm⟩
  · exact .inl ⟨err, herr, hr⟩

/-! ## Atomicity -/

/-- **A selective assignment is atomic.** When its function has returned on the machine `s`, it
either fails and leaves everything as it is there, or gives the value of the right side and changes
one binding, that of the target in the nearest scope that declares it. -/
theorem selectiveAssign_atomic {e : ExprId} {span : Span}
    (hexpr : c.expr? m.arena e = some ⟨.selectiveAssign target function left value, span⟩)
    (h : Ends c (step c (.evaluate e scope)) m r m') :
    (∃ err, Ends c (prepared c target function left value scope) m (.error err) m' ∧
      r = .error (err.locate span)) ∨
    ∃ p s, Ends c (prepared c target function left value scope) m (.ok p) s ∧
      ((∃ err, r = .error err ∧ m' = s ∧
          (p.current.WellShaped → err.cause.rejectsSelection = true)) ∨
        ((∃ v, Ends c (evaluate value scope) m (.ok p.value) v) ∧ r = .ok p.value ∧
          ∃ holder updated,
            (s.scopes.chain scope).find? (fun d => s.scopes.declares d target) = some holder ∧
            m'.scopes.find? holder target = some (.bound updated) ∧
            s.scopes.DiffersOnlyAt m'.scopes holder target)) := by
  rcases ends_selectiveAssign hexpr h with herr | ⟨p, s, holder, held, hp, hholder, -, hend⟩
  · exact .inl herr
  refine .inr ⟨p, s, hp, ?_⟩
  rcases hend with ⟨err, herr, hr, hm⟩ | ⟨updated, -, hr, rfl⟩
  · refine .inl ⟨_, hr, hm, fun hw => ?_⟩
    rw [EvalError.cause_locate]
    exact p.updated_eq_error herr hw
  · have hdecl := Scopes.declares_of_holder? hholder
    obtain ⟨v, -, -, -, -, hv, -⟩ := ends_prepared_ok hp
    refine .inr ⟨⟨v, hv⟩, hr, holder, updated, ?_, ?_, ?_⟩
    · rw [← Scopes.holder?_eq_find?_chain]
      exact hholder
    · exact Scopes.find?_define_self hdecl
    · exact Scopes.differsOnlyAt_define hdecl

end Eval

/-- Selective assignments of `9` to an `X`: `({1} X)←9`, `({7} X)←9`, and one whose function
assigns to `X` itself, `({({⍵} X)←7 ⋄ 1} X)←9`. -/
def Context.selecting : Context where
  registry := .empty .initial
  tower := .standard
  arenas := #[{
    exprs := #[⟨.variable .rightArgument, .dummy⟩, ⟨.closure ⟨0, 1⟩, .dummy⟩, ⟨.int 7, .dummy⟩,
      ⟨.selectiveAssign ⟨5⟩ ⟨1⟩ none ⟨2⟩, .dummy⟩, ⟨.int 1, .dummy⟩, ⟨.closure ⟨1, 2⟩, .dummy⟩,
      ⟨.closure ⟨2, 1⟩, .dummy⟩, ⟨.closure ⟨3, 1⟩, .dummy⟩, ⟨.int 9, .dummy⟩,
      ⟨.selectiveAssign ⟨5⟩ ⟨6⟩ none ⟨8⟩, .dummy⟩, ⟨.selectiveAssign ⟨5⟩ ⟨7⟩ none ⟨8⟩, .dummy⟩,
      ⟨.selectiveAssign ⟨5⟩ ⟨5⟩ none ⟨8⟩, .dummy⟩]
    items := #[]
    guards := #[⟨none, ⟨0⟩⟩, ⟨none, ⟨3⟩⟩, ⟨none, ⟨4⟩⟩, ⟨none, ⟨2⟩⟩] }]

/-- A scope in which `X` is `1 2 3`, and another one inside of it. -/
def Machine.selecting : Machine where
  arena := ⟨0⟩
  calls := .empty 10
  scopes := ((Scopes.empty.outermost.2.define ⟨0⟩ ⟨5⟩
    (.vector [.int 1, .int 2, .int 3])).child ⟨0⟩).2

namespace Eval

/-- `({1} X)←9` in the inner scope changes the `X` of the outer one, and `({7} X)←9` nothing. -/
theorem selectiveAssign_atomic_within :
    (∃ m', Ends .selecting (step .selecting (.evaluate ⟨9⟩ ⟨1⟩)) .selecting (.ok (.int 9)) m' ∧
      ∃ s holder updated, m'.scopes.find? holder ⟨5⟩ = some (.bound updated) ∧
        Scopes.DiffersOnlyAt s m'.scopes holder ⟨5⟩ ∧
        m'.scopes.find? ⟨0⟩ ⟨5⟩ = some (.bound (.vector [.int 9, .int 2, .int 3])) ∧
        m'.scopes.find? ⟨1⟩ ⟨5⟩ = none) ∧
    ∃ err p m', Ends .selecting (step .selecting (.evaluate ⟨10⟩ ⟨1⟩)) .selecting (.error err) m' ∧
      Ends .selecting (prepared .selecting ⟨5⟩ ⟨7⟩ none ⟨8⟩ ⟨1⟩) .selecting (.ok p) m' ∧
      err.cause = .indexOutOfBounds 6 3 := by
  constructor
  · -- the target is declared in the outer scope, where it is rebound
    have h : ∃ m', Ends .selecting (step .selecting (.evaluate ⟨9⟩ ⟨1⟩)) .selecting
        (.ok (.int 9)) m' ∧
        m'.scopes.find? ⟨0⟩ ⟨5⟩ = some (.bound (.vector [.int 9, .int 2, .int 3])) ∧
        m'.scopes.find? ⟨1⟩ ⟨5⟩ = none := ⟨_, ⟨20, rfl⟩, rfl, rfl⟩
    obtain ⟨m', h, h₀, h₁⟩ := h
    rcases selectiveAssign_atomic rfl h with ⟨_, _, hr⟩ | ⟨p, s, _, ⟨_, hr, _⟩ | hok⟩
    · cases hr
    · cases hr
    · obtain ⟨-, -, holder, updated, -, hfind, hdiff⟩ := hok
      exact ⟨m', h, s.scopes, holder, updated, hfind, hdiff, h₀, h₁⟩
  · have h : ∃ err m', Ends .selecting (step .selecting (.evaluate ⟨10⟩ ⟨1⟩)) .selecting
        (.error err) m' ∧ err.cause = .indexOutOfBounds 6 3 := ⟨_, _, ⟨20, rfl⟩, rfl⟩
    have hprep : ∃ p s, Ends .selecting (prepared .selecting ⟨5⟩ ⟨7⟩ none ⟨8⟩ ⟨1⟩) .selecting
        (.ok p) s := ⟨_, _, ⟨20, rfl⟩⟩
    obtain ⟨err, m', h, hcause⟩ := h
    obtain ⟨p₀, s₀, hp₀⟩ := hprep
    rcases selectiveAssign_atomic rfl h with ⟨_, hbad, _⟩ | ⟨p, s, hp, ⟨_, _, rfl, _⟩ | hok⟩
    · cases (hp₀.unique hbad).1
    · exact ⟨err, p, _, h, hp, hcause⟩
    · cases hok.2.1

/-! ## Lost updates -/

/-- **What a selective assignment keeps** at the positions that are not selected is the array
`p.current`, which was read on `t`, before the function was evaluated and called. It keeps what the
target holds on `s`, when the result is stored, exactly if these two agree there. -/
theorem unselected_kept_iff {e : ExprId} {span : Span} {w : Value}
    (hexpr : c.expr? m.arena e = some ⟨.selectiveAssign target function left value, span⟩)
    (h : Ends c (step c (.evaluate e scope)) m (.ok w) m') :
    ∃ p t s positions held updated,
      (∃ v l, Ends c (evaluate value scope) m (.ok p.value) v ∧
        Ends c (evaluateOptional left scope) v (.ok l) t) ∧
      Ends c (prepared c target function left value scope) m (.ok p) s ∧
      Selection.positionsOf c.tower p.current p.picked = .ok positions ∧
      t.scopes.lookup? scope target = some p.current ∧
      s.scopes.lookup? scope target = some held ∧
      m'.scopes.lookup? scope target = some updated ∧
      (∀ i, ¬ Selection.Names positions i → updated.cellAt? i = p.current.cellAt? i) ∧
      ((∀ i, ¬ Selection.Names positions i → updated.cellAt? i = held.cellAt? i) ↔
        ∀ i, ¬ Selection.Names positions i → p.current.cellAt? i = held.cellAt? i) := by
  rcases ends_selectiveAssign hexpr h with
    ⟨err, -, hr⟩ | ⟨p, s, holder, held, hp, hholder, hbound, ⟨_, _, hr, _⟩ | hend⟩
  · cases hr
  · cases hr
  -- success leaves the store of the whole array as the one thing that was done after `s`
  obtain ⟨v, t, -, l, -, hv, hl, hcurrent, -⟩ := ends_prepared_ok hp
  obtain ⟨updated, hupdated, -, rfl⟩ := hend
  obtain ⟨positions, hpos, hreplace⟩ := p.updated_eq_ok hupdated
  have hheld := Scopes.lookup?_eq_some_iff.mpr ⟨holder, hholder, hbound⟩
  have hnew := Scopes.lookup?_define_of_holder? (v := updated) hholder
  have hkept : ∀ i, ¬ Selection.Names positions i → updated.cellAt? i = p.current.cellAt? i :=
    fun i hi => Selection.replace_unselected hreplace hi
  refine ⟨p, t, s, positions, held, updated, ⟨v, l, hv, hl⟩, hp, hpos, hcurrent, hheld, hnew,
    hkept, ?_⟩
  constructor
  · intro hall i hi
    rw [← hkept i hi]
    exact hall i hi
  · intro hall i hi
    rw [hkept i hi]
    exact hall i hi

/-- The function of `({1} X)←9` leaves `X` alone, and all of `X` but its first element is kept. -/
theorem unselected_kept_of_constant :
    ∃ s m' positions held updated,
      (∃ p, Ends .selecting (prepared .selecting ⟨5⟩ ⟨6⟩ none ⟨8⟩ ⟨1⟩) .selecting (.ok p) s) ∧
      Ends .selecting (step .selecting (.evaluate ⟨9⟩ ⟨1⟩)) .selecting (.ok (.int 9)) m' ∧
      s.scopes.lookup? ⟨1⟩ ⟨5⟩ = some held ∧ m'.scopes.lookup? ⟨1⟩ ⟨5⟩ = some updated ∧
      ∀ i, ¬ Selection.Names positions i → updated.cellAt? i = held.cellAt? i := by
  have h : ∃ m', Ends .selecting (step .selecting (.evaluate ⟨9⟩ ⟨1⟩)) .selecting
      (.ok (.int 9)) m' := ⟨_, ⟨20, rfl⟩⟩
  have hprep : ∃ p s, Ends .selecting (prepared .selecting ⟨5⟩ ⟨6⟩ none ⟨8⟩ ⟨1⟩) .selecting
      (.ok p) s ∧ s.scopes.lookup? ⟨1⟩ ⟨5⟩ = some p.current := ⟨_, _, ⟨20, rfl⟩, rfl⟩
  obtain ⟨m', h⟩ := h
  obtain ⟨p₀, s₀, hp₀, hcurrent⟩ := hprep
  obtain ⟨p, t, s, positions, held, updated, -, hp, -, -, hheld, hnew, -, hiff⟩ :=
    unselected_kept_iff rfl h
  obtain ⟨heq, rfl⟩ := hp₀.unique hp
  cases heq
  -- the function stored nothing: `X` is still the array that was read
  rw [hheld] at hcurrent
  cases hcurrent
  exact ⟨_, m', positions, _, updated, ⟨_, hp⟩, h, hheld, hnew, hiff.mpr fun _ _ => rfl⟩

/-- In `({({⍵} X)←7 ⋄ 1} X)←9` all elements of `X` are `7` when the result is stored, and the two
that are not selected become again what they were before. -/
theorem unselected_lost :
    ∃ p s m' positions held updated,
      Ends .selecting (prepared .selecting ⟨5⟩ ⟨5⟩ none ⟨8⟩ ⟨0⟩) .selecting (.ok p) s ∧
      Ends .selecting (step .selecting (.evaluate ⟨11⟩ ⟨0⟩)) .selecting (.ok (.int 9)) m' ∧
      Selection.positionsOf Context.selecting.tower p.current p.picked = .ok positions ∧
      s.scopes.lookup? ⟨0⟩ ⟨5⟩ = some held ∧ m'.scopes.lookup? ⟨0⟩ ⟨5⟩ = some updated ∧
      ¬ Selection.Names positions 1 ∧
      held.cellAt? 1 = some (.int 7) ∧ updated.cellAt? 1 = some (.int 2) := by
  refine ⟨_, _, _, _, _, _, ⟨20, rfl⟩, ⟨20, rfl⟩, rfl, rfl, rfl, ?_, rfl, rfl⟩
  rintro ⟨k, hk, hi⟩
  cases List.mem_singleton.mp hk
  revert hi
  decide

end Eval

end ArrayLang

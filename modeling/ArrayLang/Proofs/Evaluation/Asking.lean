import ArrayLang.Proofs.Evaluation.Calls

/-!
# Steps ask first and write last

A step puts its questions on machines that it has not written to itself: what is another one there
came with an answer, or with the entering of a closure. Only when it has no more questions it
writes, and then one binding at most. `Eval.exists_asking` says so of every step: it has the
questions of another one that does not write at all, and ends where that one does, but for the
binding.
-/

namespace ArrayLang

/-- The name that an assignment is to. -/
def Node.target? : Node → Option Name
  | .assign x _ | .selectiveAssign x .. => some x
  | _ => none

namespace Progress

variable {α β : Type} {answers : Request → Machine → Except EvalError Value → Machine → Prop}
  {p : Progress α} {next : α → Machine → Progress β} {q : Request} {m : Machine}

/-- What asks nothing adds no questions. -/
theorem puts_bind_iff (h : ∀ a s q n, ¬ (next a s).Puts answers q n) :
    (p.bind next).Puts answers q m ↔ p.Puts answers q m := by
  induction p with
  | finished r s =>
      cases r with
      | ok a => exact ⟨fun hp => absurd hp (h a s q m), by rintro ⟨⟩⟩
      | error e => exact ⟨by rintro ⟨⟩, by rintro ⟨⟩⟩
  | asks q' s resume ih =>
      constructor
      · intro hp
        cases hp with
        | here => exact .here
        | later hr hp => exact .later hr ((ih _ _).mp hp)
      · intro hp
        cases hp with
        | here => exact .here
        | later hr hp => exact .later hr ((ih _ _).mpr hp)
  | panics why => exact ⟨by rintro ⟨⟩, by rintro ⟨⟩⟩

end Progress

/-- The licence not to write. -/
def Licence.reading (arena : ArenaId) (scope : ScopeId) (part : ExprId → Prop) : Licence :=
  { free arena scope with part := part, assigns := fun _ => False, selects := fun _ => False }

theorem Licence.open_reading (arena : ArenaId) (scope : ScopeId) (part : ExprId → Prop) :
    (reading arena scope part).Open := ⟨fun _ => trivial, fun _ => trivial, trivial⟩

namespace Eval

variable {α : Type} {c : Context} {scope : ScopeId} {part : ExprId → Prop} {p : α → Prop}
  {x : Eval α} {q : Request} {m m' n : Machine}

/-! ## Steps that do not write -/

/-- Questions are those that the licence allows and are put where `K` leads to from `m`, and `K` is
kept by the answers. -/
def carrying (l : Licence) (K : Machine → Machine → Prop) (m : Machine) : Contract where
  requires q n := l.Asks q ∧ K m n
  ensures _ n _ n' := K n n'

section Reading

variable {K : Machine → Machine → Prop} [IsPreorder Machine K]
  (hK : ∀ n n', K n n' → SameControl n n') (hx : Within c (.reading m.arena scope part) p x)

include hK hx

/-- What the answers keep, a step keeps that does not write. -/
theorem Within.meets_reading :
    (x m).Meets (carrying (.reading m.arena scope part) K m) fun _ n => K m n := by
  have hI : (Licence.reading m.arena scope part).Invariant (K m) := {
    arena := fun n hn => (hK m n hn).arena
    lookup := fun _ _ _ _ _ => trivial
    define := fun _ _ _ _ hwrites _ => hwrites.elim
    store := fun _ _ _ _ _ hwrites _ _ => hwrites.elim }
  have hmeets := hx.meets (k := carrying (.reading m.arena scope part) K m) hI
    (fun q n hq hn => ⟨⟨hq, hn⟩, fun r n' hr => ⟨trans_of K hn hr, by cases r <;> trivial⟩⟩)
    (refl_of K m)
  exact hmeets.mono fun _ _ h => h.1

theorem Within.puts_reading
    {answers : Request → Machine → Except EvalError Value → Machine → Prop}
    (hp : (x m).Puts answers q n)
    (hans : ∀ q n r n', (Licence.reading m.arena scope part).Asks q → K m n →
      answers q n r n' → K n n') : (Licence.reading m.arena scope part).Asks q ∧ K m n :=
  (hx.meets_reading hK).requires_of_puts hp fun q n r n' _ hreq hr => hans q n r n' hreq.1 hreq.2 hr

theorem Within.ends_reading {r : Except EvalError α} (h : Ends c x m r m')
    (hans : ∀ q n r n', Puts c x m q n → (Licence.reading m.arena scope part).Asks q → K m n →
      Ends c (step c q) n r n' → K n n') : K m m' := by
  obtain ⟨depth, hdepth⟩ := h
  refine (hx.meets_reading hK).of_resolve_of_puts (fun q n r n' hput hreq hr => ?_) hdepth
  refine hans q n r n' (hput.mono fun _ _ _ _ h => ?_) hreq.1 hreq.2 (ends_step_iff.mpr ⟨depth, hr⟩)
  exact ends_step_iff.mpr ⟨depth, h⟩

end Reading

/-! ## The questions of a step -/

/-- How the step for a request begins: the scope that it evaluates expressions in, which ones it may
come to, and the machine. -/
inductive Begins (m : Machine) : Request → ScopeId → (ExprId → Prop) → Machine → Prop
  | evaluate {e : ExprId} {scope : ScopeId} :
      Begins m (.evaluate e scope) scope (fun _ => True) m
  | call {f : Callable} {left : Option Value} {right : Value} {scope : ScopeId} :
      Begins m (.call f left right scope) scope (fun _ => False) m
  /-- A closure begins with a scope of its own. -/
  | closure {f : Closure} {left : Option Value} {right : Value} {scope : ScopeId} :
      Begins m (.call (.closure f) left right scope) ⟨m.scopes.size⟩ (fun _ => True)
        (m.enter f left right scope)

/-- What the step for a request writes in the end: nothing, or the target of the assignment that it
evaluated, if there is no error. -/
inductive Writes (c : Context) (m : Machine) :
    Request → Except EvalError Value → Scopes → Scopes → Prop
  | nothing {q : Request} {r : Except EvalError Value} {s : Scopes} : Writes c m q r s s
  | target {e : ExprId} {scope holder : ScopeId} {node : Node} {span : Span} {x : Name}
      {v w : Value}
      {s : Scopes} (hexpr : c.expr? m.arena e = some ⟨node, span⟩) (hx : node.target? = some x)
      (hholder : holder = scope ∨ s.holder? scope x = some holder) :
      Writes c m (.evaluate e scope) (.ok v) s (s.define holder x w)

/-- The step for the request `q` on `m` is begun on `n`, has the questions of `x` there, which does
not write, and writes only when that has ended. -/
structure Asking (c : Context) (q : Request) (m : Machine) (n : Machine) {α : Type} (x : Eval α) :
    Prop where
  within : ∃ scope part p, Begins m q scope part n ∧ Within c (.reading n.arena scope part) p x
  puts_iff : ∀ answers q' n', (step c q m).Puts answers q' n' ↔ (x n).Puts answers q' n'
  ends : ∀ r m', Ends c (step c q) m r m' →
    ∃ r' n', Ends c x n r' n' ∧ Writes c m q r n'.scopes m'.scopes

theorem step_evaluate_of_some {e : ExprId} {node : Node} {span : Span}
    (hexpr : c.expr? m.arena e = some ⟨node, span⟩) :
    step c (.evaluate e scope) m =
      (Eval.node c scope node m).mapEnd (fun e => e.locate span) id := by
  obtain ⟨arena, harena, hexpr⟩ := Option.bind_eq_some_iff.mp hexpr
  show (expr c e m).bind _ = _
  have hfound : expr c e m = .finished (.ok ⟨node, span⟩) m := by
    show Progress.bind (found (c.arena? m.arena) m) (fun arena m => found (arena.expr? e) m) = _
    rw [harena]
    show found (arena.expr? e) m = _
    rw [hexpr]
    rfl
  rw [hfound]
  rfl

/-- An expression that assigns to nothing itself does not write. -/
theorem within_reading_evaluate {e : ExprId}
    (h : ∀ node span, c.expr? m.arena e = some ⟨node, span⟩ → node.target? = none) :
    Within c (.reading m.arena scope fun _ => True) (fun _ => True)
      (step c (.evaluate e scope)) := by
  refine within_step_evaluate (fun _ => trivial) fun arena ⟨node, span⟩ harena hexpr => ⟨?_, ?_⟩
  · exact (Licence.open_reading ..).covers (fun _ _ => trivial) harena fun _ _ _ _ _ _ => trivial
  · have htarget : node.target? = none := by
      refine h node span ?_
      have harena : c.arena? m.arena = some arena := harena
      rw [Context.expr?_of_arena harena]
      exact hexpr
    exact {
      parts := fun _ _ => trivial
      strand := fun _ _ _ => trivial
      closure := fun _ _ => trivial
      assign := by
        rintro x e rfl
        cases htarget
      selectiveAssign := by
        rintro x function left e rfl
        cases htarget }

/-- A body leaves the writing to the expressions that it asks for. -/
theorem within_reading_bodyIn (arena : ArenaId) (scope : ScopeId) (body : BodyRange) :
    Within c (.reading arena scope fun _ => True) (fun _ => True) (bodyIn c body scope) :=
  within_open_bodyIn (Licence.open_reading ..) (fun _ _ => trivial) (fun _ => trivial) body

/-- A step that does not write itself. -/
theorem asking_self {p : Value → Prop} (hx : Within c (.reading m.arena scope part) p (step c q))
    (hq : Begins m q scope part m) : Asking c q m m (step c q) where
  within := ⟨scope, part, p, hq, hx⟩
  puts_iff _ _ _ := Iff.rfl
  ends r m' h := ⟨r, m', h, .nothing⟩

/-- An assignment asks what the evaluation of its value asks, and then changes one binding. -/
theorem asking_assign {e value : ExprId} {y : Name} {span : Span}
    (hexpr : c.expr? m.arena e = some ⟨.assign y value, span⟩) :
    Asking c (.evaluate e scope) m m (evaluate value scope) where
  within := ⟨scope, _, _, .evaluate, within_evaluate (l := .reading m.arena scope _) trivial⟩
  puts_iff answers q' n' := by
    rw [step_evaluate_of_some hexpr, Progress.puts_mapEnd_iff]
    exact Progress.puts_bind_iff fun v s q n => by rintro ⟨⟩
  ends r m' h := by
    obtain ⟨r₀, hnode, rfl⟩ := (ends_evaluate_iff hexpr).mp h
    rcases ends_bind_iff.mp hnode with ⟨v, s, hv, hwrite⟩ | ⟨err, hv, rfl⟩
    · obtain ⟨_, hdefine⟩ := hwrite
      cases hdefine
      exact ⟨.ok v, s, hv, .target hexpr rfl (.inl rfl)⟩
    · exact ⟨.error err, m', hv, .nothing⟩

theorem replaceIn_apply {y : Name} {r : Replacement} :
    replaceIn c y scope r m =
      match Selection.replace r.current r.positions r.value with
      | .error e => .finished (.error e) m
      | .ok v => (store c y v scope m).bind fun _ m => .finished (.ok r.value) m := by
  unfold replaceIn
  cases Selection.replace r.current r.positions r.value <;> rfl

/-- A selective assignment asks what its three phases before the storing ask. -/
theorem asking_selectiveAssign {e function value : ExprId} {left : Option ExprId} {y : Name}
    {span : Span}
    (hexpr : c.expr? m.arena e = some ⟨.selectiveAssign y function left value, span⟩) :
    Asking c (.evaluate e scope) m m (replacement c y function left value scope) where
  within := by
    obtain ⟨arena, harena, -⟩ := Option.bind_eq_some_iff.mp hexpr
    have hcovers : (Licence.reading m.arena scope fun _ => True).Covers c arena :=
      (Licence.open_reading ..).covers (fun _ _ => trivial) harena fun _ _ _ _ _ _ => trivial
    exact ⟨scope, _, _, .evaluate, within_replacement hcovers fun _ _ => trivial⟩
  puts_iff answers q' n' := by
    rw [step_evaluate_of_some hexpr, Progress.puts_mapEnd_iff]
    -- the storing phase asks nothing: it replaces and writes
    refine Progress.puts_bind_iff fun r s q n hput => ?_
    change (replaceIn c y scope r s).Puts answers q n at hput
    rw [replaceIn_apply] at hput
    split at hput
    · cases hput
    · unfold store at hput
      split at hput <;> cases hput
  ends r m' h := by
    obtain ⟨r₀, hnode, rfl⟩ := (ends_evaluate_iff hexpr).mp h
    rcases ends_bind_iff.mp hnode with ⟨v, s, hv, hwrite⟩ | ⟨err, hv, rfl⟩
    · -- after that, either nothing is written or the target is rebound in the scope that holds it
      refine ⟨.ok v, s, hv, ?_⟩
      obtain ⟨_, hwrite⟩ := hwrite
      rw [replaceIn_apply] at hwrite
      split at hwrite
      · cases hwrite
        exact .nothing
      · next updated _ =>
          cases hs : s.scopes.assign? scope y updated with
          | none =>
              rw [store_of_none hs] at hwrite
              cases hwrite
              exact .nothing
          | some scopes =>
              rw [store_of_some hs] at hwrite
              cases hwrite
              obtain ⟨holder, hholder, rfl⟩ := Scopes.assign?_eq_some_iff.mp hs
              exact .target hexpr rfl (.inr hholder)
    · exact ⟨.error err, m', hv, .nothing⟩

/-- A closure that does not come to its statements asks nothing. -/
theorem asking_of_ends {r : Except EvalError Value} {f : Callable} {left : Option Value}
    {right : Value} (h : step c (.call f left right scope) m = .finished r m) :
    Asking c (.call f left right scope) m m (ofExcept r) where
  within := ⟨scope, _, fun _ => True, .call, .result (by cases r <;> trivial)⟩
  puts_iff answers q' n' := by rw [h]; rfl
  ends r' m' hend := by
    obtain ⟨rfl, rfl⟩ := (ends_of_eq h).unique hend
    exact ⟨r', m', ends_ofExcept_iff.mpr ⟨rfl, rfl⟩, .nothing⟩

/-- **Steps ask first and write last.** -/
theorem exists_asking (c : Context) (q : Request) (m : Machine) :
    ∃ (n : Machine) (α : Type) (x : Eval α), Asking c q m n x := by
  have hbody : ∀ scope part (b : Body Value),
      b.Within (.reading m.arena scope part) fun _ => True := fun scope part _ =>
    Body.within_of_catching (Licence.open_reading ..) (fun _ => trivial) trivial fun _ => trivial
  match q with
  | .evaluate e scope =>
      cases hexpr : c.expr? m.arena e with
      | none =>
          have hnone :
              ∀ node span, c.expr? m.arena e = some ⟨node, span⟩ → node.target? = none := by
            rw [hexpr]
            exact nofun
          exact ⟨m, Value, _, asking_self (within_reading_evaluate hnone) .evaluate⟩
      | some expr =>
          obtain ⟨node, span⟩ := expr
          cases node with
          -- assignments go on behind their questions, so the step that asks is only a part of them
          | assign y value => exact ⟨m, Value, _, asking_assign hexpr⟩
          | selectiveAssign y function left value =>
              exact ⟨m, Replacement, _, asking_selectiveAssign hexpr⟩
          | _ =>
              refine ⟨m, Value, _, asking_self
                (within_reading_evaluate fun node span h => ?_) .evaluate⟩
              cases hexpr.symm.trans h
              rfl
  | .call (.primitive symbol) left right scope =>
      refine ⟨m, Value, _, asking_self (p := fun _ => True) ?_ .call⟩
      exact within_callPrimitive (fun _ _ => trivial) fun d _ => hbody scope _ _
  | .call (.derived d) left right scope =>
      refine ⟨m, Value, _, asking_self (p := fun _ => True) ?_ .call⟩
      exact within_callDerived (fun _ => trivial) fun body _ => hbody scope _ _
  | .call (.closure f) left right scope =>
      -- a call that is refused and one of an empty closure ask nothing
      by_cases hlt : m.calls.limit ≤ m.calls.depth
      · refine ⟨m, Value, ofExcept (.error (.of (.stackOverflow m.calls.limit))), ?_⟩
        exact asking_of_ends (callClosure_apply.trans (if_pos hlt))
      by_cases hempty : f.body.isEmpty = true
      · refine ⟨m, Value, ofExcept (.ok .emptyArray), ?_⟩
        exact asking_of_ends (callClosure_apply.trans ((if_neg hlt).trans (if_pos hempty)))
      · have hlt := Nat.lt_of_not_le hlt
        refine ⟨m.enter f left right scope, Value, bodyIn c f.body ⟨m.scopes.size⟩, ?_, ?_, ?_⟩
        · exact ⟨_, _, _, .closure, within_reading_bodyIn f.arena _ f.body⟩
        · intro answers q' n'
          exact puts_callClosure_iff.trans ⟨fun h => h.2.2, fun h => ⟨hlt, hempty, h⟩⟩
        · intro r m' h
          obtain ⟨s, hs, rfl⟩ := (ends_callClosure_iff hlt hempty).mp h
          exact ⟨r, s, hs, .nothing⟩

end Eval

end ArrayLang

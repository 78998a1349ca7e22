import ArrayLang.Proofs.Evaluation.Asking

/-!
# The arguments of a call

A closure call declares the names of both arguments in a scope of its own, before any of its
statements runs. So whatever is evaluated inside of a call finds both names in the nearest scope,
and no assignment to them gets past it: the arguments of other calls stay as they are, and those of
the call itself until an assignment in its own scope (`Eval.arguments_kept`).
-/

namespace ArrayLang

/-- One of the two names that a closure call declares. -/
def Name.IsArgument (x : Name) : Prop := x = .leftArgument ∨ x = .rightArgument

namespace Scopes

variable {s t : Scopes} {d e : ScopeId} {x : Name} {left : Option Value} {right : Value}

/-- The value that a closure call gives to the name of an argument. -/
def argument? (left : Option Value) (right : Value) (x : Name) : Option Value :=
  if x = .rightArgument then some right else left

/-- The scope declares both arguments, with or without a value. -/
def HoldsArguments (s : Scopes) (e : ScopeId) : Prop :=
  ∀ x : Name, x.IsArgument → s.declares e x = true

/-- Both names are declared in a call's scope; without a left argument its name has no value. -/
theorem find?_withArguments_self (hx : x.IsArgument) :
    (s.withArguments left right e).find? ⟨s.size⟩ x =
      some ((argument? left right x).elim .absent .bound) := by
  have hnew : s.size < (s.child e).2.size := by
    rw [size_child]
    exact Nat.lt_succ_self _
  unfold withArguments define argument?
  rw [find?_bind, find?_bind]
  rcases hx with rfl | rfl
  · rw [if_neg (by rintro ⟨-, h, -⟩; cases h), if_pos ⟨rfl, rfl, hnew⟩, if_neg nofun]
  · rw [if_pos ⟨rfl, rfl, by simpa using hnew⟩, if_pos rfl]
    rfl

theorem holdsArguments_withArguments :
    (s.withArguments left right e).HoldsArguments ⟨s.size⟩ :=
  fun _ hx => declares_iff.mpr ⟨_, find?_withArguments_self hx⟩

/-- Scopes that grow keep their arguments. -/
theorem GrowsTo.holdsArguments (h : s.GrowsTo t) (he : s.HoldsArguments e) : t.HoldsArguments e :=
  fun x hx => h.declares e x (he x hx)

/-- A scope that declares a name holds it for everything that is evaluated there. -/
theorem holder?_eq_self (h : s.declares e x = true) : s.holder? e x = some e := by
  rw [holder?_eq_find?_chain, chain_eq, if_pos (index_lt_of_declares h), List.find?_cons, h]

theorem lookup?_of_find? {v : Value} (h : s.find? e x = some (.bound v)) :
    s.lookup? e x = some v :=
  lookup?_eq_some_iff.mpr ⟨e, holder?_eq_self (declares_iff.mpr ⟨_, h⟩), h⟩

/-- A name that is declared absent is not looked for further outward. -/
theorem lookup?_of_absent (h : s.find? e x = some .absent) : s.lookup? e x = none := by
  unfold lookup?
  rw [holder?_eq_self (declares_iff.mpr ⟨_, h⟩)]
  show ((s.find? e x).bind fun b => b.value?) = none
  rw [h]
  rfl

end Scopes

/-! ## One binding -/

/-- From `m` to `m'` scopes grow, arena and calls are the same, and so is what `x` is in `d`, unless
there is an excuse. -/
structure KeepsBinding (d : ScopeId) (x : Name) (excuse : Prop) (m m' : Machine) : Prop where
  control : SameControl m m'
  growsTo : m.scopes.GrowsTo m'.scopes
  find?_eq : m'.scopes.find? d x = m.scopes.find? d x ∨ excuse

instance (d : ScopeId) (x : Name) (excuse : Prop) :
    IsPreorder Machine (KeepsBinding d x excuse) where
  refl m := ⟨refl_of SameControl m, .refl m.scopes, .inl rfl⟩
  trans _ _ _ h h' := by
    refine ⟨trans_of SameControl h.control h'.control, h.growsTo.trans h'.growsTo, ?_⟩
    rcases h'.find?_eq with heq | hexcuse
    · rw [heq]
      exact h.find?_eq
    · exact .inr hexcuse

namespace Eval

variable {α : Type} {c : Context} {d scope : ScopeId} {x : Name} {part : ExprId → Prop}
  {p : α → Prop} {y : Eval α} {q q' q'' : Request} {m m' n : Machine} {r : Except EvalError Value}

/-- On the way from the request an assignment to `x` that is evaluated in the scope `d` takes
place. -/
def Assigned (c : Context) (d : ScopeId) (x : Name) (q : Request) (m : Machine) : Prop :=
  ∃ e n node span v n', Leads c q m (.evaluate e d) n ∧ c.expr? n.arena e = some ⟨node, span⟩ ∧
    node.target? = some x ∧ Ends c (step c (.evaluate e d)) n (.ok v) n'

/-- An assignment behind a question is one behind the step that put it. -/
theorem Assigned.of_puts (hp : Puts c (step c q) m q' m') (h : Assigned c d x q' m') :
    Assigned c d x q m := by
  obtain ⟨e, n, node, span, v, n', hl, hrest⟩ := h
  exact ⟨e, n, node, span, v, n', .head hp hl, hrest⟩

/-- If an expression is to be evaluated, then in a scope that declares both arguments. -/
def Framed (q : Request) (m : Machine) : Prop :=
  ∀ e scope, q = .evaluate e scope → m.scopes.HoldsArguments scope

/-- A question of a step that only reads is put where its scope holds the arguments. -/
theorem framed_of_asks {arena : ArenaId} (hpart : ∀ e, part e → n.scopes.HoldsArguments scope)
    (hq : (Licence.reading arena scope part).Asks q) (hgrow : n.scopes.GrowsTo m'.scopes) :
    Framed q m' := by
  rintro e scope' rfl
  obtain ⟨rfl, he⟩ := hq
  exact hgrow.holdsArguments (hpart e he)

namespace Begins

/-- Every part finds the arguments in its scope. -/
theorem holdsArguments (h : Begins m q scope part n) (hq : Framed q m) (e : ExprId) (he : part e) :
    n.scopes.HoldsArguments scope := by
  cases h with
  | evaluate => exact hq _ _ rfl
  | call => exact he.elim
  | closure => exact Scopes.holdsArguments_withArguments

/-- From the start of a call to the start of a part the scopes have grown. -/
theorem growsTo (h : Begins m q scope part n) : m.scopes.GrowsTo n.scopes := by
  cases h with
  | evaluate => exact .refl m.scopes
  | call => exact .refl m.scopes
  | closure => exact m.scopes.growsTo_withArguments _ _ _

/-- Bindings that were there before are as they were when the part begins. -/
theorem find?_eq (h : Begins m q scope part n) (hd : d.index < m.scopes.size) :
    n.scopes.find? d x = m.scopes.find? d x := by
  cases h with
  | evaluate => rfl
  | call => rfl
  | closure => exact Scopes.find?_withArguments_of_lt hd

end Begins

/-- **A binding of an argument changes only by an assignment in its own scope.** -/
theorem find?_eq_or_assigned (hx : x.IsArgument) (h : Ends c (step c q) m r m') (hq : Framed q m)
    (hd : d.index < m.scopes.size) :
    m'.scopes.find? d x = m.scopes.find? d x ∨ Assigned c d x q m := by
  refine h.induction (Q := fun q m _ m' => Framed q m → d.index < m.scopes.size →
    (m'.scopes.find? d x = m.scopes.find? d x ∨ Assigned c d x q m)) ?_ hq hd
  clear h hq hd
  intro q m r m' hend ih hq hd
  obtain ⟨n, α, y, hasking⟩ := exists_asking c q m
  obtain ⟨scope, part, p, hbegins, hwithin⟩ := hasking.within
  obtain ⟨r', n', hy, hwrites⟩ := hasking.ends r m' hend
  -- the questions keep the binding, or one of them has the assignment
  have hkeeps : KeepsBinding d x (Assigned c d x q m) n n' := by
    refine hwithin.ends_reading (fun _ _ h => h.control) hy
      fun q₁ n₁ r₁ n₂ hput hasks hk hend₁ => ?_
    have hput' : Puts c (step c q) m q₁ n₁ := (hasking.puts_iff _ _ _).mpr hput
    have hq₁ : Framed q₁ n₁ := framed_of_asks (hbegins.holdsArguments hq) hasks hk.growsTo
    have hd₁ : d.index < n₁.scopes.size :=
      Nat.lt_of_lt_of_le hd (hbegins.growsTo.trans hk.growsTo).size_le
    refine ⟨control_keptBy.ends trivial hend₁, growth_keptBy.ends trivial hend₁, ?_⟩
    exact (ih q₁ n₁ r₁ n₂ hput' hend₁ hq₁ hd₁).imp_right fun h => h.of_puts hput'
  have hn' : n'.scopes.find? d x = m.scopes.find? d x ∨ Assigned c d x q m := by
    rw [← hbegins.find?_eq hd]
    exact hkeeps.find?_eq
  have hgrow : m.scopes.GrowsTo n'.scopes := hbegins.growsTo.trans hkeeps.growsTo
  generalize n'.scopes = s at hwrites hn' hgrow
  generalize m'.scopes = s' at hwrites ⊢
  cases hwrites with
  | nothing => exact hn'
  | @target e scope holder node span z v w s hexpr hz hholder =>
      show (s.define holder z w).find? d x = _ ∨ _
      rw [Scopes.define, Scopes.find?_bind]
      split
      · -- a step that writes to an argument does so in its own scope
        next hat =>
          obtain ⟨rfl, rfl, -⟩ := hat
          have hdecl : s.declares scope x = true := hgrow.holdsArguments (hq e scope rfl) x hx
          have hown : d = scope := by
            rcases hholder with rfl | hholder
            · rfl
            · rw [Scopes.holder?_eq_self hdecl] at hholder
              cases hholder
              rfl
          subst hown
          exact .inr ⟨e, m, node, span, v, m', .refl, hexpr, hz, hend⟩
      · exact hn'

/-! ## Other calls -/

/-- The questions of a step come from the machine that it begins on. -/
theorem asks_of_puts (hy : Within c (.reading n.arena scope part) p y) (hp : Puts c y n q' m') :
    (Licence.reading n.arena scope part).Asks q' ∧ n.scopes.GrowsTo m'.scopes := by
  -- no binding is looked at here, and so any one may be excused
  have h : (Licence.reading n.arena scope part).Asks q' ∧
      KeepsBinding scope .rightArgument True n m' :=
    hy.puts_reading (fun _ _ h => h.control) hp fun _ _ _ _ _ _ hend =>
      ⟨control_keptBy.ends trivial hend, growth_keptBy.ends trivial hend, .inr trivial⟩
  exact ⟨h.1, h.2.growsTo⟩

/-- From a call on, expressions are only evaluated in scopes that were not there. -/
theorem size_le_of_leads {f : Callable} {left : Option Value} {right : Value} {e : ExprId}
    (h : Leads c (.call f left right scope) m (.evaluate e d) n) : m.scopes.size ≤ d.index := by
  have hall : ∀ q' m', Leads c (.call f left right scope) m q' m' →
      m.scopes.size ≤ m'.scopes.size ∧ ∀ e d, q' = .evaluate e d → m.scopes.size ≤ d.index := by
    intro q' m' hl
    induction hl with
    | refl => exact ⟨Nat.le_refl _, nofun⟩
    | @tail q₁ q₂ m₁ m₂ _ hp ih =>
        obtain ⟨hsize, hscopes⟩ := ih
        obtain ⟨n, α, y, hasking⟩ := exists_asking c q₁ m₁
        obtain ⟨scope, part, p, hbegins, hwithin⟩ := hasking.within
        obtain ⟨hasks, hgrow⟩ := asks_of_puts hwithin ((hasking.puts_iff _ _ _).mp hp)
        refine ⟨Nat.le_trans hsize (hbegins.growsTo.trans hgrow).size_le, ?_⟩
        rintro e d rfl
        obtain ⟨rfl, he⟩ := hasks
        cases hbegins with
        | evaluate => exact hscopes _ _ rfl
        | call => exact he.elim
        | closure => exact hsize
  exact (hall _ _ h).2 e d rfl

/-! ## The call itself -/

/-- As `Leads`, where no question that was answered on the way assigned to `x` in `d`. -/
inductive LeadsBefore (c : Context) (d : ScopeId) (x : Name) (q : Request) (m : Machine) :
    Request → Machine → Prop
  | refl : LeadsBefore c d x q m q m
  | tail {q' q'' : Request} {m' m'' : Machine} (h : LeadsBefore c d x q m q' m')
      (hp : (step c q' m').Puts
        (fun q n r n' => Ends c (step c q) n r n' ∧ ¬ Assigned c d x q n) q'' m'') :
      LeadsBefore c d x q m q'' m''

/-- Until an assignment to the argument has taken place, it is what it was when the step began. -/
theorem find?_eq_of_puts (hx : x.IsArgument) (hy : Within c (.reading n.arena scope part) p y)
    (hpart : ∀ e, part e → n.scopes.HoldsArguments scope) (hd : d.index < n.scopes.size)
    (hp : (y n).Puts (fun q n r n' => Ends c (step c q) n r n' ∧ ¬ Assigned c d x q n) q' m') :
    Framed q' m' ∧ n.scopes.GrowsTo m'.scopes ∧ m'.scopes.find? d x = n.scopes.find? d x := by
  have h : (Licence.reading n.arena scope part).Asks q' ∧ KeepsBinding d x False n m' := by
    refine hy.puts_reading (fun _ _ h => h.control) hp fun q₁ n₁ r₁ n₂ hasks hk hans => ?_
    obtain ⟨hend, hnot⟩ := hans
    have hd₁ : d.index < n₁.scopes.size := Nat.lt_of_lt_of_le hd hk.growsTo.size_le
    refine ⟨control_keptBy.ends trivial hend, growth_keptBy.ends trivial hend, .inl ?_⟩
    have hq₁ : Framed q₁ n₁ := framed_of_asks hpart hasks hk.growsTo
    exact (find?_eq_or_assigned hx hend hq₁ hd₁).resolve_right hnot
  exact ⟨framed_of_asks hpart h.1 h.2.growsTo, h.2.growsTo, h.2.find?_eq.resolve_right id⟩

/-- **The arguments of a call are what it was called with** until they are assigned to in its own
scope. -/
theorem find?_eq_of_leadsBefore {f : Closure} {left : Option Value} {right : Value}
    (hx : x.IsArgument)
    (h : LeadsBefore c ⟨m.scopes.size⟩ x (.call (.closure f) left right scope) m q' m') :
    q' = .call (.closure f) left right scope ∧ m' = m ∨
      Framed q' m' ∧ m.scopes.size < m'.scopes.size ∧
        m'.scopes.find? ⟨m.scopes.size⟩ x =
          some ((Scopes.argument? left right x).elim .absent .bound) := by
  induction h with
  | refl => exact .inl ⟨rfl, rfl⟩
  | @tail q₁ q₂ m₁ m₂ _ hp ih =>
      right
      rcases ih with ⟨rfl, rfl⟩ | ⟨hq₁, hd₁, hfind⟩
      · -- the questions of the statements themselves
        have hsize := m₁.size_lt_enter f left right scope
        have hbody := within_reading_bodyIn (c := c) f.arena ⟨m₁.scopes.size⟩ f.body
        obtain ⟨hq₂, hgrow, heq⟩ := find?_eq_of_puts (n := m₁.enter f left right scope) hx hbody
          (fun _ _ => Scopes.holdsArguments_withArguments) hsize (puts_callClosure_iff.mp hp).2.2
        refine ⟨hq₂, Nat.lt_of_lt_of_le hsize hgrow.size_le, heq.trans ?_⟩
        exact Scopes.find?_withArguments_self hx
      · -- questions further down: no assignment of the name is on the way, so the binding stays
        obtain ⟨n, α, y, hasking⟩ := exists_asking c q₁ m₁
        obtain ⟨scope', part, p, hbegins, hwithin⟩ := hasking.within
        have hsize : m.scopes.size < n.scopes.size :=
          Nat.lt_of_lt_of_le hd₁ hbegins.growsTo.size_le
        obtain ⟨hq₂, hgrow, heq⟩ := find?_eq_of_puts (d := ⟨m.scopes.size⟩) hx hwithin
          (hbegins.holdsArguments hq₁) hsize ((hasking.puts_iff _ _ _).mp hp)
        refine ⟨hq₂, Nat.lt_of_lt_of_le hsize hgrow.size_le, ?_⟩
        exact heq.trans ((hbegins.find?_eq hd₁).trans hfind)

/-- What a variable at a place gives that has this value, or none. -/
def given (c : Context) (x : Name) (span : Span) : Option Value → Except EvalError Value
  | some v => .ok v
  | none => .error ((EvalError.of (.undefinedVariable (c.names.lookup x))).locate span)

/-- In a scope that binds a name or declares it absent, a variable gives just that. -/
theorem ends_variable_iff {e : ExprId} {span : Span} {v : Option Value}
    (hexpr : c.expr? m.arena e = some ⟨.variable x, span⟩)
    (hv : m.scopes.find? scope x = some (v.elim .absent .bound)) :
    Ends c (step c (.evaluate e scope)) m r m' ↔ m' = m ∧ r = given c x span v := by
  have hends : Ends c (step c (.evaluate e scope)) m (given c x span v) m := by
    cases v with
    | some v =>
        have hlookup := Scopes.lookup?_of_find? hv
        exact (ends_evaluate_iff hexpr).mpr ⟨.ok v, ends_of_eq (variableValue_of_some hlookup), rfl⟩
    | none =>
        have hlookup := Scopes.lookup?_of_absent hv
        exact (ends_evaluate_iff hexpr).mpr ⟨_, ends_of_eq (variableValue_of_none hlookup), rfl⟩
  constructor
  · intro h
    obtain ⟨rfl, rfl⟩ := hends.unique h
    exact ⟨rfl, rfl⟩
  · rintro ⟨rfl, rfl⟩
    exact hends

/-- **A call keeps the arguments of all others, and has its own.**

However a call ends, in the scopes that were there before it the names of both arguments are bound,
absent or not declared as they were. The statements of a closure are evaluated in a new scope, and
at everything that is evaluated on the way, until an assignment to such a name has taken place in
that scope, the name is what the call made it: a variable gives the right argument, and the left one
or an error where there is none, whatever the scopes around have. -/
theorem arguments_kept (c : Context) (m : Machine) (left : Option Value) (right : Value)
    (scope : ScopeId) :
    (∀ f r m', Ends c (step c (.call f left right scope)) m r m' →
      ∀ (d : ScopeId) (x : Name), d.index < m.scopes.size → x.IsArgument →
        m'.scopes.find? d x = m.scopes.find? d x) ∧
    (∀ f e d n, Puts c (step c (.call (.closure f) left right scope)) m (.evaluate e d) n →
      d = ⟨m.scopes.size⟩) ∧
    ∀ f x e d n, x.IsArgument →
      LeadsBefore c ⟨m.scopes.size⟩ x (.call (.closure f) left right scope) m (.evaluate e d) n →
        n.scopes.find? ⟨m.scopes.size⟩ x =
            some ((Scopes.argument? left right x).elim .absent .bound) ∧
          ∀ span, d = ⟨m.scopes.size⟩ → c.expr? n.arena e = some ⟨.variable x, span⟩ →
            ∀ r n', Ends c (step c (.evaluate e d)) n r n' ↔
              n' = n ∧ r = given c x span (Scopes.argument? left right x) := by
  refine ⟨fun f r m' h d x hd hx => ?_, fun f e d n hp => ?_, fun f x e d n hx hl => ?_⟩
  · -- an assignment would be evaluated in a scope that is new
    refine (find?_eq_or_assigned hx h nofun hd).resolve_right ?_
    rintro ⟨e, n, node, span, v, n', hl, -⟩
    exact absurd hd (Nat.not_lt_of_le (size_le_of_leads hl))
  · have hbody := within_reading_bodyIn (c := c) f.arena ⟨m.scopes.size⟩ f.body
    have hasks := asks_of_puts (n := m.enter f left right scope) hbody (puts_callClosure hp).2.2
    exact hasks.1.1
  · rcases find?_eq_of_leadsBefore hx hl with ⟨hcall, -⟩ | ⟨-, -, hfind⟩
    · cases hcall
    · refine ⟨hfind, ?_⟩
      rintro span rfl hexpr r n'
      exact ends_variable_iff hexpr hfind

end Eval

/-- Closures `{⍵←3 ⋄ ⍵}` and `{⍺←⍺}` that assign to their arguments. -/
def Context.inward : Context where
  registry := .empty .initial
  tower := .standard
  arenas := #[{
    exprs := #[⟨.variable .rightArgument, .dummy⟩, ⟨.variable .leftArgument, .dummy⟩,
      ⟨.int 3, .dummy⟩, ⟨.assign .rightArgument ⟨2⟩, .dummy⟩, ⟨.assign .leftArgument ⟨1⟩, .dummy⟩]
    items := #[]
    guards := #[⟨none, ⟨3⟩⟩, ⟨none, ⟨0⟩⟩, ⟨none, ⟨4⟩⟩] }]

/-- A call from an outermost scope with the arguments `1` and `2`. -/
def Machine.inward : Machine where
  arena := ⟨0⟩
  calls := .empty 10
  scopes := Scopes.empty.outermost.2.withArguments (some (.int 1)) (.int 2) ⟨0⟩

namespace Eval

/-- Inside of a call with `1` and `2` both closures are called with `7` alone: the one leaves the
`2` as it is, and the other does not see the `1`. -/
theorem arguments_kept_inward :
    (∃ m', Ends .inward (step .inward (.call (.closure ⟨⟨0⟩, ⟨0, 2⟩⟩) none (.int 7) ⟨1⟩)) .inward
        (.ok (.int 3)) m' ∧
      m'.scopes.find? ⟨1⟩ .rightArgument = some (.bound (.int 2))) ∧
    ∃ n err, LeadsBefore .inward ⟨2⟩ .leftArgument
        (.call (.closure ⟨⟨0⟩, ⟨2, 1⟩⟩) none (.int 7) ⟨1⟩) .inward (.evaluate ⟨1⟩ ⟨2⟩) n ∧
      n.scopes.find? ⟨1⟩ .leftArgument = some (.bound (.int 1)) ∧
      Ends .inward (step .inward (.evaluate ⟨1⟩ ⟨2⟩)) n (.error err) n ∧
      err.cause = .undefinedVariable "⍺" := by
  obtain ⟨hothers, -, hown⟩ := arguments_kept .inward .inward none (.int 7) ⟨1⟩
  constructor
  · have h : ∃ m', Ends .inward (step .inward (.call (.closure ⟨⟨0⟩, ⟨0, 2⟩⟩) none (.int 7) ⟨1⟩))
        .inward (.ok (.int 3)) m' := ⟨_, ⟨20, rfl⟩⟩
    obtain ⟨m', h⟩ := h
    exact ⟨m', h, hothers _ _ _ h ⟨1⟩ .rightArgument (by decide) (.inr rfl)⟩
  · have hl : ∃ n, LeadsBefore .inward ⟨2⟩ .leftArgument
        (.call (.closure ⟨⟨0⟩, ⟨2, 1⟩⟩) none (.int 7) ⟨1⟩) .inward (.evaluate ⟨1⟩ ⟨2⟩) n ∧
        n.arena = ⟨0⟩ ∧ n.scopes.find? ⟨1⟩ .leftArgument = some (.bound (.int 1)) :=
      ⟨_, (LeadsBefore.refl.tail .here).tail .here, rfl, rfl⟩
    obtain ⟨n, hl, harena, hfind⟩ := hl
    have hexpr : Context.inward.expr? n.arena ⟨1⟩ = some ⟨.variable .leftArgument, .dummy⟩ := by
      rw [harena]
      rfl
    have hgiven := (hown _ _ _ ⟨2⟩ n (.inl rfl) hl).2 .dummy rfl hexpr
    exact ⟨n, _, hl, hfind, (hgiven _ n).mpr ⟨rfl, rfl⟩, rfl⟩

end Eval

end ArrayLang

import ArrayLang.Proofs.Evaluation.Calls
import ArrayLang.Proofs.Scopes.Growth

/-!
# What an evaluation leaves alone

`Scopes.Frame s t e assigned selected` says which bindings of `s` may be other ones in `t`: in the
scope `e` those of the names in `assigned`, and in every scope those of the names in `selected` that
it declared already.

An evaluation in a scope is framed by the names that the expression assigns to outside of closure
bodies and the names that are selectively assigned to on the way, and a call by the latter alone
(`Eval.frame_ends`). The scope of the arguments of a closure is new, so what its statements do
there is nothing to the scopes that were there before (`Scopes.Frame.of_withArguments`).
-/

namespace ArrayLang

namespace Scopes

variable {s t u : Scopes} {d e : ScopeId} {x : Name} {v : Value}
  {assigned assigned' selected : Name → Prop}

/-- From `s` to `t` the scopes grow, and a binding changes only where it may. -/
structure Frame (s t : Scopes) (e : ScopeId) (assigned selected : Name → Prop) : Prop
    extends s.GrowsTo t where
  find? : ∀ d x, d.index < s.size → t.find? d x = s.find? d x ∨ (d = e ∧ assigned x) ∨
    (s.declares d x = true ∧ selected x)

namespace Frame

theorem refl (s : Scopes) : s.Frame s e assigned selected :=
  ⟨.refl s, fun _ _ _ => .inl rfl⟩

/-- What is declared in a scope that was there, and was not declared, is assigned in `e`. -/
theorem declares_or (h : s.Frame t e assigned selected) (hd : d.index < s.size)
    (ht : t.declares d x = true) : s.declares d x = true ∨ (d = e ∧ assigned x) := by
  rcases h.find? d x hd with heq | hassigned | ⟨hs, -⟩
  · left
    unfold declares at ht ⊢
    rw [← heq]
    exact ht
  · exact .inr hassigned
  · exact .inl hs

/-- Frames compose along a run. -/
theorem trans (h : s.Frame t e assigned selected) (h' : t.Frame u e assigned selected) :
    s.Frame u e assigned selected where
  toGrowsTo := h.toGrowsTo.trans h'.toGrowsTo
  find? d x hd := by
    rcases h'.find? d x (Nat.lt_of_lt_of_le hd h.size_le) with heq | hassigned | ⟨ht, hselected⟩
    · rw [heq]
      exact h.find? d x hd
    · exact .inr (.inl hassigned)
    · exact .inr ((h.declares_or hd ht).symm.imp_right fun hs => ⟨hs, hselected⟩)

/-- Whoever may assign more keeps to the frame, too. -/
theorem mono (h : s.Frame t e assigned selected) (himp : ∀ x, assigned x → assigned' x) :
    s.Frame t e assigned' selected where
  toGrowsTo := h.toGrowsTo
  find? d x hd := (h.find? d x hd).imp_right fun h' => h'.imp_left (And.imp_right (himp x))

/-! ### What changes bindings -/

theorem define (hx : assigned x) : s.Frame (s.define e x v) e assigned selected where
  toGrowsTo := s.growsTo_define e x v
  find? d y _ := by
    rw [Scopes.define, find?_bind]
    split
    · next hat =>
        obtain ⟨rfl, rfl, -⟩ := hat
        exact .inr (.inl ⟨rfl, hx⟩)
    · exact .inl rfl

/-- A store goes to a scope that declares the name. -/
theorem store {f : ScopeId} (hx : selected x) (h : s.assign? f x v = some t) :
    s.Frame t e assigned selected := by
  obtain ⟨holder, hholder, rfl⟩ := assign?_eq_some_iff.mp h
  refine ⟨s.growsTo_define holder x v, fun d y _ => ?_⟩
  rw [Scopes.define, find?_bind]
  split
  · next hat =>
      obtain ⟨rfl, rfl, -⟩ := hat
      exact .inr (.inr ⟨declares_of_holder? hholder, hx⟩)
  · exact .inl rfl

/-- What was done inside of a scope for arguments, seen from the scopes that were there before:
nothing is assigned in any of them. -/
theorem of_withArguments {left : Option Value} {right : Value}
    (h : (s.withArguments left right e).Frame t ⟨s.size⟩ assigned selected) :
    s.Frame t e (fun _ => False) selected where
  toGrowsTo := (s.growsTo_withArguments left right e).trans h.toGrowsTo
  find? d x hd := by
    have hd' : d.index < (s.withArguments left right e).size := by
      rw [size_withArguments]
      exact Nat.lt_succ_of_lt hd
    have hfind := h.find? d x hd'
    rw [declares, find?_withArguments_of_lt hd] at hfind
    rcases hfind with heq | ⟨rfl, -⟩ | hselected
    · exact .inl heq
    · exact absurd hd (Nat.lt_irrefl _)
    · exact .inr (.inr hselected)

/-! ### What a frame says of one binding -/

/-- Outside of its own assignments a call declares nothing new. -/
theorem declares_eq (h : s.Frame t e assigned selected) (hd : d.index < s.size)
    (hne : ¬ (d = e ∧ assigned x)) : t.declares d x = s.declares d x := by
  rw [Bool.eq_iff_iff]
  constructor
  · intro ht
    exact (h.declares_or hd ht).resolve_right hne
  · exact h.declares d x

/-- A binding that has changed elsewhere is the target of a selective assignment. -/
theorem selected_of_ne (h : s.Frame t e assigned selected) (hd : d.index < s.size)
    (hne : ¬ (d = e ∧ assigned x)) (hdiff : t.find? d x ≠ s.find? d x) :
    s.declares d x = true ∧ selected x :=
  ((h.find? d x hd).resolve_left hdiff).resolve_left hne

end Frame

end Scopes

/-! ## What an expression may assign to -/

namespace Eval

variable {c : Context} {q q' : Request} {m m' : Machine} {r : Except EvalError Value} {x : Name}

/-- The expression `e` assigns to `x` itself, outside of all closure bodies. -/
def Assigns (c : Context) (a : ArenaId) (e : ExprId) (x : Name) : Prop :=
  ∃ arena e' value span, c.arena? a = some arena ∧ arena.Encloses e e' ∧
    arena.expr? e' = some ⟨.assign x value, span⟩

/-- A selective assignment to `x` is evaluated on the way from the request. It stands in the arena
of the request or in that of a closure that is run. -/
def Selects (c : Context) (q : Request) (m : Machine) (x : Name) : Prop :=
  ∃ e scope n function left value span, Leads c q m (.evaluate e scope) n ∧
    (n.arena = m.arena ∨ ∃ f, Runs c q m f ∧ n.arena = f.arena) ∧
    c.expr? n.arena e = some ⟨.selectiveAssign x function left value, span⟩

end Eval

/-! ## The contract -/

namespace Request

/-- The names that the request may assign to in its own scope. -/
def Assigns (c : Context) (a : ArenaId) : Request → Name → Prop
  | .evaluate e _ => Eval.Assigns c a e
  | .call .. => fun _ => False

end Request

namespace Eval

variable {c : Context} {q : Request} {m m' : Machine} {r : Except EvalError Value}

/-- Answers come back in the same arena, within the frame of the request. -/
def framing (c : Context) (selected : Name → Prop) : Contract where
  requires _ _ := True
  ensures q m _ m' := m'.arena = m.arena ∧
    m.scopes.Frame m'.scopes q.scope (q.Assigns c m.arena) selected

/-- The licence for a frame: it only draws a line around expressions and names. -/
def framed (arena : ArenaId) (scope : ScopeId) (part : ExprId → Prop)
    (assigned selected : Name → Prop) : Licence :=
  { Licence.free arena scope with part := part, assigns := assigned, selects := selected }

theorem open_framed (arena : ArenaId) (scope : ScopeId) (part : ExprId → Prop)
    (assigned selected : Name → Prop) : (framed arena scope part assigned selected).Open :=
  ⟨fun _ => trivial, fun _ => trivial, trivial⟩

/-- A step within such a licence stays within the frame if its questions do. -/
theorem Within.meets_framing {α : Type} {p : α → Prop} {x : Eval α} {scope : ScopeId}
    {part : ExprId → Prop} {assigned selected : Name → Prop}
    (hx : Within c (framed m.arena scope part assigned selected) p x)
    (hpart : ∀ e, part e → ∀ y, Assigns c m.arena e y → assigned y) :
    (x m).Meets (framing c selected) fun _ m' =>
      m'.arena = m.arena ∧ m.scopes.Frame m'.scopes scope assigned selected := by
  have hI : (framed m.arena scope part assigned selected).Invariant fun n =>
      n.arena = m.arena ∧ m.scopes.Frame n.scopes scope assigned selected := {
    arena := fun _ h => h.1
    lookup := fun _ _ _ _ _ => trivial
    define := fun _ _ _ h hx _ => ⟨h.1, h.2.trans (.define hx)⟩
    store := fun _ _ _ _ h hx _ hs => ⟨h.1, h.2.trans (.store hx hs)⟩ }
  refine (hx.meets hI (fun q n hq hn => ⟨trivial, fun r n' hr => ?_⟩) ⟨rfl, .refl _⟩).mono
    fun _ _ h => h.1
  obtain ⟨harena, hframe⟩ := hn
  obtain ⟨harena', hframe'⟩ := hr
  refine ⟨⟨harena'.trans harena, hframe.trans ?_⟩, ?_⟩
  · -- what a part assigns is assigned by the whole; a call assigns nothing outside of its scope
    cases q with
    | evaluate e scope' =>
        obtain ⟨rfl, he⟩ := hq
        refine hframe'.mono fun y hy => hpart e he y ?_
        rw [← harena]
        exact hy
    | call f left right scope' =>
        obtain ⟨rfl, -⟩ := hq
        exact hframe'.mono fun y hy => hy.elim
  · cases r <;> trivial

/-- **What each step does to the scopes**, when the selective assignments that are evaluated are to
names in `selected`. -/
theorem step_meets_framing {selected : Name → Prop}
    (hselected : ∀ e scope x function left value span, q = .evaluate e scope →
      c.expr? m.arena e = some ⟨.selectiveAssign x function left value, span⟩ → selected x) :
    (step c q m).Meets (framing c selected) ((framing c selected).ensures q m) := by
  have hbody : ∀ scope (b : Body Value),
      b.Within (framed m.arena scope (fun _ => False) (fun _ => False) selected) fun _ => True :=
    fun scope _ => Body.within_of_catching (open_framed ..) (fun _ => trivial) trivial
      fun _ => trivial
  match q with
  | .evaluate e scope =>
      have hstep : Within c (framed m.arena scope
          (fun e' => ∃ arena, c.arena? m.arena = some arena ∧ arena.Encloses e e')
          (Assigns c m.arena e) selected) (fun _ => True) (step c (.evaluate e scope)) := by
        refine within_step_evaluate (fun _ => trivial) fun arena ⟨node, span⟩ harena hexpr => ?_
        have harena : c.arena? m.arena = some arena := harena
        refine ⟨(open_framed ..).covers (fun _ _ => trivial) harena ?_, ?_⟩
        · rintro e' x ⟨arena', harena', hencl⟩ hx e'' he''
          cases harena.symm.trans harena'
          exact ⟨arena, harena, hencl.part hx he''⟩
        · have hexpr' : c.expr? m.arena e = some ⟨node, span⟩ := by
            rw [Context.expr?_of_arena harena]
            exact hexpr
          exact {
            parts := fun e' he' => ⟨arena, harena, .part .self hexpr he'⟩
            strand := fun _ _ _ => trivial
            closure := fun _ _ => trivial
            assign := by
              rintro x value rfl
              exact ⟨arena, e, value, span, harena, .self, hexpr⟩
            selectiveAssign := by
              rintro x function left value rfl
              exact hselected e scope x function left value span rfl hexpr' }
      refine hstep.meets_framing ?_
      rintro e' ⟨arena, harena, hencl⟩ y ⟨arena', e'', value, span, harena', hencl', hexpr⟩
      cases harena.symm.trans harena'
      exact ⟨arena, e'', value, span, harena, hencl.trans hencl', hexpr⟩
  | .call (.primitive symbol) left right scope =>
      have hstep : Within c (framed m.arena scope (fun _ => False) (fun _ => False) selected)
          (fun _ => True) (callFunction c (.primitive symbol) left right scope) :=
        within_callPrimitive (fun _ _ => trivial) fun _ _ => hbody scope _
      exact hstep.meets_framing fun _ hpart => hpart.elim
  | .call (.derived d) left right scope =>
      have hstep : Within c (framed m.arena scope (fun _ => False) (fun _ => False) selected)
          (fun _ => True) (callFunction c (.derived d) left right scope) :=
        within_callDerived (fun _ => trivial) fun _ _ => hbody scope _
      exact hstep.meets_framing fun _ hpart => hpart.elim
  | .call (.closure f) left right scope =>
      refine meets_callClosure (fun _ => ⟨rfl, .refl _⟩) (fun _ _ => ⟨rfl, .refl _⟩) fun _ _ => ?_
      have hbodyIn : Within c (framed f.arena ⟨m.scopes.size⟩ (fun _ => True) (fun _ => True)
          selected) (fun _ => True) (bodyIn c f.body ⟨m.scopes.size⟩) :=
        within_open_bodyIn (open_framed ..) (fun _ _ => trivial) (fun _ => trivial) _
      have hmeets := Within.meets_framing (m := m.enter f left right scope) hbodyIn
        fun _ _ _ _ => trivial
      -- the arena is given back, and the inner scope was not there before
      exact hmeets.mono fun _ _ h => ⟨rfl, h.2.of_withArguments⟩

/-- **Every evaluation stays within its frame.** -/
theorem frame_ends (h : Ends c (step c q) m r m') :
    m.scopes.Frame m'.scopes q.scope (q.Assigns c m.arena) (Selects c q m) := by
  have hends : (framing c (Selects c q m)).ensures q m r m' := by
    refine Contract.ends_of_leads (fun q' n hl _ => step_meets_framing ?_) .refl trivial h
    rintro e scope x function left value span rfl hexpr
    exact ⟨e, scope, n, function, left, value, span, hl, hl.arena, hexpr⟩
  exact hends.2

/-- **What an evaluation in a scope can change of the scopes that were there.** No parent changes
and no other scope gains or loses a name. In the scope itself a binding changes only by an
assignment that the expression makes outside of closure bodies or, if the name was declared there,
by a selective assignment on the way; in other scopes by the latter alone. A call, whatever it runs,
changes only bindings that were declared, and those by selective assignments. -/
theorem scopes_framed (c : Context) :
    (∀ e scope m r m', Ends c (step c (.evaluate e scope)) m r m' →
      (∀ d, d.index < m.scopes.size → m'.scopes.parent? d = m.scopes.parent? d) ∧
      (∀ d x, d.index < m.scopes.size → d ≠ scope →
        m'.scopes.declares d x = m.scopes.declares d x) ∧
      (∀ x, scope.index < m.scopes.size → m'.scopes.find? scope x ≠ m.scopes.find? scope x →
        Assigns c m.arena e x ∨
          (m.scopes.declares scope x = true ∧ Selects c (.evaluate e scope) m x)) ∧
      ∀ d x, d.index < m.scopes.size → d ≠ scope → m'.scopes.find? d x ≠ m.scopes.find? d x →
        m.scopes.declares d x = true ∧ Selects c (.evaluate e scope) m x) ∧
    ∀ f left right scope m r m', Ends c (step c (.call f left right scope)) m r m' →
      (∀ d, d.index < m.scopes.size → m'.scopes.parent? d = m.scopes.parent? d) ∧
      ∀ d x, d.index < m.scopes.size →
        m'.scopes.declares d x = m.scopes.declares d x ∧
        (m'.scopes.find? d x ≠ m.scopes.find? d x →
          m.scopes.declares d x = true ∧ Selects c (.call f left right scope) m x) := by
  constructor
  · intro e scope m r m' h
    have hframe := frame_ends h
    refine ⟨hframe.parent?_eq, fun d x hd hne => ?_, fun x hscope hdiff => ?_, ?_⟩
    · exact hframe.declares_eq hd fun hat => hne hat.1
    · exact ((hframe.find? scope x hscope).resolve_left hdiff).imp_left And.right
    · exact fun d x hd hne hdiff => hframe.selected_of_ne hd (fun hat => hne hat.1) hdiff
  · intro f left right scope m r m' h
    have hframe := frame_ends h
    refine ⟨hframe.parent?_eq, fun d x hd => ⟨?_, fun hdiff => ?_⟩⟩
    · exact hframe.declares_eq hd fun hat => hat.2
    · exact hframe.selected_of_ne hd (fun hat => hat.2) hdiff

end Eval

/-- A closure that assigns to a name of its own and changes an `X` around it:
`Z←{Y←⍵ ⋄ ({1} X)←9 ⋄ Y} 7`. -/
def Context.outward : Context where
  registry := .empty .initial
  tower := .standard
  arenas := #[{
    exprs := #[⟨.variable .rightArgument, .dummy⟩, ⟨.assign ⟨6⟩ ⟨0⟩, .dummy⟩, ⟨.int 1, .dummy⟩,
      ⟨.closure ⟨0, 1⟩, .dummy⟩, ⟨.int 9, .dummy⟩, ⟨.selectiveAssign ⟨5⟩ ⟨3⟩ none ⟨4⟩, .dummy⟩,
      ⟨.variable ⟨6⟩, .dummy⟩, ⟨.closure ⟨1, 3⟩, .dummy⟩, ⟨.int 7, .dummy⟩,
      ⟨.call ⟨7⟩ none ⟨8⟩, .dummy⟩, ⟨.assign ⟨7⟩ ⟨9⟩, .dummy⟩]
    items := #[]
    guards := #[⟨none, ⟨2⟩⟩, ⟨none, ⟨1⟩⟩, ⟨none, ⟨5⟩⟩, ⟨none, ⟨6⟩⟩] }]

/-- A scope in which `X` is `1 2 3`, and another one inside of it. -/
def Machine.outward : Machine where
  arena := ⟨0⟩
  calls := .empty 10
  scopes := ((Scopes.empty.outermost.2.define ⟨0⟩ ⟨5⟩
    (.vector [.int 1, .int 2, .int 3])).child ⟨0⟩).2

/-- In the inner scope only `Z` is new, and the outer one has another `X`; neither knows of `Y`. -/
theorem Eval.scopes_framed_outward :
    (∃ m', Ends .outward (step .outward (.evaluate ⟨10⟩ ⟨1⟩)) .outward (.ok (.int 7)) m' ∧
      m'.scopes.find? ⟨1⟩ ⟨7⟩ = some (.bound (.int 7)) ∧ Assigns .outward ⟨0⟩ ⟨10⟩ ⟨7⟩ ∧
      m'.scopes.find? ⟨0⟩ ⟨5⟩ = some (.bound (.vector [.int 9, .int 2, .int 3])) ∧
      Selects .outward (.evaluate ⟨10⟩ ⟨1⟩) .outward ⟨5⟩ ∧
      m'.scopes.declares ⟨0⟩ ⟨6⟩ = false) ∧
    ∃ m', Ends .outward (step .outward (.call (.closure ⟨⟨0⟩, ⟨1, 3⟩⟩) none (.int 7) ⟨1⟩)) .outward
        (.ok (.int 7)) m' ∧
      m'.scopes.declares ⟨1⟩ ⟨6⟩ = false ∧
      Selects .outward (.call (.closure ⟨⟨0⟩, ⟨1, 3⟩⟩) none (.int 7) ⟨1⟩) .outward ⟨5⟩ := by
  obtain ⟨hevaluate, hcall⟩ := scopes_framed Context.outward
  -- one name is bound in the inner scope, and the other one, the target of the selection, in the
  -- outer one
  have hold : Machine.outward.scopes.find? ⟨0⟩ ⟨5⟩ =
      some (.bound (.vector [.int 1, .int 2, .int 3])) := rfl
  constructor
  · have h : ∃ m', Ends .outward (step .outward (.evaluate ⟨10⟩ ⟨1⟩)) .outward (.ok (.int 7)) m' ∧
        m'.scopes.find? ⟨1⟩ ⟨7⟩ = some (.bound (.int 7)) ∧
        m'.scopes.find? ⟨0⟩ ⟨5⟩ = some (.bound (.vector [.int 9, .int 2, .int 3])) :=
      ⟨_, ⟨20, rfl⟩, rfl, rfl⟩
    obtain ⟨m', h, hz, hx⟩ := h
    obtain ⟨-, hdeclares, hown, hother⟩ := hevaluate _ _ _ _ _ h
    refine ⟨m', h, hz, ?_, hx, ?_, hdeclares ⟨0⟩ ⟨6⟩ (by decide) (by decide)⟩
    · refine (hown ⟨7⟩ (by decide) ?_).resolve_right fun hd => ?_
      · rw [hz]
        exact nofun
      · exact absurd hd.1 (by decide)
    · refine (hother ⟨0⟩ ⟨5⟩ (by decide) (by decide) ?_).2
      rw [hx, hold]
      exact nofun
  · have h : ∃ m', Ends .outward (step .outward (.call (.closure ⟨⟨0⟩, ⟨1, 3⟩⟩) none (.int 7) ⟨1⟩))
        .outward (.ok (.int 7)) m' ∧
        m'.scopes.find? ⟨0⟩ ⟨5⟩ = some (.bound (.vector [.int 9, .int 2, .int 3])) :=
      ⟨_, ⟨20, rfl⟩, rfl⟩
    obtain ⟨m', h, hx⟩ := h
    obtain ⟨-, hbindings⟩ := hcall _ _ _ _ _ _ _ h
    refine ⟨m', h, (hbindings ⟨1⟩ ⟨6⟩ (by decide)).1, ?_⟩
    refine ((hbindings ⟨0⟩ ⟨5⟩ (by decide)).2 ?_).2
    rw [hx, hold]
    exact nofun

end ArrayLang

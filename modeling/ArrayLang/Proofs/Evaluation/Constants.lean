import ArrayLang.Proofs.Evaluation.Places
import ArrayLang.Proofs.Evaluation.RightToLeft
import ArrayLang.Proofs.Registry.Dispatch
import ArrayLang.Proofs.Source.Depth

/-!
# Constants print as their values

Numbers, truth values and functions that are written down, and strands of them, evaluate to values
that are rendered as the source is printed (`Eval.render_eq_print`). The two texts come about in
different ways: source is printed from the arena, values are rendered by their own shape, and
closures in them from the arena that they point to. What has to agree is where parentheses are put,
so `PrintsAs` keeps track of it.
-/

namespace ArrayLang

/-- Wherever the operands have values and the operator makes a function of them, the function has
the operands as they were. -/
def Context.KeepsOperands (c : Context) (id : ArenaId) (operator : Name) (left : ExprId)
    (right : Option ExprId) : Prop :=
  ∀ scope m m' l r f, m.arena = id →
    Eval.Ends c (Eval.operands left right scope) m (.ok (l, r)) m' →
    Eval.derive c operator l r = .ok f → f.left = l ∧ f.right = r

/-- A symbol, a closure literal with any body, or an operator that takes such functions as they
are. -/
inductive FunctionTerm (c : Context) (id : ArenaId) (a : Arena) : ExprId → Prop
  | primitive {e : ExprId} {symbol : Name} {span : Span}
      (h : a.expr? e = some ⟨.primitive symbol, span⟩) : FunctionTerm c id a e
  | closure {e : ExprId} {body : BodyRange} {span : Span}
      (h : a.expr? e = some ⟨.closure body, span⟩) : FunctionTerm c id a e
  | derived {e left : ExprId} {operator : Name} {right : Option ExprId} {span : Span}
      (h : a.expr? e = some ⟨.derived operator left right, span⟩)
      (hleft : FunctionTerm c id a left) (hright : ∀ e' ∈ right, FunctionTerm c id a e')
      (hkeeps : c.KeepsOperands id operator left right) : FunctionTerm c id a e

/-- A number, a truth value, a function term, or a strand of constants. -/
inductive Constant (c : Context) (id : ArenaId) (a : Arena) : ExprId → Prop
  | int {e : ExprId} {n : Int64} {span : Span} (h : a.expr? e = some ⟨.int n, span⟩) :
      Constant c id a e
  | float {e : ExprId} {x : Binary64} {span : Span} (h : a.expr? e = some ⟨.float x, span⟩) :
      Constant c id a e
  | bool {e : ExprId} {b : Bool} {span : Span} (h : a.expr? e = some ⟨.bool b, span⟩) :
      Constant c id a e
  | function {e : ExprId} (h : FunctionTerm c id a e) : Constant c id a e
  | strand {e : ExprId} {items : StrandRange} {es : List ExprId} {span : Span}
      (h : a.expr? e = some ⟨.strand items, span⟩) (hitems : a.strand? items = some es)
      (hes : ∀ e' ∈ es, Constant c id a e') : Constant c id a e

theorem FunctionTerm.isSome_expr? {c : Context} {id : ArenaId} {a : Arena} {e : ExprId}
    (h : FunctionTerm c id a e) : (a.expr? e).isSome := by
  cases h <;> exact Option.isSome_iff_exists.mpr ⟨_, ‹_›⟩

theorem Constant.isSome_expr? {c : Context} {id : ArenaId} {a : Arena} {e : ExprId}
    (h : Constant c id a e) : (a.expr? e).isSome := by
  cases h with
  | int hx | float hx | bool hx | strand hx => exact Option.isSome_iff_exists.mpr ⟨_, hx⟩
  | function h => exact h.isSome_expr?

/-! ## Texts that agree -/

/-- The tree prints as the value is rendered, and either both need parentheses inside of something
else or neither does. -/
structure PrintsAs (c : Context) (t : Tree) (v : Value) : Prop where
  text : t.print = c.render v
  loose : t.isLoose = v.isArray

namespace PrintsAs

variable {c : Context} {t : Tree} {v : Value}

/-- A text that agrees stays so as an operand and as a cell, where both get the same parentheses. -/
theorem asCell (h : PrintsAs c t v) : t.asOperand t.print = v.asCell (v.render c.glossary) := by
  rw [Tree.asOperand, Value.asCell, h.loose, h.text]
  rfl

/-- Strands print item by item, and arrays are rendered cell by cell. -/
theorem items {ts : List Tree} {vs : List Value} (h : List.Forall₂ (PrintsAs c) ts vs) :
    Tree.printItems ts = Value.renderCells c.glossary vs := by
  induction h with
  | nil => rfl
  | cons h _ ih => rw [Tree.printItems, Value.renderCells, h.asCell, ih]

/-- A strand has the text of a vector, also without elements. -/
theorem strand {ts : List Tree} {vs : List Value} (h : List.Forall₂ (PrintsAs c) ts vs) :
    PrintsAs c (.strand ts) (.ofElements vs) := by
  cases h with
  | nil => exact ⟨rfl, rfl⟩
  | cons h hs =>
      refine ⟨?_, rfl⟩
      rw [Tree.print, items (.cons h hs)]
      show _ = Value.render c.glossary (.array [_] _)
      rw [Value.render]
      rfl

end PrintsAs

/-- As `PrintsAs`, for functions: they never need parentheses. -/
structure PrintsAsFunction (c : Context) (t : Tree) (v : Value) : Prop where
  text : t.print = c.render v
  tree : t.isLoose = false
  value : v.isArray = false

namespace PrintsAsFunction

variable {c : Context} {t : Tree} {v : Value}

theorem printsAs (h : PrintsAsFunction c t v) : PrintsAs c t v :=
  ⟨h.text, h.tree.trans h.value.symm⟩

theorem operand (h : PrintsAsFunction c t v) : t.asOperand t.print = v.render c.glossary := by
  rw [Tree.asOperand, h.tree, h.text]
  rfl

/-- An operator application of such functions is such a function again. -/
theorem derived {operator : Name} {body : BodyId} {tr : Option Tree} {r : Option Value}
    (h : PrintsAsFunction c t v) (hr : Option.Rel (PrintsAsFunction c) tr r) :
    PrintsAsFunction c (.derived (c.names.lookup operator) t tr) (.derived operator body v r) := by
  refine ⟨?_, rfl, rfl⟩
  cases hr with
  | none =>
      rw [Tree.print, h.operand, Context.render, Value.render]
      rfl
  | some hr =>
      rw [Tree.print, h.operand, hr.operand, Context.render, Value.render]
      rfl

end PrintsAsFunction

namespace Eval

variable {c : Context} {id : ArenaId} {a : Arena} {e : ExprId} {scope : ScopeId} {m m' : Machine}
  {v : Value} {t : Tree} {depth : Nat}

/-- Operands that have values: the right one first, if there is one, and then the left one. -/
theorem exists_of_ends_operands {left : ExprId} {right : Option ExprId} {l : Value}
    {r : Option Value} (h : Ends c (operands left right scope) m (.ok (l, r)) m') :
    ∃ n, n.arena = m.arena ∧
      Option.Rel (fun e v => Ends c (step c (.evaluate e scope)) m (.ok v) n) right r ∧
      Ends c (step c (.evaluate left scope)) n (.ok l) m' := by
  obtain ⟨r', n, hr, hrest⟩ := ends_bind_ok_iff.mp h
  obtain ⟨l', n', hl, hpair⟩ := ends_bind_ok_iff.mp hrest
  obtain ⟨⟨⟩, rfl⟩ := ends_pure_iff.mp hpair
  refine ⟨n, (sameControl_of_ends_evaluateOptional hr).arena, ?_, ends_ask_iff.mp hl⟩
  cases right with
  | none =>
      obtain ⟨⟨⟩, -⟩ := ends_pure_iff.mp hr
      exact .none
  | some e' =>
      obtain ⟨r₀, hright, hsome⟩ := ends_map_iff.mp hr
      cases r₀ with
      | error err => cases hsome
      | ok w =>
          cases hsome
          exact .some (ends_ask_iff.mp hright)

/-- An operator application has a value only if its operands have, and the operator makes a function
of them. -/
theorem exists_of_ends_derived {operator : Name} {left : ExprId} {right : Option ExprId}
    (h : Ends c (node c scope (.derived operator left right)) m (.ok v) m') :
    ∃ l r f, Ends c (operands left right scope) m (.ok (l, r)) m' ∧
      derive c operator l r = .ok f ∧ v = .derived operator f.body f.left f.right := by
  obtain ⟨⟨l, r⟩, s, hoperands, hderived⟩ := ends_bind_ok_iff.mp h
  obtain ⟨f, s', hend, hvalue⟩ := ends_bind_ok_iff.mp hderived
  obtain ⟨hf, rfl⟩ := ends_ofExcept_iff.mp hend
  obtain ⟨hv, rfl⟩ := ends_pure_iff.mp hvalue
  obtain ⟨-, -, hoperator, -⟩ := Registry.derive_eq_ok_iff.mp hf.symm
  cases hv
  cases hoperator
  exact ⟨l, r, f, hoperands, hf.symm, rfl⟩

section Reading

variable (ha : c.arena? id = some a) (hm : m.arena = id)
include ha hm

/-- A value of an expression is one of its node. -/
theorem ends_node_of_ends_evaluate {x : Expr} (hx : a.expr? e = some x)
    (h : Ends c (step c (.evaluate e scope)) m (.ok v) m') :
    Ends c (node c scope x.node) m (.ok v) m' :=
  (ends_evaluate_ok_iff ((Context.expr?_of_arena (hm ▸ ha) e).trans hx)).mp h

/-- **Function terms print as the functions that they evaluate to.** -/
theorem printsAsFunction_of_ends (he : FunctionTerm c id a e)
    (h : Ends c (step c (.evaluate e scope)) m (.ok v) m')
    (ht : a.treeWithin c.names depth e = .ok t) (hdepth : depth ≤ a.size + 1) :
    PrintsAsFunction c t v := by
  induction he generalizing m m' v t depth with
  | @primitive e symbol span hx =>
      obtain ⟨⟨⟩, rfl⟩ := ends_pure_iff.mp (ends_node_of_ends_evaluate ha hm hx h)
      obtain ⟨depth, rfl⟩ := Arena.exists_succ_of_treeWithin ht
      rw [Arena.treeWithin, hx] at ht
      cases ht
      exact ⟨rfl, rfl, rfl⟩
  | @closure e body span hx =>
      have hend : Ends c (node c scope (.closure body)) m (.ok (.closure ⟨m.arena, body⟩)) m :=
        ends_of_eq rfl
      obtain ⟨⟨⟩, rfl⟩ := hend.unique (ends_node_of_ends_evaluate ha hm hx h)
      obtain ⟨depth, rfl⟩ := Arena.exists_succ_of_treeWithin ht
      -- a closure is rendered by printing it, which reads the same tree
      have htree := Arena.closureTree_of_treeWithin hx (Nat.le_of_succ_le hdepth) ht
      obtain ⟨statements, -, hstatements⟩ := exists_of_bind_eq_ok htree
      obtain ⟨statements, -, ⟨⟩⟩ := exists_of_bind_eq_ok hstatements
      refine ⟨?_, rfl, rfl⟩
      have hprint : c.printClosure? ⟨m'.arena, body⟩ = some (Tree.closure statements).print := by
        rw [Context.printClosure?, hm, ha]
        show (Tree.print <$> a.closureTree c.names body).toOption = _
        rw [htree]
        rfl
      show _ = (c.printClosure? ⟨m'.arena, body⟩).getD ""
      rw [hprint]
      rfl
  | @derived e left operator right span hx _ hright hkeeps ihleft ihright =>
      have hnode := ends_node_of_ends_evaluate ha hm hx h
      obtain ⟨l, r, f, hoperands, hf, rfl⟩ := exists_of_ends_derived hnode
      obtain ⟨rfl, rfl⟩ := hkeeps scope m m' l r f hm hoperands hf
      -- the right operand is evaluated first, on the machine as it was
      obtain ⟨n, hn, hr, hl⟩ := exists_of_ends_operands hoperands
      obtain ⟨depth, rfl⟩ := Arena.exists_succ_of_treeWithin ht
      obtain ⟨tl, tr, rfl, htl, htr⟩ := Arena.exists_derived_of_treeWithin hx ht
      have hdepth' : depth ≤ a.size + 1 := Nat.le_of_succ_le hdepth
      refine (ihleft (hn.trans hm) hl htl hdepth').derived ?_
      generalize f.right = r at hr
      cases htr with
      | none =>
          cases hr
          exact .none
      | some htr =>
          cases hr with
          | some hr => exact .some (ihright _ rfl hm hr htr hdepth')

/-- **Constants print as the values that they evaluate to.** -/
theorem printsAs_of_ends (he : Constant c id a e)
    (h : Ends c (step c (.evaluate e scope)) m (.ok v) m')
    (ht : a.treeWithin c.names depth e = .ok t) (hdepth : depth ≤ a.size + 1) :
    PrintsAs c t v := by
  induction he generalizing m m' v t depth with
  | int hx | float hx | bool hx =>
      obtain ⟨⟨⟩, -⟩ := ends_pure_iff.mp (ends_node_of_ends_evaluate ha hm hx h)
      obtain ⟨depth, rfl⟩ := Arena.exists_succ_of_treeWithin ht
      rw [Arena.treeWithin, hx] at ht
      cases ht
      exact ⟨rfl, rfl⟩
  | function he => exact (printsAsFunction_of_ends ha hm he h ht hdepth).printsAs
  | @strand e items es span hx hitems _ ih =>
      have hnode := ends_node_of_ends_evaluate ha hm hx h
      obtain ⟨qs, hcourse⟩ := ends_iff_exists_course.mp hnode
      obtain ⟨vs, rfl, hvs⟩ := exists_elements_of_course (hm ▸ ha) hitems hcourse
      obtain ⟨depth, rfl⟩ := Arena.exists_succ_of_treeWithin ht
      obtain ⟨ts, rfl, hts⟩ := Arena.exists_strand_of_treeWithin hx hitems ht
      refine PrintsAs.strand (forall₂_of_forall₂_of_mem hts hvs fun e' he' t' v' ht' hv' => ?_)
      obtain ⟨n, n', hsame, -, hend⟩ := hv'
      exact ih e' he' (hsame.arena.trans hm) hend ht' (Nat.le_of_succ_le hdepth)

end Reading

/-- **A constant prints as its value is rendered.** The expression is built from numbers, truth
values, symbols and closure literals by strands and by operators that take their operands as they
are. If it evaluates to a value, in any scope, the text of this value is the text of the
expression; and in an arena that was built children first there is always a text. -/
theorem render_eq_print (ha : c.arena? id = some a) (he : Constant c id a e) (hm : m.arena = id)
    (h : Ends c (step c (.evaluate e scope)) m (.ok v) m') :
    (∀ text, a.print c.names e = .ok text → c.render v = text) ∧
      (a.Layered → a.print c.names e = .ok (c.render v)) := by
  have htext : ∀ text, a.print c.names e = .ok text → c.render v = text := by
    intro text hprint
    obtain ⟨t, ht, heq⟩ := exists_of_bind_eq_ok (x := a.tree c.names e) hprint
    cases heq
    exact (printsAs_of_ends ha hm he h ht (Nat.le_refl _)).text.symm
  refine ⟨htext, fun hlayered => ?_⟩
  have hlt : e.index < a.size := Arena.isSome_expr?_iff.mp he.isSome_expr?
  obtain ⟨text, hprint⟩ := hlayered.reads_print c.names hlt
  rw [hprint, htext text hprint]

end Eval

/-- The strand `¯3 () {⍵} (1 +∘{⍵})`, with all its parts in front of it. -/
def Arena.constants : Arena where
  exprs := #[⟨.int (-3), .dummy⟩, ⟨.strand ⟨0, 0⟩, .dummy⟩, ⟨.variable .rightArgument, .dummy⟩,
    ⟨.closure ⟨0, 1⟩, .dummy⟩, ⟨.int 1, .dummy⟩, ⟨.primitive ⟨5⟩, .dummy⟩,
    ⟨.derived ⟨6⟩ ⟨5⟩ (some ⟨3⟩), .dummy⟩, ⟨.strand ⟨0, 2⟩, .dummy⟩, ⟨.strand ⟨2, 4⟩, .dummy⟩]
  items := #[⟨4⟩, ⟨6⟩, ⟨0⟩, ⟨1⟩, ⟨3⟩, ⟨7⟩]
  guards := #[⟨none, ⟨2⟩⟩]

/-- The operator `∘` takes any two operands. -/
def Context.constants : Context where
  registry := ((Registry.empty (Interner.initial.internAll ["+"])).registerOperator "∘" .dyadic
    (.dyadic none) fun _ _ _ _ right => .done (.ok right)).2
  tower := .standard
  arenas := #[.constants]

theorem Context.keepsOperands_constants :
    constants.KeepsOperands ⟨0⟩ ⟨6⟩ ⟨5⟩ (some ⟨3⟩) := by
  rintro scope m m' l (_ | r) f - - hf
  · cases hf
  · cases hf
    exact ⟨rfl, rfl⟩

theorem constant_constants : Constant .constants ⟨0⟩ .constants ⟨8⟩ := by
  have hempty : Arena.constants.strand? ⟨0, 0⟩ = some [] := rfl
  have hinner : Arena.constants.strand? ⟨0, 2⟩ = some [⟨4⟩, ⟨6⟩] := rfl
  have houter : Arena.constants.strand? ⟨2, 4⟩ = some [⟨0⟩, ⟨1⟩, ⟨3⟩, ⟨7⟩] := rfl
  have hclosure : FunctionTerm .constants ⟨0⟩ .constants ⟨3⟩ := .closure rfl
  have hderived : FunctionTerm .constants ⟨0⟩ .constants ⟨6⟩ := by
    refine .derived rfl (.primitive rfl) ?_ Context.keepsOperands_constants
    rintro _ ⟨⟩
    exact hclosure
  refine .strand rfl houter ?_
  simp only [List.forall_mem_cons]
  refine ⟨.int rfl, .strand rfl hempty nofun, .function hclosure, .strand rfl hinner ?_, nofun⟩
  simp only [List.forall_mem_cons]
  exact ⟨.int rfl, .function hderived, nofun⟩

/-- The strand evaluates to an array of four cells, and this is rendered as the strand is printed.
-/
theorem Eval.render_eq_print_constants :
    ∃ v m', Ends .constants (step .constants (.evaluate ⟨8⟩ ⟨0⟩))
        ⟨⟨0⟩, .empty 10, Scopes.empty.outermost.2⟩ (.ok v) m' ∧
      Arena.constants.print Context.constants.names ⟨8⟩ =
        .ok "¯3 () \x7b⍵\x7d (1 +∘\x7b⍵\x7d)" ∧
      Context.constants.render v = "¯3 () \x7b⍵\x7d (1 +∘\x7b⍵\x7d)" := by
  have hend : ∃ v m', Ends .constants (step .constants (.evaluate ⟨8⟩ ⟨0⟩))
      ⟨⟨0⟩, .empty 10, Scopes.empty.outermost.2⟩ (.ok v) m' := ⟨_, _, 20, rfl⟩
  obtain ⟨v, m', h⟩ := hend
  obtain ⟨htext, -⟩ := render_eq_print rfl constant_constants rfl h
  exact ⟨v, m', h, rfl, htext _ rfl⟩

end ArrayLang

import ArrayLang.Proofs.Evaluation.Course
import ArrayLang.Proofs.Evaluation.Errors
import ArrayLang.Proofs.Evaluation.Statements
import Mathlib.Data.List.Forall2

/-!
# From right to left

A strand, a call and an operator application evaluate their parts first, from right to left
(`Arena.Parts`). Each part is a question, put on the machine that the part before it left. When all
of them have values, the node is completed (`Eval.Completes`); a part that fails is the last one
that is evaluated, and the node fails with its error (`Eval.evaluated_right_to_left`).
-/

namespace ArrayLang

/-- A part of an expression. The function of a call has to give a function. -/
inductive Part where
  | value (e : ExprId)
  | function (e : ExprId)

namespace Part

def expr : Part → ExprId
  | .value e | .function e => e

def Accepts : Part → Value → Prop
  | .value _, _ => True
  | .function _, v => v.callable?.isSome

/-- The question for the part, on a machine. -/
def question (p : Part) (scope : ScopeId) (m : Machine) : Request × Machine :=
  (.evaluate p.expr scope, m)

end Part

/-- The parts of strands, calls and operator applications, in the order in which they are
evaluated. -/
inductive Arena.Parts (a : Arena) : Node → List Part → Prop
  | strand {items : StrandRange} {es : List ExprId} (h : a.strand? items = some es) :
      a.Parts (.strand items) (es.reverse.map .value)
  | call {function right : ExprId} {left : Option ExprId} :
      a.Parts (.call function left right)
        (.value right :: .function function :: left.toList.map .value)
  | derived {operator : Name} {left : ExprId} {right : Option ExprId} :
      a.Parts (.derived operator left right) (right.toList.map .value ++ [.value left])

/-- The value of a strand with these elements. -/
def Value.ofElements : List Value → Value
  | [] => .emptyArray
  | v :: vs => .vector (v :: vs)

/-- A strand with at least one item is a vector. -/
theorem Value.ofElements_concat (vs : List Value) (v : Value) :
    ofElements (vs ++ [v]) = .vector (vs ++ [v]) := by
  cases vs <;> rfl

namespace Eval

variable {α β : Type} (c : Context) (scope : ScopeId)

/-- What is left to do when the parts of a node have these values, in the order of evaluation. -/
inductive Completes : Node → List Value → Eval Value → Prop
  | strand {items : StrandRange} {vs : List Value} :
      Completes (.strand items) vs (pure (.ofElements vs.reverse))
  | call {function right : ExprId} {left : Option ExprId} {r v : Value} {l : Option Value}
      {f : Callable} (hf : v.callable? = some f) :
      Completes (.call function left right) (r :: v :: l.toList) (call f l r scope)
  | derived {operator : Name} {left : ExprId} {right : Option ExprId} {l : Value}
      {r : Option Value} :
      Completes (.derived operator left right) (r.toList ++ [l])
        (ofExcept ((derive c operator l r).map fun f => (Callable.derived f).toValue))

/-! ## Parts in turn -/

/-- The part has a value, and one that it may have. -/
structure Gives (p : Part) (m : Machine) (v : Value) (m' : Machine) : Prop where
  ends : Ends c (step c (.evaluate p.expr scope)) m (.ok v) m'
  accepts : p.Accepts v

/-- The part fails, or its value is not one that it may have. -/
inductive Fails (p : Part) (m : Machine) : EvalError → Machine → Prop
  | raises {err : EvalError} {m' : Machine}
      (h : Ends c (step c (.evaluate p.expr scope)) m (.error err) m') : Fails p m err m'
  | refused {v : Value} {m' : Machine} (h : Ends c (step c (.evaluate p.expr scope)) m (.ok v) m')
      (hv : ¬ p.Accepts v) : Fails p m (.of (.notCallable v.kind)) m'

/-- The parts have these values, each one on the machine that those before it left. The questions
are those for the parts, each of them once. -/
inductive InTurn : List Part → Machine → List (Request × Machine) → List Value → Machine → Prop
  | nil {m : Machine} : InTurn [] m [] [] m
  | cons {p : Part} {ps : List Part} {m s m' : Machine} {v : Value} {vs : List Value}
      {qs : List (Request × Machine)} (hp : Gives c scope p m v s) (hps : InTurn ps s qs vs m') :
      InTurn (p :: ps) m (p.question scope m :: qs) (v :: vs) m'

/-- The part fails after those before it have had their values, and nothing is asked after it. -/
def FailsAfter (before : List Part) (p : Part) (m : Machine) (qs : List (Request × Machine))
    (err : EvalError) (m' : Machine) : Prop :=
  ∃ qs₀ vs s, InTurn c scope before m qs₀ vs s ∧ Fails c scope p s err m' ∧
    qs = qs₀ ++ [p.question scope s]

/-- The parts are evaluated in turn, and then what remains to be done; or one of them fails. -/
def Proceeds (ps : List Part) (completes : List Value → Eval β → Prop) (m : Machine)
    (qs : List (Request × Machine)) (r : Except EvalError β) (m' : Machine) : Prop :=
  (∃ vs y s qs₁ qs₂, qs = qs₁ ++ qs₂ ∧ InTurn c scope ps m qs₁ vs s ∧ completes vs y ∧
    Course c y s qs₂ r m') ∨
  ∃ before p after err, ps = before ++ p :: after ∧ FailsAfter c scope before p m qs err m' ∧
    r = .error err

variable {c scope} {p : Part} {ps before after : List Part} {m m' s : Machine}
  {qs : List (Request × Machine)} {vs us : List Value} {err : EvalError} {x : Eval β}
  {completes : List Value → Eval β → Prop} {r : Except EvalError β}

theorem inTurn_nil_iff : InTurn c scope [] m qs vs m' ↔ qs = [] ∧ vs = [] ∧ m' = m := by
  constructor
  · rintro ⟨⟩
    exact ⟨rfl, rfl, rfl⟩
  · rintro ⟨rfl, rfl, rfl⟩
    exact .nil

/-- The first part is asked first, and the others on what it leaves. -/
theorem inTurn_cons_iff :
    InTurn c scope (p :: ps) m qs vs m' ↔
      ∃ v s qs' vs', Gives c scope p m v s ∧ InTurn c scope ps s qs' vs' m' ∧
        qs = p.question scope m :: qs' ∧ vs = v :: vs' := by
  constructor
  · rintro (_ | ⟨hp, hps⟩)
    exact ⟨_, _, _, _, hp, hps, rfl, rfl⟩
  · rintro ⟨v, s, qs', vs', hp, hps, rfl, rfl⟩
    exact .cons hp hps

theorem failsAfter_nil_iff :
    FailsAfter c scope [] p m qs err m' ↔ Fails c scope p m err m' ∧ qs = [p.question scope m] := by
  simp only [FailsAfter, inTurn_nil_iff]
  constructor
  · rintro ⟨_, _, _, ⟨rfl, rfl, rfl⟩, h, rfl⟩
    exact ⟨h, rfl⟩
  · rintro ⟨h, rfl⟩
    exact ⟨[], [], m, ⟨rfl, rfl, rfl⟩, h, rfl⟩

/-- A failure behind some parts is one behind the first of them, after that one gave its value. -/
theorem failsAfter_cons_iff {p₀ : Part} :
    FailsAfter c scope (p₀ :: before) p m qs err m' ↔
      ∃ v s qs', Gives c scope p₀ m v s ∧ FailsAfter c scope before p s qs' err m' ∧
        qs = p₀.question scope m :: qs' := by
  simp only [FailsAfter, inTurn_cons_iff]
  constructor
  · rintro ⟨_, _, t, ⟨v, s, qs', vs', hp, hps, rfl, rfl⟩, h, rfl⟩
    exact ⟨v, s, _, hp, ⟨qs', vs', t, hps, h, rfl⟩, rfl⟩
  · rintro ⟨v, s, _, hp, ⟨qs', vs', t, hps, h, rfl⟩, rfl⟩
    exact ⟨_, _, t, ⟨v, s, qs', vs', hp, hps, rfl, rfl⟩, h, rfl⟩

theorem proceeds_nil_iff :
    Proceeds c scope [] completes m qs r m' ↔ ∃ y, completes [] y ∧ Course c y m qs r m' := by
  simp only [Proceeds, inTurn_nil_iff]
  constructor
  · rintro (⟨_, y, _, _, _, rfl, ⟨rfl, rfl, rfl⟩, hy, h⟩ | ⟨before, _, _, _, hps, -⟩)
    · exact ⟨y, hy, h⟩
    · cases before <;> cases hps
  · rintro ⟨y, hy, h⟩
    exact .inl ⟨[], y, m, [], qs, rfl, ⟨rfl, rfl, rfl⟩, hy, h⟩

/-- Either the first part gives a value, and the rest proceeds, or it fails, and nothing else is
asked. -/
theorem proceeds_cons_iff :
    Proceeds c scope (p :: ps) completes m qs r m' ↔
      (∃ v s qs', Gives c scope p m v s ∧
        Proceeds c scope ps (fun vs => completes (v :: vs)) s qs' r m' ∧
        qs = p.question scope m :: qs') ∨
      ∃ err, Fails c scope p m err m' ∧ r = .error err ∧ qs = [p.question scope m] := by
  constructor
  · rintro (⟨_, y, t, _, qs₂, rfl, hps, hy, h⟩ | ⟨before, p', after, err, hsplit, hfails, rfl⟩)
    · obtain ⟨v, s, qs₁, vs, hp, htail, rfl, rfl⟩ := inTurn_cons_iff.mp hps
      exact .inl ⟨v, s, _, hp, .inl ⟨vs, y, t, qs₁, qs₂, rfl, htail, hy, h⟩, rfl⟩
    · cases before with
      | nil =>
          cases hsplit
          obtain ⟨h, rfl⟩ := failsAfter_nil_iff.mp hfails
          exact .inr ⟨err, h, rfl, rfl⟩
      | cons p₀ before =>
          cases hsplit
          obtain ⟨v, s, qs', hp, htail, rfl⟩ := failsAfter_cons_iff.mp hfails
          exact .inl ⟨v, s, qs', hp, .inr ⟨before, p', after, err, rfl, htail, rfl⟩, rfl⟩
  · rintro (⟨v, s, _, hp, ⟨vs, y, t, qs₁, qs₂, rfl, hps, hy, h⟩ |
      ⟨before, p', after, err, rfl, hfails, rfl⟩, rfl⟩ | ⟨err, h, rfl, rfl⟩)
    · exact .inl ⟨v :: vs, y, t, _, qs₂, rfl, .cons hp hps, hy, h⟩
    · exact .inr ⟨p :: before, p', after, err, rfl,
        failsAfter_cons_iff.mpr ⟨v, s, _, hp, hfails, rfl⟩, rfl⟩
    · exact .inr ⟨[], p, ps, err, rfl, failsAfter_nil_iff.mpr ⟨h, rfl⟩, rfl⟩

/-! ## Steps that evaluate parts -/

/-- The step evaluates the parts in turn, and then does what remains to be done. -/
def Evaluates (c : Context) (scope : ScopeId) (x : Eval β) (ps : List Part)
    (completes : List Value → Eval β → Prop) : Prop :=
  ∀ m qs r m', Course c x m qs r m' ↔ Proceeds c scope ps completes m qs r m'

theorem evaluates_nil (h : ∀ y, completes [] y ↔ y = x) : Evaluates c scope x [] completes := by
  intro m qs r m'
  simp only [proceeds_nil_iff, h, exists_eq_left]

theorem gives_value_iff {e : ExprId} {v : Value} :
    Gives c scope (.value e) m v m' ↔ Ends c (step c (.evaluate e scope)) m (.ok v) m' :=
  ⟨Gives.ends, fun h => ⟨h, trivial⟩⟩

theorem fails_value_iff {e : ExprId} :
    Fails c scope (.value e) m err m' ↔ Ends c (step c (.evaluate e scope)) m (.error err) m' := by
  constructor
  · rintro (h | ⟨-, hv⟩)
    · exact h
    · exact absurd trivial hv
  · exact fun h => .raises h

/-- A part that may have any value. -/
theorem Evaluates.value {e : ExprId} {f : Value → Eval β}
    (h : ∀ v, Evaluates c scope (f v) ps fun vs => completes (v :: vs)) :
    Evaluates c scope (evaluate e scope >>= f) (.value e :: ps) completes := by
  intro m qs r m'
  simp only [course_bind_iff, evaluate, course_ask_iff, proceeds_cons_iff, gives_value_iff,
    fails_value_iff]
  constructor
  · rintro (⟨v, s, _, qs', rfl, ⟨hv, rfl⟩, hf⟩ | ⟨err, ⟨he, rfl⟩, rfl⟩)
    · exact .inl ⟨v, s, qs', hv, (h v s qs' r m').mp hf, rfl⟩
    · exact .inr ⟨err, he, rfl, rfl⟩
  · rintro (⟨v, s, qs', hv, hf, rfl⟩ | ⟨err, he, rfl, rfl⟩)
    · exact .inl ⟨v, s, _, qs', rfl, ⟨hv, rfl⟩, (h v s qs' r m').mpr hf⟩
    · exact .inr ⟨err, ⟨he, rfl⟩, rfl⟩

/-- Evaluating a function asks one question, and its value must be one. -/
theorem course_evaluateCallable_ok_iff {e : ExprId} {f : Callable} :
    Course c (evaluateCallable e scope) m qs (.ok f) m' ↔
      ∃ v, Gives c scope (.function e) m v m' ∧ v.callable? = some f ∧
        qs = [(Part.function e).question scope m] := by
  simp only [evaluateCallable, evaluate, course_bind_iff, course_ask_iff]
  constructor
  · rintro (⟨v, s, _, _, rfl, ⟨hv, rfl⟩, h⟩ | ⟨_, _, ⟨⟩⟩)
    cases hf : v.callable? with
    | none =>
        simp only [hf] at h
        cases (course_ofExcept_iff.mp h).2.1
    | some g =>
        simp only [hf] at h
        obtain ⟨rfl, ⟨⟩, rfl⟩ := course_pure_iff.mp h
        exact ⟨v, ⟨hv, Option.isSome_iff_exists.mpr ⟨_, hf⟩⟩, hf, rfl⟩
  · rintro ⟨v, ⟨hv, -⟩, hf, rfl⟩
    refine .inl ⟨v, m', _, [], (List.append_nil _).symm, ⟨hv, rfl⟩, ?_⟩
    simp only [hf]
    exact course_pure_iff.mpr ⟨rfl, rfl, rfl⟩

/-- Evaluating a function fails with the error of its question, or because the value is no
function. -/
theorem course_evaluateCallable_error_iff {e : ExprId} :
    Course c (evaluateCallable e scope) m qs (.error err) m' ↔
      Fails c scope (.function e) m err m' ∧ qs = [(Part.function e).question scope m] := by
  simp only [evaluateCallable, evaluate, course_bind_iff, course_ask_iff]
  constructor
  · rintro (⟨v, s, _, _, rfl, ⟨hv, rfl⟩, h⟩ | ⟨_, ⟨he, rfl⟩, ⟨⟩⟩)
    · cases hf : v.callable? with
      | none =>
          simp only [hf] at h
          obtain ⟨rfl, ⟨⟩, rfl⟩ := course_ofExcept_iff.mp h
          exact ⟨.refused hv (by simp [Part.Accepts, hf]), rfl⟩
      | some g =>
          simp only [hf] at h
          cases (course_pure_iff.mp h).2.1
    · exact ⟨.raises he, rfl⟩
  · rintro ⟨he | ⟨hv, hrefused⟩, rfl⟩
    · exact .inr ⟨err, ⟨he, rfl⟩, rfl⟩
    · refine .inl ⟨_, m', _, [], (List.append_nil _).symm, ⟨hv, rfl⟩, ?_⟩
      have hf := Option.not_isSome_iff_eq_none.mp hrefused
      simp only [hf]
      exact course_ofExcept_iff.mpr ⟨rfl, rfl, rfl⟩

/-- A part that has to be a function. -/
theorem Evaluates.function {e : ExprId} {f : Callable → Eval β}
    (h : ∀ v g, v.callable? = some g →
      Evaluates c scope (f g) ps fun vs => completes (v :: vs)) :
    Evaluates c scope (evaluateCallable e scope >>= f) (.function e :: ps) completes := by
  intro m qs r m'
  rw [course_bind_iff, proceeds_cons_iff]
  simp only [course_evaluateCallable_ok_iff, course_evaluateCallable_error_iff]
  constructor
  · rintro (⟨g, s, _, qs', rfl, ⟨v, hv, hg, rfl⟩, hf⟩ | ⟨err, ⟨he, rfl⟩, rfl⟩)
    · exact .inl ⟨v, s, qs', hv, (h v g hg s qs' r m').mp hf, rfl⟩
    · exact .inr ⟨err, he, rfl, rfl⟩
  · rintro (⟨v, s, qs', hv, hf, rfl⟩ | ⟨err, he, rfl, rfl⟩)
    · obtain ⟨g, hg⟩ := Option.isSome_iff_exists.mp hv.accepts
      exact .inl ⟨g, s, _, qs', rfl, ⟨v, hv, hg, rfl⟩, (h v g hg s qs' r m').mpr hf⟩
    · exact .inr ⟨err, ⟨he, rfl⟩, rfl⟩

/-- A list of expressions, the values of which come in the opposite order. -/
theorem evaluates_evaluateOnto {f : List Value → Eval β} {es : List ExprId} {behind : List Value}
    (h : ∀ vs y, completes vs y ↔ y = f (vs.reverse ++ behind)) :
    Evaluates c scope (evaluateOnto scope behind es >>= f) (es.map .value) completes := by
  induction es generalizing behind completes with
  | nil => exact evaluates_nil (h [])
  | cons e es ih =>
      simp only [evaluateOnto, bind_assoc, List.map_cons]
      refine .value fun v => ih fun vs y => ?_
      rw [h, List.reverse_cons, List.append_assoc]
      rfl

/-! ## The three kinds of nodes -/

/-- What remains of a strand is to put the items into a vector. They were evaluated from the last to
the first. -/
theorem completes_strand_iff {items : StrandRange} {y : Eval Value} :
    Completes c scope (.strand items) vs y ↔ y = pure (.ofElements vs.reverse) := by
  constructor
  · rintro ⟨⟩
    rfl
  · rintro rfl
    exact .strand

/-- What remains of a call is the call, with the left argument evaluated last. -/
theorem completes_call_iff {function right : ExprId} {left : Option ExprId} {y : Eval Value} :
    Completes c scope (.call function left right) vs y ↔
      ∃ r v l f, v.callable? = some f ∧ vs = r :: v :: l.toList ∧ y = call f l r scope := by
  constructor
  · rintro (_ | hf)
    exact ⟨_, _, _, _, hf, rfl, rfl⟩
  · rintro ⟨r, v, l, f, hf, rfl, rfl⟩
    exact .call hf

/-- What remains of an operator application is to make the function. -/
theorem completes_derived_iff {operator : Name} {left : ExprId} {right : Option ExprId}
    {y : Eval Value} :
    Completes c scope (.derived operator left right) vs y ↔
      ∃ l r, vs = r.toList ++ [l] ∧
        y = ofExcept ((derive c operator l r).map fun f => (Callable.derived f).toValue) := by
  constructor
  · rintro ⟨⟩
    exact ⟨_, _, rfl, rfl⟩
  · rintro ⟨l, r, rfl, rfl⟩
    exact .derived

/-- **A strand evaluates its items from the last to the first.** -/
theorem evaluates_strand (items : StrandRange) (es : List ExprId) :
    Evaluates c scope (strand es scope) (es.reverse.map .value)
      (Completes c scope (.strand items)) := by
  cases hes : es.reverse with
  | nil =>
      obtain rfl := List.reverse_eq_nil_iff.mp hes
      exact evaluates_nil fun _ => completes_strand_iff
  | cons e rest =>
      have hstrand : strand es scope =
          evaluate e scope >>= fun v => evaluateOnto scope [v] rest >>= fun vs =>
            pure (.vector vs) := by
        have hne : es.isEmpty = false := by
          rw [← List.isEmpty_reverse, hes]
          rfl
        simp only [strand, hne, hes, evaluateOnto, bind_assoc]
        rfl
      rw [hstrand]
      refine .value fun v => evaluates_evaluateOnto fun vs y => ?_
      rw [completes_strand_iff, List.reverse_cons, Value.ofElements_concat]

/-- The completion of a call is known from the values of its parts. -/
theorem completes_call_iff_of_eq {function right : ExprId} {left : Option ExprId} {y : Eval Value}
    {r v : Value} {l : Option Value} {f : Callable} (hf : v.callable? = some f)
    (hvs : vs = r :: v :: l.toList) :
    Completes c scope (.call function left right) vs y ↔ y = call f l r scope := by
  rw [completes_call_iff]
  constructor
  · rintro ⟨r', v', l', f', hf', hvs', rfl⟩
    rw [hvs] at hvs'
    cases l <;> cases l' <;> cases hvs' <;> rw [hf] at hf' <;> cases hf' <;> rfl
  · rintro rfl
    exact ⟨r, v, l, f, hf, hvs, rfl⟩

/-- The operands that were evaluated are the ones the function is made of. -/
theorem completes_derived_iff_of_eq {operator : Name} {left : ExprId} {right : Option ExprId}
    {y : Eval Value} {l : Value} {r : Option Value} (hvs : vs = r.toList ++ [l]) :
    Completes c scope (.derived operator left right) vs y ↔
      y = ofExcept ((derive c operator l r).map fun f => (Callable.derived f).toValue) := by
  rw [completes_derived_iff]
  constructor
  · rintro ⟨l', r', hvs', rfl⟩
    rw [hvs] at hvs'
    cases r <;> cases r' <;> cases hvs' <;> rfl
  · rintro rfl
    exact ⟨l, r, hvs, rfl⟩

theorem evaluateOptional_some_bind {e : ExprId} {f : Option Value → Eval β} :
    evaluateOptional (some e) scope >>= f = evaluate e scope >>= fun v => f (some v) := by
  simp only [evaluateOptional, map_eq_pure_bind, bind_assoc, pure_bind]

/-- **A call evaluates the right argument, then the function, then the left argument.** -/
theorem evaluates_call (function right : ExprId) (left : Option ExprId) :
    Evaluates c scope (node c scope (.call function left right))
      (.value right :: .function function :: left.toList.map .value)
      (Completes c scope (.call function left right)) := by
  refine .value fun r => .function fun v f hf => ?_
  cases left with
  | none => exact evaluates_nil fun y => completes_call_iff_of_eq (l := none) hf rfl
  | some left =>
      rw [evaluateOptional_some_bind]
      exact .value fun l => evaluates_nil fun y => completes_call_iff_of_eq (l := some l) hf rfl

/-- **An operator application evaluates the right operand before the left one.** -/
theorem evaluates_derived (operator : Name) (left : ExprId) (right : Option ExprId) :
    Evaluates c scope (node c scope (.derived operator left right))
      (right.toList.map .value ++ [.value left])
      (Completes c scope (.derived operator left right)) := by
  have hnode : node c scope (.derived operator left right) =
      evaluateOptional right scope >>= fun r => evaluate left scope >>= fun l =>
        ofExcept ((derive c operator l r).map fun f => (Callable.derived f).toValue) := by
    unfold node operands
    simp only [bind_assoc, pure_bind]
    congr 1
    funext r
    congr 1
    funext l
    cases derive c operator l r <;> rfl
  rw [hnode]
  cases right with
  | none =>
      exact .value fun l => evaluates_nil fun y => completes_derived_iff_of_eq (r := none) rfl
  | some right =>
      rw [evaluateOptional_some_bind]
      exact .value fun r => .value fun l =>
        evaluates_nil fun y => completes_derived_iff_of_eq (r := some r) rfl

/-- **Nodes with parts evaluate them in turn.** -/
theorem course_node_iff {a : Arena} {node : Node} (hps : a.Parts node ps)
    (ha : c.arena? m.arena = some a) {r : Except EvalError Value} :
    Course c (Eval.node c scope node) m qs r m' ↔
      Proceeds c scope ps (Completes c scope node) m qs r m' := by
  cases hps with
  | @strand items es hes =>
      have hstrand : Eval.node c scope (.strand items) m = strand es scope m := by
        have hitems : found (a.strand? items) m = .finished (.ok es) m := by
          rw [hes]
          rfl
        exact (bind_of_finished (Statement.currentArena_apply ha)).trans (bind_of_finished hitems)
      rw [course_congr hstrand]
      exact evaluates_strand items es m qs r m'
  | call => exact evaluates_call _ _ _ m qs r m'
  | derived => exact evaluates_derived _ _ _ m qs r m'

/-! ## Parts, values and failures -/

/-- Each value is that of its part, evaluated in the same arena as the first one. -/
theorem InTurn.forall₂ (h : InTurn c scope ps m qs vs m') :
    List.Forall₂ (fun p v => ∃ n n', SameControl m n ∧ p.question scope n ∈ qs ∧
      Gives c scope p n v n') ps vs := by
  induction h with
  | nil => exact .nil
  | cons hp _ ih =>
      refine .cons ⟨_, _, refl_of SameControl _, List.mem_cons_self, hp⟩ (ih.imp ?_)
      rintro p v ⟨n, n', hsame, hmem, hgives⟩
      exact ⟨n, n', trans_of SameControl (control_keptBy.ends trivial hp.ends) hsame,
        List.mem_cons_of_mem _ hmem, hgives⟩

/-- The value of a strand has the values of its expressions, from left to right. -/
theorem exists_elements_of_course {a : Arena} {items : StrandRange} {es : List ExprId} {v : Value}
    (ha : c.arena? m.arena = some a) (hes : a.strand? items = some es)
    (h : Course c (node c scope (.strand items)) m qs (.ok v) m') :
    ∃ vs, v = .ofElements vs ∧
      List.Forall₂ (fun e v => ∃ n n', SameControl m n ∧ (.evaluate e scope, n) ∈ qs ∧
        Ends c (step c (.evaluate e scope)) n (.ok v) n') es vs := by
  rw [course_node_iff (.strand hes) ha] at h
  rcases h with ⟨vs, y, s, qs₁, qs₂, rfl, hturn, hy, h⟩ | ⟨_, _, _, _, -, -, ⟨⟩⟩
  rw [completes_strand_iff.mp hy] at h
  obtain ⟨rfl, ⟨⟩, rfl⟩ := course_pure_iff.mp h
  refine ⟨_, rfl, ?_⟩
  rw [List.append_nil, ← List.forall₂_reverse_iff, List.reverse_reverse]
  refine (List.forall₂_map_left_iff.mp hturn.forall₂).imp ?_
  rintro e v ⟨n, n', hsame, hmem, hgives⟩
  exact ⟨n, n', hsame, hmem, hgives.ends⟩

/-- What comes after a part that fails makes no difference. -/
theorem course_of_failsAfter {a : Arena} {e : ExprId} {x : Expr} (ha : c.arena? m.arena = some a)
    (hx : a.expr? e = some x) (hps : a.Parts x.node (before ++ p :: after))
    (h : FailsAfter c scope before p m qs err m') :
    Course c (step c (.evaluate e scope)) m qs (.error (err.locate x.span)) m' := by
  have hexpr : c.expr? m.arena e = some x := (Context.expr?_of_arena ha e).trans hx
  refine (course_evaluate_iff hexpr).mpr ⟨.error err, ?_, rfl⟩
  exact (course_node_iff hps ha).mpr (.inr ⟨before, p, after, err, rfl, h, rfl⟩)

/-- **Parts are evaluated from right to left, up to the first that fails.** This holds of every
strand, call and operator application, on every machine.

* Either every part has a value, each one being asked for once, on the machine that those before it
  left; then the node is completed from the values. Or a part fails and no other one is evaluated;
  then the whole ends on the machine of that moment, with the same error but for its place.
* What comes behind the part that fails may be replaced by anything else.
* The elements of a strand are the values of its expressions, each in its place. -/
theorem evaluated_right_to_left {a : Arena} {e : ExprId} {x : Expr} (scope : ScopeId)
    (ha : c.arena? m.arena = some a) (hx : a.expr? e = some x) (hps : a.Parts x.node ps) :
    (∀ qs r m', Course c (step c (.evaluate e scope)) m qs r m' ↔
      (∃ vs y s qs₁ qs₂ r₀, InTurn c scope ps m qs₁ vs s ∧ Completes c scope x.node vs y ∧
        Course c y s qs₂ r₀ m' ∧ qs = qs₁ ++ qs₂ ∧ r = r₀.mapError fun err => err.locate x.span) ∨
      ∃ before p after err, ps = before ++ p :: after ∧ FailsAfter c scope before p m qs err m' ∧
        r = .error (err.locate x.span)) ∧
    (∀ before p after qs err m', ps = before ++ p :: after →
      FailsAfter c scope before p m qs err m' →
      ∀ e' x' after', a.expr? e' = some x' → a.Parts x'.node (before ++ p :: after') →
        ∃ err', Course c (step c (.evaluate e' scope)) m qs (.error err') m' ∧ err.Alike err') ∧
    ∀ items es, x.node = .strand items → a.strand? items = some es →
      ∀ qs v m', Course c (step c (.evaluate e scope)) m qs (.ok v) m' →
        ∃ vs, v = .ofElements vs ∧
          List.Forall₂ (fun e v => ∃ n n', (.evaluate e scope, n) ∈ qs ∧
            Ends c (step c (.evaluate e scope)) n (.ok v) n') es vs := by
  -- the course of an expression is that of its node, with the place given to an error in the end
  have hexpr : c.expr? m.arena e = some x := (Context.expr?_of_arena ha e).trans hx
  refine ⟨fun qs r m' => ?_, fun before p after qs err m' _ hfails e' x' after' hx' hps' => ?_,
    fun items es hnode hes qs v m' h => ?_⟩
  · rw [course_evaluate_iff hexpr]
    simp only [course_node_iff hps ha]
    constructor
    · rintro ⟨r₀, ⟨vs, y, s, qs₁, qs₂, rfl, hturn, hy, h⟩ | ⟨before, p, after, err, hsplit, h, rfl⟩,
        rfl⟩
      · exact .inl ⟨vs, y, s, qs₁, qs₂, r₀, hturn, hy, h, rfl, rfl⟩
      · exact .inr ⟨before, p, after, err, hsplit, h, rfl⟩
    · rintro (⟨vs, y, s, qs₁, qs₂, r₀, hturn, hy, h, rfl, rfl⟩ |
        ⟨before, p, after, err, hsplit, h, rfl⟩)
      · exact ⟨r₀, .inl ⟨vs, y, s, qs₁, qs₂, rfl, hturn, hy, h⟩, rfl⟩
      · exact ⟨.error err, .inr ⟨before, p, after, err, hsplit, h, rfl⟩, rfl⟩
  · -- the node of the other expression begins with the same parts, and what comes later is not
    -- asked
    exact ⟨_, course_of_failsAfter ha hx' hps' hfails, (EvalError.Alike.refl err).locate _⟩
  · obtain ⟨r₀, hcourse, hr⟩ := (course_evaluate_iff hexpr).mp h
    cases r₀ with
    | error err => cases hr
    | ok w =>
        cases hr
        rw [hnode] at hcourse
        obtain ⟨vs, rfl, hvs⟩ := exists_elements_of_course ha hes hcourse
        refine ⟨vs, rfl, hvs.imp ?_⟩
        rintro e v ⟨n, n', -, hmem, hend⟩
        exact ⟨n, n', hmem, hend⟩

end Eval

/-- The strands `(X←1) U (X←2)` and `1 U (X←2)`. -/
def Arena.strands : Arena where
  exprs := #[⟨.int 1, .dummy⟩, ⟨.assign ⟨5⟩ ⟨0⟩, .dummy⟩, ⟨.variable ⟨6⟩, .dummy⟩,
    ⟨.int 2, .dummy⟩, ⟨.assign ⟨5⟩ ⟨3⟩, .dummy⟩, ⟨.strand ⟨0, 3⟩, .dummy⟩,
    ⟨.strand ⟨3, 3⟩, .dummy⟩]
  items := #[⟨1⟩, ⟨2⟩, ⟨4⟩, ⟨0⟩, ⟨2⟩, ⟨4⟩]
  guards := #[]

def Context.strands : Context where
  registry := .empty (Interner.initial.internAll ["X", "U"])
  tower := .standard
  arenas := #[.strands]

/-- Nothing is known of `X` and `U`. -/
def Machine.strands : Machine where
  arena := ⟨0⟩
  calls := .empty 10
  scopes := Scopes.empty.outermost.2

namespace Eval

/-- Both strands set `X` to 2 and then miss `U`. The first elements are not evaluated. -/
theorem evaluated_right_to_left_strands :
    ∃ qs err₁ err₂ m',
      Course .strands (step .strands (.evaluate ⟨5⟩ ⟨0⟩)) .strands qs (.error err₁) m' ∧
      Course .strands (step .strands (.evaluate ⟨6⟩ ⟨0⟩)) .strands qs (.error err₂) m' ∧
      qs.map Prod.fst = [.evaluate ⟨4⟩ ⟨0⟩, .evaluate ⟨2⟩ ⟨0⟩] ∧
      err₁.cause = .undefinedVariable "U" ∧ err₂.cause = .undefinedVariable "U" ∧
      m'.scopes.lookup? ⟨0⟩ ⟨5⟩ = some (.int 2) := by
  have hgives : Gives .strands ⟨0⟩ (.value ⟨4⟩) .strands (.int 2)
      { Machine.strands with scopes := Machine.strands.scopes.define ⟨0⟩ ⟨5⟩ (.int 2) } :=
    ⟨⟨20, rfl⟩, trivial⟩
  have hfails : FailsAfter .strands ⟨0⟩ [.value ⟨4⟩] (.value ⟨2⟩) .strands _
      (.of (.undefinedVariable "U")) _ :=
    ⟨_, _, _, .cons hgives .nil, .raises ⟨20, rfl⟩, rfl⟩
  have hparts : Arena.strands.Parts (.strand ⟨0, 3⟩)
      ([.value ⟨4⟩] ++ .value ⟨2⟩ :: [.value ⟨1⟩]) :=
    @Arena.Parts.strand .strands ⟨0, 3⟩ [⟨1⟩, ⟨2⟩, ⟨4⟩] rfl
  have hparts' : Arena.strands.Parts (.strand ⟨3, 3⟩)
      ([.value ⟨4⟩] ++ .value ⟨2⟩ :: [.value ⟨0⟩]) :=
    @Arena.Parts.strand .strands ⟨3, 3⟩ [⟨0⟩, ⟨2⟩, ⟨4⟩] rfl
  obtain ⟨-, hbefore, -⟩ := evaluated_right_to_left (c := .strands) (m := .strands)
    (a := .strands) (e := ⟨5⟩) (x := ⟨.strand ⟨0, 3⟩, .dummy⟩) ⟨0⟩ rfl rfl hparts
  obtain ⟨err₁, h₁, halike₁⟩ := hbefore _ _ _ _ _ _ rfl hfails
    ⟨5⟩ ⟨.strand ⟨0, 3⟩, .dummy⟩ _ rfl hparts
  obtain ⟨err₂, h₂, halike₂⟩ := hbefore _ _ _ _ _ _ rfl hfails
    ⟨6⟩ ⟨.strand ⟨3, 3⟩, .dummy⟩ _ rfl hparts'
  exact ⟨_, err₁, err₂, _, h₁, h₂, rfl, halike₁.cause, halike₂.cause, rfl⟩

end Eval

end ArrayLang

import ArrayLang.Proofs.Evaluation.Limit
import ArrayLang.Proofs.Evaluation.Paths
import ArrayLang.Proofs.Scopes.Arguments

/-!
# Scopes of the calls in progress

Every closure call that is entered adds a frame to the stack and a scope to the store, in two
different places. That the two keep step is shown along the path to a question: the scopes around
the one that is active are those of the closure calls on the path, from the innermost outward, and
each of them was made inside of the scope in which the innermost expression around the call was
being evaluated, whoever made the call for it (`Eval.scopes_mirror_calls`).
-/

namespace ArrayLang

namespace Scopes

variable {s : Scopes} {e : ScopeId} {left : Option Value} {right : Value}

theorem parent?_child_self (he : e.index < s.size) : (s.child e).2.parent? ⟨s.size⟩ = some e := by
  have hget : (s.child e).2.get? ⟨s.size⟩ = some ⟨[], some e⟩ := by
    unfold child
    split
    · exact Array.getElem?_push_size
    · next hnot => exact absurd he hnot
  unfold parent?
  rw [hget]
  rfl

/-- The scope of a closure call is inside of the one that it was called from. -/
theorem parent?_withArguments_self (he : e.index < s.size) :
    (s.withArguments left right e).parent? ⟨s.size⟩ = some e := by
  unfold withArguments define
  rw [parent?_bind, parent?_bind, parent?_child_self he]

/-- The chain of a call's scope goes on where the call was made. -/
theorem chain_withArguments_self (he : e.index < s.size) :
    (s.withArguments left right e).chain ⟨s.size⟩ = ⟨s.size⟩ :: s.chain e := by
  have hnew : s.size < (s.withArguments left right e).size := by
    rw [size_withArguments]
    exact Nat.lt_succ_self _
  rw [chain_eq, if_pos hnew, parent?_withArguments_self he]
  exact congrArg _ ((s.growsTo_withArguments left right e).chain_eq he)

end Scopes

/-- The closure that the request calls, if it calls one. -/
def Request.closure? : Request → Option Closure
  | .call (.closure f) .. => some f
  | .call .. | .evaluate .. => none

/-- Only the call of a closure opens a scope. -/
theorem Request.exists_of_closure? {q : Request} {f : Closure} (h : q.closure? = some f) :
    ∃ left right scope, q = .call (.closure f) left right scope := by
  unfold closure? at h
  split at h
  · cases h
    exact ⟨_, _, _, rfl⟩
  · cases h
  · cases h

namespace Eval

variable {c : Context} {q q' : Request} {m m' n : Machine} {s₀ : ScopeId}
  {pending : List (Request × Machine)}

/-! ## From a request to a question of it -/

/-- All that the statements of a closure ask is what expressions give in their scope. -/
theorem exists_evaluate_of_puts {body : BodyRange} {scope : ScopeId}
    (h : Puts c (bodyIn c body scope) m q' m') : ∃ e, q' = .evaluate e scope := by
  let k : Contract :=
    { requires := fun q _ => ∃ e, q = .evaluate e scope
      ensures := fun _ n _ n' => ScopesGrow n n' }
  have hask : ∀ e, Keeps k ScopesGrow (evaluate e scope) := fun e =>
    keeps_ask fun _ => ⟨⟨e, rfl⟩, fun _ _ h => h⟩
  have hkeeps : Keeps k ScopesGrow (bodyIn c body scope) := by
    refine keeps_currentArena.bind fun arena => (keeps_found _).bind fun guards => ?_
    exact keeps_statements hask body guards 0 .emptyArray
  exact (hkeeps m).requires_of_puts h fun _ _ _ _ _ _ hr => growth_keptBy.ends trivial hr

/-- Only a closure call changes what is active: its questions are put in a scope of its own, with a
frame of its own. -/
theorem Puts.scope_cases (h : Puts c (step c q) m q' m') :
    (q.closure? = none ∧ q'.scope = q.scope ∧ m'.calls = m.calls ∧
      m.scopes.GrowsTo m'.scopes) ∨
    ∃ f left right scope e, q = .call (.closure f) left right scope ∧
      q' = .evaluate e ⟨m.scopes.size⟩ ∧ m.calls.depth < m.calls.limit ∧
      m'.calls = (m.enter f left right scope).calls ∧
      (m.enter f left right scope).scopes.GrowsTo m'.scopes := by
  cases hq : q.closure? with
  -- whatever is no closure call asks in its own scope
  | none =>
      obtain ⟨n, α, x, hasking⟩ := exists_asking c q m
      obtain ⟨scope, part, p, hbegins, hwithin⟩ := hasking.within
      obtain ⟨hasks, hgrow⟩ := asks_of_puts hwithin ((hasking.puts_iff _ _ _).mp h)
      have hcalls : m'.calls = m.calls := by
        rcases h.control with hsame | ⟨f, left, right, scope, rfl, -, -⟩
        · exact hsame.calls
        · cases hq
      have hscope : q'.scope = scope := by
        cases q' with
        | evaluate => exact hasks.1
        | call => exact hasks.1
      cases hbegins with
      | evaluate | call => exact .inl ⟨rfl, hscope, hcalls, hgrow⟩
      | closure => cases hq
  -- a closure asks for its statements only, in the scope made for the call
  | some f =>
      obtain ⟨left, right, scope, rfl⟩ := Request.exists_of_closure? hq
      obtain ⟨hlt, -, hput⟩ := puts_callClosure h
      obtain ⟨e, rfl⟩ := exists_evaluate_of_puts hput
      have hwithin := within_reading_bodyIn (c := c) f.arena ⟨m.scopes.size⟩ f.body
      have hraising := within_raising_bodyIn (c := c) True f.arena ⟨m.scopes.size⟩ f.body
      refine .inr ⟨f, left, right, scope, e, rfl, rfl, hlt, ?_, ?_⟩
      · exact (Within.control_of_puts (m := m.enter f left right scope) hraising hput).calls
      · exact (asks_of_puts (n := m.enter f left right scope) hwithin hput).2

/-! ## Calls in progress -/

/-- A closure call that has been entered: the scope that was made for it, and the one that was
active where the call was made. -/
structure Activation where
  closure : Closure
  scope : ScopeId
  caller : Option ScopeId

def Activation.frame (a : Activation) : CallFrame := ⟨a.closure.body⟩

/-- The scope in which the innermost of the expressions in progress is evaluated. -/
def activeScope? : List (Request × Machine) → Option ScopeId
  | [] => none
  | (.evaluate _ scope, _) :: _ => some scope
  | (.call .., _) :: pending => activeScope? pending

/-- The closure calls in progress, the innermost first. -/
def activations : List (Request × Machine) → List Activation
  | [] => []
  | (q, m) :: pending =>
    match q.closure? with
    | some f => ⟨f, ⟨m.scopes.size⟩, activeScope? pending⟩ :: activations pending
    | none => activations pending

/-- What is active at the question `q` on `n`, with these requests waiting for the answer, after an
evaluation has been begun in the scope `s₀` on `m`. -/
structure Mirrored (m : Machine) (s₀ : ScopeId) (pending : List (Request × Machine)) (q : Request)
    (n : Machine) : Prop where
  /-- From the active scope down to the first one there is one scope for each call. -/
  chain : n.scopes.chain q.scope =
    (activations pending).map Activation.scope ++ n.scopes.chain s₀
  /-- So there is one frame. -/
  frames : n.calls.frames.toList =
    m.calls.frames.toList ++ ((activations pending).map Activation.frame).reverse
  /-- The scope of a call is a new one, inside of the scope where the call was made. -/
  parent : ∀ a ∈ activations pending, m.scopes.size ≤ a.scope.index ∧ a.caller.isSome = true ∧
    n.scopes.parent? a.scope = a.caller
  limit : n.calls.limit = m.calls.limit
  depth_le : m.calls.depth ≤ m.calls.limit → n.calls.depth ≤ n.calls.limit

/-- What the way to a question keeps besides. -/
structure Located (m : Machine) (s₀ : ScopeId) (pending : List (Request × Machine)) (q : Request)
    (n : Machine) : Prop extends Mirrored m s₀ pending q n where
  /-- A request is made from the active scope. -/
  active : activeScope? ((q, n) :: pending) = some q.scope
  scope_lt : q.scope.index < n.scopes.size
  start_lt : s₀.index < m.scopes.size
  growsTo : m.scopes.GrowsTo n.scopes
  activation_lt : ∀ a ∈ activations pending, a.scope.index < n.scopes.size

/-- Before any question nothing but the chain of the request is there. -/
theorem located_start {e : ExprId} (h₀ : s₀.index < m.scopes.size) :
    Located m s₀ [] (.evaluate e s₀) m where
  chain := rfl
  frames := (List.append_nil _).symm
  parent := nofun
  limit := rfl
  depth_le h := h
  active := rfl
  scope_lt := h₀
  start_lt := h₀
  growsTo := .refl m.scopes
  activation_lt := nofun

namespace Located

variable (h : Located m s₀ pending q m')

include h

theorem chain_start (hgrow : m'.scopes.GrowsTo n.scopes) :
    n.scopes.chain s₀ = m'.scopes.chain s₀ :=
  hgrow.chain_eq (Nat.lt_of_lt_of_le h.start_lt h.growsTo.size_le)

/-- Parents do not change, so the activations stay on the chain. -/
theorem parent_of_growsTo (hgrow : m'.scopes.GrowsTo n.scopes) (a : Activation)
    (ha : a ∈ activations pending) : m.scopes.size ≤ a.scope.index ∧ a.caller.isSome = true ∧
      n.scopes.parent? a.scope = a.caller := by
  obtain ⟨hnew, hcaller, hparent⟩ := h.parent a ha
  exact ⟨hnew, hcaller, (hgrow.parent?_eq a.scope (h.activation_lt a ha)).trans hparent⟩

/-- A question that is put in the same scope and under the same calls. -/
theorem step_within (hq : q.closure? = none) (hscope : q'.scope = q.scope)
    (hcalls : n.calls = m'.calls) (hgrow : m'.scopes.GrowsTo n.scopes) :
    Located m s₀ ((q, m') :: pending) q' n := by
  have hact : activations ((q, m') :: pending) = activations pending := by
    simp only [activations, hq]
  refine ⟨⟨?_, ?_, ?_, ?_, ?_⟩, ?_, ?_, h.start_lt, h.growsTo.trans hgrow, ?_⟩
  · rw [hact, hscope, hgrow.chain_eq h.scope_lt, h.chain_start hgrow, h.chain]
  · rw [hact, hcalls, h.frames]
  · rw [hact]
    exact h.parent_of_growsTo hgrow
  · rw [hcalls, h.limit]
  · rw [hcalls]
    exact h.depth_le
  · cases q' with
    | evaluate => rfl
    | call =>
        rw [hscope]
        exact h.active
  · rw [hscope]
    exact Nat.lt_of_lt_of_le h.scope_lt hgrow.size_le
  · rw [hact]
    intro a ha
    exact Nat.lt_of_lt_of_le (h.activation_lt a ha) hgrow.size_le

end Located

/-- A question that the statements of a closure put: its call has been entered. -/
theorem Located.step_entering {f : Closure} {left : Option Value} {right : Value} {scope : ScopeId}
    {e : ExprId} (h : Located m s₀ pending (.call (.closure f) left right scope) m')
    (hlt : m'.calls.depth < m'.calls.limit)
    (hcalls : n.calls = (m'.enter f left right scope).calls)
    (hgrow : (m'.enter f left right scope).scopes.GrowsTo n.scopes) :
    Located m s₀ ((.call (.closure f) left right scope, m') :: pending)
      (.evaluate e ⟨m'.scopes.size⟩) n := by
  have hscope : scope.index < m'.scopes.size := h.scope_lt
  have hactive : activeScope? pending = some scope := h.active
  have hnew := m'.size_lt_enter f left right scope
  have hgrow' : m'.scopes.GrowsTo n.scopes :=
    (m'.scopes.growsTo_withArguments left right scope).trans hgrow
  -- one more activation: the call that has just been entered
  have hact : activations ((.call (.closure f) left right scope, m') :: pending) =
      ⟨f, ⟨m'.scopes.size⟩, some scope⟩ :: activations pending := by
    rw [← hactive]
    rfl
  refine ⟨⟨?_, ?_, ?_, ?_, ?_⟩, rfl, ?_, h.start_lt, h.growsTo.trans hgrow', ?_⟩
  · -- its scope stands at the front of the chain
    rw [hact, h.chain_start hgrow', List.map_cons, List.cons_append, ← h.chain]
    exact (hgrow.chain_eq hnew).trans (Scopes.chain_withArguments_self hscope)
  · -- and its frame at the end of the stack
    rw [hact, hcalls, List.map_cons, List.reverse_cons, ← List.append_assoc, ← h.frames]
    exact Array.toList_push
  · rw [hact]
    intro a ha
    cases List.mem_cons.mp ha with
    | inl ha =>
        subst ha
        refine ⟨h.growsTo.size_le, rfl, ?_⟩
        exact (hgrow.parent?_eq _ hnew).trans (Scopes.parent?_withArguments_self hscope)
    | inr ha => exact h.parent_of_growsTo hgrow' a ha
  · rw [hcalls]
    exact h.limit
  · intro _
    rw [hcalls]
    show (Array.push _ _).size ≤ _
    rw [Array.size_push]
    exact hlt
  · exact Nat.lt_of_lt_of_le hnew hgrow.size_le
  · rw [hact]
    intro a ha
    cases List.mem_cons.mp ha with
    | inl ha =>
        subst ha
        exact Nat.lt_of_lt_of_le hnew hgrow.size_le
    | inr ha => exact Nat.lt_of_lt_of_le (h.activation_lt a ha) hgrow'.size_le

/-- **One question further down**, a closure call adds its scope and its frame, and nothing else
changes what is active. -/
theorem Located.step (h : Located m s₀ pending q m') (hp : Puts c (step c q) m' q' n) :
    Located m s₀ ((q, m') :: pending) q' n := by
  rcases hp.scope_cases with ⟨hq, hscope, hcalls, hgrow⟩ |
    ⟨f, left, right, scope, e, rfl, rfl, hlt, hcalls, hgrow⟩
  · exact h.step_within hq hscope hcalls hgrow
  · exact h.step_entering hlt hcalls hgrow

/-- **At every question on the way the chain mirrors the calls in progress.** -/
theorem Path.located {e : ExprId} (h : Path c (.evaluate e s₀) m pending q n)
    (h₀ : s₀.index < m.scopes.size) : Located m s₀ pending q n := by
  induction h with
  | start => exact located_start h₀
  | step _ hp ih => exact ih.step hp

/-- **The scope chain mirrors the call stack.** An expression is evaluated in a scope that is there.
At every question on the way, in particular wherever an expression is evaluated, the scopes from the
active one down to the first consist of one scope for each closure call in progress, the innermost
first, and the stack has grown by one frame for each of them, the innermost last. Each of these
scopes is new, and inside of the one that was active where its call was made, that is, in which the
innermost expression around the call was evaluated. There are never more calls than the limit
allows. Wherever the loop puts a question, it is on such a way. -/
theorem scopes_mirror_calls (c : Context) (e : ExprId) (s₀ : ScopeId) (m : Machine)
    (h₀ : s₀.index < m.scopes.size) :
    (∀ pending q n, Path c (.evaluate e s₀) m pending q n →
      Mirrored m s₀ pending q n ∧
        n.calls.depth = m.calls.depth + (activations pending).length) ∧
    ∀ t q n resume, Later c (.start c (.evaluate e s₀) m) t → t.now = .asks q n resume →
      ∃ pending, Path c (.evaluate e s₀) m pending q n ∧
        pending.length = t.waiting.length + 1 := by
  refine ⟨fun pending q n h => ?_, fun t q n resume h ht => h.exists_path ht⟩
  have hlocated := h.located h₀
  refine ⟨hlocated.toMirrored, ?_⟩
  have hlength := congrArg List.length hlocated.frames
  rw [List.length_append, List.length_reverse, List.length_map] at hlength
  exact hlength

/-- In `X¨7` the closure `{X¨⍵}` is called by an operator, once from the first scope and once from
the one of its own call. -/
theorem scopes_mirror_calls_mapping :
    ∃ pending n, Path .mapping (.evaluate ⟨8⟩ ⟨0⟩) .mapping pending (.evaluate ⟨3⟩ ⟨2⟩) n ∧
      Mirrored .mapping ⟨0⟩ pending (.evaluate ⟨3⟩ ⟨2⟩) n ∧
      (activations pending).map (fun a => (a.scope, a.caller)) =
        [(⟨2⟩, some ⟨1⟩), (⟨1⟩, some ⟨0⟩)] := by
  have h : ∃ pending n, Path .mapping (.evaluate ⟨8⟩ ⟨0⟩) .mapping pending (.evaluate ⟨3⟩ ⟨2⟩) n ∧
      (activations pending).map (fun a => (a.scope, a.caller)) =
        [(⟨2⟩, some ⟨1⟩), (⟨1⟩, some ⟨0⟩)] := by
    -- the expression, the operator, the closure, and the same once more inside of it
    have hfirst := Path.start (c := .mapping) (q := .evaluate ⟨8⟩ ⟨0⟩) (m := .mapping)
    have hcall := hfirst.step (.later ⟨9, rfl⟩ (.later ⟨9, rfl⟩ .here))
    have hinner := (hcall.step .here).step .here
    have hcall' := hinner.step (.later ⟨9, rfl⟩ (.later ⟨9, rfl⟩ .here))
    exact ⟨_, _, (hcall'.step .here).step .here, rfl⟩
  obtain ⟨pending, n, hpath, hcallers⟩ := h
  have hmirrored := (scopes_mirror_calls .mapping ⟨8⟩ ⟨0⟩ .mapping (by decide)).1 pending _ n hpath
  exact ⟨pending, n, hpath, hmirrored.1, hcallers⟩

end Eval

end ArrayLang

import ArrayLang.Eval.CallStack
import ArrayLang.Registry.Body
import ArrayLang.Scopes

/-!
# Evaluation as questions

One step of the evaluator never evaluates a part itself. It asks: a *request* names an expression
to evaluate or a function to call, and the step goes on with the answer and with the machine as the
answer left it. `Progress` is such a step, and `Eval` is a step that depends on the machine.

Who answers is left open. A recursive reading with a bound on the nesting and a loop over a list
of pending steps come to the same result; the first one is for reasoning, the second one needs
no more native stack for deep programs than for flat ones.
-/

namespace ArrayLang

/-- What the evaluator changes as it goes: the arena whose expressions it evaluates, the closure
calls in progress, and the scopes. -/
structure Machine where
  arena : ArenaId
  calls : CallStack
  scopes : Scopes

/-- A question that one evaluation step may ask. -/
inductive Request where
  /-- What does this expression of the current arena give in this scope? -/
  | evaluate (e : ExprId) (scope : ScopeId)
  /-- What does this function give when called from this scope? -/
  | call (f : Callable) (left : Option Value) (right : Value) (scope : ScopeId)

/-- Why a program stops with neither a value nor an error. -/
inductive Panic where
  /-- A handle led outside of its table. -/
  | dangling
  /-- The body of a primitive or an operator panicked. -/
  | body
deriving DecidableEq, Repr

/-- The state of one evaluation step. -/
inductive Progress (α : Type) where
  | finished (result : Except EvalError α) (m : Machine)
  /-- The step waits for an answer. -/
  | asks (q : Request) (m : Machine) (resume : Except EvalError Value → Machine → Progress α)
  | panics (why : Panic)

/-- How a whole evaluation ends. -/
inductive Outcome (α : Type) where
  | finished (result : Except EvalError α) (m : Machine)
  | panics (why : Panic)
  /-- The bound on the work was too small. -/
  | unfinished

namespace Progress

variable {α β : Type}

/-- Goes on with the value, unless there is none. -/
def bind (p : Progress α) (next : α → Machine → Progress β) : Progress β :=
  match p with
  | .finished (.ok a) m => next a m
  | .finished (.error e) m => .finished (.error e) m
  | .asks q m resume => .asks q m fun r m => (resume r m).bind next
  | .panics why => .panics why

/-- Changes the error and the machine with which the step ends. -/
def mapEnd (p : Progress α) (onError : EvalError → EvalError) (onMachine : Machine → Machine) :
    Progress α :=
  match p with
  | .finished (.ok a) m => .finished (.ok a) (onMachine m)
  | .finished (.error e) m => .finished (.error (onError e)) (onMachine m)
  | .asks q m resume => .asks q m fun r m => (resume r m).mapEnd onError onMachine
  | .panics why => .panics why

/-- The end of the step when every question is answered by `answer`. -/
def resolve (answer : Request → Machine → Outcome Value) : Progress α → Outcome α
  | .finished r m => .finished r m
  | .asks q m resume =>
    match answer q m with
    | .finished r m => (resume r m).resolve answer
    | .panics why => .panics why
    | .unfinished => .unfinished
  | .panics why => .panics why

end Progress

/-! ### Endings of steps -/

namespace Outcome

variable {α β : Type}

/-- Goes on with the value, unless there is none. -/
def bind (o : Outcome α) (next : α → Machine → Outcome β) : Outcome β :=
  match o with
  | .finished (.ok a) m => next a m
  | .finished (.error e) m => .finished (.error e) m
  | .panics why => .panics why
  | .unfinished => .unfinished

/-- Changes the error and the machine of an ending. -/
def mapEnd (o : Outcome α) (onError : EvalError → EvalError) (onMachine : Machine → Machine) :
    Outcome α :=
  match o with
  | .finished (.ok a) m => .finished (.ok a) (onMachine m)
  | .finished (.error e) m => .finished (.error (onError e)) (onMachine m)
  | .panics why => .panics why
  | .unfinished => .unfinished

end Outcome

namespace Progress

variable {α β : Type} {answer answer' : Request → Machine → Outcome Value}

/-- Answers reach both parts of a program. -/
theorem resolve_bind (p : Progress α) (next : α → Machine → Progress β) :
    (p.bind next).resolve answer =
      (p.resolve answer).bind fun a m => (next a m).resolve answer := by
  induction p with
  | finished r m => cases r <;> rfl
  | asks q m resume ih =>
    simp only [bind, resolve]
    cases answer q m with
    | finished r m => exact ih r m
    | panics why => rfl
    | unfinished => rfl
  | panics why => rfl

theorem resolve_mapEnd (p : Progress α) (f : EvalError → EvalError) (g : Machine → Machine) :
    (p.mapEnd f g).resolve answer = (p.resolve answer).mapEnd f g := by
  induction p with
  | finished r m => cases r <;> rfl
  | asks q m resume ih =>
    simp only [mapEnd, resolve]
    cases answer q m with
    | finished r m => exact ih r m
    | panics why => rfl
    | unfinished => rfl
  | panics why => rfl

/-- Whoever answers all that another one answers brings a step to the same end. -/
theorem resolve_eq_of_extends (h : ∀ q m, answer q m ≠ .unfinished → answer' q m = answer q m)
    (p : Progress α) (hp : p.resolve answer ≠ .unfinished) :
    p.resolve answer' = p.resolve answer := by
  induction p with
  | finished r m => rfl
  | asks q m resume ih =>
    simp only [resolve] at hp ⊢
    by_cases hq : answer q m = .unfinished
    · simp [hq] at hp
    · rw [h q m hq]
      split at hp
      · exact ih _ _ hp
      · rfl
      · exact absurd rfl hp
  | panics why => rfl

end Progress

def Eval (α : Type) := Machine → Progress α

namespace Eval

variable {α β : Type}

instance : Monad Eval where
  pure a m := .finished (.ok a) m
  bind x f m := (x m).bind fun a m => f a m

/-! ### Questions and endings -/

def ask (q : Request) : Eval Value := fun m => .asks q m .finished

/-- What an expression of the current arena gives. -/
def evaluate (e : ExprId) (scope : ScopeId) : Eval Value := ask (.evaluate e scope)

def call (f : Callable) (left : Option Value) (right : Value) (scope : ScopeId) : Eval Value :=
  ask (.call f left right scope)

def ofExcept (r : Except EvalError α) : Eval α := fun m => .finished r m

def fail (e : EvalError) : Eval α := ofExcept (.error e)

/-- What a handle leads to. -/
def found (a : Option α) : Eval α := fun m =>
  match a with
  | some a => .finished (.ok a) m
  | none => .panics .dangling

/-- Runs a body whose calls are made from one scope. -/
def ofBody (scope : ScopeId) (b : Body α) : Eval α := fun m =>
  match b with
  | .done r => .finished r m
  | .call f left right resume =>
    .asks (.call f left right scope) m fun r m => ofBody scope (resume r) m
  | .panics => .panics .body

/-! ### The machine -/

def modify (f : Machine → Machine) : Eval Unit := fun m => .finished (.ok ()) (f m)

/-- Locates an error with which the step ends. -/
def locating (s : Span) (x : Eval α) : Eval α := fun m => (x m).mapEnd (·.locate s) id

/-- Changes the machine in the end, however the step ends. -/
def restoring (x : Eval α) (f : Machine → Machine) : Eval α := fun m => (x m).mapEnd id f

end Eval

end ArrayLang

import ArrayLang.Eval.Run

/-!
# Sessions

A session evaluates the expressions of one arena, one after the other, in a root scope that lasts.
Sessions over different arenas may share a root scope: closures bound there keep their own arena.
-/

namespace ArrayLang

/-- An evaluator at rest: what it is given, the state of its machine, and its root scope. -/
structure Session where
  context : Context
  machine : Machine
  root : ScopeId

namespace Session

/-- A scope that holds the system variables, added to the scopes there are. -/
def systemScope (scopes : Scopes) : ScopeId × Scopes :=
  let (root, scopes) := scopes.outermost
  (root, (scopes.define root .newline (.text "\n")).define root .indexOrigin (.int 1))

/-- A session over one arena in a root scope that is there already. -/
def start (c : Context) (arena : ArenaId) (limit : Nat) (scopes : Scopes) (root : ScopeId) :
    Session :=
  ⟨c, ⟨arena, .empty limit, scopes⟩, root⟩

/-- Answers a request and keeps the state of the machine. -/
def answer (s : Session) (q : Request) : Option (Except EvalError Value × Session) :=
  match Eval.answer s.context q s.machine with
  | .finished r machine => some (r, { s with machine })
  | .panics _ | .unfinished => none

/-- Evaluates an expression in the root scope. -/
def evaluate (s : Session) (e : ExprId) : Option (Except EvalError Value × Session) :=
  s.answer (.evaluate e s.root)

def call (s : Session) (f : Callable) (left : Option Value) (right : Value) :
    Option (Except EvalError Value × Session) :=
  s.answer (.call f left right s.root)

/-- Evaluates an expression in a new scope inside of the root scope, which declares the given names
with their values or without one. The scope is part of the answer. -/
def evaluateWithin (s : Session) (bindings : List (Name × Option Value)) (e : ExprId) :
    Option (Except EvalError Value × ScopeId × Session) :=
  let (inner, scopes) := s.machine.scopes.child s.root
  let scopes := bindings.foldl (fun scopes b =>
    match b.2 with
    | some v => scopes.define inner b.1 v
    | none => scopes.defineAbsent inner b.1) scopes
  let s := { s with machine := { s.machine with scopes } }
  (s.answer (.evaluate e inner)).map fun (r, s) => (r, inner, s)

def lookup? (s : Session) (scope : ScopeId) (x : Name) : Option Value :=
  s.machine.scopes.lookup? scope x

def callDepth (s : Session) : Nat := s.machine.calls.depth

end Session

end ArrayLang

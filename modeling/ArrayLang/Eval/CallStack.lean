import ArrayLang.EvalError
import ArrayLang.Source.Arena

/-!
# Closure calls in progress

Every closure call pushes a frame, and a push beyond the limit is refused. That turns runaway
recursion into an error of the language.
-/

namespace ArrayLang

structure CallFrame where
  /-- The statements being run. -/
  body : BodyRange
deriving DecidableEq, Repr

/-- The closure calls in progress, the innermost one last, and how many there may be. -/
structure CallStack where
  frames : Array CallFrame
  limit : Nat
deriving DecidableEq, Repr

namespace CallStack

/-- The limit that applies unless another one is set. -/
def defaultLimit : Nat := 10000

def empty (limit : Nat) : CallStack := ⟨#[], limit⟩

def depth (s : CallStack) : Nat := s.frames.size

/-- Enters a call. At the limit the call is refused and the stack stays as it is. -/
def push (s : CallStack) (frame : CallFrame) : Except EvalError Unit × CallStack :=
  if s.limit ≤ s.depth then (.error (.of (.stackOverflow s.limit)), s)
  else (.ok (), { s with frames := s.frames.push frame })

/-- Leaves the innermost call, if there is one. -/
def pop (s : CallStack) : CallStack := { s with frames := s.frames.pop }

def current? (s : CallStack) : Option CallFrame := s.frames.back?

end CallStack

end ArrayLang

import ArrayLang.Value.Basic

/-!
# Scopes

Variables live in scopes, and every scope but the outermost has a parent. Scopes are shared: a
closure call makes a child of the scope that was active at the call, and an assignment in it is
seen by everything that is chained to the same scope. All scopes therefore stand in one store, and
a scope is named by its position.

A name may be declared *absent*, as the left argument of a closure is when there is none: looking
it up finds no value and does not go on to the parent.

* `Scopes.holder?` is the nearest scope on a chain that declares a name.
* `Scopes.lookup?` reads and `Scopes.assign?` replaces the binding in that scope.
* A parent is always older than its child, so every chain ends.
-/

namespace ArrayLang

/-- Position of a scope in the store. -/
structure ScopeId where
  index : Nat
deriving DecidableEq, Repr

/-- What a name stands for in a scope that declares it. -/
inductive Binding where
  | bound (v : Value)
  /-- Declared, without a value. -/
  | absent

def Binding.value? : Binding → Option Value
  | .bound v => some v
  | .absent => none

/-- The names that one scope declares, and the scope around it. -/
structure Scope where
  bindings : List (Name × Binding)
  parent : Option ScopeId

namespace Scope

/-- The binding of a name in this very scope. -/
def find? (s : Scope) (x : Name) : Option Binding := s.bindings.lookup x

def declares (s : Scope) (x : Name) : Bool := (s.find? x).isSome

/-- Declares a name, in place of the binding it may have here. -/
def bind (s : Scope) (x : Name) (b : Binding) : Scope :=
  { s with bindings := (x, b) :: s.bindings.filter fun p => p.1 != x }

@[simp] theorem parent_bind (s : Scope) (x : Name) (b : Binding) : (s.bind x b).parent = s.parent :=
  rfl

end Scope

structure Scopes where
  all : Array Scope
  /-- A parent is older than its child. -/
  parent_lt : ∀ (i : Nat) (h : i < all.size) (p : ScopeId), all[i].parent = some p → p.index < i

namespace Scopes

def empty : Scopes := ⟨#[], by simp⟩

def size (s : Scopes) : Nat := s.all.size

def get? (s : Scopes) (e : ScopeId) : Option Scope := s.all[e.index]?

def parent? (s : Scopes) (e : ScopeId) : Option ScopeId := (s.get? e).bind Scope.parent

/-! ### New scopes -/

/-- Adds a scope whose parent, if any, is there already. -/
def push (s : Scopes) (parent : Option ScopeId) (h : ∀ p, parent = some p → p.index < s.all.size) :
    Scopes where
  all := s.all.push ⟨[], parent⟩
  parent_lt := by
    intro i hi p hp
    rw [Array.getElem_push] at hp
    split at hp
    · exact s.parent_lt i _ p hp
    · rw [Array.size_push] at hi
      have := h p hp
      omega

def outermost (s : Scopes) : ScopeId × Scopes := (⟨s.size⟩, s.push none (by simp))

/-- A scope inside of another one. -/
def child (s : Scopes) (parent : ScopeId) : ScopeId × Scopes :=
  if h : parent.index < s.all.size then
    (⟨s.size⟩, s.push (some parent) (by rintro _ ⟨⟩; exact h))
  else s.outermost

/-! ### Bindings -/

/-- Declares a name in one scope and leaves all else as it is. -/
def bind (s : Scopes) (e : ScopeId) (x : Name) (b : Binding) : Scopes where
  all := s.all.modify e.index fun scope => scope.bind x b
  parent_lt := by
    intro i hi p hp
    rw [Array.size_modify] at hi
    rw [Array.getElem_modify] at hp
    split at hp <;> exact s.parent_lt i hi p hp

def define (s : Scopes) (e : ScopeId) (x : Name) (v : Value) : Scopes := s.bind e x (.bound v)

def defineAbsent (s : Scopes) (e : ScopeId) (x : Name) : Scopes := s.bind e x .absent

/-- The binding of a name in this very scope. -/
def find? (s : Scopes) (e : ScopeId) (x : Name) : Option Binding := (s.get? e).bind (·.find? x)

def declares (s : Scopes) (e : ScopeId) (x : Name) : Bool := (s.find? e x).isSome

/-! ### Chains -/

/-- The scopes from `e` outward, at most `bound` of them. -/
def chainWithin (s : Scopes) : (bound : Nat) → (e : ScopeId) → List ScopeId
  | 0, _ => []
  | bound + 1, e =>
    match s.get? e with
    | none => []
    | some scope =>
      e :: match scope.parent with
        | none => []
        | some p => s.chainWithin bound p

/-- The scopes from `e` outward. Since parents are older, there are no more than its position
allows. -/
def chain (s : Scopes) (e : ScopeId) : List ScopeId := s.chainWithin (e.index + 1) e

/-- The nearest of the first `bound` scopes from `e` outward that declares a name. -/
def holderWithin? (s : Scopes) (x : Name) : (bound : Nat) → (e : ScopeId) → Option ScopeId
  | 0, _ => none
  | bound + 1, e =>
    match s.get? e with
    | none => none
    | some scope =>
      if scope.declares x then some e
      else
        match scope.parent with
        | none => none
        | some p => s.holderWithin? x bound p

/-- The nearest scope from `e` outward that declares a name. -/
def holder? (s : Scopes) (e : ScopeId) (x : Name) : Option ScopeId :=
  s.holderWithin? x (e.index + 1) e

/-- The value of a name, seen from a scope. -/
def lookup? (s : Scopes) (e : ScopeId) (x : Name) : Option Value := do
  let holder ← s.holder? e x
  let binding ← s.find? holder x
  binding.value?

/-- Gives a value to a name in the nearest scope that declares it; `none` if no scope does. -/
def assign? (s : Scopes) (e : ScopeId) (x : Name) (v : Value) : Option Scopes :=
  (s.holder? e x).map fun holder => s.define holder x v

end Scopes

end ArrayLang

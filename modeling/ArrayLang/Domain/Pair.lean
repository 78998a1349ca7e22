import ArrayLang.Domain.Basic

/-!
# Domains of an argument pair

A call has a right argument and perhaps a left one. A pair domain accepts such a pair, each side
converted on its own; it never invents or drops a left argument.
-/

namespace ArrayLang

inductive PairDomain where
  /-- Both sides pass one domain; without it every pair passes, also one without a left side. -/
  | both (child : Option Domain)
  /-- The left side passes or, failing that, the right one; only that side is converted. -/
  | any (child : Domain)
  /-- Each side has a domain of its own; a side without one may be anything. -/
  | split (left right : Option Domain)
  /-- No left side, and the right one passes. -/
  | monadic (child : Option Domain)
  /-- There is a left side, and the pair passes. -/
  | dyadic (child : Option PairDomain)

namespace PairDomain

/-- A side that need not pass any domain, or has to pass one. -/
def convertSide? (tower : Tower) (d : Option Domain) (v : Option Value) :
    Option (Option Value) :=
  match d with
  | none => some v
  | some d => (d.convertOptional? tower v).map some

/-- As `convertSide?`, for the side that is always there. -/
def convertRight? (tower : Tower) (d : Option Domain) (v : Value) : Option Value :=
  match d with
  | none => some v
  | some d => d.convert? tower v

/-- The pair that the domain lets through, or `none` if it rejects the pair. -/
def convert? (tower : Tower) : PairDomain → Option Value → Value → Option (Option Value × Value)
  | .both none, left, right => some (left, right)
  | .both (some child), left, right => do
    let left ← child.convertOptional? tower left
    let right ← child.convert? tower right
    return (some left, right)
  | .any child, left, right =>
    match child.convertOptional? tower left with
    | some left => some (some left, right)
    | none => (child.convert? tower right).map fun right => (left, right)
  | .split leftDomain rightDomain, left, right => do
    let left ← convertSide? tower leftDomain left
    let right ← convertRight? tower rightDomain right
    return (left, right)
  | .monadic _, some _, _ => none
  | .monadic child, none, right => (convertRight? tower child right).map fun right => (none, right)
  | .dyadic _, none, _ => none
  | .dyadic none, some left, right => some (some left, right)
  | .dyadic (some child), some left, right => child.convert? tower (some left) right

/-- Whether the domain is for calls with a left argument only. -/
def isDyadic : PairDomain → Bool
  | .dyadic _ => true
  | _ => false

def sideText : Option Domain → String
  | none => "any"
  | some d => d.text

def text : PairDomain → String
  | .both none => "any"
  | .both (some child) => "both " ++ child.text
  | .any child => "any " ++ child.text
  | .split left right => "L " ++ sideText left ++ " R " ++ sideText right
  | .monadic none => "R any"
  | .monadic (some child) => child.text
  | .dyadic none => "L any, R any"
  | .dyadic (some child) => child.text

end PairDomain

end ArrayLang

import ArrayLang.Value.Basic

/-!
# Domains of one value

A domain says which values it accepts and what an accepted value becomes. A leaf tests the kind of
the value, may convert it, and hands the result to its child; without a child every result passes.
`not` and `or` need their children: with one missing they reject everything.

A conversion is whole or not at all, and none happens twice, since a converted value is already of
the kind that the leaf converts to.
-/

namespace ArrayLang

/-- What a leaf of a domain asks for. -/
inductive Leaf where
  | isText
  | isStringArray
  /-- String arrays, and what converts to one: a text, an array of texts, the empty array. -/
  | toStringArray
  | isNumber
  | isBool
  /-- Arrays of every kind, the empty array included. -/
  | isArray
  | isIndexArray
  /-- Index arrays, and what converts to one: a number, a boolean, an array of these. -/
  | toIndexArray
  | isFunction
deriving DecidableEq, Repr

inductive Domain where
  | leaf (leaf : Leaf) (child : Option Domain)
  | not (child : Option Domain)
  | or (first second : Option Domain)

namespace Leaf

def name : Leaf → String
  | .isText => "string"
  | .isStringArray => "string array"
  | .toStringArray => "to string array"
  | .isNumber => "number"
  | .isBool => "bool"
  | .isArray => "array"
  | .isIndexArray => "index array"
  | .toIndexArray => "to index array"
  | .isFunction => "function"

def all : List Leaf :=
  [.isText, .isStringArray, .toStringArray, .isNumber, .isBool, .isArray, .isIndexArray,
    .toIndexArray, .isFunction]

def ofName? (s : String) : Option Leaf := all.find? fun l => l.name == s

/-- Cells in a shape, if they fit it. -/
def fitted? {α : Type} (s : Shape) (cells : List α) : Option (Grid α) :=
  (Grid.ofShape s cells).toOption

/-- The string array that a value which is none stands for. -/
def stringArray? : Value → Option (Grid String)
  | .text s => some (.vector [s])
  | .emptyArray => some (.vector [])
  | .array s cells => do fitted? s (← cells.mapM Value.text?)
  | _ => none

/-- The index that a scalar stands for. -/
def index? (tower : Tower) : Value → Option Int64
  | .bool b => some (if b then 1 else 0)
  | .number n => tower.toIndex? n
  | _ => none

/-- The index array that a value which is none stands for. -/
def indexArray? (tower : Tower) : Value → Option (Grid Int64)
  | .emptyArray => some (.vector [])
  | .array s cells => do fitted? s (← cells.mapM (index? tower))
  | v => (index? tower v).map fun i => .vector [i]

/-- The value a leaf lets through for `v`. -/
def accept? (tower : Tower) : Leaf → Value → Option Value
  | .isText, v => if v.text?.isSome then some v else none
  | .isNumber, v => if v.number?.isSome then some v else none
  | .isArray, v => if v.isArray then some v else none
  | .isFunction, v => if v.callable?.isSome then some v else none
  | .isBool, .bool b => some (.bool b)
  | .isStringArray, .strings g => some (.strings g)
  | .toStringArray, .strings g => some (.strings g)
  | .toStringArray, v => (stringArray? v).map .strings
  | .isIndexArray, .indexes g => some (.indexes g)
  | .toIndexArray, .indexes g => some (.indexes g)
  | .toIndexArray, v => (indexArray? tower v).map .indexes
  | _, _ => none

end Leaf

namespace Domain

/-- The value that the domain lets through for `v`, converted where a leaf converts; `none` if it
rejects `v`. -/
def convert? (tower : Tower) : Domain → Value → Option Value
  | .leaf l none, v => l.accept? tower v
  | .leaf l (some child), v => do child.convert? tower (← l.accept? tower v)
  | .not none, _ => none
  | .not (some child), v =>
    match child.convert? tower v with
    | some _ => none
    | none => some v
  | .or (some first) (some second), v =>
    match first.convert? tower v with
    | some w => some w
    | none => second.convert? tower v
  | .or _ _, _ => none

/-- As `convert?`; a value that is not there is never accepted. -/
def convertOptional? (tower : Tower) (d : Domain) (v : Option Value) : Option Value :=
  v.bind (d.convert? tower)

def text : Domain → String
  | .leaf l none => l.name
  | .leaf l (some child) => l.name ++ " " ++ child.text
  | .not (some child) => "!" ++ child.text
  | .or (some first) (some second) => "(" ++ first.text ++ " or " ++ second.text ++ ")"
  | .not none | .or _ _ => "never"

end Domain

end ArrayLang

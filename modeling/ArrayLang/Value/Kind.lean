/-!
# Kinds of values

The word by which an error message calls a value.
-/

namespace ArrayLang

inductive Kind where
  | bool
  | int
  | float
  | text
  | array
  | stringArray
  | indexArray
  | emptyArray
  | primitive
  | closure
  | derived
deriving DecidableEq, Repr

namespace Kind

def name : Kind → String
  | .bool => "bool"
  | .int => "int"
  | .float => "float"
  | .text => "string"
  | .array => "array"
  | .stringArray => "string array"
  | .indexArray => "index array"
  | .emptyArray => "empty array"
  | .primitive => "primitive"
  | .closure => "lambda"
  | .derived => "derived function"

end Kind

end ArrayLang

import ArrayLang.Collections

/-!
# Paths

A path is a text with slashes. What it names is the sequence of its components, the parts between
slashes that are not empty.
-/

namespace ArrayLang.Path

/-- The parts of a list between separators, one more than there are separators. -/
def pieces (separator : Char) : List Char → List (List Char)
  | [] => [[]]
  | c :: cs =>
    if c = separator then [] :: pieces separator cs
    else
      match pieces separator cs with
      | [] => [[c]]
      | p :: ps => (c :: p) :: ps

/-- The parts of a path between slashes, empty ones included. -/
def parts (path : String) : List String := (pieces '/' path.toList).map String.ofList

def ofParts (parts : List String) : String := "/".intercalate parts

def components (path : String) : List String := (parts path).filter (· != "")

def isAbsolute (path : String) : Bool := path.toList.head? == some '/'

/-- A path without the slashes at its end; the root keeps its one slash. -/
def trimmed (path : String) : String :=
  let kept := (path.toList.reverse.dropWhile (· == '/')).reverse
  if kept.isEmpty then "/" else String.ofList kept

/-- A path with one slash in front of each component; the root is one slash. -/
def normalize (path : String) : String :=
  let out := (components path).foldl (fun out part => out ++ "/" ++ part) ""
  if out = "" then "/" else out

/-- A path as the start of a longer one: with a slash at its end, unless it is empty. -/
def opened (path : String) : String :=
  match path.toList.getLast? with
  | none | some '/' => path
  | some _ => path.push '/'

/-- What is left of a text behind another one. -/
def behind? (start text : String) : Option String :=
  (List.isPrefixOf? start.toList text.toList).map String.ofList

/-- The lists before and behind the first occurrence of a separator. -/
def splitList? (separator : List Char) : List Char → Option (List Char × List Char)
  | [] => if separator.isEmpty then some ([], []) else none
  | c :: cs =>
    match List.isPrefixOf? separator (c :: cs) with
    | some rest => some ([], rest)
    | none => (splitList? separator cs).map fun (before, behind) => (c :: before, behind)

/-- The texts before and behind the first occurrence of a separator. -/
def splitOnce? (separator text : String) : Option (String × String) :=
  (splitList? separator.toList text.toList).map fun (before, behind) =>
    (String.ofList before, String.ofList behind)

/-- The names of a directory as one text, a line each. -/
def listing (names : List String) : String := "\n".intercalate names

end ArrayLang.Path

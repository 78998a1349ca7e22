import ArrayLang.Files.Host

/-!
# Files in memory

Files are kept under their normalized paths. Directories exist through the files below them: reading
one gives what stands up to the next slash in the paths that begin with its own, with the slash if
there is one. A path that names both a file and a directory reads as the file.
-/

namespace ArrayLang

/-- Files by their normalized paths. -/
structure MemoryTree where
  files : Dictionary String ByteArray

namespace MemoryTree

def empty : MemoryTree := ⟨.empty⟩

/-- Adds a file, or replaces the one of the same normalized path. -/
def insert (t : MemoryTree) (path : String) (contents : ByteArray) : MemoryTree :=
  ⟨t.files.insert (Path.normalize path) contents⟩

def size (t : MemoryTree) : Nat := t.files.size

/-- What a path begins with that is below a normalized one. -/
def start (path : String) : String := if path = "/" then path else path ++ "/"

/-- The first component of what is left of a path, with a slash if there are more of them. -/
def entry (rest : String) : String :=
  match Path.splitOnce? "/" rest with
  | some (directory, _) => directory ++ "/"
  | none => rest

/-- The names below a normalized path, in alphabetical order and each once. -/
def entries (t : MemoryTree) (path : String) : List String :=
  dropRepeats (sortTexts (t.files.keys.filterMap fun file =>
    (Path.behind? (start path) file).map entry))

/-- The contents of a file, or the listing of a directory. -/
def read (t : MemoryTree) (path : String) : Except ReadFailure ByteArray :=
  let path := Path.normalize path
  match t.files.find? path with
  | some contents => .ok contents
  | none =>
    let names := t.entries path
    if names.isEmpty then .error .noFile else .ok (Path.listing names).toUTF8

def provider (t : MemoryTree) : Provider where
  read path := .ofExcept ((t.read path).map .ok)
  description := "memory (" ++ toString t.size ++ " files)"

end MemoryTree

end ArrayLang

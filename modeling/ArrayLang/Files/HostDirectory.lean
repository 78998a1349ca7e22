import ArrayLang.Files.Host

/-!
# Mounted directories

A directory of the host can serve the paths below a mount point. Empty components and `.` are
passed over, and a path with `..` is refused before the host is asked at all, so that no path
reaches outside of the directory.
-/

namespace ArrayLang

/-- A directory that the host has under some path. -/
structure HostDirectory where
  root : String

namespace HostDirectory

/-- Adds the parts of a path to the directory, unless one of them is `..`. -/
def below? (components : List String) : List String → Option (List String)
  | [] => some components.reverse
  | part :: rest =>
    if part = "" ∨ part = "." then below? components rest
    else if part = ".." then none
    else below? (part :: components) rest

/-- The path of the host that a path below the directory stands for. -/
def hostPath (d : HostDirectory) (path : String) : Except ReadFailure HostPath :=
  match below? [] (Path.parts path) with
  | some components => .ok ⟨d.root, components⟩
  | none => .error .leavesDirectory

/-- The names of entries as they are listed, those of directories with a slash at the end. The first
entry that cannot be read is the end of it. -/
def entryNames (p : HostPath) :
    (number : Nat) → List (Except ReadFailure EntryName) → HostProgram ReadFailure (List String)
  | _, [] => pure []
  | number, entry :: entries => do
    let name ← .ofExcept entry
    let isDirectory ← .look (.fileType p number name)
    let names ← entryNames p (number + 1) entries
    return (if isDirectory then name.text ++ "/" else name.text) :: names

/-- The contents of the file, or the listing of the directory, that the host has at a path. -/
def readAt (p : HostPath) : HostProgram ReadFailure Contents := do
  let isDirectory ← .look (.metadata p)
  if isDirectory then
    let entries ← .look (.list p)
    let names ← entryNames p 0 entries
    return .ok (Path.listing (sortTexts names)).toUTF8
  else .look (.openFile p)

/-- What is read below the directory. -/
def read (d : HostDirectory) (path : String) : HostProgram ReadFailure Contents := do
  let p ← .ofExcept (d.hostPath path)
  readAt p

def provider (d : HostDirectory) : Provider where
  read := d.read
  description := d.root

end HostDirectory

end ArrayLang

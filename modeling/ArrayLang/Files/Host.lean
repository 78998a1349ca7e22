import ArrayLang.Files.Path

/-!
# The host and providers of files

Files come from providers, and a provider may have to look at the file system of the host. What the
host says is not up to the program: a `HostProgram` makes accesses, one after the other, and goes on
with whatever the host answers.

* `Access` is a look at one path of the host, and `Access.Answer` what can come of it.
* `HostProgram.run` is the result of a program for a host that answers every access.
* `HostProgram.Touches` says which accesses a program may make.
* A `Provider` answers for the paths below one mount point.
-/

namespace ArrayLang

inductive FailureKind where
  | notFound
  | invalidInput
  | invalidData
  /-- A failure of the host that has a name of its own. -/
  | other (name : String)
deriving DecidableEq, Repr

/-- Why a file could not be opened or read. -/
structure ReadFailure where
  kind : FailureKind
  message : String
deriving DecidableEq, Repr

namespace ReadFailure

/-- There is neither a file nor a directory in memory. -/
def noFile : ReadFailure := ⟨.notFound, "file does not exist"⟩

/-- A path of a mounted directory that would leave it. -/
def leavesDirectory : ReadFailure := ⟨.invalidInput, "path leaves the mounted directory"⟩

/-- Contents that are to be text and are none. -/
def notText : ReadFailure := ⟨.invalidData, "stream did not contain valid UTF-8"⟩

end ReadFailure

/-- What comes of reading an opened file to its end. -/
abbrev Contents := Except ReadFailure ByteArray

/-! ### Accesses -/

/-- A path of the host: a directory as it was named, and the components below it. -/
structure HostPath where
  root : String
  components : List String
deriving DecidableEq, Repr

/-- The path as it is given to the host: the directory and then the components. -/
def HostPath.text (p : HostPath) : String :=
  if p.components.isEmpty then p.root
  else Path.opened p.root ++ Path.ofParts p.components

/-- The name that the host gives of an entry of a directory. It is one component, and neither the
directory itself nor the one above. -/
structure EntryName where
  text : String
  isName : text ≠ "" ∧ text ≠ "." ∧ text ≠ ".." ∧ '/' ∉ text.toList

/-- A look at the file system of the host. -/
inductive Access where
  | metadata (p : HostPath)
  | openFile (p : HostPath)
  | list (p : HostPath)
  /-- What an entry of a directory is that has been listed. -/
  | fileType (directory : HostPath) (number : Nat) (name : EntryName)

namespace Access

/-- The path that is looked at. -/
def path : Access → HostPath
  | .metadata p | .openFile p | .list p => p
  | .fileType directory _ name => ⟨directory.root, directory.components ++ [name.text]⟩

/-- What the host says if it can: whether there is a directory, the contents of a file, or the
entries of a directory, each of which may turn out to be unreadable. -/
@[reducible]
def Answer : Access → Type
  | .metadata _ | .fileType .. => Bool
  | .openFile _ => Contents
  | .list _ => List (Except ReadFailure EntryName)

end Access

/-- The answers of a host. -/
abbrev Host := (a : Access) → Except ReadFailure a.Answer

/-- A program whose only effect is to look at the host. -/
inductive HostProgram (ε α : Type) where
  | done (result : Except ε α)
  | ask (a : Access) (resume : Except ReadFailure a.Answer → HostProgram ε α)

namespace HostProgram

variable {ε ε' α β : Type}

/-- The first program, and then the second one unless the first failed. -/
def bind (p : HostProgram ε α) (next : α → HostProgram ε β) : HostProgram ε β :=
  match p with
  | .done (.ok a) => next a
  | .done (.error e) => .done (.error e)
  | .ask a resume => .ask a fun answer => (resume answer).bind next

instance : Monad (HostProgram ε) where
  pure a := .done (.ok a)
  bind := bind

def ofExcept (r : Except ε α) : HostProgram ε α := .done r

/-- Makes one access, and fails as it fails. -/
def look (a : Access) : HostProgram ReadFailure a.Answer := .ask a .done

def mapError (f : ε → ε') : HostProgram ε α → HostProgram ε' α
  | .done r => .done (r.mapError f)
  | .ask a resume => .ask a fun answer => (resume answer).mapError f

/-- The result of a program. -/
def run (host : Host) : HostProgram ε α → Except ε α
  | .done r => r
  | .ask a resume => (resume (host a)).run host

/-- The host answers a program part by part. -/
theorem run_bind (host : Host) (p : HostProgram ε α) (next : α → HostProgram ε β) :
    (p >>= next).run host = (p.run host).bind fun a => (next a).run host := by
  show (p.bind next).run host = _
  induction p with
  | done r => cases r <;> rfl
  | ask a resume ih => exact ih _

/-- The host does not see how a failure is reported. -/
theorem run_mapError (host : Host) (f : ε → ε') (p : HostProgram ε α) :
    (p.mapError f).run host = (p.run host).mapError f := by
  induction p with
  | done r => rfl
  | ask a resume ih => exact ih _

/-- The program may make the access, if the host answers those before it in some way. -/
inductive Touches : HostProgram ε α → Access → Prop
  | here {a : Access} {resume : Except ReadFailure a.Answer → HostProgram ε α} :
      Touches (.ask a resume) a
  | later {a b : Access} {resume : Except ReadFailure a.Answer → HostProgram ε α}
      (answer : Except ReadFailure a.Answer) (h : Touches (resume answer) b) :
      Touches (.ask a resume) b

end HostProgram

/-! ### Providers -/

/-- What answers for the paths below a mount point. Such a path starts with a slash; what is read is
a file's contents or, for a directory, the names in it. -/
structure Provider where
  read : (path : String) → HostProgram ReadFailure Contents
  /-- A short description for lists of mounts. -/
  description : String

/-- Contents as text, if they can be read and are text. -/
def textOf (contents : Contents) : Except ReadFailure String := do
  match String.fromUTF8? (← contents) with
  | some s => return s
  | none => throw .notText

end ArrayLang

import ArrayLang.Files.HostDirectory
import ArrayLang.Registry.Basic

/-!
# The mount table

Providers are mounted at points of one file name space. A path is served by the latest mount whose
point contains it, component by component: `/a` contains `/a/x` and not `/ab`. The provider sees
the path from its point on.

Sources may also be named by a text: `name://argument` asks the protocol of that name, and a text
without `://` is a directory of the host. Programs read through the table by the primitive `⎕READ`,
whose errors name the path that was asked for.
-/

namespace ArrayLang

/-- Why the table refused something; every case names the path or the point that it concerns. -/
inductive MountError where
  /-- The point does not start with a slash. -/
  | invalidMountPoint (point : String)
  | alreadyMounted (point : String)
  | notMounted (point : String)
  | nothingMounted (path : String)
  | notFound (path : String)
  | unknownProtocol (name : String)
  | unreadable (path message : String)
deriving DecidableEq, Repr

namespace MountError

/-- The path or the point that the error concerns. -/
def path : MountError → String
  | .invalidMountPoint p | .alreadyMounted p | .notMounted p | .nothingMounted p | .notFound p
  | .unknownProtocol p | .unreadable p _ => p

/-- What went wrong, without the path. -/
def reason : MountError → String
  | .invalidMountPoint _ => "mount point must start with /"
  | .alreadyMounted _ => "mount point already used"
  | .notMounted _ => "not mounted"
  | .nothingMounted _ => "no filesystem is mounted"
  | .notFound _ => "not found"
  | .unknownProtocol _ => "unknown protocol"
  | .unreadable _ message => message

def message (e : MountError) : String := e.path ++ ": " ++ e.reason

/-- The error of a program for an error of the mount table. -/
def evalError (e : MountError) : EvalError := .of (.file e.path e.reason)

end MountError

/-- Makes providers for sources of one kind. -/
abbrev Protocol := String → Except MountError Provider

structure Mount where
  point : String
  provider : Provider

/-- The path from the mount point on, if the point contains the path. -/
def Mount.relative? (m : Mount) (path : String) : Option String :=
  if m.point = "/" then if Path.isAbsolute path then some path else none
  else
    match Path.behind? m.point path with
    | none => none
    | some "" => some "/"
    | some rest => if Path.isAbsolute rest then some rest else none

structure MountTable where
  /-- The mounts in the order in which they were made. -/
  mounts : List Mount
  protocols : Dictionary String Protocol

namespace MountTable

def empty : MountTable := ⟨[], .empty⟩

/-- The form in which points are kept: without slashes at the end. -/
def canonical (point : String) : Except MountError String :=
  if Path.isAbsolute point then .ok (Path.trimmed point) else .error (.invalidMountPoint point)

def isMounted (t : MountTable) (point : String) : Bool := t.mounts.any fun m => m.point == point

/-- Mounts a provider; what earlier mounts have below the point is no longer seen. -/
def mount (t : MountTable) (point : String) (provider : Provider) :
    Except MountError Unit × MountTable :=
  match canonical point with
  | .error e => (.error e, t)
  | .ok point =>
    if t.isMounted point then (.error (.alreadyMounted point), t)
    else (.ok (), { t with mounts := t.mounts ++ [⟨point, provider⟩] })

/-- Takes away the latest mount at a point. -/
def umount (t : MountTable) (point : String) : Except MountError Unit × MountTable :=
  match canonical point with
  | .error e => (.error e, t)
  | .ok point =>
    if t.isMounted point then
      (.ok (), { t with mounts := (t.mounts.reverse.eraseP fun m => m.point == point).reverse })
    else (.error (.notMounted point), t)

/-! ### Reading -/

/-- The provider that serves a path, and the path that it is given. -/
def find (t : MountTable) (path : String) : Except MountError (Provider × String) :=
  if t.mounts.isEmpty then .error (.nothingMounted path)
  else
    match t.mounts.reverse.findSome? fun m => (m.relative? path).map (m.provider, ·) with
    | some found => .ok found
    | none => .error (.notFound path)

/-- The contents of a file, or the listing of a directory. -/
def read (t : MountTable) (path : String) : HostProgram MountError Contents := do
  let (provider, rest) ← .ofExcept (t.find path)
  (provider.read rest).mapError fun e => .unreadable path e.message

/-- As `read`, for contents that are text. -/
def readText (t : MountTable) (path : String) : HostProgram MountError String := do
  let contents ← t.read path
  .ofExcept ((textOf contents).mapError fun e => .unreadable path e.message)

/-- The points and the descriptions of their providers, in the order of mounting. -/
def list (t : MountTable) : List (String × String) :=
  t.mounts.map fun m => (m.point, m.provider.description)

/-! ### Sources named by a text -/

/-- Makes a protocol known, in place of the one of the same name. -/
def addProtocol (t : MountTable) (name : String) (p : Protocol) : MountTable :=
  { t with protocols := t.protocols.insert name p }

/-- The provider that a text names. -/
def source (t : MountTable) (uri : String) : Except MountError Provider :=
  match Path.splitOnce? "://" uri with
  | none => .ok (HostDirectory.provider ⟨uri⟩)
  | some (name, argument) =>
    match t.protocols.find? name with
    | none => .error (.unknownProtocol name)
    | some protocol => protocol argument

def mountSource (t : MountTable) (point uri : String) : Except MountError Unit × MountTable :=
  match t.source uri with
  | .error e => (.error e, t)
  | .ok provider => t.mount point provider

end MountTable

/-! ### Reading from programs -/

def readSymbol : String := "⎕READ"

/-- Gives the text of a file. The host answers as it does when the file is read. -/
def readBody (t : MountTable) (host : Host) : PrimitiveBody := fun _ _ path =>
  .ofExcept ((((t.readText (path.text?.getD "")).run host).map .text).mapError
    MountError.evalError)

/-- Makes a mount table readable for programs. -/
def Registry.registerReading (r : Registry) (t : MountTable) (host : Host) : Registry :=
  (r.registerPrimitive readSymbol (.monadic (some (.leaf .isText none))) (readBody t host)).2

end ArrayLang

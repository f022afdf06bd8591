import SchemaLoom.Files

/-!
# Disks

Files and folders by absolute path, what the system says about paths on the way
to them, and changes to them. There are no links and no permissions.

A disk need not be complete: a path that nobody has looked at yet fails as
`unseen`, and whoever runs the program can look and try again.
-/

namespace SchemaLoom

/-- What is known about a path. -/
inductive Entry where
  | file (t : Text)
  | folder
  | missing
  deriving DecidableEq, Repr, Inhabited

/-- Entries by clean absolute path. -/
structure Disk where
  known : List (Text × Entry) := []
  /-- Whether a path that is not known does not exist. -/
  complete : Bool := true
  deriving Repr, Inhabited

/-- Where a walk along a path ends. -/
inductive Place where
  | file (t : Text)
  | folder
  /-- Only the last step is missing. -/
  | vacant
  /-- A step on the way is missing. -/
  | nowhere
  /-- A step on the way is a file. -/
  | blocked
  | unseen (path : Text)
  deriving DecidableEq, Repr, Inhabited

namespace Disk

/-- The absolute path of segments, the last one first. -/
def pathOf (steps : List Text) : Text := "/" ++ Text.join "/" steps.reverse

/-- What stands at a clean path; nothing where nobody has looked. -/
def entry? (d : Disk) (p : Text) : Option Entry :=
  match d.known.lookup p with
  | some e => some e
  | none => if d.complete then some .missing else none

def put (d : Disk) (p : Text) (e : Entry) : Disk :=
  { d with known := (p, e) :: d.known.filter (·.1 != p) }

/-- Walks along segments from a folder, given by its segments from the last one on, to the
place where they lead and its clean path. -/
def walk (d : Disk) : List Text → List Text → Place × Text
  | here, [] => (.folder, pathOf here)
  | here, s :: rest =>
    if s.isEmpty || s == Path.dot then walk d here rest
    else if s == Path.dotDot then walk d here.tail rest
    else
      let next := s :: here
      match d.entry? (pathOf next) with
      | some .folder => walk d next rest
      | some (.file t) => (if rest.isEmpty then .file t else .blocked, pathOf next)
      | some .missing => (if rest.isEmpty then .vacant else .nowhere, pathOf next)
      | none => (.unseen (pathOf next), pathOf next)

/-- What an absolute path leads to. -/
def place (d : Disk) (p : Text) : Place := (d.walk [] (Path.segments p)).1

def holds (d : Disk) (p : Text) : Result Bool :=
  match d.place p with
  | .file _ | .folder => .ok true
  | .unseen q => Result.fail (.unseen q)
  | _ => .ok false

/-- The failure of an operation that needs a file at a path and does not get to one. -/
def refusal (op path : Text) : Place → Cause
  | .folder => .file op path "is a directory"
  | .blocked => .file op path "not a directory"
  | .unseen q => .unseen q
  | _ => .file op path "no such file or directory"

def read (d : Disk) : ReadFile := fun p =>
  match d.place p with
  | .file t => .ok t
  | .folder => Result.fail (refusal "read" p .folder)
  | other => Result.fail (refusal "open" p other)

/-- Reads below a folder. Paths that lead out of it are refused, and failures name the path
as it was asked for, unless it is that of a folder. -/
def readBelow (d : Disk) (folder : Text) : ReadFile := fun p =>
  if !Files.isLocal p || p.contains (.char '\x00') then
    Result.fail (.file "open" p "invalid argument")
  else
    let full := if folder == Text.ofString "/" then folder ++ p else folder ++ "/" ++ p
    match d.place full with
    | .file t => .ok t
    | .folder => Result.fail (refusal "read" full .folder)
    | other => Result.fail (refusal "open" p other)

/-! ### Changes -/

/-- Makes the folders along segments where they are missing. -/
def makeFolders (d : Disk) : List Text → List Text → Result Disk
  | _, [] => .ok d
  | here, s :: rest =>
    if s.isEmpty then makeFolders d here rest
    else
      let next := s :: here
      match d.entry? (pathOf next) with
      | some .folder => makeFolders d next rest
      | some (.file _) => Result.fail (.file "mkdir" (pathOf next) "not a directory")
      | some .missing => makeFolders (d.put (pathOf next) .folder) next rest
      | none => Result.fail (.unseen (pathOf next))

/-- Makes a folder and those above it. -/
def makeFolder (d : Disk) (p : Text) : Result Disk := d.makeFolders [] (Path.segments (Path.clean p))

def write (d : Disk) (p t : Text) : Result Disk :=
  match d.walk [] (Path.segments p) with
  | (.file _, q) | (.vacant, q) => .ok (d.put q (.file t))
  | (other, _) => Result.fail (refusal "open" p other)

def remove (d : Disk) (p : Text) : Disk := d.put (Path.clean p) .missing

/-- The files below a folder, by their path from there. -/
def filesBelow (d : Disk) (folder : Text) : List (Text × Text) :=
  d.known.filterMap fun
    | (p, .file t) => if (folder ++ "/").isPrefixOf p then some (p.drop (folder.length + 1), t) else none
    | _ => none

end Disk

end SchemaLoom

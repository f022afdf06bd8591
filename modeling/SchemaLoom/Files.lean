import SchemaLoom.Error
import SchemaLoom.Path

/-!
# Files by path

A finite set of files and what reading one of them gives. Loaders only need the
reading, so they take a `ReadFile` and do not care where the texts come from.
-/

namespace SchemaLoom

abbrev ReadFile := Text → Result Text

structure Files where
  entries : List (Text × Text) := []
  deriving Repr, Inhabited

namespace Files

/-- A path inside the set: segments that are neither empty nor `.` nor `..`, or `.` alone. -/
def isLocal (p : Text) : Bool :=
  p == Path.dot ||
    (p.chars?.isSome && (Path.segments p).all fun s =>
      !s.isEmpty && s != Path.dot && s != Path.dotDot)

def text? (fs : Files) (p : Text) : Option Text := fs.entries.lookup p

/-- Some file lies below the path. -/
def isFolder (fs : Files) (p : Text) : Bool :=
  p == Path.dot || fs.entries.any fun e => (p ++ "/").isPrefixOf e.1

def notFound (p : Text) : Cause := .file "open" p "file does not exist"

def read (fs : Files) : ReadFile := fun p =>
  if !isLocal p then Result.fail (notFound p)
  else match fs.text? p with
    | some t => .ok t
    | none =>
      if fs.isFolder p then Result.fail (.file "read" p "invalid argument")
      else Result.fail (notFound p)

end Files

end SchemaLoom

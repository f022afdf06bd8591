import SchemaLoom.Text

/-!
# References

The two kinds of references of a schema: to other files, and to definitions of
the same document.
-/

namespace SchemaLoom.Reference

def isFile (ref : Text) : Bool :=
  match ref with
  | [] => false
  | r :: _ => r != .char '#'

def isInternal (ref : Text) : Bool :=
  match ref with
  | .char '#' :: .char '/' :: _ => true
  | _ => false

/-- Replaces every `~` followed by `mark`. -/
def replaceMark (mark by_ : Char) : Text → Text
  | [] => []
  | [r] => [r]
  | a :: b :: rest =>
    if a = .char '~' && b = .char mark then .char by_ :: replaceMark mark by_ rest
    else a :: replaceMark mark by_ (b :: rest)

/-- Reads the escapes of a pointer step: `~1` is a slash, and then `~0` is a tilde. -/
def unescape (t : Text) : Text := replaceMark '0' '~' (replaceMark '1' '/' t)

/-- Where definitions are kept. -/
def roots : List Text := ["#/$defs/", "#/definitions/"]

/-- The rest of a text behind a beginning. -/
def behind? : Text → Text → Option Text
  | [], t => some t
  | a :: as, b :: bs => if a = b then behind? as bs else none
  | _ :: _, [] => none

/-- The name a pointer step spells; deeper pointers name no definition. -/
def stepName? (t : Text) : Option Text :=
  if t.isEmpty || t.hasChar '/' then none else some (unescape t)

/-- The definition a reference names. -/
def defName? (ref : Text) : Option Text :=
  roots.findSome? fun root => (behind? root ref).bind stepName?

end SchemaLoom.Reference

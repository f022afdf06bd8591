import SchemaLoom.Text

/-!
# Slash-separated paths

Cleaning, joining and taking apart of paths. Nothing here looks at a file
system; `..` above the start of a relative path stays.
-/

namespace SchemaLoom.Path

/-- The pieces between slashes; at least one. -/
def segments : Text → List Text
  | [] => [[]]
  | r :: rest =>
    match segments rest with
    | [] => [[r]]
    | s :: ss => if r = .char '/' then [] :: s :: ss else (r :: s) :: ss

def dot : Text := "."

def dotDot : Text := ".."

def isAbsolute : Text → Bool
  | .char '/' :: _ => true
  | _ => false

/-- Takes one segment onto a reversed list of cleaned segments. -/
def step (rooted : Bool) (acc : List Text) (s : Text) : List Text :=
  if s.isEmpty || s == dot then acc
  else if s == dotDot then
    match acc with
    | [] => if rooted then [] else [dotDot]
    | t :: ts => if t == dotDot then dotDot :: t :: ts else ts
  else s :: acc

/-- The shortest path that means the same; `.` for the empty one. -/
def clean (p : Text) : Text :=
  let rooted := isAbsolute p
  let body := Text.join "/" ((segments p).foldl (step rooted) []).reverse
  if rooted then "/" ++ body else if body.isEmpty then dot else body

/-- Two paths one after the other, cleaned; an empty one adds nothing. -/
def join (a b : Text) : Text :=
  if a.isEmpty then (if b.isEmpty then [] else clean b)
  else if b.isEmpty then clean a
  else clean (a ++ "/" ++ b)

/-- The last element: `.` for the empty path and `/` for one of slashes only. -/
def base (p : Text) : Text :=
  if p.isEmpty then dot
  else match (segments p).filter (! ·.isEmpty) |>.getLast? with
    | some s => s
    | none => "/"

/-- Everything before the last slash, cleaned. -/
def dir (p : Text) : Text :=
  let front := (segments p).dropLast
  match front with
  | [] => dot
  | [s] => if s.isEmpty then "/" else clean s
  | _ => clean (Text.join "/" front ++ "/")

/-- The suffix of the last element from its last dot on. -/
def ext (p : Text) : Text :=
  let last := (segments p).getLast?.getD []
  match last.reverse.span (· != .char '.') with
  | (tail, d :: _) => d :: tail.reverse
  | (_, []) => []

/-- The last element without its suffix. -/
def stem (p : Text) : Text :=
  let b := base p
  b.take (b.length - (ext b).length)

/-- `p` seen from a folder: absolute paths stay as they are. -/
def inside (folder p : Text) : Text := if isAbsolute p then p else join folder p

/-- The segments that are left of two lists behind their common start. -/
def dropCommon : List Text → List Text → List Text × List Text
  | a :: as, b :: bs => if a == b then dropCommon as bs else (a :: as, b :: bs)
  | as, bs => (as, bs)

/-- The way from one absolute path to another. -/
def relative (start target : Text) : Text :=
  let steps (p : Text) := (segments (clean p)).filter (! ·.isEmpty)
  match dropCommon (steps start) (steps target) with
  | ([], []) => dot
  | (up, down) => Text.join "/" (up.map (fun _ => dotDot) ++ down)

end SchemaLoom.Path

import SchemaLoom.Json.Write
import SchemaLoom.Layout
import SchemaLoom.Plan

/-!
# Listings of plans

The declarations of a plan as a table for people and as a JSON array.
-/

namespace SchemaLoom

def Planned.row (d : Planned) : List Text :=
  [Text.ofNat d.group, d.name, Text.ofString d.kind.name, if d.cyclic then "yes" else []]

def planTable (ds : List Planned) : Text :=
  Layout.table ["GROUP", "NAME", "KIND", "CYCLIC"] (ds.map Planned.row) ++ "\n"

/-- A name as a JSON string; stray bytes are replaced. -/
def jsonName (t : Text) : Text :=
  Text.ofChars <| '"' :: t.flatMap (fun
    | .char c => Json.writeChar c
    | .stray _ => "\\ufffd".toList) ++ ['"']

/-- A declaration as a JSON object on lines of its own. -/
def Planned.json (d : Planned) : Text :=
  "  \x7b\n    \"group\": " ++ Text.ofNat d.group ++
  ",\n    \"name\": " ++ jsonName d.name ++
  ",\n    \"kind\": " ++ jsonName (Text.ofString d.kind.name) ++
  ",\n    \"cyclic\": " ++ (if d.cyclic then "true" else "false") ++ "\n  \x7d"

def planJson (ds : List Planned) : Text :=
  if ds.isEmpty then "[]\n"
  else "[\n" ++ Text.join ",\n" (ds.map Planned.json) ++ "\n]\n"

end SchemaLoom

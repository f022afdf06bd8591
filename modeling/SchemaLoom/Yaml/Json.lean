import SchemaLoom.Json
import SchemaLoom.Yaml.Mapping

/-!
# YAML as JSON

The JSON value a YAML document denotes. Integers keep their value, doubles and
moments their canonical text. Mappings with keys that are no strings, infinities
and zones a day or more away have no JSON form.
-/

namespace SchemaLoom.Yaml

/-- A value, or nothing where JSON has no form for it. -/
abbrev Converted := Option Json

namespace Decode

/-- The JSON form of a scalar. -/
def convertScalar (tag text : String) : Decode Converted := do
  match ← scalarOf tag text with
  | .null => pure (some .null)
  | .bool b => pure (some (.bool b))
  | .int n => pure (some (.number (toString n)))
  | .float (some x) _ _ => pure (some (.number x.text))
  | .float none _ _ => pure none
  | .moment m =>
    pure (if 24 ≤ m.offset.natAbs / 60 then none else some (.string m.text))
  | .string _ => return some (.string (← scalarText tag text).toDisplay)

/-- The member of an entry; nothing if its key is null or its value has no JSON form. -/
def member? : Option String × Converted → Option Member
  | (some key, some value) => some { key, value }
  | _ => none

/-- The JSON form of a node behind its aliases; `inner` reads the nodes below it. -/
def convertNode (inner : Reader Converted) (fuel : Nat) : Reader Converted := fun scope n =>
  match n with
  | .scalar _ tag text => return some (← convertScalar tag text)
  | .sequence _ _ items => do
    let cs ← items.mapM (inner scope)
    pure (some (((cs.filterMap id).mapM id).map Json.array))
  | .mapping _ _ entries => do
    match ← readMapping true inner fuel scope entries none [] with
    | none => pure none
    | some (es, _) =>
      let ms := if hasStringKeys scope.anchors entries then es.mapM member? else none
      pure (some (ms.map Json.object))
  | .aliasOf .. => fatal .malformed

/-- The JSON form of a node; a mapping with repeated keys does not count as given. -/
def convert : Nat → Reader Converted
  | 0 => fun _ _ => fatal .diverges
  | fuel + 1 => through (convertNode (convert fuel) (fuel + 1))

end Decode

def Document.json (d : Document) : Result Converted := do
  let c ← Decode.run (Decode.convert (d.depth + 1) ⟨d.anchors, false, []⟩ d.root)
  .ok (c.getD (some .null))

end SchemaLoom.Yaml

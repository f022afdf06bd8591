import SchemaLoom.Document.Decode
import SchemaLoom.Files
import SchemaLoom.Json.Parse
import SchemaLoom.JsonSchema.Decode
import SchemaLoom.JsonSchema.KeyOrder
import SchemaLoom.JsonSchema.Reference
import SchemaLoom.Yaml.Json

/-!
# Loading schemas

From a file to a schema, and from a schema with references to other files to
one without. A referenced file takes the place of the schema that refers to it.
-/

namespace SchemaLoom.Schema

/-- How a schema file is written. -/
inductive Format where
  | json
  | yaml
  deriving DecidableEq, Repr

/-- The format a file name stands for. -/
def formatOf (path : Text) : Format :=
  let ext := Path.ext path
  if ext == Text.ofString ".yaml" || ext == Text.ofString ".yml" then .yaml else .json

def ofJsonText (cs : List Char) : Result Schema :=
  match (Json.parse? cs).bind ofJson? with
  | some s => .ok s
  | none => Result.fail .malformed

def jsonOfYaml (t : Text) : Result (List Char) := do
  let converted ← match ← Yaml.parse t with
    | none => .ok (some Json.null)
    | some d => d.json
  match converted with
  | some j => .ok j.write
  | none => Result.within "convert yaml to json" (Result.fail .malformed)

def decode (format : Format) (t : Text) : Result Schema :=
  match format with
  | .yaml => do
    let cs ← jsonOfYaml t
    ofJsonText cs
  | .json => ofJsonText t.toChars

/-- Reads a schema together with the order of its keys. -/
def parse (format : Format) (t : Text) : Result Schema := do
  let s ← decode format t
  let d ← Yaml.parse t
  .ok (s.withOrder d)

def load (read : ReadFile) (path : Text) : Result Schema := do
  let t ← read path
  Result.within path.mentioned (parse (formatOf path) t)

/-! ### References to files -/

/-- Puts a loaded schema in the place of another one, whose order of keys stays where the
loaded one has none. -/
def replaceBy (s loaded : Schema) : Schema :=
  loaded.mapKeywords fun k =>
    { k with propertyOrder := k.propertyOrder.or s.keywords.propertyOrder
             defOrder := k.defOrder.or s.keywords.defOrder }

/-- Loads and resolves the schema a reference names. -/
abbrev LoadRef := Schema → Result Schema

def isFileRef (s : Schema) : Bool := Reference.isFile (Text.ofString s.keywords.ref)

mutual
/-- Replaces every schema that refers to a file; what stands below such a schema is dropped. -/
def replaceRefs (load : LoadRef) : Schema → Result Schema
  | null => .ok null
  | node k cs =>
    if isFileRef (node k cs) then load (node k cs)
    else do
      let cs ← replaceRefsAll load cs
      .ok (node k cs)

def replaceRefsAll (load : LoadRef) : List (Location × Schema) →
    Result (List (Location × Schema))
  | [] => .ok []
  | c :: cs => do
    let c ← replaceRefsChild load c
    let cs ← replaceRefsAll load cs
    .ok (c :: cs)

def replaceRefsChild (load : LoadRef) : Location × Schema → Result (Location × Schema)
  | (l, s) => do
    let s ← replaceRefs load s
    .ok (l, s)
end

/-- Resolves references to files, relative to a folder. `stack` holds the files being
resolved; to come back to one of them is an error. -/
def resolveFiles (read : ReadFile) : Nat → Text → List Text → Schema → Result Schema
  | 0, _, _, _ => Result.fail .diverges
  | fuel + 1, folder, stack, s =>
    replaceRefs (fun s => do
      let path := Path.join folder (Text.ofString s.keywords.ref)
      if stack.contains path then Result.fail (.circularFile path)
      else
        let loaded ← load read path
        let loaded ← resolveFiles read fuel (Path.dir path) (path :: stack) loaded
        .ok (s.replaceBy loaded)) s

end SchemaLoom.Schema

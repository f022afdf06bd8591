import SchemaLoom.Graph.Load
import SchemaLoom.JsonSchema.Import
import SchemaLoom.JsonSchema.Load

/-!
# Input files

The two kinds of documents a graph can be loaded from, and how to tell them
apart by their top-level keys.
-/

namespace SchemaLoom

/-- The kind of document an input file holds. -/
inductive InputFormat where
  | graph
  | jsonSchema
  deriving DecidableEq, Repr, Inhabited

namespace InputFormat

def name : InputFormat → String
  | graph => "graph"
  | jsonSchema => "jsonschema"

/-- Top-level keys that only a JSON Schema has. -/
def schemaKeys : List String :=
  ["$schema", "$id", "$defs", "$ref", "definitions", "properties", "type", "allOf", "anyOf",
   "oneOf"]

/-- The kind of a text; what does not look like a JSON Schema is a schema document. -/
def detect (t : Text) : InputFormat :=
  match Yaml.parse? t with
  | some (some d) =>
    if d.root.entries.any fun e => schemaKeys.contains e.1.text then jsonSchema else graph
  | _ => graph

end InputFormat

/-- Files that an input can consist of. -/
def isSchemaFile (path : Text) : Bool := Graph.documentSuffixes.contains (Path.ext path)

/-- Loads a JSON Schema and the files it refers to. `fuel` bounds the chain of files. -/
def Schema.loadResolved (read : ReadFile) (fuel : Nat) (path : Text) : Result Schema := do
  let s ← Schema.load read path
  Schema.resolveFiles read fuel Path.dot [] s

def InputFormat.load (format : InputFormat) (read : ReadFile) (fuel : Nat) (path : Text) :
    Result Graph :=
  match format with
  | .graph => Graph.load read path
  | .jsonSchema => do
    let s ← Schema.loadResolved read fuel path
    let d ← s.toDocument (rootName path)
    Graph.link d

end SchemaLoom

import SchemaLoom.Document.Decode
import SchemaLoom.Files
import SchemaLoom.Graph.Link

/-!
# Loading graphs

From a file to a linked graph.
-/

namespace SchemaLoom.Graph

def documentSuffixes : List Text := [".yaml", ".yml", ".json"]

/-- Reads and links a document. -/
def parse (t : Text) : Result Graph := do
  let d ← Document.parse t
  link d

def load (read : ReadFile) (path : Text) : Result Graph := do
  if !documentSuffixes.contains (Path.ext path) then Result.fail (.unsupportedExtension path)
  else
    let t ← read path
    Result.within path.mentioned (parse t)

end SchemaLoom.Graph

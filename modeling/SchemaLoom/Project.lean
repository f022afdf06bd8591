import SchemaLoom.Disk
import SchemaLoom.Input
import SchemaLoom.Plan
import SchemaLoom.Settings.Decode

/-!
# Projects

A folder with a settings file, loaded together with the graph of its input.
`reload` reads the input again: the graph changes only when that succeeds, the
format as soon as the input can be read.
-/

namespace SchemaLoom

structure Project where
  settings : Settings
  choices : Settings.Choices
  folder : Text
  format : InputFormat
  graph : Graph
  deriving Inhabited

def Settings.load (disk : Disk) (env : Environment) (path : Text) : Result Settings :=
  match disk.place path with
  | .file t => Settings.parse env path t
  | .folder => Result.within ("read " ++ path.mentioned) (Result.fail (Disk.refusal "read" path .folder))
  | other => Result.fail (Disk.refusal "stat" path other)

namespace Project

def inputPath (p : Project) : Text := Path.inside p.folder p.settings.input

def outputPath (p : Project) : Text := Path.inside p.folder p.settings.output

/-- The format of the input at a path, and its graph or why it has none. -/
def inspect (disk : Disk) (path : Text) (choice : Option InputFormat) :
    Result (InputFormat × Result Graph) := do
  let t ← Result.marked .inputNotFound (Result.within "input file not found" (disk.read path))
  let format := choice.getD (InputFormat.detect t)
  let name := Path.base path
  let graph := format.load (disk.readBelow (Path.dir path)) (disk.known.length + 2) name
  .ok (format, Result.marked .invalidInput (Result.within ("invalid input " ++ name.mentioned) graph))

def load (disk : Disk) (env : Environment) (folder : Text) : Result Project := do
  let path := Path.join folder Settings.fileName
  match disk.place path with
  | .vacant | .nowhere => Result.fail .notInitialized
  | _ =>
    let (settings, choices) ← Result.marked .invalidConfig <|
      Result.within "invalid configuration" do
        let settings ← Settings.load disk env path
        let choices ← settings.check
        .ok (settings, choices)
    let (format, graph) ← inspect disk (Path.inside folder settings.input) choices.format
    let graph ← graph
    .ok { settings, choices, folder, format, graph }

/-- Reads the input again. -/
def reload (disk : Disk) (p : Project) : Project × Result Unit :=
  match inspect disk p.inputPath p.choices.format with
  | .error f => (p, .error f)
  | .ok (format, .error f) => ({ p with format }, .error f)
  | .ok (format, .ok graph) => ({ p with format, graph }, .ok ())

/-- The module of the project as its settings ask for it. -/
def source (p : Project) : Result Text := do
  let ds ← plan p.graph {}
  renderPlan p.graph p.choices.style p.settings.emitInfer ds

end Project

end SchemaLoom
